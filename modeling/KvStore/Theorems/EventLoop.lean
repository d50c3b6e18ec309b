import KvStore.EventLoop
import KvStore.Theorems.Reactor
import KvStore.Theorems.Sound

/-! # All connections of a server

Whatever the order of the events, the engines are those of one sequential execution of all lines, and every client
gets bytes of the replies to its own lines, in their order. -/

namespace KvStore
open Framing

/-- `send` of that many bytes takes all of them. -/
def Send.TakesAll (size : Nat) : Send → Prop
  | .sent n => size ≤ n
  | .again => size = 0
  | .error => False

/-! ### What a handler does -/

namespace Client

section Handlers
variable {σ : Type} {processCommand : σ → Bytes → σ × Bytes} {d : Delivery} {s s' : σ} {c c' : Client}

/-- The calls of `recv` of one event, whatever ends them. -/
theorem handleRead_chunks_end (chunks : List Bytes) (e : ReadEnd) : ∀ (s : σ) (conn : Connection),
    KvStore.handleRead processCommand (chunks.map .data ++ [e.recv]) s conn =
      ((receiveChunks processCommand chunks s conn).1,
        if e = .again then (receiveChunks processCommand chunks s conn).2
        else { (receiveChunks processCommand chunks s conn).2 with registered := false }) := by
  induction chunks with
  | nil =>
    intro s conn
    cases e <;> simp [KvStore.handleRead, ReadEnd.recv, receiveChunks]
  | cons chunk chunks ih =>
    intro s conn
    simp only [List.map_cons, List.cons_append, KvStore.handleRead, receiveChunks]
    exact ih _ _

/-- A read event answers the lines that it completes. -/
theorem handleRead_eq (hc : newline ∉ c.conn.rBuf) : ∃ registered,
    c.handleRead processCommand d s =
      ((answered processCommand s c.conn (frames newline (c.conn.rBuf ++ d.chunks.flatten)).1
          (frames newline (c.conn.rBuf ++ d.chunks.flatten)).2).1,
        ⟨{ (answered processCommand s c.conn (frames newline (c.conn.rBuf ++ d.chunks.flatten)).1
          (frames newline (c.conn.rBuf ++ d.chunks.flatten)).2).2 with registered := registered },
          c.received ++ d.chunks.flatten, c.taken⟩) := by
  by_cases he : d.readEnd = .again
  · refine ⟨c.conn.registered, ?_⟩
    simp only [handleRead, handleRead_chunks_end, receiveChunks_eq processCommand _ _ _ hc, if_pos he]
    rfl
  · refine ⟨false, ?_⟩
    simp only [handleRead, handleRead_chunks_end, receiveChunks_eq processCommand _ _ _ hc, if_neg he]

/-- A write event that keeps the connection has emptied the queue, and `send` took some of the bytes. -/
theorem handleWrite_cases (h : c.handleWrite d = some c') : ∃ n interest,
    c' = ⟨{ c.conn with sendQueue := [], interest := interest }, c.received,
      c.taken ++ c.conn.sendQueue.flatten.take n⟩ ∧
    (d.result.TakesAll c.conn.sendQueue.flatten.length → c.conn.sendQueue.flatten.length ≤ n) := by
  simp only [handleWrite, KvStore.handleWrite, gather_eq, List.nil_append] at h
  cases hr : d.result with
  | sent n =>
    by_cases hn : 0 < n
    · simp only [hr, if_pos hn, Option.ite_none_right_eq_some, Option.some.injEq] at h
      obtain ⟨-, rfl⟩ := h
      exact ⟨n, .read, rfl, id⟩
    · simp [hr, hn] at h
  | again =>
    simp only [hr, Option.ite_none_right_eq_some, Option.some.injEq] at h
    obtain ⟨-, rfl⟩ := h
    exact ⟨0, .readWrite, by simp, fun h => Nat.le_of_eq h⟩
  | error => simp [hr] at h

/-- The handlers of an event run one after the other. -/
theorem handleEvent_cases (h : c.handleEvent processCommand d s = some (s', c')) : ∃ c₁ c₂,
    c.afterRead processCommand d s = (s', c₁) ∧
      (¬d.Has epollOut ∧ c₂ = c₁ ∨ d.Has epollOut ∧ c₁.handleWrite d = some c₂) ∧
      (c' = c₂ ∨ c' = c₂.handleError) := by
  simp only [handleEvent, Option.bind_eq_bind, Option.bind_eq_some_iff, Option.some.injEq, Prod.mk.injEq] at h
  obtain ⟨c₂, hwrite, c₃, herror, rfl, rfl⟩ := h
  refine ⟨_, c₂, rfl, ?_, ?_⟩
  · rw [afterWrite] at hwrite
    split at hwrite
    · next hout =>
      rw [Option.ite_none_right_eq_some] at hwrite
      exact Or.inr ⟨hout, hwrite.2⟩
    · next hout => exact Or.inl ⟨hout, (Option.some.inj hwrite).symm⟩
  · rw [afterError] at herror
    split at herror
    · rw [Option.ite_none_right_eq_some] at herror
      exact Or.inr (Option.some.inj herror.2).symm
    · exact Or.inl (Option.some.inj herror).symm

theorem afterRead_registered (hreg : c.conn.registered = true) :
    (c.afterRead processCommand d s).2.conn.registered = decide (d.Has epollIn → d.readEnd = .again) := by
  by_cases hin : d.Has epollIn
  · simp [afterRead, hin, handleRead, handleRead_registered processCommand s hreg]
  · simp [afterRead, hin, hreg]

/-- An event uses no object that is destroyed exactly when it is clean. -/
theorem handleEvent_isSome_iff (hreg : c.conn.registered = true) :
    (c.handleEvent processCommand d s).isSome = true ↔ d.Clean := by
  have hread : (c.afterRead processCommand d s).2.conn.registered = _ := afterRead_registered hreg
  by_cases hin : d.Has epollIn <;> by_cases hout : d.Has epollOut <;> by_cases herr : d.Has epollErr <;>
    by_cases he : d.readEnd = .again <;> by_cases hg : d.result.Goes <;>
    simp [handleEvent, afterWrite, afterError, handleWrite, handleWrite_registered, Delivery.Clean, hin, hout, herr, he, hg,
      hread]

theorem handleEvent_received (h : c.handleEvent processCommand d s = some (s', c')) :
    c'.received = c.received ++ if d.Has epollIn then d.chunks.flatten else [] := by
  obtain ⟨c₁, c₂, hread, hwrite, herror⟩ := handleEvent_cases h
  have h₁ : c₁.received = c.received ++ if d.Has epollIn then d.chunks.flatten else [] := by
    rw [show c₁ = (c.afterRead processCommand d s).2 by rw [hread], afterRead]
    split
    · rfl
    · simp
  have h₂ : c₂.received = c₁.received := by
    rcases hwrite with ⟨-, rfl⟩ | ⟨-, hwrite⟩
    · rfl
    · obtain ⟨n, interest, rfl, -⟩ := handleWrite_cases hwrite
      rfl
  rcases herror with rfl | rfl
  · rw [h₂, h₁]
  · show c₂.received = _
    rw [h₂, h₁]

end Handlers

end Client

/-! ### The log -/

namespace Shared

/-- The lines of the log as inputs of the machine that executes one after the other. -/
def inputs (world : World) (log : List Exchange) : List Dispatch.Input :=
  log.mapIdx fun i x => ((world i).1, (world i).2, x.command)

/-- The globals come from executing the lines of the log one after the other, with the replies of the log. -/
def Serial (world : World) (files : Files) (s : Shared) : Prop :=
  Run.runs Dispatch.step (Globals.initial files) (inputs world s.log) = some (s.globals, s.log.map Exchange.reply)

variable {world : World} {files : Files} {n : Nat} {s s' : Shared} {command reply : Bytes}

theorem processCommand_some
    (h : Shared.processCommand world n (some s) command = (some s', reply)) :
    s'.log = s.log ++ [⟨n, command, reply⟩] ∧
      Dispatch.processCommand (world s.log.length).1 s.globals (world s.log.length).2 command = some (s'.globals, reply) := by
  simp only [Shared.processCommand] at h
  split at h
  · cases h
  · next hline =>
    cases h
    exact ⟨rfl, hline⟩

/-- Another line is executed after those of the log. -/
theorem Serial.processCommand (hs : s.Serial world files)
    (h : Shared.processCommand world n (some s) command = (some s', reply)) : s'.Serial world files := by
  obtain ⟨hlog, hline⟩ := processCommand_some h
  have hone : Run.runs Dispatch.step s.globals [((world s.log.length).1, (world s.log.length).2, command)] =
      some (s'.globals, [reply]) := Run.runs_cons hline rfl
  rw [Serial, hlog, inputs, List.mapIdx_concat, List.map_append]
  exact Run.runs_append hs hone

theorem execs_none (commands : List Bytes) :
    (Run.execs (Shared.processCommand world n) none commands).1 = none := by
  induction commands with
  | nil => rfl
  | cons command commands ih => exact ih

/-- The lines that an event has completed come to the log with their replies. -/
theorem execs_processCommand {commands : List Bytes} : ∀ {s s' : Shared} {replies : List Bytes},
    Run.execs (Shared.processCommand world n) (some s) commands = (some s', replies) →
    ∃ new : List Exchange, s'.log = s.log ++ new ∧ (∀ x ∈ new, x.client = n) ∧ new.map Exchange.command = commands ∧
      new.map Exchange.reply = replies ∧ (s.Serial world files → s'.Serial world files) := by
  induction commands with
  | nil =>
    intro s s' replies h
    cases h
    exact ⟨[], by simp, by simp, rfl, rfl, id⟩
  | cons command commands ih =>
    intro s s' replies h
    simp only [Run.execs] at h
    cases hone : Shared.processCommand world n (some s) command with
    | mk s₁ reply =>
      rw [hone] at h
      cases s₁ with
      | none =>
        have hnone := @execs_none world n commands
        obtain ⟨hs, -⟩ := Prod.mk.inj h
        exact absurd (hnone.symm.trans hs) (by simp)
      | some s₁ =>
        cases hrest : Run.execs (Shared.processCommand world n) (some s₁) commands with
        | mk s₂ replies' =>
          rw [hrest] at h
          obtain ⟨rfl, rfl⟩ := Prod.mk.inj h
          obtain ⟨new, hlog, hclient, hcommands, hreplies, hserial⟩ := ih hrest
          obtain ⟨hlog₁, -⟩ := processCommand_some hone
          refine ⟨⟨n, command, reply⟩ :: new, by simp [hlog, hlog₁], by simpa using hclient, by simp [hcommands],
            by simp [hreplies], fun hs => hserial (hs.processCommand hone)⟩

end Shared

/-! ### A connection and the log -/

/-- The lines that came on a connection. -/
def linesOf (n : Nat) (log : List Exchange) : List Exchange := log.filter (·.client = n)

/-- The bytes of the replies to them. -/
def repliesTo (n : Nat) (log : List Exchange) : Bytes := ((linesOf n log).map fun x => x.reply ++ [newline]).flatten

section Lines
variable {n : Nat} {log new : List Exchange}

theorem linesOf_append : linesOf n (log ++ new) = linesOf n log ++ linesOf n new := List.filter_append ..

theorem linesOf_own (h : ∀ x ∈ new, x.client = n) : linesOf n new = new :=
  List.filter_eq_self.mpr fun x hx => decide_eq_true (h x hx)

theorem linesOf_other {m : Nat} (h : ∀ x ∈ new, x.client = m) (hm : n ≠ m) : linesOf n new = [] :=
  List.filter_eq_nil_iff.mpr fun x hx => by simpa [h x hx] using hm.symm

theorem repliesTo_own (h : ∀ x ∈ new, x.client = n) :
    repliesTo n (log ++ new) = repliesTo n log ++ (new.map fun x => x.reply ++ [newline]).flatten := by
  rw [repliesTo, linesOf_append, linesOf_own h, List.map_append, List.flatten_append]
  rfl

end Lines

namespace Client

/-- The lines of the connection in the log are those of the bytes received, the bytes that were sent or wait to be sent
    come from the replies to them, and the reactor waits for the socket while there are such bytes. -/
structure Tracks (n : Nat) (log : List Exchange) (c : Client) : Prop where
  lines : (linesOf n log).map Exchange.command = (frames newline c.received).1
  rest : c.conn.rBuf = (frames newline c.received).2
  sent : (c.taken ++ c.conn.sendQueue.flatten).Sublist (repliesTo n log)
  armed : c.conn.sendQueue ≠ [] → c.conn.interest = .readWrite

/-- All replies to the lines of the connection were sent or wait to be sent. -/
def Whole (n : Nat) (log : List Exchange) (c : Client) : Prop := c.taken ++ c.conn.sendQueue.flatten = repliesTo n log

section Tracks
variable {world : World} {files : Files} {n : Nat} {s s' : Shared} {log : List Exchange} {c c' : Client} {d : Delivery}

theorem fresh_tracks (h : ∀ x ∈ log, x.client ≠ n) : fresh.Tracks n log := by
  have hnil : linesOf n log = [] := List.filter_eq_nil_iff.mpr fun x hx => by simpa using h x hx
  constructor
  · rw [hnil]
    rfl
  · rfl
  · rw [repliesTo, hnil]
    exact List.Sublist.refl []
  · exact fun hne => absurd rfl hne

theorem fresh_whole (h : ∀ x ∈ log, x.client ≠ n) : fresh.Whole n log := by
  rw [Whole, repliesTo, linesOf, List.filter_eq_nil_iff.mpr fun x hx => by simpa using h x hx]
  rfl

/-- A connection has nothing to do with the lines of another. -/
theorem Tracks.other {m : Nat} {new : List Exchange} (h : c.Tracks n log) (hnew : ∀ x ∈ new, x.client = m)
    (hm : n ≠ m) : c.Tracks n (log ++ new) := by
  have hlines : linesOf n (log ++ new) = linesOf n log := by
    rw [linesOf_append, linesOf_other hnew hm, List.append_nil]
  exact ⟨hlines ▸ h.lines, h.rest, by rw [repliesTo, hlines]; exact h.sent, h.armed⟩

theorem Whole.other {m : Nat} {new : List Exchange} (h : c.Whole n log) (hnew : ∀ x ∈ new, x.client = m)
    (hm : n ≠ m) : c.Whole n (log ++ new) := by
  rw [Whole, repliesTo, linesOf_append, linesOf_other hnew hm, List.append_nil]
  exact h

theorem Tracks.read (h : c.Tracks n s.log)
    (hs : c.afterRead (Shared.processCommand world n) d (some s) = (some s', c')) : ∃ new : List Exchange,
      s'.log = s.log ++ new ∧ (∀ x ∈ new, x.client = n) ∧ (s.Serial world files → s'.Serial world files) ∧
      c'.Tracks n s'.log ∧ (c.Whole n s.log → c'.Whole n s'.log) := by
  rw [afterRead] at hs
  split at hs
  · have hrest : newline ∉ c.conn.rBuf := h.rest ▸ sep_not_mem_frames _
    obtain ⟨registered, hread⟩ : ∃ registered, c.handleRead (Shared.processCommand world n) d (some s) = _ :=
      handleRead_eq hrest
    rw [hread] at hs
    have hframes : frames newline (c.received ++ d.chunks.flatten) = _ := frames_append _ _
    rw [← h.rest] at hframes
    generalize hcommands : (frames newline (c.conn.rBuf ++ d.chunks.flatten)).1 = commands at hs hframes
    generalize (frames newline (c.conn.rBuf ++ d.chunks.flatten)).2 = rest at hs hframes
    rw [answered] at hs
    cases hexecs : Run.execs (Shared.processCommand world n) (some s) commands with
    | mk s₁ replies =>
      simp only [hexecs, Prod.mk.injEq] at hs
      obtain ⟨rfl, rfl⟩ := hs
      obtain ⟨new, hlog, hclient, rfl, rfl, hserial⟩ := Shared.execs_processCommand hexecs
      have hreplies : repliesTo n s'.log =
          repliesTo n s.log ++ ((new.map Exchange.reply).map (· ++ [newline])).flatten := by
        rw [hlog, repliesTo_own hclient, List.map_map]
        rfl
      refine ⟨new, hlog, hclient, hserial, ⟨?_, ?_, ?_, ?_⟩, fun hwhole => ?_⟩
      · rw [hlog, linesOf_append, linesOf_own hclient, List.map_append, h.lines, hframes]
      · rw [hframes]
      · simp only [List.flatten_append, ← List.append_assoc, hreplies]
        exact h.sent.append_right _
      · intro hne
        cases new with
        | nil => exact h.armed (by simpa using hne)
        | cons x new => rfl
      · simp only [Whole, List.flatten_append, ← List.append_assoc, hreplies]
        rw [hwhole]
  · cases hs
    exact ⟨[], by simp, by simp, id, h, id⟩

theorem Tracks.write (h : c.Tracks n log) (hs : c.handleWrite d = some c') : c'.Tracks n log ∧
    (d.result.TakesAll c.conn.sendQueue.flatten.length → c.Whole n log → c'.Whole n log) := by
  obtain ⟨k, interest, rfl, hall⟩ := handleWrite_cases hs
  refine ⟨⟨h.lines, h.rest, ?_, fun hne => absurd rfl hne⟩, fun htakes hwhole => ?_⟩
  · simp only [List.flatten_nil, List.append_nil]
    exact ((List.take_sublist k _).append_left _).trans h.sent
  · simp only [Whole, List.flatten_nil, List.append_nil, List.take_of_length_le (hall htakes)]
    exact hwhole

theorem Tracks.error (h : c.Tracks n log) : c.handleError.Tracks n log := ⟨h.lines, h.rest, h.sent, h.armed⟩

/-- An event of a connection. -/
theorem Tracks.event (h : c.Tracks n s.log)
    (hs : c.handleEvent (Shared.processCommand world n) d (some s) = some (some s', c')) : ∃ new : List Exchange,
      s'.log = s.log ++ new ∧ (∀ x ∈ new, x.client = n) ∧ (s.Serial world files → s'.Serial world files) ∧
      c'.Tracks n s'.log ∧ ((d.Has epollOut → d.result.TakesAll
        (c.afterRead (Shared.processCommand world n) d (some s)).2.conn.sendQueue.flatten.length) →
        c.Whole n s.log → c'.Whole n s'.log) := by
  obtain ⟨c₁, c₂, hread, hwrite, herror⟩ := handleEvent_cases hs
  obtain ⟨new, hlog, hclient, hserial, h₁, hwhole₁⟩ : ∃ new : List Exchange, s'.log = s.log ++ new ∧ _ ∧
    (s.Serial world files → s'.Serial world files) ∧ _ := h.read hread
  rw [hread]
  have h₂ : c₂.Tracks n s'.log ∧ ((d.Has epollOut → d.result.TakesAll c₁.conn.sendQueue.flatten.length) →
      c₁.Whole n s'.log → c₂.Whole n s'.log) := by
    rcases hwrite with ⟨-, rfl⟩ | ⟨hout, hwrite⟩
    · exact ⟨h₁, fun _ => id⟩
    · exact ⟨(h₁.write hwrite).1, fun htakes => (h₁.write hwrite).2 (htakes hout)⟩
  refine ⟨new, hlog, hclient, hserial, ?_, fun htakes hw => ?_⟩
  · rcases herror with rfl | rfl
    · exact h₂.1
    · exact h₂.1.error
  · rcases herror with rfl | rfl
    · exact h₂.2 htakes (hwhole₁ hw)
    · exact h₂.2 htakes (hwhole₁ hw)

end Tracks

end Client

/-! ### Runs of the event loop -/

namespace EventLoop

/-- What holds of every state of the event loop. -/
structure Inv (world : World) (files : Files) (l : EventLoop) : Prop where
  serial : l.shared.Serial world files
  known : ∀ x ∈ l.shared.log, x.client < l.clients.length
  tracks : ∀ n (c : Client), l.clients[n]? = some c → c.Tracks n l.shared.log

/-- No client has lost a byte of a reply. -/
def Whole (l : EventLoop) : Prop := ∀ n (c : Client), l.clients[n]? = some c → c.Whole n l.shared.log

/-- A write event finds room in the socket for all that waits to be sent. -/
def Roomy (world : World) (l : EventLoop) : Event → Prop
  | .accept => True
  | .event n d => ∀ c : Client, l.clients[n]? = some c → d.Has epollOut → d.result.TakesAll
    (c.afterRead (Shared.processCommand world n) d (some l.shared)).2.conn.sendQueue.flatten.length

variable {world : World} {files : Files} {l l' : EventLoop} {e : Event} {o : Unit}

theorem start_inv (world : World) (files : Files) : (start files).Inv world files where
  serial := rfl
  known := by simp [start]
  tracks := by simp [start]

/-- One step extends the log by lines of the connection that has the event. -/
theorem step_inv (h : l.Inv world files) (hs : step world l e = some (l', o)) :
    l'.Inv world files ∧ (l.Roomy world e → l.Whole → l'.Whole) := by
  cases e with
  | accept =>
    cases hs
    have hnew : ∀ x ∈ l.shared.log, x.client ≠ l.clients.length := fun x hx => (h.known x hx).ne
    have hcases : ∀ n c, (l.clients ++ [Client.fresh])[n]? = some c →
        l.clients[n]? = some c ∨ n = l.clients.length ∧ c = .fresh := by
      intro n c hc
      rcases Nat.lt_trichotomy n l.clients.length with hlt | heq | hgt
      · rw [List.getElem?_append_left hlt] at hc
        exact Or.inl hc
      · subst heq
        simp only [List.getElem?_concat_length, Option.some.injEq] at hc
        exact Or.inr ⟨rfl, hc.symm⟩
      · rw [List.getElem?_eq_none (by simpa using hgt)] at hc
        cases hc
    refine ⟨⟨h.serial, fun x hx => ?_, fun n c hc => ?_⟩, fun _ hw n c hc => ?_⟩
    · simpa using Nat.lt_succ_of_lt (h.known x hx)
    · rcases hcases n c hc with hc | ⟨rfl, rfl⟩
      · exact h.tracks n c hc
      · exact Client.fresh_tracks hnew
    · rcases hcases n c hc with hc | ⟨rfl, rfl⟩
      · exact hw n c hc
      · exact Client.fresh_whole hnew
  | event n d =>
    simp only [step, Option.bind_eq_bind, Option.bind_eq_some_iff, Option.ite_none_right_eq_some, Prod.exists,
      Option.some.injEq, Prod.mk.injEq] at hs
    obtain ⟨c, hc, -, shared, c', hevent, s', rfl, rfl, -⟩ := hs
    have hn : n < l.clients.length := (List.getElem?_eq_some_iff.mp hc).1
    obtain ⟨new, hlog, hclient, hserial, h', hwhole⟩ : ∃ new : List Exchange, s'.log = l.shared.log ++ new ∧ _ ∧
      (l.shared.Serial world files → s'.Serial world files) ∧ _ := (h.tracks n c hc).event hevent
    have hcases : ∀ m c₁, (l.clients.set n c')[m]? = some c₁ →
        n = m ∧ c₁ = c' ∨ m ≠ n ∧ l.clients[m]? = some c₁ := by
      intro m c₁ hc₁
      rcases eq_or_ne n m with rfl | hne
      · rw [List.getElem?_set_self hn] at hc₁
        exact Or.inl ⟨rfl, (Option.some.inj hc₁).symm⟩
      · rw [List.getElem?_set_ne hne] at hc₁
        exact Or.inr ⟨hne.symm, hc₁⟩
    refine ⟨⟨hserial h.serial, fun x hx => ?_, fun m c₁ hc₁ => ?_⟩, fun hroom hw m c₁ hc₁ => ?_⟩
    · rw [List.length_set]
      rcases List.mem_append.mp (hlog ▸ hx) with hx | hx
      · exact h.known x hx
      · exact hclient x hx ▸ hn
    · rcases hcases m c₁ hc₁ with ⟨rfl, rfl⟩ | ⟨hm, hc₁⟩
      · exact h'
      · exact hlog ▸ (h.tracks m c₁ hc₁).other hclient hm
    · rcases hcases m c₁ hc₁ with ⟨rfl, rfl⟩ | ⟨hm, hc₁⟩
      · exact hwhole (hroom c hc) (hw n c hc)
      · show c₁.Whole m s'.log
        exact hlog ▸ (hw m c₁ hc₁).other hclient hm

/-- After any run the engines, the files and the replies are those of one sequential execution of all lines; the lines
    of each connection are executed in their order, what the client got are bytes of the replies to them in their
    order, and what waits for the client has the reactor waiting for its socket. Where the socket always has room, the
    client got all of the replies but for those that wait. -/
theorem run_serial {events : List Event} {outs : List Unit}
    (h : Run.runs (step world) (start files) events = some (l, outs)) :
    Run.runs Dispatch.step (Globals.initial files) (Shared.inputs world l.shared.log) =
        some (l.shared.globals, l.shared.log.map Exchange.reply) ∧
      (∀ n c, l.clients[n]? = some c → Client.Tracks n l.shared.log c) ∧
      (Run.Each (step world) (Roomy world) (start files) events →
        ∀ n c, l.clients[n]? = some c → Client.Whole n l.shared.log c) := by
  have hkeeps : ∀ l e l' o, l.Inv world files → True → step world l e = some (l', o) → l'.Inv world files :=
    fun _ _ _ _ hi _ hs => (step_inv hi hs).1
  have hinv := Run.runs_inv hkeeps h (fun _ _ => trivial) (start_inv world files)
  refine ⟨hinv.serial, hinv.tracks, fun hroom => ?_⟩
  have hstep : ∀ l e l' o, l.Inv world files ∧ l.Whole → Roomy world l e → step world l e = some (l', o) →
      l'.Inv world files ∧ l'.Whole := fun l e l' o hi he hs => ⟨(step_inv hi.1 hs).1, (step_inv hi.1 hs).2 he hi.2⟩
  exact (hroom.runs_inv hstep h ⟨start_inv world files, by simp [EventLoop.Whole, start]⟩).2

/-- Two clients: one sets a key, and the other reads it in an event that also finds room for the reply. -/
def setAndGet : List Event :=
  [.accept, .accept, .event 0 ⟨epollIn, [ascii "SET a", ascii " b\n"], .again, .again⟩,
    .event 1 ⟨epollIn ||| epollOut, [ascii "GET a\n"], .again, .sent 2⟩]

def calmWorld : World := fun _ => (.calm, fun _ => none)

theorem run_serial_setAndGet : ∃ l outs, Run.runs (step calmWorld) (start .calm) setAndGet = some (l, outs) ∧
    Run.runs Dispatch.step (Globals.initial .calm) (Shared.inputs calmWorld l.shared.log) =
        some (l.shared.globals, l.shared.log.map Exchange.reply) ∧
      (∀ n c, l.clients[n]? = some c → Client.Tracks n l.shared.log c) ∧
      (Run.Each (step calmWorld) (Roomy calmWorld) (start .calm) setAndGet →
        ∀ n c, l.clients[n]? = some c → Client.Whole n l.shared.log c) := by
  have hsome : (Run.runs (step calmWorld) (start .calm) setAndGet).isSome = true := by decide +kernel
  obtain ⟨⟨l, outs⟩, hrun⟩ := Option.isSome_iff_exists.mp hsome
  exact ⟨l, outs, hrun, run_serial hrun⟩

end EventLoop

end KvStore
