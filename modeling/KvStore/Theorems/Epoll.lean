import KvStore.Epoll
import Mathlib.Data.List.TakeDrop

/-! Two properties of a connection: the commands it processes do not depend on how the received stream is cut
    into chunks, and `handle_write` loses bytes unless `send` takes the whole response. -/

namespace KvStore
open Framing

/-! ### Received commands -/

section Received
variable {σ : Type} (processCommand : σ → Bytes → σ × Bytes)

/-- Processing the given commands in order: the engine state, and the queue with a reply and a newline for
    each. -/
def answered (s : σ) (c : Connection) (commands : List Bytes) (rest : Bytes) : σ × Connection :=
  let (s', responses) := Run.execs processCommand s commands
  (s', { c with
    rBuf := rest
    sendQueue := c.sendQueue ++ responses.map (· ++ [newline])
    interest := if commands = [] then c.interest else .readWrite })

theorem processLoop_eq (s : σ) (c : Connection) : processLoop processCommand s c =
    ((Run.execs processCommand s (frames newline c.rBuf).1).1,
      { c with
        rBuf := (frames newline c.rBuf).2
        sendQueue := c.sendQueue ++
          (Run.execs processCommand s (frames newline c.rBuf).1).2.map (· ++ [newline]) }) := by
  fun_induction processLoop processCommand s c with
  | case1 s c h => simp [frames_of_not_mem (first_eq_none.mp h), Run.execs]
  | case2 s c command rest h s' response hs ih => simp [ih, frames_of_first h, Run.execs, hs]

/-- `process_received_data` answers the complete lines of `r_buf` and leaves the bytes after the last one. -/
theorem processReceivedData_eq (s : σ) (c : Connection) : processReceivedData processCommand s c =
    answered processCommand s c (frames newline c.rBuf).1 (frames newline c.rBuf).2 := by
  unfold processReceivedData answered
  cases h : first newline c.rBuf with
  | none => simp [frames_of_not_mem (first_eq_none.mp h), Run.execs]
  | some r =>
    obtain ⟨command, rest⟩ := r
    simp [processLoop_eq, frames_of_first h]

theorem answered_answered (s : σ) (c : Connection) (commands commands' : List Bytes) (rest rest' : Bytes) :
    answered processCommand (answered processCommand s c commands rest).1 (answered processCommand s c commands rest).2
      commands' rest' = answered processCommand s c (commands ++ commands') rest' := by
  by_cases h : commands = []
  · simp [answered, h, Run.execs]
  · simp [answered, h, Run.execs_append]

/-- The commands of a stream that arrives in chunks are the lines of the whole stream. -/
theorem receiveChunks_eq : ∀ (chunks : List Bytes) (s : σ) (c : Connection), newline ∉ c.rBuf →
    receiveChunks processCommand chunks s c = answered processCommand s c
      (frames newline (c.rBuf ++ chunks.flatten)).1 (frames newline (c.rBuf ++ chunks.flatten)).2
  | [], s, c, hc => by simp [receiveChunks, answered, frames_of_not_mem hc, Run.execs]
  | chunk :: chunks, s, c, hc => by
    have hone : processReceivedData processCommand s { c with rBuf := c.rBuf ++ chunk } = answered processCommand s c
        (frames newline (c.rBuf ++ chunk)).1 (frames newline (c.rBuf ++ chunk)).2 := by
      rw [processReceivedData_eq]
      simp [answered]
    have hrest : newline ∉ (frames newline (c.rBuf ++ chunk)).2 := sep_not_mem_frames _
    have ih := receiveChunks_eq chunks (answered processCommand s c (frames newline (c.rBuf ++ chunk)).1
      (frames newline (c.rBuf ++ chunk)).2).1 (answered processCommand s c (frames newline (c.rBuf ++ chunk)).1
      (frames newline (c.rBuf ++ chunk)).2).2 hrest
    have happend : frames newline (c.rBuf ++ chunk ++ chunks.flatten) = _ := frames_append _ _
    rw [List.append_assoc] at happend
    simp only [receiveChunks, hone, List.flatten_cons, happend]
    rw [ih, answered_answered]
    rfl

/-- A read event whose calls of `recv` give the chunks until the socket is empty. -/
theorem handleRead_chunks : ∀ (chunks : List Bytes) (s : σ) (c : Connection),
    handleRead processCommand (chunks.map .data ++ [.again]) s c = receiveChunks processCommand chunks s c
  | [], _, _ => rfl
  | chunk :: chunks, s, c => by
    simp only [List.map_cons, List.cons_append, handleRead, receiveChunks]
    exact handleRead_chunks chunks _ _

/-- However the stream is cut into chunks, `process_command` gets the lines of the whole stream in order, the
    queue gets a reply with a newline for each, and `r_buf` keeps the bytes after the last newline. -/
theorem receiveChunks_any_cut (s : σ) (c : Connection) (hc : newline ∉ c.rBuf) (chunks : List Bytes) :
    ∃ commands rest, c.rBuf ++ chunks.flatten = (commands.map (· ++ [newline])).flatten ++ rest ∧
      (∀ command ∈ commands, newline ∉ command) ∧ newline ∉ rest ∧
      receiveChunks processCommand chunks s c = answered processCommand s c commands rest ∧
      receiveChunks processCommand [chunks.flatten] s c = answered processCommand s c commands rest := by
  refine ⟨(frames newline (c.rBuf ++ chunks.flatten)).1, (frames newline (c.rBuf ++ chunks.flatten)).2,
    (frames_flatten _).symm, sep_not_mem_frame _, sep_not_mem_frames _, receiveChunks_eq _ chunks s c hc, ?_⟩
  rw [receiveChunks_eq _ [chunks.flatten] s c hc]
  simp

end Received

/-- A stream of two commands and a part of a third, cut in the middle of the first. -/
theorem receiveChunks_any_cut_example :
    let processCommand : Nat → Bytes → Nat × Bytes := fun n command => (n + 1, command)
    ∃ commands rest, [65, 66, 10, 67, 10, 68] = (commands.map (· ++ [newline])).flatten ++ rest ∧
      (∀ command ∈ commands, newline ∉ command) ∧ newline ∉ rest ∧
      receiveChunks processCommand [[65], [66, 10, 67, 10, 68]] 0 .fresh =
        answered processCommand 0 .fresh commands rest ∧
      receiveChunks processCommand [[65, 66, 10, 67, 10, 68]] 0 .fresh =
        answered processCommand 0 .fresh commands rest :=
  receiveChunks_any_cut _ 0 .fresh (by decide) [[65], [66, 10, 67, 10, 68]]

/-! ### Sent replies -/

/-- A connection with what lies on both sides of its queue: the bytes of all replies pushed so far, and the
    bytes the socket has taken. -/
structure Traffic (σ : Type) where
  engines : σ
  conn : Connection
  pushed : Bytes
  wire : Bytes

/-- An event of a registered connection: the chunks that a read event receives, or the result of the `send` of
    a write event. -/
inductive Event where
  | read (chunks : List Bytes)
  | write (result : Send)

/-- `send` of that many bytes takes all of them or some, or reports that the socket is full; only a `send` of
    nothing takes nothing. -/
def Send.Possible (size : Nat) : Send → Prop
  | .sent n => n ≤ size ∧ (n = 0 → size = 0)
  | .again => True
  | .error => False

instance (size : Nat) (r : Send) : Decidable (r.Possible size) := by
  cases r <;> unfold Send.Possible <;> infer_instance

namespace Traffic
variable {σ : Type} (processCommand : σ → Bytes → σ × Bytes)

def start (s : σ) : Traffic σ := ⟨s, .fresh, [], []⟩

/-- One event; the reactor delivers none to a connection that is not registered. -/
def step (w : Traffic σ) : Event → Option (Traffic σ × Unit)
  | .read chunks =>
    if w.conn.registered then
      let (s, c) := handleRead processCommand (chunks.map .data ++ [.again]) w.engines w.conn
      some (⟨s, c, w.pushed ++ (c.sendQueue.drop w.conn.sendQueue.length).flatten, w.wire⟩, ())
    else none
  | .write result =>
    if w.conn.registered ∧ result.Possible w.conn.sendQueue.flatten.length then
      let (c, taken) := handleWrite result w.conn
      some ({ w with conn := c, wire := w.wire ++ taken }, ())
    else none

/-- No reply byte is lost, duplicated or out of order, and `handle_write` has not unregistered the connection. -/
def Intact (w : Traffic σ) : Prop := w.wire ++ w.conn.sendQueue.flatten = w.pushed ∧ w.conn.registered = true

/-- A write event finds something to send and `send` takes all of it, or it finds nothing and the socket is
    full. -/
def Lossless (w : Traffic σ) : Event → Prop
  | .read _ => True
  | .write (.sent n) => n = w.conn.sendQueue.flatten.length ∧ n ≠ 0
  | .write .again => w.conn.sendQueue.flatten.length = 0
  | .write .error => False

end Traffic

theorem gather_eq : ∀ (queue : List Bytes) (response : Bytes), gather queue response = response ++ queue.flatten
  | [], response => by simp [gather]
  | front :: queue, response => by simp [gather, gather_eq queue]

section Sent
variable {σ : Type} {processCommand : σ → Bytes → σ × Bytes}

/-- Receiving only appends to the queue, and keeps the registration. -/
theorem receiveChunks_queue (processCommand : σ → Bytes → σ × Bytes) : ∀ (chunks : List Bytes) (s : σ) (c : Connection),
    ∃ new, (receiveChunks processCommand chunks s c).2.sendQueue = c.sendQueue ++ new ∧
      (receiveChunks processCommand chunks s c).2.registered = c.registered
  | [], _, _ => ⟨[], by simp [receiveChunks]⟩
  | chunk :: chunks, s, c => by
    simp only [receiveChunks, processReceivedData_eq]
    obtain ⟨new, hnew, hreg⟩ := receiveChunks_queue processCommand chunks
      (answered processCommand s { c with rBuf := c.rBuf ++ chunk } (frames newline (c.rBuf ++ chunk)).1
        (frames newline (c.rBuf ++ chunk)).2).1
      (answered processCommand s { c with rBuf := c.rBuf ++ chunk } (frames newline (c.rBuf ++ chunk)).1
        (frames newline (c.rBuf ++ chunk)).2).2
    refine ⟨_, hnew.trans (List.append_assoc _ _ _), hreg⟩

theorem Traffic.write_intact {w : Traffic σ} {result : Send} (h : w.Intact)
    (hp : result.Possible w.conn.sendQueue.flatten.length) :
    Traffic.Intact { w with conn := (handleWrite result w.conn).1, wire := w.wire ++ (handleWrite result w.conn).2 } ↔
      w.Lossless (.write result) := by
  obtain ⟨hbytes, hreg⟩ := h
  unfold Traffic.Intact Traffic.Lossless handleWrite
  simp only [gather_eq, List.nil_append]
  generalize w.conn.sendQueue.flatten = response at hbytes hp ⊢
  rw [← hbytes]
  cases result with
  | sent n =>
    obtain ⟨hle, hzero⟩ := hp
    by_cases hn : n = 0
    · simp [hn]
    · simp only [Nat.pos_of_ne_zero hn, ↓reduceIte, List.flatten_nil, List.append_nil, List.append_cancel_left_eq,
        List.take_eq_self_iff, hreg, and_true]
      exact ⟨fun h => ⟨Nat.le_antisymm hle h, hn⟩, fun h => Nat.le_of_eq h.1.symm⟩
  | again => simp [hreg]
  | error => exact absurd hp id

theorem Traffic.step_intact {w w' : Traffic σ} {e : Event} {o : Unit} (h : w.Intact)
    (hs : Traffic.step processCommand w e = some (w', o)) : w'.Intact ↔ w.Lossless e := by
  have hreg := h.2
  cases e with
  | read chunks =>
    obtain ⟨new, hnew, hreg'⟩ := receiveChunks_queue processCommand chunks w.engines w.conn
    simp only [Traffic.step, hreg, if_true, handleRead_chunks, Option.some.injEq, Prod.mk.injEq] at hs
    obtain ⟨rfl, -⟩ := hs
    simp [Traffic.Intact, Traffic.Lossless, hnew, hreg', hreg, ← h.1]
  | write result =>
    simp only [Traffic.step, hreg, true_and] at hs
    split at hs
    · next hp =>
      simp only [Option.some.injEq, Prod.mk.injEq] at hs
      obtain ⟨rfl, -⟩ := hs
      exact Traffic.write_intact h hp
    · cases hs

/-- Over every run from a fresh connection, whatever the replies and the order of events: the bytes are intact in
    every state reached exactly when every write event is lossless. -/
theorem replies_intact_iff (processCommand : σ → Bytes → σ × Bytes) (s : σ) (events : List Event) :
    Run.Throughout (Traffic.step processCommand) Traffic.Intact (Traffic.start s) events ↔
      Run.Each (Traffic.step processCommand) Traffic.Lossless (Traffic.start s) events :=
  Run.throughout_iff_each (I := fun _ => True) (fun _ _ _ _ h _ => h) (fun _ _ _ _ _ h hs => Traffic.step_intact h hs)
    trivial ⟨rfl, rfl⟩

end Sent

/-- One command is answered with `OK`; `send` takes one of the three bytes, and the other two are gone. -/
theorem reply_bytes_lost :
    let processCommand : Unit → Bytes → Unit × Bytes := fun _ _ => ((), [79, 75])
    ∃ w outs, Run.runs (Traffic.step processCommand) (Traffic.start ()) [.read [[65, 10]], .write (.sent 1)] =
        some (w, outs) ∧ ¬w.Intact := by
  simp [Run.runs, Traffic.step, Traffic.start, Connection.fresh, handleRead, processReceivedData_eq, answered, frames,
    newline, Run.execs, Send.Possible, handleWrite, gather, Traffic.Intact]

end KvStore
