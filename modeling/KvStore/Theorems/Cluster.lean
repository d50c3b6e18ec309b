import KvStore.Cluster
import KvStore.Lib.Run
import KvStore.Lib.WaitGraph

/-! Which servers wait for which, and when they wait in a cycle. A server in `receive_response` waits for its peer
    until the peer has sent something on the connection, and only the peer's event loop sends. A cycle arises
    exactly when a server starts to pull from one that already waits for it, and then it stays. -/

namespace KvStore
open Framing

section Views
variable {σ ι : Type} {s : Server σ ι} {n m : Nat} {f : Link → Link} {l : Link}

def Server.pull? (s : Server σ ι) : Option (Pull ι) :=
  match s.control with
  | .pulling _ pull => some pull
  | _ => none

theorem Server.pull?_of_control {pull : Pull ι} (h : s.control = .pulling n pull) : s.pull? = some pull := by
  rw [Server.pull?, h]

theorem Server.pull?_waiting (h : s.control = .waiting) : s.pull? = none := by
  rw [Server.pull?, h]

theorem Server.outbound_of_get (h : s.links[n]? = some l) : s.outbound n = l.outbound := by
  rw [Server.outbound, h]

theorem Server.outbound_updateLink (hf : ∀ l, (f l).outbound = l.outbound) :
    (s.updateLink n f).outbound m = s.outbound m := by
  unfold Server.outbound Server.updateLink
  rw [List.getElem?_modify]
  cases s.links[m]? with
  | none => rfl
  | some l =>
    by_cases h : n = m
    · simp [h, hf]
    · simp [h]

theorem Server.outbound_updateLink_self (h : s.links[n]? = some l) :
    (s.updateLink n f).outbound = Function.update s.outbound n (f l).outbound := by
  funext m
  by_cases hm : m = n
  · subst hm
    rw [Function.update_self]
    exact Server.outbound_of_get (by simp [Server.updateLink, h])
  · rw [Function.update_of_ne hm]
    unfold Server.outbound Server.updateLink
    rw [List.getElem?_modify_ne _ _ (Ne.symm hm)]

theorem Server.link_of_outbound (h : s.outbound n ≠ []) : ∃ l, s.links[n]? = some l := by
  unfold Server.outbound at h
  cases hl : s.links[n]? with
  | none => simp [hl] at h
  | some l => exact ⟨l, rfl⟩

/-- A new connection has nothing to send, as if it were not there. -/
theorem Server.outbound_addLink (h : l.outbound = []) : (s.addLink l).outbound m = s.outbound m := by
  unfold Server.outbound Server.addLink
  rcases Nat.lt_trichotomy m s.links.length with hm | rfl | hm
  · rw [List.getElem?_append_left hm]
  · simp [h]
  · rw [List.getElem?_eq_none (by simpa using Nat.succ_le_of_lt hm), List.getElem?_eq_none (Nat.le_of_lt hm)]

theorem Server.engines_updateLink : (s.updateLink n f).engines = s.engines := rfl

theorem Server.length_updateLink : (s.updateLink n f).links.length = s.links.length := List.length_modify ..

theorem Server.outbound_answer {engines : σ} {response : Bytes} :
    (s.answer n engines response).outbound = s.outbound :=
  funext fun _ => Server.outbound_updateLink (s := s) fun _ => rfl

theorem Server.length_answer {engines : σ} {response : Bytes} :
    (s.answer n engines response).links.length = s.links.length := Server.length_updateLink (s := s)

end Views

section Connections
variable {σ ι : Type} {s : Server σ ι} {n : Nat} {l : Link} {F : Connection → Connection} {conn conn' : Connection}

def Server.setConnection (s : Server σ ι) (n : Nat) (conn : Connection) : Server σ ι :=
  s.updateLink n fun l => { l with connection := conn }

theorem Server.updateLink_connection (h : s.links[n]? = some l) :
    s.updateLink n (fun l => { l with connection := F l.connection }) = s.setConnection n (F l.connection) := by
  unfold Server.setConnection Server.updateLink
  congr 1
  refine List.ext_getElem? fun m => ?_
  rw [List.getElem?_modify, List.getElem?_modify]
  by_cases hm : n = m
  · subst hm
    simp [h]
  · simp [hm]

theorem Server.setConnection_same (h : s.links[n]? = some l) : s.setConnection n l.connection = s := by
  have hid : s.updateLink n (fun l => { l with connection := id l.connection }) = s :=
    congrArg (fun links => { s with links := links }) (List.modify_id n s.links)
  exact (Server.updateLink_connection h).symm.trans hid

theorem Server.setConnection_setConnection :
    (s.setConnection n conn).setConnection n conn' = s.setConnection n conn' := by
  simp only [Server.setConnection, Server.updateLink, List.modify_modify_eq, Function.comp_def]

theorem Server.engines_setConnection : (s.setConnection n conn).engines = s.engines := rfl

theorem Server.link_setConnection (h : s.links[n]? = some l) :
    (s.setConnection n conn).links[n]? = some { l with connection := conn } := by
  simp [Server.setConnection, Server.updateLink, h]

/-- The server after `process_received_data` on its `n`-th connection has returned. -/
def Server.processed (s : Server σ ι) (n : Nat) (result : σ × Connection) : Server σ ι :=
  { s.setConnection n result.2 with engines := result.1, control := .receiving n }

theorem Server.processed_setConnection {engines : σ} {control : Control ι} {result : σ × Connection} :
    Server.processed { s.setConnection n conn with engines := engines, control := control } n result =
      s.processed n result := by
  have h : (s.setConnection n conn).setConnection n result.2 = s.setConnection n result.2 :=
    Server.setConnection_setConnection
  exact congrArg (fun s' : Server σ ι => { s' with engines := result.1, control := .receiving n }) h

end Connections

namespace Cluster
open Relation WaitGraph

/-! ### The loop of `process_received_data` -/

section Lines
variable {σ ι : Type} [DecidableEq ι] {D : Dispatcher σ ι} {c : Cluster σ ι} {i : ι} {n : Nat} {l : Link}
  {found : Bool}

/-- The reply to a command that does not pull. -/
def localReply (D : Dispatcher σ ι) (engines : σ) (command : Bytes) : σ × Bytes :=
  match processCommand D engines command with
  | .answer engines' response => (engines', response)
  | _ => (engines, [])

/-- The command neither pulls nor throws. -/
def Answered (D : Dispatcher σ ι) (command : Bytes) : Prop :=
  ∀ engines,
    processCommand D engines command = .answer (localReply D engines command).1 (localReply D engines command).2

/-- The loop ends when no line is left. -/
theorem step_no_line (hc : (c i).control = .processing n found) (hl : (c i).links[n]? = some l)
    (h : first newline l.connection.rBuf = none) :
    step D c (.line i) = some (Function.update c i ((c i).processed n ((c i).engines,
      if found then { l.connection with interest := .readWrite } else l.connection)), ()) := by
  have hnext : (c i).nextLine n = none := by simp [Server.nextLine, hl, h]
  simp only [step, hc, processLine, hnext, Option.map_some, Option.some.injEq, Prod.mk.injEq, and_true]
  cases found with
  | false => simp [Server.processed, Server.setConnection_same hl]
  | true =>
    simp [Server.processed, Server.engines_setConnection,
      Server.updateLink_connection (F := fun conn => { conn with interest := .readWrite }) hl]

/-- A line that is answered is one turn of `processLoop`. -/
theorem step_line {command rest : Bytes} (hc : (c i).control = .processing n found) (hl : (c i).links[n]? = some l)
    (h : first newline l.connection.rBuf = some (command, rest)) (ha : Answered D command) :
    step D c (.line i) = some (Function.update c i
      { (c i).setConnection n { l.connection with
          rBuf := rest
          sendQueue := l.connection.sendQueue ++ [(localReply D (c i).engines command).2 ++ [newline]] } with
        engines := (localReply D (c i).engines command).1, control := .processing n true }, ()) := by
  have hnext : (c i).nextLine n = some (command, rest) := by simp [Server.nextLine, hl, h]
  simp only [step, hc, processLine, hnext, Server.engines_updateLink, ha (c i).engines, Option.map_some,
    Option.some.injEq, Prod.mk.injEq, and_true]
  rw [Server.updateLink_connection (F := fun conn => { conn with rBuf := rest }) hl]
  have hl' : ((c i).setConnection n { l.connection with rBuf := rest }).links[n]? =
      some { l with connection := { l.connection with rBuf := rest } } := Server.link_setConnection hl
  unfold Server.answer
  rw [Server.updateLink_connection (F := fun conn =>
    { conn with sendQueue := conn.sendQueue ++ [(localReply D (c i).engines command).2 ++ [newline]] }) hl',
    Server.setConnection_setConnection]

/-- The turns of the loop on answered lines are `process_received_data`. -/
theorem lines_processLoop (s : σ) (conn : Connection) (heng : (c i).engines = s) (hconn : l.connection = conn)
    (hc : (c i).control = .processing n found) (hf : first newline conn.rBuf = none → found = true)
    (hl : (c i).links[n]? = some l) (ha : ∀ command ∈ (frames newline conn.rBuf).1, Answered D command) :
    ∃ events us, (∀ e ∈ events, e = .line i) ∧
      Run.runs (step D) c events = some (Function.update c i ((c i).processed n
        ((processLoop (localReply D) s conn).1,
          { (processLoop (localReply D) s conn).2 with interest := .readWrite })), us) := by
  fun_induction processLoop (localReply D) s conn generalizing c l found with
  | case1 s conn h =>
    subst hconn heng
    refine ⟨[.line i], [()], by simp, ?_⟩
    rw [Run.runs_cons (step_no_line hc hl h) rfl, hf h]
    rfl
  | case2 s conn command rest h s' response hs ih =>
    subst hconn heng
    have hstep := step_line hc hl h (ha command (by simp [frames_of_first h]))
    rw [hs] at hstep
    generalize hc₁ : Function.update c i _ = c₁ at hstep
    have hi := congrFun hc₁ i
    rw [Function.update_self] at hi
    obtain ⟨events, us, hevents, hrun⟩ := ih (c := c₁) (by rw [← hi]) rfl (by rw [← hi]) (fun _ => rfl)
      (by rw [← hi]; exact Server.link_setConnection hl)
      (fun command' hmem => ha command' (by rw [frames_of_first h]; exact List.mem_cons_of_mem command hmem))
    refine ⟨.line i :: events, () :: us, by simpa using hevents, ?_⟩
    rw [Run.runs_cons hstep hrun, ← hi, ← hc₁, Function.update_idem, Server.processed_setConnection]

/-- In the loop of `process_received_data`, a server whose lines are all answered does what `processReceivedData`
    says of one connection. -/
theorem lines_processReceivedData (hc : (c i).control = .processing n false) (hl : (c i).links[n]? = some l)
    (ha : ∀ command ∈ (frames newline l.connection.rBuf).1, Answered D command) :
    ∃ events us, (∀ e ∈ events, e = .line i) ∧
      Run.runs (step D) c events = some (Function.update c i ((c i).processed n
        (processReceivedData (localReply D) (c i).engines l.connection)), us) := by
  unfold processReceivedData
  cases h : first newline l.connection.rBuf with
  | none =>
    refine ⟨[.line i], [()], by simp, ?_⟩
    rw [Run.runs_cons (step_no_line hc hl h) rfl]
    rfl
  | some line => exact lines_processLoop (c i).engines l.connection rfl rfl hc (by simp [h]) hl ha

end Lines

/-! ### Who waits for whom -/

section Waits
variable {σ ι : Type} {c c' : Cluster σ ι}

def pulls (c : Cluster σ ι) (i : ι) : Option (Pull ι) := (c i).pull?

def outbounds (c : Cluster σ ι) (i : ι) : Nat → Bytes := (c i).outbound

def accepted (c : Cluster σ ι) (i : ι) : Nat := (c i).links.length

/-- Nothing that could end the wait of server `a` has been sent by its peer `b`. -/
def WaitsFor (c : Cluster σ ι) (a b : ι) : Prop :=
  ∃ pull, pulls c a = some pull ∧ pull.peer = b ∧ pull.response = [] ∧ outbounds c b pull.link = []

/-- Some servers wait in a cycle, each for a reply that only the next one could send. -/
def Deadlocked (c : Cluster σ ι) : Prop := Cyclic (WaitsFor c)

/-- Each pull has a connection of its own. -/
structure OwnLinks (c : Cluster σ ι) : Prop where
  bound : ∀ a p, pulls c a = some p → p.link < accepted c p.peer
  own : ∀ a b p q, pulls c a = some p → pulls c b = some q → p.peer = q.peer → p.link = q.link → a = b

theorem OwnLinks.start (engines : ι → σ) : OwnLinks (start engines) := by
  constructor
  · intro a p h
    cases h
  · intro a b p q h
    cases h

/-- Pulls that were there before keep their connections. -/
theorem OwnLinks.keep (h : OwnLinks c) (hl : ∀ a, accepted c a ≤ accepted c' a)
    (hp : ∀ a p, pulls c' a = some p → ∃ p₀, pulls c a = some p₀ ∧ p₀.peer = p.peer ∧ p₀.link = p.link) :
    OwnLinks c' := by
  constructor
  · intro a p ha
    obtain ⟨p₀, hp₀, hpeer, hlink⟩ := hp a p ha
    have hb := h.bound a p₀ hp₀
    rw [hpeer, hlink] at hb
    exact Nat.lt_of_lt_of_le hb (hl _)
  · intro a b p q ha hb hpeer hlink
    obtain ⟨p₀, hp₀, hp₁, hp₂⟩ := hp a p ha
    obtain ⟨q₀, hq₀, hq₁, hq₂⟩ := hp b q hb
    exact h.own a b p₀ q₀ hp₀ hq₀ (by rw [hp₁, hq₁, hpeer]) (by rw [hp₂, hq₂, hlink])

end Waits

section Effect
variable {σ ι : Type} [DecidableEq ι] {D : Dispatcher σ ι} {c c' : Cluster σ ι} {i a b : ι}

/-- The server and its peer, when the step is one where a server enters `receive_response`. -/
def opens (D : Dispatcher σ ι) (c : Cluster σ ι) : Event ι → Option (ι × ι)
  | .line i =>
    match (c i).control with
    | .processing n _ =>
      match (c i).nextLine n with
      | some (command, _) =>
        match processCommand D (c i).engines command with
        | .pull _ peer => some (i, peer)
        | _ => none
      | none => none
    | _ => none
  | _ => none

/-- No pull starts from a server that waits, directly or through others, for the one that starts it. -/
def PullsFree (D : Dispatcher σ ι) (c : Cluster σ ι) (e : Event ι) : Prop :=
  ∀ i peer, opens D c e = some (i, peer) → ¬ReflTransGen (WaitsFor c) peer i

/-- All that a step does to the pulls and to the bytes that wait for the pullers. -/
inductive Effect (c c' : Cluster σ ι) : Option (ι × ι) → Prop where
  | quiet (hp : pulls c' = pulls c) (ho : outbounds c' = outbounds c) (hl : ∀ a, accepted c a ≤ accepted c' a) :
      Effect c c' none
  | opened {i : ι} {pull : Pull ι} (hi : pulls c i = none) (hr : pull.response = [])
      (hk : pull.link = accepted c pull.peer) (hp : pulls c' = Function.update (pulls c) i (some pull))
      (ho : outbounds c' = outbounds c) (hl : ∀ a, accepted c a ≤ accepted c' a)
      (hn : accepted c pull.peer < accepted c' pull.peer) : Effect c c' (some (i, pull.peer))
  | sent {i : ι} {n : Nat} (bytes : Bytes) (hi : pulls c i = none) (hp : pulls c' = pulls c)
      (ho : outbounds c' = Function.update (outbounds c) i
        (Function.update (outbounds c i) n (outbounds c i n ++ bytes)))
      (hl : accepted c' = accepted c) : Effect c c' none
  | received {i : ι} {pull : Pull ι} {k : Nat} (hi : pulls c i = some pull) (hk : 0 < k)
      (hb : k ≤ (outbounds c pull.peer pull.link).length)
      (hp : pulls c' = Function.update (pulls c) i
        (some { pull with response := pull.response ++ (outbounds c pull.peer pull.link).take k }))
      (ho : outbounds c' = Function.update (outbounds c) pull.peer
        (Function.update (outbounds c pull.peer) pull.link ((outbounds c pull.peer pull.link).drop k)))
      (hl : accepted c' = accepted c) : Effect c c' none
  | finished {i : ι} {pull : Pull ι} (hi : pulls c i = some pull) (hr : pull.response ≠ [])
      (hp : pulls c' = Function.update (pulls c) i none) (ho : outbounds c' = outbounds c)
      (hl : accepted c' = accepted c) : Effect c c' none

theorem pulls_update (s : Server σ ι) : pulls (Function.update c i s) = Function.update (pulls c) i s.pull? :=
  Function.comp_update Server.pull? c i s

theorem outbounds_update (s : Server σ ι) :
    outbounds (Function.update c i s) = Function.update (outbounds c) i s.outbound :=
  Function.comp_update Server.outbound c i s

theorem accepted_update (s : Server σ ι) :
    accepted (Function.update c i s) = Function.update (accepted c) i s.links.length :=
  Function.comp_update (fun s : Server σ ι => s.links.length) c i s

theorem pulls_same {s : Server σ ι} (h : s.pull? = (c i).pull?) : pulls (Function.update c i s) = pulls c := by
  rw [pulls_update, h]
  exact Function.update_eq_self i (pulls c)

theorem outbounds_same {s : Server σ ι} (h : s.outbound = (c i).outbound) :
    outbounds (Function.update c i s) = outbounds c := by
  rw [outbounds_update, h]
  exact Function.update_eq_self i (outbounds c)

theorem accepted_same {s : Server σ ι} (h : s.links.length = (c i).links.length) :
    accepted (Function.update c i s) = accepted c := by
  rw [accepted_update, h]
  exact Function.update_eq_self i (accepted c)

theorem accepted_le {s : Server σ ι} (h : (c i).links.length ≤ s.links.length) (a : ι) :
    accepted c a ≤ accepted (Function.update c i s) a := by
  rw [accepted_update]
  by_cases ha : a = i
  · subst ha
    rw [Function.update_self]
    exact h
  · rw [Function.update_of_ne ha]

/-- A step of one server that touches neither its pull nor what its sockets have sent. -/
theorem Effect.quiet_update {s : Server σ ι} (hp : s.pull? = (c i).pull?) (ho : s.outbound = (c i).outbound)
    (hl : (c i).links.length ≤ s.links.length) : Effect c (Function.update c i s) none :=
  .quiet (pulls_same hp) (outbounds_same ho) (accepted_le hl)

/-- The puller is updated first and then its peer, which may be the same server. -/
theorem Effect.open {s : Server σ ι} (pull : Pull ι) {l : Link} (hi : (c i).pull? = none) (hs : s.pull? = some pull)
    (ho : s.outbound = (c i).outbound) (hn : s.links.length = (c i).links.length) (hr : pull.response = [])
    (hk : pull.link = (c pull.peer).links.length) (hl : l.outbound = []) :
    Effect c (Function.update (Function.update c i s) pull.peer ((Function.update c i s pull.peer).addLink l))
      (some (i, pull.peer)) := by
  have hadd : ((Function.update c i s pull.peer).addLink l).links.length =
      (Function.update c i s pull.peer).links.length + 1 := List.length_append
  refine .opened hi hr hk ?_ ?_ (fun a => ?_) ?_
  · rw [pulls_same (by rfl), pulls_update, hs]
  · rw [outbounds_same (funext fun _ => Server.outbound_addLink hl), outbounds_same ho]
  · exact (accepted_le hn.ge a).trans (accepted_le (Nat.le_of_lt (Nat.lt_of_succ_le hadd.ge)) a)
  · have hle := accepted_le (c := c) hn.ge pull.peer
    rw [accepted_update, Function.update_self, hadd]
    exact Nat.lt_succ_of_le hle

theorem processLine_effect {n : Nat} {found : Bool} (hc : (c i).control = .processing n found)
    (h : processLine D c i n found = some c') : Effect c c' (opens D c (.line i)) := by
  have hp : (c i).pull? = none := by rw [Server.pull?, hc]
  unfold processLine at h
  cases hl : (c i).nextLine n with
  | none =>
    simp only [hl, Option.some.injEq] at h
    subst h
    simp only [opens, hc, hl]
    cases found with
    | false => exact Effect.quiet_update hp.symm rfl (Nat.le_refl _)
    | true =>
      exact Effect.quiet_update hp.symm (funext fun _ => Server.outbound_updateLink fun _ => rfl)
        Server.length_updateLink.ge
  | some line =>
    obtain ⟨command, rest⟩ := line
    simp only [hl] at h
    cases hcmd : processCommand D (c i).engines command with
    | throws => simp only [Server.engines_updateLink, hcmd, reduceCtorEq] at h
    | answer engines response =>
      simp only [Server.engines_updateLink, hcmd, Option.some.injEq] at h
      subst h
      simp only [opens, hc, hl, hcmd]
      refine Effect.quiet_update hp.symm ?_ ?_
      · rw [Server.outbound_answer]
        exact funext fun _ => Server.outbound_updateLink fun _ => rfl
      · rw [Server.length_answer, Server.length_updateLink]
    | pull kind peer =>
      simp only [Server.engines_updateLink, hcmd, Option.some.injEq] at h
      subst h
      simp only [opens, hc, hl, hcmd]
      exact .open ⟨kind, peer, (c peer).links.length, []⟩ hp rfl
        (funext fun _ => Server.outbound_updateLink fun _ => rfl) Server.length_updateLink rfl rfl rfl

theorem timeout_effect {n : Nat} {pull : Pull ι} (hc : (c i).control = .pulling n pull) :
    Effect c (pullTurn D c i n pull .timeout) none := by
  have hp := Server.pull?_of_control hc
  unfold pullTurn receiveTurn
  by_cases hr : pull.response = []
  · simp only [hr, ne_eq, not_true_eq_false, ↓reduceIte]
    refine Effect.quiet_update ?_ rfl (Nat.le_refl _)
    rw [hp, ← hr]
    rfl
  · simp only [ne_eq, hr, not_false_eq_true, ↓reduceIte]
    refine .finished hp hr (pulls_update _) ?_ ?_
    · exact outbounds_same Server.outbound_answer
    · exact accepted_same Server.length_answer

theorem poll_effect {n k : Nat} {pull : Pull ι} (hc : (c i).control = .pulling n pull) (hk : 0 < k)
    (hb : k ≤ ((c pull.peer).outbound pull.link).length) :
    Effect c (pullTurn D (Function.update c pull.peer ((c pull.peer).updateLink pull.link fun l =>
      { l with outbound := l.outbound.drop k })) i n pull
      (.readable (.data (((c pull.peer).outbound pull.link).take k)))) none := by
  have hne : (c pull.peer).outbound pull.link ≠ [] := List.ne_nil_of_length_pos (Nat.lt_of_lt_of_le hk hb)
  obtain ⟨l, hl⟩ := Server.link_of_outbound hne
  have hout : ((c pull.peer).updateLink pull.link fun l => { l with outbound := l.outbound.drop k }).outbound =
      Function.update (c pull.peer).outbound pull.link (((c pull.peer).outbound pull.link).drop k) := by
    rw [Server.outbound_updateLink_self hl, Server.outbound_of_get hl]
  refine .received (Server.pull?_of_control hc) hk hb ?_ ?_ ?_
  · exact (pulls_update _).trans (by rw [pulls_same (by rfl)]; rfl)
  · exact (outbounds_same (by rfl)).trans ((outbounds_update _).trans (by rw [hout]; rfl))
  · exact (accepted_same (by rfl)).trans (accepted_same Server.length_updateLink)

theorem write_effect {n k : Nat} {l : Link} (hc : (c i).control = .waiting) (hl : (c i).links[n]? = some l) :
    Effect c (Function.update c i ((c i).updateLink n fun l =>
      { l with
        connection := (handleWrite (.sent k) l.connection).1
        outbound := l.outbound ++ (handleWrite (.sent k) l.connection).2 })) none := by
  refine .sent (n := n) (handleWrite (.sent k) l.connection).2 (Server.pull?_waiting hc)
    (pulls_same (by rfl)) ?_ (accepted_same Server.length_updateLink)
  rw [outbounds_update, Server.outbound_updateLink_self hl, outbounds, Server.outbound_of_get hl]

theorem step_effect {e : Event ι} {u : Unit} (h : step D c e = some (c', u)) : Effect c c' (opens D c e) := by
  cases e with
  | connect i =>
    cases h
    exact .quiet_update rfl (funext fun _ => Server.outbound_addLink rfl) (by simp [Server.addLink])
  | clientSend i n bytes =>
    simp only [step, Option.bind_eq_bind, Option.bind_eq_some_iff, Option.ite_none_right_eq_some] at h
    obtain ⟨l, -, -, h⟩ := h
    cases h
    exact .quiet_update rfl (funext fun _ => Server.outbound_updateLink fun _ => rfl) Server.length_updateLink.ge
  | read i n =>
    simp only [step] at h
    split at h
    · next hc =>
      simp only [Option.ite_none_right_eq_some] at h
      obtain ⟨-, h⟩ := h
      cases h
      exact .quiet_update (Server.pull?_waiting hc).symm rfl (Nat.le_refl _)
    · cases h
  | recv i k =>
    simp only [step] at h
    split at h
    · next n hc =>
      simp only [Option.bind_eq_bind, Option.bind_eq_some_iff, Option.ite_none_right_eq_some] at h
      obtain ⟨l, -, -, h⟩ := h
      cases h
      refine .quiet_update ?_ (funext fun _ => Server.outbound_updateLink fun _ => rfl) Server.length_updateLink.ge
      rw [Server.pull?, Server.pull?, hc]
    · cases h
  | again i =>
    simp only [step] at h
    split at h
    · next n hc =>
      simp only [Option.bind_eq_bind, Option.bind_eq_some_iff, Option.ite_none_right_eq_some] at h
      obtain ⟨l, -, -, h⟩ := h
      cases h
      refine .quiet_update ?_ rfl (Nat.le_refl _)
      rw [Server.pull?, Server.pull?, hc]
    · cases h
  | line i =>
    simp only [step] at h
    split at h
    · next n found hc =>
      obtain ⟨c₁, hc₁, heq⟩ := Option.map_eq_some_iff.mp h
      cases heq
      exact processLine_effect hc hc₁
    · cases h
  | write i n k =>
    simp only [step] at h
    split at h
    · next hc =>
      simp only [Option.bind_eq_bind, Option.bind_eq_some_iff, Option.ite_none_right_eq_some] at h
      obtain ⟨l, hl, -, h⟩ := h
      cases h
      exact write_effect hc hl
    · cases h
  | poll i k =>
    simp only [step] at h
    split at h
    · next n pull hc =>
      simp only [Option.ite_none_right_eq_some] at h
      obtain ⟨⟨hk, hb⟩, h⟩ := h
      cases h
      exact poll_effect hc hk hb
    · cases h
  | timeout i =>
    simp only [step] at h
    split at h
    · next n pull hc =>
      cases h
      exact timeout_effect hc
    · cases h

theorem Effect.ownLinks {o : Option (ι × ι)} (e : Effect c c' o) (h : OwnLinks c) : OwnLinks c' := by
  cases e with
  | quiet hp ho hl => exact h.keep hl fun a p ha => ⟨p, by rw [← hp, ha], rfl, rfl⟩
  | @opened i pull hi hr hk hp ho hl hn =>
    -- The new pull has the first connection number that its peer had not given out.
    have old : ∀ a p, pulls c' a = some p → a ≠ i → pulls c a = some p := by
      intro a p ha hne
      rwa [hp, Function.update_of_ne hne] at ha
    have new : ∀ p, pulls c' i = some p → p = pull := by
      intro p ha
      rw [hp, Function.update_self] at ha
      exact (Option.some.inj ha).symm
    constructor
    · intro a p ha
      by_cases hai : a = i
      · subst hai
        rw [new p ha, hk]
        exact hn
      · exact Nat.lt_of_lt_of_le (h.bound a p (old a p ha hai)) (hl _)
    · intro a b p q ha hb hpeer hlink
      by_cases hai : a = i <;> by_cases hbi : b = i
      · rw [hai, hbi]
      · subst hai
        have hlt := h.bound b q (old b q hb hbi)
        rw [← hpeer, ← hlink, new p ha, hk] at hlt
        exact absurd hlt (Nat.lt_irrefl _)
      · subst hbi
        have hlt := h.bound a p (old a p ha hai)
        rw [hpeer, hlink, new q hb, hk] at hlt
        exact absurd hlt (Nat.lt_irrefl _)
      · exact h.own a b p q (old a p ha hai) (old b q hb hbi) hpeer hlink
  | sent bytes hi hp ho hl => exact h.keep (fun a => by rw [hl]) fun a p ha => ⟨p, by rw [← hp, ha], rfl, rfl⟩
  | @received i pull k hi hk hb hp ho hl =>
    refine h.keep (fun a => by rw [hl]) fun a p ha => ?_
    rw [hp] at ha
    by_cases hai : a = i
    · subst hai
      rw [Function.update_self] at ha
      cases ha
      exact ⟨pull, hi, rfl, rfl⟩
    · rw [Function.update_of_ne hai] at ha
      exact ⟨p, ha, rfl, rfl⟩
  | @finished i pull hi hr hp ho hl =>
    refine h.keep (fun a => by rw [hl]) fun a p ha => ?_
    rw [hp] at ha
    by_cases hai : a = i
    · subst hai
      rw [Function.update_self] at ha
      cases ha
    · rw [Function.update_of_ne hai] at ha
      exact ⟨p, ha, rfl, rfl⟩

/-- A step that opens no pull makes no server wait for another. -/
theorem Effect.waitsFor_of_none (e : Effect c c' none) (h : OwnLinks c) (hw : WaitsFor c' a b) : WaitsFor c a b := by
  obtain ⟨p, hpa, rfl, hresp, hout⟩ := hw
  cases e with
  | quiet hp ho hl => exact ⟨p, by rw [← hp, hpa], rfl, hresp, by rw [← ho, hout]⟩
  | @sent i n bytes hi hp ho hl =>
    refine ⟨p, by rw [← hp, hpa], rfl, hresp, ?_⟩
    rw [ho] at hout
    by_cases hj : p.peer = i
    · subst hj
      rw [Function.update_self] at hout
      by_cases hn : p.link = n
      · subst hn
        rw [Function.update_self] at hout
        exact (List.append_eq_nil_iff.mp hout).1
      · rwa [Function.update_of_ne hn] at hout
    · rwa [Function.update_of_ne hj] at hout
  | @received i pull k hi hk hb hp ho hl =>
    by_cases hai : a = i
    · -- The receiver has a response now.
      subst hai
      rw [hp, Function.update_self] at hpa
      cases hpa
      have hlen := congrArg List.length hresp
      simp only [List.length_append, List.length_take, List.length_nil] at hlen
      omega
    · rw [hp, Function.update_of_ne hai] at hpa
      refine ⟨p, hpa, rfl, hresp, ?_⟩
      rw [ho] at hout
      by_cases hj : p.peer = pull.peer
      · rw [hj, Function.update_self] at hout
        have hn : p.link ≠ pull.link := fun hlink => hai (h.own a i p pull hpa hi hj hlink)
        rw [hj]
        rwa [Function.update_of_ne hn] at hout
      · rwa [Function.update_of_ne hj] at hout
  | @finished i pull hi hr hp ho hl =>
    by_cases hai : a = i
    · subst hai
      rw [hp, Function.update_self] at hpa
      cases hpa
    · rw [hp, Function.update_of_ne hai] at hpa
      exact ⟨p, hpa, rfl, hresp, by rw [← ho, hout]⟩

theorem Effect.waitsFor_of_some {peer : ι} (e : Effect c c' (some (i, peer))) (a b : ι) :
    WaitsFor c' a b ↔ WaitsFor c a b ∨ a = i ∧ b = peer := by
  cases e with
  | @opened i pull hi hr hk hp ho hl hn =>
    unfold WaitsFor
    rw [hp, ho]
    by_cases hai : a = i
    · subst hai
      rw [Function.update_self, hi]
      constructor
      · rintro ⟨p, hpa, rfl, -, -⟩
        cases hpa
        exact .inr ⟨rfl, rfl⟩
      · rintro (⟨p, hpa, -⟩ | ⟨-, rfl⟩)
        · cases hpa
        · -- The peer has sent nothing on a connection that it has not seen.
          refine ⟨pull, rfl, rfl, hr, ?_⟩
          rw [hk]
          simp [outbounds, accepted, Server.outbound]
    · simp [hai]

/-- A server that waits for one that waits itself goes on waiting. -/
theorem Effect.keep {o : Option (ι × ι)} {d : ι} (e : Effect c c' o) (hab : WaitsFor c a b) (hbd : WaitsFor c b d) :
    WaitsFor c' a b := by
  obtain ⟨p, hpa, rfl, hresp, hout⟩ := hab
  obtain ⟨q, hqb, -, -, -⟩ := hbd
  cases e with
  | quiet hp ho hl => exact ⟨p, by rw [hp, hpa], rfl, hresp, by rw [ho, hout]⟩
  | @opened i pull hi hr hk hp ho hl hn =>
    have hai : a ≠ i := by
      rintro rfl
      rw [hi] at hpa
      cases hpa
    exact ⟨p, by rw [hp, Function.update_of_ne hai, hpa], rfl, hresp, by rw [ho, hout]⟩
  | @sent i n bytes hi hp ho hl =>
    -- Only a server that does not wait sends.
    have hpi : p.peer ≠ i := by
      rintro rfl
      rw [hi] at hqb
      cases hqb
    exact ⟨p, by rw [hp, hpa], rfl, hresp, by rw [ho, Function.update_of_ne hpi, hout]⟩
  | @received i pull k hi hk hb hp ho hl =>
    have hlink : ¬(p.peer = pull.peer ∧ p.link = pull.link) := by
      rintro ⟨hpeer, hlink⟩
      rw [← hpeer, ← hlink, hout] at hb
      exact absurd hb (Nat.not_le_of_lt hk)
    have hai : a ≠ i := by
      rintro rfl
      rw [hi] at hpa
      cases hpa
      exact hlink ⟨rfl, rfl⟩
    refine ⟨p, by rw [hp, Function.update_of_ne hai, hpa], rfl, hresp, ?_⟩
    rw [ho]
    by_cases hj : p.peer = pull.peer
    · have hn : p.link ≠ pull.link := fun hn => hlink ⟨hj, hn⟩
      rwa [hj, Function.update_self, Function.update_of_ne hn, ← hj]
    · rwa [Function.update_of_ne hj]
  | @finished i pull hi hr hp ho hl =>
    have hai : a ≠ i := by
      rintro rfl
      rw [hi] at hpa
      cases hpa
      exact hr hresp
    exact ⟨p, by rw [hp, Function.update_of_ne hai, hpa], rfl, hresp, by rw [ho, hout]⟩

theorem step_deadlocked {e : Event ι} {u : Unit} (h : step D c e = some (c', u)) (hd : Deadlocked c) : Deadlocked c' :=
  Cyclic.keep (fun _ _ _ hab hbd => (step_effect h).keep hab hbd) hd

/-- No event ends a deadlock: the timeout of `select` does not, and no reply can be sent. -/
theorem deadlock_stays {events : List (Event ι)} {us : List Unit} (hd : Deadlocked c)
    (h : Run.runs (step D) c events = some (c', us)) : Deadlocked c' := by
  have hok : ∀ e ∈ events, (fun _ : Event ι => True) e := fun _ _ => trivial
  exact Run.runs_inv (fun _ _ _ _ hd _ hs => step_deadlocked hs hd) h hok hd

theorem step_free_iff {e : Event ι} {u : Unit} (hown : OwnLinks c) (hc : ¬Deadlocked c)
    (h : step D c e = some (c', u)) : ¬Deadlocked c' ↔ PullsFree D c e := by
  have heff := step_effect h
  unfold PullsFree
  cases ho : opens D c e with
  | none =>
    rw [ho] at heff
    have hfree : ¬Deadlocked c' := fun hd => hc (hd.mono fun a b hw => heff.waitsFor_of_none hown hw)
    simp [hfree]
  | some o =>
    obtain ⟨i, peer⟩ := o
    rw [ho] at heff
    have hiff : Deadlocked c' ↔ ReflTransGen (WaitsFor c) peer i := cyclic_insert_iff heff.waitsFor_of_some hc
    simp [hiff]

/-- Over every run of any number of servers, whatever clients send and in whatever order things happen: no state
    reached is deadlocked exactly when no pull starts from a server that waits for the one that starts it. -/
theorem sync_deadlock_free_iff (D : Dispatcher σ ι) (engines : ι → σ) (events : List (Event ι)) :
    Run.Throughout (step D) (fun c => ¬Deadlocked c) (start engines) events ↔
      Run.Each (step D) (PullsFree D) (start engines) events := by
  refine Run.throughout_iff_each (I := OwnLinks) (fun _ _ _ _ hown hs => (step_effect hs).ownLinks hown)
    (fun _ _ _ _ hown hc hs => step_free_iff hown hc hs) (OwnLinks.start engines) ?_
  -- At the start no server waits.
  rintro ⟨a, ha⟩
  obtain ⟨b, ⟨pull, hpull, -⟩, -⟩ := TransGen.head'_iff.mp ha
  cases hpull

end Effect

/-- Two servers with empty engines, at two ports of one address. -/
def twoServers : Dispatcher Unit Bool where
  connect ip port :=
    if ip = ascii "10.0.0.1" ∧ port = ascii "9001" then .reaches false
    else if ip = ascii "10.0.0.1" ∧ port = ascii "9002" then .reaches true
    else .fails
  getAll _ _ := ascii "EMPTY"
  merge _ _ _ := ((), ascii "SUCCESS")
  other _ _ := ((), ascii "NO EXIST")

/-- A client of each server asks it to pull from the other one, and both start before either answers. -/
def crossedSyncs : List (Event Bool) :=
  let toFirst := ascii "SYNC 10.0.0.1 9002" ++ [newline]
  let toSecond := ascii "SYNC 10.0.0.1 9001" ++ [newline]
  [.connect false, .connect true, .clientSend false 0 toFirst, .clientSend true 0 toSecond,
    .read false 0, .recv false toFirst.length, .read true 0, .recv true toSecond.length, .line false, .line true]

theorem sync_deadlock_crossed :
    ∃ c us, Run.runs (step twoServers) (start fun _ => ()) crossedSyncs = some (c, us) ∧ Deadlocked c := by
  have h : (Run.runs (step twoServers) (start fun _ => ()) crossedSyncs).map (fun r =>
      (pulls r.1 false, pulls r.1 true, outbounds r.1 true 1, outbounds r.1 false 1)) =
      some (some ⟨.array, true, 1, []⟩, some ⟨.array, false, 1, []⟩, [], []) := by decide +kernel
  obtain ⟨⟨c, us⟩, hrun, hviews⟩ := Option.map_eq_some_iff.mp h
  simp only [Prod.mk.injEq] at hviews
  obtain ⟨hfirst, hsecond, houtFirst, houtSecond⟩ := hviews
  have hfs : WaitsFor c false true := ⟨_, hfirst, rfl, rfl, houtFirst⟩
  have hsf : WaitsFor c true false := ⟨_, hsecond, rfl, rfl, houtSecond⟩
  exact ⟨c, us, hrun, Cyclic.of_loops hfs (.single hsf)⟩

end Cluster
end KvStore
