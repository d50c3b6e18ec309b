import KvStore.Reactor
import KvStore.Theorems.Epoll

/-! When a connection that was unregistered is not used again: the handlers leave it alone exactly when the end of the
    stream comes in an event of its own and `send` neither fails nor takes nothing. -/

namespace KvStore

/-- Once the connection is unregistered nothing runs on it but its destructor, and its descriptor is closed once at
    most. -/
def Unused (acts : List Act) : Prop :=
  (∀ before after, acts = before ++ .unregister :: after → ∀ a ∈ after, a = .destroy) ∧ acts.countP Act.closes ≤ 1

/-- The acts of an object that is still registered. -/
def Quiet (acts : List Act) : Prop := ∀ a ∈ acts, a ≠ .unregister ∧ a.closes = false

/-- `send` takes something, or finds the socket full. -/
def Send.Goes : Send → Prop
  | .sent n => 0 < n
  | .again => True
  | .error => False

instance : (result : Send) → Decidable result.Goes
  | .sent n => inferInstanceAs (Decidable (0 < n))
  | .again => isTrue trivial
  | .error => isFalse id

/-- A read event that finds the end of the stream or an error has no other bit that is tested, and `send` neither
    fails nor takes nothing. -/
def Delivery.Clean (d : Delivery) : Prop :=
  (d.Has epollIn → d.readEnd = .again ∨ ¬d.Has epollOut ∧ ¬d.Has epollErr) ∧ (d.Has epollOut → d.result.Goes)

/-! ### Acts -/

section Acts
variable {p q : List Act}

theorem Quiet.append (hp : Quiet p) (hq : Quiet q) : Quiet (p ++ q) := fun a ha =>
  (List.mem_append.mp ha).elim (hp a) (hq a)

theorem Quiet.countP (h : Quiet p) : p.countP Act.closes = 0 :=
  List.countP_eq_zero.mpr fun a ha => by simp [(h a ha).2]

theorem Quiet.unused (h : Quiet p) : Unused p := by
  refine ⟨fun before after heq => absurd rfl (h .unregister ?_).1, h.countP ▸ Nat.zero_le 1⟩
  simp [heq]

/-- What is done before the unregistration does not matter. -/
theorem Quiet.unused_append (h : Quiet p) : Unused (p ++ q) ↔ Unused q := by
  refine and_congr ⟨fun hu before after heq => hu (p ++ before) after ?_, fun hu before after heq => ?_⟩ ?_
  · rw [heq, List.append_assoc]
  · rcases List.append_eq_append_iff.mp heq with ⟨r, rfl, hq⟩ | ⟨r, hp, hq⟩
    · exact hu r after hq
    · -- the unregistration would be in the quiet part
      cases r with
      | nil => exact hu [] after hq.symm
      | cons a r =>
        obtain ⟨rfl, -⟩ := List.cons.inj hq
        exact absurd rfl (h .unregister (by simp [hp])).1
  · rw [List.countP_append, h.countP, Nat.zero_add]

/-- Nothing may follow the unregistration and the destructor. -/
theorem unused_unregister : Unused (.unregister :: .destroy :: q) ↔ q = [] := by
  constructor
  · rintro ⟨hafter, hcount⟩
    cases q with
    | nil => rfl
    | cons a q =>
      obtain rfl : a = .destroy := hafter [] _ rfl a (by simp)
      have htwo : (2 : Nat) ≤ List.countP Act.closes (.unregister :: .destroy :: .destroy :: q) := by
        simp [List.countP_cons, Act.closes]
      exact absurd (Nat.le_trans htwo hcount) (by decide)
  · rintro rfl
    refine ⟨fun before after heq a ha => ?_, by decide⟩
    cases before with
    | nil =>
      obtain ⟨-, rfl⟩ := List.cons.inj heq
      exact List.mem_singleton.mp ha
    | cons b before =>
      obtain ⟨-, heq⟩ := List.cons.inj heq
      cases before with
      | nil => cases heq
      | cons b before => cases before <;> cases heq

end Acts

/-! ### Events -/

/-- A read event that leaves the connection registered only reads; one that ends it unregisters it last. -/
theorem readActs_eq (chunks : List Bytes) (e : ReadEnd) : ∃ p, Quiet p ∧
    readActs true (chunks.map .data ++ [e.recv]) = p ++ if e = .again then [] else [.unregister, .destroy] := by
  induction chunks with
  | nil =>
    refine ⟨[.recv], by simp [Quiet, Act.closes], ?_⟩
    cases e <;> rfl
  | cons chunk chunks ih =>
    obtain ⟨p, hp, hacts⟩ := ih
    have hq : Quiet [.recv, .process] := by simp [Quiet, Act.closes]
    exact ⟨.recv :: .process :: p, hq.append hp, by simp [readActs, hacts]⟩

section Event
variable {σ : Type} {processCommand : σ → Bytes → σ × Bytes} {h : Handler σ} {d : Delivery} {c : Connection}

theorem handleRead_registered (processCommand : σ → Bytes → σ × Bytes) (s : σ) (hc : c.registered = true)
    (chunks : List Bytes) (e : ReadEnd) :
    (handleRead processCommand (chunks.map .data ++ [e.recv]) s c).2.registered = decide (e = .again) := by
  induction chunks generalizing s c with
  | nil => cases e <;> simp [handleRead, ReadEnd.recv, hc]
  | cons chunk chunks ih =>
    simp only [List.map_cons, List.cons_append, handleRead, processReceivedData_eq]
    exact ih _ hc

theorem handleWrite_registered (result : Send) (c : Connection) :
    (handleWrite result c).1.registered = (c.registered && decide result.Goes) := by
  cases result with
  | sent n => by_cases hn : 0 < n <;> simp [handleWrite, Send.Goes, hn]
  | again => exact (Bool.and_true _).symm
  | error => exact (Bool.and_false _).symm

theorem writeActs_of_goes {registered : Bool} {result : Send} (hr : result.Goes) :
    Quiet (writeActs registered result) := by
  cases result with
  | sent n =>
    have hn : 0 < n := hr
    rw [writeActs, if_pos hn]
    simp [Quiet, Act.closes]
  | again => simp [writeActs, Quiet, Act.closes]
  | error => exact absurd hr id

theorem writeActs_of_not_goes {result : Send} (hr : ¬result.Goes) :
    writeActs true result = [.modify, .send] ++ [.unregister, .destroy, .close] := by
  cases result with
  | sent n =>
    have hn : ¬0 < n := hr
    rw [writeActs, if_neg hn]
    rfl
  | again => exact absurd trivial hr
  | error => rfl

theorem writeActs_ne_nil (registered : Bool) (result : Send) : writeActs registered result ≠ [] := by
  cases result with
  | sent n => by_cases hn : 0 < n <;> simp [writeActs, hn]
  | again => simp [writeActs]
  | error => simp [writeActs]

theorem unregisterActs_ne_nil (registered : Bool) : unregisterActs registered ≠ [] := by
  cases registered <;> simp [unregisterActs]

/-- What the write handler and the error handler do after the read handler. -/
def Delivery.actsAfterRead (d : Delivery) (registered : Bool) : List Act :=
  (if d.Has epollOut then writeActs registered d.result else []) ++
    if d.Has epollErr then unregisterActs (registered && (!d.Has epollOut || d.result.Goes)) else []

/-- What an event does with a registered object. -/
def Delivery.acts (d : Delivery) : List Act :=
  if d.Has epollIn then
    readActs true (d.chunks.map .data ++ [d.readEnd.recv]) ++ d.actsAfterRead (d.readEnd = .again)
  else d.actsAfterRead true

/-- After the write event and the error event of an object that is still registered. -/
theorem Delivery.unused_actsAfterRead (d : Delivery) :
    Unused (d.actsAfterRead true) ↔ (d.Has epollOut → d.result.Goes) := by
  have herror : Unused (if d.Has epollErr then unregisterActs true else []) := by
    split
    · exact unused_unregister.mpr rfl
    · exact Quiet.unused (by simp [Quiet])
  by_cases hout : d.Has epollOut
  · by_cases hr : d.result.Goes
    · simpa [actsAfterRead, hout, hr, (writeActs_of_goes hr).unused_append] using herror
    · have hq : Quiet [.modify, .send] := by simp [Quiet, Act.closes]
      have hacts : d.actsAfterRead true = [.modify, .send] ++
          .unregister :: .destroy :: .close :: if d.Has epollErr then unregisterActs false else [] := by
        simp [actsAfterRead, hout, hr, writeActs_of_not_goes]
      rw [hacts, hq.unused_append, unused_unregister]
      simp [hout, hr]
  · simpa [actsAfterRead, hout] using herror

/-- Nothing follows a read event that has unregistered the object exactly when no other bit is tested positive. -/
theorem Delivery.actsAfterRead_eq_nil (d : Delivery) (registered : Bool) :
    d.actsAfterRead registered = [] ↔ ¬d.Has epollOut ∧ ¬d.Has epollErr := by
  simp [actsAfterRead, writeActs_ne_nil, unregisterActs_ne_nil]

theorem Delivery.unused_acts (d : Delivery) : Unused d.acts ↔ d.Clean := by
  by_cases hin : d.Has epollIn
  · obtain ⟨p, hp, hacts⟩ := readActs_eq d.chunks d.readEnd
    by_cases he : d.readEnd = .again
    · rw [acts, if_pos hin, hacts, if_pos he, List.append_nil, hp.unused_append, decide_eq_true he,
        d.unused_actsAfterRead]
      simp [Clean, he]
    · have hgoes : ¬d.Has epollOut → d.Has epollOut → d.result.Goes := fun hno hout => absurd hout hno
      simp only [acts, Clean, hin, hacts, he, if_true, if_false, List.append_assoc, hp.unused_append, List.cons_append,
        List.nil_append, unused_unregister, d.actsAfterRead_eq_nil, true_implies, false_or]
      exact ⟨fun h => ⟨h, hgoes h.1⟩, fun h => h.1⟩
  · simp [acts, Clean, hin, d.unused_actsAfterRead]

theorem handleEvent_acts (hreg : h.conn.registered = true) :
    (h.handleEvent processCommand d).acts = h.acts ++ d.acts := by
  have hread := handleRead_registered processCommand h.engines hreg d.chunks d.readEnd
  by_cases hin : d.Has epollIn <;> by_cases hout : d.Has epollOut <;> by_cases herr : d.Has epollErr <;>
    simp [Handler.handleEvent, Delivery.acts, Delivery.actsAfterRead, Handler.handleRead, Handler.handleWrite,
      Handler.handleError, handleWrite_registered, hin, hout, herr, hreg, hread]

theorem handleEvent_registered (hreg : h.conn.registered = true) :
    (h.handleEvent processCommand d).conn.registered = true ↔
      (d.Has epollIn → d.readEnd = .again) ∧ (d.Has epollOut → d.result.Goes) ∧ ¬d.Has epollErr := by
  have hread := handleRead_registered processCommand h.engines hreg d.chunks d.readEnd
  by_cases hin : d.Has epollIn <;> by_cases hout : d.Has epollOut <;> by_cases herr : d.Has epollErr <;>
    simp [Handler.handleEvent, Handler.handleRead, Handler.handleWrite, Handler.handleError, handleWrite_registered,
      hin, hout, herr, hreg, hread]

/-- An event that leaves the object registered does nothing else than receive, process and send. -/
theorem Delivery.quiet_acts (hin : d.Has epollIn → d.readEnd = .again) (hout : d.Has epollOut → d.result.Goes)
    (herr : ¬d.Has epollErr) : Quiet d.acts := by
  have hrest (registered : Bool) : Quiet (d.actsAfterRead registered) := by
    rw [actsAfterRead, if_neg herr, List.append_nil]
    split
    · next ho => exact writeActs_of_goes (hout ho)
    · simp [Quiet]
  rw [acts]
  split
  · next hi =>
    obtain ⟨p, hp, hacts⟩ := readActs_eq d.chunks d.readEnd
    rw [hacts, if_pos (hin hi), List.append_nil]
    exact hp.append (hrest _)
  · exact hrest true

/-- While the object is registered, all that was done with it is quiet. -/
def Handler.Inv (h : Handler σ) : Prop := h.conn.registered = true → Quiet h.acts

theorem Handler.step_inv {h' : Handler σ} {o : Unit} (hi : h.Inv) (hs : h.step processCommand d = some (h', o)) :
    h'.Inv ∧ (Unused h'.acts ↔ d.Clean) := by
  simp only [Handler.step] at hs
  split at hs
  · next hreg =>
    cases hs
    rw [Handler.Inv, handleEvent_acts hreg, (hi hreg).unused_append, handleEvent_registered hreg]
    exact ⟨fun ⟨hin, hout, herr⟩ => (hi hreg).append (Delivery.quiet_acts hin hout herr), d.unused_acts⟩
  · cases hs

/-- Over every run from an accepted connection, whatever the replies, the masks and the results of the system calls:
    in every state reached the connection was not used after its unregistration, exactly when every event is clean. -/
theorem unused_iff_clean (processCommand : σ → Bytes → σ × Bytes) (s : σ) (deliveries : List Delivery) :
    Run.Throughout (Handler.step processCommand) (fun h => Unused h.acts) (Handler.start s) deliveries ↔
      Run.Each (Handler.step processCommand) (fun _ d => d.Clean) (Handler.start s) deliveries :=
  Run.throughout_iff_each (I := Handler.Inv) (fun _ _ _ _ hi hs => (Handler.step_inv hi hs).1)
    (fun _ _ _ _ hi _ hs => (Handler.step_inv hi hs).2) (fun _ => by simp [Handler.start, Quiet])
    (Quiet.unused (by simp [Handler.start, Quiet]))

end Event

/-- The peer has reset an idle connection: `recv` fails and unregisters the connection, and then `handle_error` runs. -/
theorem unused_resetPeer :
    let processCommand : Unit → Bytes → Unit × Bytes := fun _ _ => ((), [])
    ∃ h outs, Run.runs (Handler.step processCommand) (Handler.start ()) [⟨0x19, [], .error, .again⟩] = some (h, outs) ∧
      h.acts = [.recv, .unregister, .destroy, .unregister] ∧ ¬Unused h.acts := by
  refine ⟨_, _, rfl, by decide, fun hu => ?_⟩
  have hlast := hu.1 [.recv] [.destroy, .unregister] (by decide) .unregister (by decide)
  cases hlast

end KvStore
