import KvStore.Theorems.Lines
import KvStore.Theorems.Sound

/-! # Four engines behind the same commands

The same requests to the four engines, each in the command names of the engine: every reply is determined by the map
from keys to values that all four hold, but for the reply to a `DEL` of a key that is not there, and for a `RANGE` that
finds strings too short for the copies of the tree and the hash table. -/

namespace KvStore
open FiniteMap

/-- A line with one of the six commands that the engines share. -/
inductive Request where
  | set (key value : CString)
  | get (key : CString)
  | mod (key value : CString)
  | del (key : CString)
  | exist (key : CString)
  | range (startKey endKey : CString)

namespace Request
open Dispatch

/-- The tokens of the line, with the command name of the engine. -/
def tokens (kind : EngineKind) : Request → List Bytes
  | .set k v => [kind.commandName .set, k.bytes, v.bytes]
  | .get k => [kind.commandName .get, k.bytes]
  | .mod k v => [kind.commandName .mod, k.bytes, v.bytes]
  | .del k => [kind.commandName .del, k.bytes]
  | .exist k => [kind.commandName .exist, k.bytes]
  | .range a b => [kind.commandName .range, a.bytes, b.bytes]

/-- A string of ASCII characters, of at most 255 bytes. -/
def Argument (s : CString) : Prop := (∀ b ∈ s.bytes, b < 128) ∧ s.strlen ≤ 255

instance (s : CString) : Decidable (Argument s) :=
  decidable_of_iff (s.bytes.all (· < 128) = true ∧ s.strlen ≤ 255) (by simp [Argument])

def Ok : Request → Prop
  | .set k v => Argument k ∧ Argument v
  | .get k => Argument k
  | .mod k v => Argument k ∧ Argument v
  | .del k => Argument k
  | .exist k => Argument k
  | .range a b => Argument a ∧ Argument b

/-- The key that the request may add. -/
def newKey : Request → Option CString
  | .set k _ => some k
  | _ => none

/-- What the request makes of the map from keys to values. -/
def apply (m : Map CString CString) : Request → Map CString CString
  | .set k v => if m k = none then m.insert k v else m
  | .get _ => m
  | .mod k v => if m k = none then m else m.insert k v
  | .del k => m.erase k
  | .exist _ => m
  | .range _ _ => m

/-- The reply to a request where the map has the values. Nothing is said of a `DEL` of a key that is not there. -/
def Answer (m : Map CString CString) : Request → Bytes → Prop
  | .set k _, r => r = if m k = none then ascii "SUCCESS" else ascii "EXIST"
  | .get k, r => r = (m k).elim (ascii "NO EXIST") responseBuf
  | .mod k _, r => r = if m k = none then ascii "ERROR" else ascii "SUCCESS"
  | .del k, r => m k ≠ none → r = ascii "SUCCESS"
  | .exist k, r => r = if m k = none then ascii "NO EXIST" else ascii "EXIST"
  | .range a b, r =>
    if b < a then r = ascii "ERROR"
    else ∃ es : List (CString × CString), Lists es (fun k => if a ≤ k ∧ k ≤ b then m k else none) ∧
      (es.Pairwise fun x y => x.1 < y.1) ∧
      r = if es = [] then ascii "EMPTY" else rangeLines (es.map fun e => ⟨e.1, e.2, 0⟩)

/-- The map has the key of a `DEL`. -/
def Stored (m : Map CString CString) : Request → Prop
  | .del k => m k ≠ none
  | _ => True

/-- What a `RANGE` finds are long keys and values. -/
def FindsLong (m : Map CString CString) : Request → Prop
  | .range a b => ∀ k v, a ≤ k → k ≤ b → m k = some v → Long k ∧ Long v
  | _ => True

/-- The engine can copy what a `RANGE` finds. -/
def CopiedBy (kind : EngineKind) (m : Map CString CString) : Request → Prop
  | .range a b => ∀ k v, a ≤ k → k ≤ b → m k = some v → kind.Copyable k ∧ kind.Copyable v
  | _ => True

/-- The property holds of each of the requests for the map that it meets. -/
def All (P : Map CString CString → Request → Prop) (m : Map CString CString) (rs : List Request) : Prop :=
  Run.Along (fun m r => r.apply m) P m rs

section Replies
variable {kind : EngineKind} {m : Map CString CString} {r : Request} {x y : Bytes}

theorem FindsLong.copiedBy (h : r.FindsLong m) : r.CopiedBy kind m := by
  cases r with
  | range a b =>
    cases kind with
    | array => exact fun _ _ _ _ _ => ⟨trivial, trivial⟩
    | rbtree => exact h
    | hash => exact h
    | skiptable => exact fun _ _ _ _ _ => ⟨trivial, trivial⟩
  | _ => trivial

/-- The tree copies long strings only. -/
theorem CopiedBy.findsLong (h : r.CopiedBy .rbtree m) : r.FindsLong m := by
  cases r with
  | range a b => exact h
  | _ => trivial

theorem copiedBy_range_iff {m : Map CString Entry} {a b : CString} :
    (Request.range a b).CopiedBy kind (m.mapVal Entry.value) ↔ MapOf kind.Copyable (between m a b) := by
  constructor
  · intro h k e hm
    simp only [between, Option.ite_none_right_eq_some] at hm
    exact h k e.value hm.1.1 hm.1.2 (by simp [hm.2])
  · intro h k v ha hb hv
    rw [Map.mapVal_apply, Option.map_eq_some_iff] at hv
    obtain ⟨e, he, rfl⟩ := hv
    exact h k e (by simp [between, ha, hb, he])

/-- The map determines the reply. -/
theorem Answer.unique (hx : r.Answer m x) (hy : r.Answer m y) (hr : r.Stored m) : x = y := by
  cases r with
  | set k v => exact hx.trans hy.symm
  | get k => exact hx.trans hy.symm
  | mod k v => exact hx.trans hy.symm
  | del k => exact (hx hr).trans (hy hr).symm
  | exist k => exact hx.trans hy.symm
  | range a b =>
    simp only [Answer] at hx hy
    split at hx
    · next hlt =>
      rw [if_pos hlt] at hy
      exact hx.trans hy.symm
    · next hlt =>
      rw [if_neg hlt] at hy
      obtain ⟨es, hl, hs, rfl⟩ := hx
      obtain ⟨es', hl', hs', rfl⟩ := hy
      rw [hl.eq_of_increasing hl' hs hs']

end Replies

end Request

/-! ### What one engine answers -/

section Arguments
variable {kind : EngineKind} {k v : CString}

theorem argument_key (h : Request.Argument k) : kind.Key k := by
  cases kind with
  | array => trivial
  | rbtree => trivial
  | hash => exact slotInRange_of_ascii h.1 (h.2.trans_lt (by decide))
  | skiptable => exact h.2

theorem argument_val (h : Request.Argument v) : kind.Val v := by
  cases kind with
  | array => trivial
  | rbtree => trivial
  | hash => trivial
  | skiptable => exact h.2

theorem modifyAbsent_neg (kind : EngineKind) (n : Nat) : kind.answers.modifyAbsent n < 0 := by
  cases kind with
  | array =>
    show (if n = 0 then (-2 : Int) else -4) < 0
    split <;> decide
  | rbtree => exact Int.negSucc_lt_zero 1
  | hash => exact Int.negSucc_lt_zero 1
  | skiptable => exact Int.negSucc_lt_zero 0

theorem existAbsent_ne (kind : EngineKind) : kind.answers.existAbsent ≠ 0 := by
  cases kind <;> decide

/-- Every engine has room for a key when less keys than the array has slots are there. -/
theorem full_eq_none {n : Nat} (h : n < kvsArraySize) : kind.answers.full n = none := by
  refine kind.bounds.takes h ?_
  cases kind with
  | array => exact Nat.le_refl kvsArraySize
  | rbtree => trivial
  | hash => trivial
  | skiptable => trivial

end Arguments

/-- The store holds the values of the map. -/
def EngineKind.Shows (kind : EngineKind) (s : kind.Store) (m : Map CString CString) : Prop :=
  ∃ m', kind.Holds s m' ∧ m'.mapVal Entry.value = m

/-- What an engine replies to a `DEL` of a key that is not there. The hash tells it from a `DEL` of a key that is there
    only when the chain of the slot is empty. -/
def EngineKind.AbsentReply : EngineKind → Bytes → Prop
  | .array, x => x = ascii "NO EXIST"
  | .rbtree, x => x = ascii "ERROR"
  | .hash, x => x = ascii "SUCCESS" ∨ x = ascii "ERROR"
  | .skiptable, x => x = ascii "ERROR"

namespace EngineKind.Shows
open Request
variable {kind : EngineKind} {s : kind.Store} {m : Map CString CString} {env : Env} {k v a b : CString}

theorem set (h : kind.Shows s m) (hk : Argument k) (hv : Argument v) (henv : env.Allocates)
    (hroom : m.size < kvsArraySize) : ∃ s' n, kind.engine.set env s k v = some (s', n) ∧
      kind.Shows s' ((Request.set k v).apply m) ∧ (Request.set k v).Answer m (setReply n) := by
  obtain ⟨m', h, rfl⟩ := h
  rw [Map.size_mapVal] at hroom
  rw [kind.laws.set_eq]
  cases hm : m' k with
  | some e =>
    refine ⟨s, 1, kind.laws.set_present h (argument_key hk) (argument_val hv) (full_eq_none hroom) hm, ⟨m', h, ?_⟩, ?_⟩
    · simp [apply, hm]
    · simp [Answer, hm, setReply]
  | none =>
    obtain ⟨s', hs, h'⟩ :=
      kind.laws.set_absent (t := env.now) h (argument_key hk) (argument_val hv) henv (full_eq_none hroom) hm
    refine ⟨s', 0, hs, ⟨_, h', ?_⟩, ?_⟩
    · simp [apply, hm, Map.mapVal_insert]
    · simp [Answer, hm, setReply]

theorem get (h : kind.Shows s m) (hk : Argument k) :
    ∃ x, (kind.engine.get s k).bind getReply = some x ∧ (Request.get k).Answer m x := by
  obtain ⟨m', h, rfl⟩ := h
  rw [kind.laws.get_eq h (argument_key hk), Option.bind_some]
  cases hm : m' k with
  | some e => exact ⟨_, rfl, by simp [Answer, hm]⟩
  | none => exact ⟨_, rfl, by simp [Answer, hm]⟩

theorem mod (h : kind.Shows s m) (hk : Argument k) (hv : Argument v) (henv : env.Allocates) :
    ∃ s' n, kind.engine.modify env s k v = some (s', n) ∧
      kind.Shows s' ((Request.mod k v).apply m) ∧ (Request.mod k v).Answer m (changeReply n) := by
  obtain ⟨m', h, rfl⟩ := h
  rw [kind.laws.modify_eq]
  cases hm : m' k with
  | some e =>
    obtain ⟨s', hs, h'⟩ := kind.laws.modify_present (t := env.now) h (argument_key hk) (argument_val hv) henv hm
    refine ⟨s', 0, hs, ⟨_, h', ?_⟩, ?_⟩
    · simp [apply, hm, Map.mapVal_insert]
    · simp [Answer, hm, changeReply]
  | none =>
    refine ⟨s, _, kind.laws.modify_absent h (argument_key hk) (argument_val hv) hm, ⟨m', h, ?_⟩, ?_⟩
    · simp [apply, hm]
    · simp [Answer, hm, changeReply, modifyAbsent_neg]

theorem absentReply {m : Map CString Entry} {n : Int} {s' : kind.Store} (h : kind.Holds s m) (hk : kind.Key k)
    (hm : m k = none) (hs : kind.engine.delete s k = some (s', n)) : kind.AbsentReply (changeReply n) := by
  cases kind with
  | array =>
    cases (arrayDeleteLaws.absent h hk hm).symm.trans hs
    rfl
  | rbtree =>
    cases (rbtreeDeleteLaws.absent h hk hm).symm.trans hs
    rfl
  | hash =>
    cases (HashHolds.delete_absent h hk hm).symm.trans hs
    split
    · exact Or.inr rfl
    · exact Or.inl rfl
  | skiptable =>
    cases (skipDeleteLaws.absent h hk hm).symm.trans hs
    rfl

theorem del (h : kind.Shows s m) (hk : Argument k) : ∃ s' n, kind.engine.delete s k = some (s', n) ∧
    kind.Shows s' ((Request.del k).apply m) ∧ (Request.del k).Answer m (changeReply n) ∧
    (m k = none → kind.AbsentReply (changeReply n)) := by
  obtain ⟨m', h, rfl⟩ := h
  obtain ⟨s', n, m'', hs, h', hzero, heq⟩ := kind.erases h (argument_key hk)
  refine ⟨s', n, hs, ⟨m'', h', heq⟩, fun hm => ?_, fun hm => ?_⟩
  · obtain rfl := hzero (by simpa using hm)
    rfl
  · exact absentReply h (argument_key hk) (by simpa using hm) hs

theorem exist (h : kind.Shows s m) (hk : Argument k) :
    ∃ n, kind.engine.exist s k = some n ∧ (Request.exist k).Answer m (existReply n) := by
  obtain ⟨m', h, rfl⟩ := h
  cases hm : m' k with
  | some e => exact ⟨0, kind.laws.exist_present h (argument_key hk) hm, by simp [Answer, hm, existReply]⟩
  | none =>
    exact ⟨_, kind.laws.exist_absent h (argument_key hk) hm, by simp [Answer, hm, existReply, existAbsent_ne]⟩

/-- The lines of a range do not show the timestamps. -/
theorem rangeLines_item (es : List (CString × Entry)) :
    rangeLines (es.map item) = rangeLines (es.map fun e => ⟨e.1, e.2.value, 0⟩) := by
  induction es with
  | nil => rfl
  | cons e es ih =>
    cases es with
    | nil => rfl
    | cons e' es => simpa [rangeLines, item] using ih

theorem range (h : kind.Shows s m) (henv : env.Allocates) (hc : (Request.range a b).CopiedBy kind m) :
    ∃ n items, kind.scan.range env s a b = some (n, items) ∧
      (Request.range a b).Answer m (rangeReply n items) := by
  obtain ⟨m', h, rfl⟩ := h
  by_cases hlt : b < a
  · exact ⟨-2, [], kind.scanLaws.reversed hlt, by simp [Answer, hlt, rangeReply]⟩
  · obtain ⟨es, n, hl, hs, hn, hrange⟩ := kind.scanLaws.range_of h henv (le_of_not_gt hlt) (copiedBy_range_iff.mp hc)
    have hvalues : (between m' a b).mapVal Entry.value =
        fun k => if a ≤ k ∧ k ≤ b then m'.mapVal Entry.value k else none := by
      funext k
      by_cases hk : a ≤ k ∧ k ≤ b <;> simp [between, hk]
    have hsorted : (es.map fun e => (e.1, e.2.value)).Pairwise fun x y => x.1 < y.1 := List.pairwise_map.mpr hs
    refine ⟨_, _, hrange, ?_⟩
    simp only [Answer, if_neg hlt]
    refine ⟨_, hvalues ▸ hl.mapVal Entry.value, hsorted, ?_⟩
    by_cases hnil : es = []
    · simp [hnil, rangeReply, hn, hn.ne']
    · simp [hnil, rangeReply, rangeLines_item]
      rfl

/-- A range that finds a string which cannot be copied ends the process. -/
theorem range_none (h : kind.Shows s m) (henv : env.Allocates) (hc : ¬(Request.range a b).CopiedBy kind m) :
    kind.scan.range env s a b = none := by
  obtain ⟨m', h, rfl⟩ := h
  refine kind.scanLaws.range_none h henv ?_ (mt copiedBy_range_iff.mpr hc)
  by_contra hlt
  exact hc fun k v ha hb _ => absurd (ha.trans hb) hlt

end EngineKind.Shows

namespace Dispatch
open Request

/-- The line has the tokens of the request, and the allocations of the call succeed. -/
def Sends (kind : EngineKind) (r : Request) (i : Input) : Prop :=
  pieces i.2.2 = r.tokens kind ∧ (i.1.env 0).Allocates

/-- What an engine replies. A `DEL` of a key that is not there is reported in its own way. -/
def Replies (kind : EngineKind) (m : Map CString CString) (r : Request) (x : Bytes) : Prop :=
  r.Answer m x ∧ (¬r.Stored m → kind.AbsentReply x)

section Step
variable {kind : EngineKind} {g : Globals} {m : Map CString CString} {r : Request} {i : Input}

theorem step_shows (h : kind.Shows (g.store kind) m) (hr : r.Ok)
    (hroom : ∀ k, r.newKey = some k → m.size < kvsArraySize) (hc : r.CopiedBy kind m) (hi : Sends kind r i) :
    ∃ g' x, step g i = some (g', x) ∧ kind.Shows (g'.store kind) (r.apply m) ∧ Replies kind m r x := by
  obtain ⟨hp, henv⟩ := hi
  rw [step]
  cases r with
  | set k v =>
    obtain ⟨s', n, hset, h', hx⟩ := h.set hr.1 hr.2 henv (hroom k rfl)
    rw [processCommand_set hp, hset]
    exact ⟨_, _, rfl, (afterCase_store _).symm ▸ h', hx, fun hr => absurd trivial hr⟩
  | get k =>
    obtain ⟨x, hget, hx⟩ := h.get hr
    rw [processCommand_get hp, hget]
    exact ⟨_, _, rfl, (afterCase_store _).symm ▸ h, hx, fun hr => absurd trivial hr⟩
  | mod k v =>
    obtain ⟨s', n, hmodify, h', hx⟩ := h.mod hr.1 hr.2 henv
    rw [processCommand_mod hp, hmodify]
    exact ⟨_, _, rfl, (afterCase_store _).symm ▸ h', hx, fun hr => absurd trivial hr⟩
  | del k =>
    obtain ⟨s', n, hdelete, h', hx, habsent⟩ := h.del hr
    rw [processCommand_del hp, hdelete]
    exact ⟨_, _, rfl, (afterCase_store _).symm ▸ h', hx, fun hm => habsent (not_not.mp hm)⟩
  | exist k =>
    obtain ⟨n, hexist, hx⟩ := h.exist hr
    rw [processCommand_exist hp, hexist]
    exact ⟨_, _, rfl, (afterCase_store _).symm ▸ h, hx, fun hr => absurd trivial hr⟩
  | range a b =>
    obtain ⟨n, items, hrange, hx⟩ := h.range henv hc
    rw [processCommand_range hp, hrange]
    exact ⟨_, _, rfl, (afterCase_store _).symm ▸ h, hx, fun hr => absurd trivial hr⟩

theorem step_none (h : kind.Shows (g.store kind) m) (hc : ¬r.CopiedBy kind m) (hi : Sends kind r i) : step g i = none := by
  obtain ⟨hp, henv⟩ := hi
  cases r with
  | range a b => rw [step, processCommand_range hp, h.range_none henv hc, Option.map_none]
  | _ => exact absurd trivial hc

end Step

/-! ### Runs -/

section Keys
variable {m : Map CString CString} {r : Request} {ks : List CString}

theorem size_le_of_keys (h : ∀ k, m k ≠ none → k ∈ ks) : m.size ≤ ks.dedup.length := by
  have hsub : {k | m k ≠ none} ⊆ (ks.toFinset : Set CString) := fun k hk => by simpa using h k hk
  have hcard := Set.ncard_le_ncard hsub ks.toFinset.finite_toSet
  rwa [Set.ncard_coe_finset, List.card_toFinset] at hcard

/-- Only a `SET` adds a key. -/
theorem keys_apply (h : ∀ k, m k ≠ none → k ∈ ks) (hr : ∀ k, r.newKey = some k → k ∈ ks) :
    ∀ k, r.apply m k ≠ none → k ∈ ks := by
  intro j hj
  by_cases hm : m j = none
  · cases r with
    | set k v =>
      by_cases hjk : j = k
      · exact hjk ▸ hr k rfl
      · rw [apply] at hj
        split at hj
        · rw [Map.insert_of_ne hjk] at hj
          exact absurd hm hj
        · exact absurd hm hj
    | get k => exact absurd hm hj
    | mod k v =>
      rw [apply] at hj
      split at hj
      · exact absurd hm hj
      · next hk =>
        have hjk : j ≠ k := fun heq => hk (heq ▸ hm)
        rw [Map.insert_of_ne hjk] at hj
        exact absurd hm hj
    | del k =>
      have hjk : j ≠ k := fun heq => hj (heq ▸ Map.erase_self)
      rw [apply, Map.erase_of_ne hjk] at hj
      exact absurd hm hj
    | exist k => exact absurd hm hj
    | range a b => exact absurd hm hj
  · exact h j hm

end Keys

/-- A property of the entries that holds of the ones that a request puts into the map. -/
theorem apply_forall {P : CString → CString → Prop} {m : Map CString CString} {r : Request}
    (h : ∀ k v, m k = some v → P k v) (hput : ∀ k v, r = .set k v ∨ r = .mod k v ∧ m k ≠ none → P k v) :
    ∀ k v, r.apply m k = some v → P k v := by
  have hinsert : ∀ {k v : CString}, P k v → ∀ j w, m.insert k v j = some w → P j w := by
    intro k v hkv j w hj
    by_cases hjk : j = k
    · subst hjk
      rw [Map.insert_self] at hj
      exact Option.some.inj hj ▸ hkv
    · rw [Map.insert_of_ne hjk] at hj
      exact h j w hj
  cases r with
  | set k v =>
    rw [Request.apply]
    split
    · exact hinsert (hput k v (Or.inl rfl))
    · exact h
  | mod k v =>
    rw [Request.apply]
    split
    · exact h
    · next hk => exact hinsert (hput k v (Or.inr ⟨rfl, hk⟩))
  | del k =>
    intro j w hj
    by_cases hjk : j = k
    · subst hjk
      rw [Request.apply, Map.erase_self] at hj
      cases hj
    · rw [Request.apply, Map.erase_of_ne hjk] at hj
      exact h j w hj
  | get k => exact h
  | exist k => exact h
  | range a b => exact h

/-- The replies of an engine that holds the values of the map at first. -/
inductive Served (kind : EngineKind) : Map CString CString → List Request → List Bytes → Prop
  | nil {m : Map CString CString} : Served kind m [] []
  | cons {m : Map CString CString} {r : Request} {rs : List Request} {x : Bytes} {xs : List Bytes} :
    Replies kind m r x → Served kind (r.apply m) rs xs → Served kind m (r :: rs) (x :: xs)

section Runs
variable {m : Map CString CString} {rs : List Request} {xs ys : List Bytes}

theorem runs_served {kind : EngineKind} {ks : List CString} {is : List Input} (hks : ks.dedup.length < kvsArraySize)
    (hsend : List.Forall₂ (Sends kind) rs is) : ∀ {g : Globals} {m : Map CString CString},
    kind.Shows (g.store kind) m → (∀ k, m k ≠ none → k ∈ ks) → (∀ r ∈ rs, r.Ok) →
    (∀ r ∈ rs, ∀ k, r.newKey = some k → k ∈ ks) → All (CopiedBy kind) m rs →
    ∃ g' xs, Run.runs step g is = some (g', xs) ∧ Served kind m rs xs := by
  induction hsend with
  | nil => exact fun _ _ _ _ _ => ⟨_, [], rfl, .nil⟩
  | @cons r i rs is hi _ ih =>
    intro g m h hm hok hnew hcopy
    obtain ⟨g₁, x, hs, h₁, hx⟩ := step_shows h (hok r List.mem_cons_self)
      (fun _ _ => (size_le_of_keys hm).trans_lt hks) hcopy.1 hi
    obtain ⟨g', xs, hrun, hserved⟩ := ih h₁ (keys_apply hm (hnew r List.mem_cons_self))
      (fun r' hr' => hok r' (List.mem_cons_of_mem r hr')) (fun r' hr' => hnew r' (List.mem_cons_of_mem r hr')) hcopy.2
    exact ⟨g', x :: xs, Run.runs_cons hs hrun, .cons hx hserved⟩

/-- In a run that returns, every range was copied. -/
theorem runs_copiedBy {kind : EngineKind} {ks : List CString} {is : List Input} (hks : ks.dedup.length < kvsArraySize)
    (hsend : List.Forall₂ (Sends kind) rs is) : ∀ {g g' : Globals} {m : Map CString CString} {xs : List Bytes},
    kind.Shows (g.store kind) m → (∀ k, m k ≠ none → k ∈ ks) → (∀ r ∈ rs, r.Ok) →
    (∀ r ∈ rs, ∀ k, r.newKey = some k → k ∈ ks) → Run.runs step g is = some (g', xs) → All (CopiedBy kind) m rs := by
  induction hsend with
  | nil => exact fun _ _ _ _ _ => trivial
  | @cons r i rs is hi _ ih =>
    intro g g' m xs h hm hok hnew hrun
    obtain ⟨g₁, x, xs', hs, hrest, -⟩ := Run.runs_cons_inv hrun
    have hcopy : r.CopiedBy kind m := by
      by_contra hcopy
      rw [step_none h hcopy hi] at hs
      cases hs
    obtain ⟨g₂, x', hs', h₁, -⟩ := step_shows h (hok r List.mem_cons_self)
      (fun _ _ => (size_le_of_keys hm).trans_lt hks) hcopy hi
    obtain ⟨rfl, -⟩ := Prod.mk.inj (Option.some.inj (hs.symm.trans hs'))
    exact ⟨hcopy, ih h₁ (keys_apply hm (hnew r List.mem_cons_self)) (fun r' hr' => hok r' (List.mem_cons_of_mem r hr'))
      (fun r' hr' => hnew r' (List.mem_cons_of_mem r hr')) hrest⟩

theorem Served.agree {kind kind' : EngineKind} (h : Served kind m rs xs) :
    ∀ {ys : List Bytes}, Served kind' m rs ys → All Stored m rs → xs = ys := by
  induction h with
  | nil =>
    intro ys h' _
    cases h'
    rfl
  | cons hx _ ih =>
    intro ys h' hd
    cases h' with
    | cons hy h' => rw [hx.1.unique hy.1 hd.1, ih h' hd.2]

/-- The array and the tree do not reply the same to a `DEL` of a key that is not there. -/
theorem Served.stored (h : Served .array m rs xs) : Served .rbtree m rs xs → All Stored m rs := by
  induction h with
  | nil => exact fun _ => trivial
  | cons hx _ ih =>
    intro h'
    cases h' with
    | cons hy h' =>
      refine ⟨?_, ih h'⟩
      by_contra hr
      have heq := (hx.2 hr).symm.trans (hy.2 hr)
      exact absurd heq (by decide)

end Runs

/-- The engines go on and reply the same exactly when every `DEL` is of a key that is there, and every `RANGE` finds long
    keys and values only. -/
theorem engines_agree_iff {files : Files} {requests : List Request} {inputs : EngineKind → List Input}
    (hok : ∀ r ∈ requests, r.Ok) (hroom : (requests.filterMap newKey).dedup.length < kvsArraySize)
    (hsend : ∀ kind, List.Forall₂ (Sends kind) requests (inputs kind)) :
    (∃ replies, ∀ kind, ∃ g, Run.runs step (Globals.initial files) (inputs kind) = some (g, replies)) ↔
      All (fun m r => r.Stored m ∧ r.FindsLong m) Map.empty requests := by
  have hstart : ∀ kind : EngineKind, kind.Shows ((Globals.initial files).store kind) Map.empty := fun kind =>
    ⟨Map.empty, kind.created_holds, rfl⟩
  have hkeys : ∀ k, (Map.empty : Map CString CString) k ≠ none → k ∈ requests.filterMap newKey := fun k hk =>
    absurd rfl hk
  have hnew : ∀ r ∈ requests, ∀ k, r.newKey = some k → k ∈ requests.filterMap newKey := fun r hr k hk =>
    List.mem_filterMap.mpr ⟨r, hr, hk⟩
  have hserved : ∀ kind : EngineKind, All (CopiedBy kind) Map.empty requests →
      ∃ g xs, Run.runs step (Globals.initial files) (inputs kind) = some (g, xs) ∧ Served kind Map.empty requests xs :=
    fun kind hcopy => runs_served hroom (hsend kind) (hstart kind) hkeys hok hnew hcopy
  constructor
  · rintro ⟨replies, hall⟩
    obtain ⟨g, hrun⟩ := hall .rbtree
    have hlong : All FindsLong Map.empty requests :=
      (runs_copiedBy hroom (hsend .rbtree) (hstart .rbtree) hkeys hok hnew hrun).imp CopiedBy.findsLong
    have hreplies : ∀ kind, Served kind Map.empty requests replies := by
      intro kind
      obtain ⟨g, hrun⟩ := hall kind
      obtain ⟨g', xs, hrun', h⟩ := hserved kind (hlong.imp FindsLong.copiedBy)
      obtain ⟨-, rfl⟩ := Prod.mk.inj (Option.some.inj (hrun.symm.trans hrun'))
      exact h
    exact ((hreplies .array).stored (hreplies .rbtree)).and hlong
  · intro h
    have hlong : All FindsLong Map.empty requests := h.imp And.right
    have hstored : All Stored Map.empty requests := h.imp And.left
    choose g replies hrun hreplies using fun kind : EngineKind => hserved kind (hlong.imp FindsLong.copiedBy)
    refine ⟨replies .array, fun kind => ⟨g kind, ?_⟩⟩
    rw [hrun kind, (hreplies kind).agree (hreplies .array) hstored]

/-! ### Lines with one space between two tokens -/

section Ordinary
variable {kind : EngineKind} {op : Op} {k v : CString} {r : Request}

theorem pieces_key (hk : Argument k) (ht : Token k.bytes) :
    pieces (List.intercalate [space] [kind.commandName op, k.bytes]) = [kind.commandName op, k.bytes] := by
  have hname := commandName_length kind op
  have hlen : k.bytes.length ≤ 255 := hk.2
  have hline : List.intercalate [space] [kind.commandName op, k.bytes] = keyLine kind op k.bytes := by
    simp [List.intercalate, List.intersperse, keyLine]
  rw [hline, pieces_keyLine ht (by rw [keyLine, List.length_append, List.length_cons]; omega)]

theorem pieces_pair (hk : Argument k) (hv : Argument v) (htk : Token k.bytes) (htv : Token v.bytes) :
    pieces (List.intercalate [space] [kind.commandName op, k.bytes, v.bytes]) =
      [kind.commandName op, k.bytes, v.bytes] := by
  have hname := commandName_length kind op
  have hlen : k.bytes.length ≤ 255 := hk.2
  have hlen' : v.bytes.length ≤ 255 := hv.2
  have hline : List.intercalate [space] [kind.commandName op, k.bytes, v.bytes] = pairLine kind op k.bytes v.bytes := by
    simp [List.intercalate, List.intersperse, pairLine]
  have hroom : k.bytes.length + 1 + v.bytes.length ≤ argumentRoom kind op := by
    rw [argumentRoom]
    omega
  have hkey : k.bytes.length + 1 < argumentRoom kind op := by
    rw [argumentRoom]
    omega
  rw [hline, pieces_pairLine htk htv hkey, List.take_of_length_le (Nat.le_sub_of_add_le' hroom)]

theorem pieces_line (hr : r.Ok) (ht : ∀ t ∈ r.tokens kind, Token t) :
    pieces (List.intercalate [space] (r.tokens kind)) = r.tokens kind := by
  cases r with
  | set k v => exact pieces_pair hr.1 hr.2 (ht _ (by simp [tokens])) (ht _ (by simp [tokens]))
  | get k => exact pieces_key hr (ht _ (by simp [tokens]))
  | mod k v => exact pieces_pair hr.1 hr.2 (ht _ (by simp [tokens])) (ht _ (by simp [tokens]))
  | del k => exact pieces_key hr (ht _ (by simp [tokens]))
  | exist k => exact pieces_key hr (ht _ (by simp [tokens]))
  | range a b => exact pieces_pair hr.1 hr.2 (ht _ (by simp [tokens])) (ht _ (by simp [tokens]))

/-- The line on a new connection, where allocations succeed. -/
def calmLine (kind : EngineKind) (r : Request) : Input :=
  (.calm, fun _ => none, List.intercalate [space] (r.tokens kind))

theorem calmLine_sends {rs : List Request} (h : ∀ r ∈ rs, r.Ok ∧ ∀ t ∈ r.tokens kind, Token t) :
    List.Forall₂ (Sends kind) rs (rs.map (calmLine kind)) := by
  rw [List.forall₂_map_right_iff, List.forall₂_same]
  exact fun r hr => ⟨pieces_line (h r hr).1 (h r hr).2, Env.calm_allocates 0⟩

end Ordinary

/-- Two keys with the same bytes in another order: the hash puts them into one chain. -/
def keyAb : CString := CString.ofBytes (ascii "ab")

def keyBa : CString := CString.ofBytes (ascii "ba")

def setAndDelete (k : CString) : List Request := [.set keyAb keyAb, .del k]

theorem argument_ab : Argument keyAb := by decide

theorem argument_ba : Argument keyBa := by decide

theorem setAndDelete_ok {k : CString} (hk : Argument k) : ∀ r ∈ setAndDelete k, r.Ok := by
  simp [setAndDelete, Ok, argument_ab, hk]

theorem setAndDelete_room (k : CString) : ((setAndDelete k).filterMap newKey).dedup.length < kvsArraySize :=
  show ([keyAb].dedup).length < kvsArraySize by decide

theorem setAndDelete_sends {k : CString} (hk : Argument k) (ht : Token k.bytes) (kind : EngineKind) :
    List.Forall₂ (Sends kind) (setAndDelete k) ((setAndDelete k).map (calmLine kind)) := by
  have htoken : Token keyAb.bytes := by decide
  refine calmLine_sends fun r hr => ⟨setAndDelete_ok hk r hr, ?_⟩
  simp only [setAndDelete, List.mem_cons, List.not_mem_nil, or_false] at hr
  rcases hr with rfl | rfl
  · simp [tokens, commandName_token, htoken]
  · simp [tokens, commandName_token, ht]

theorem engines_agree_iff_setAndDelete :
    (∃ replies, ∀ kind, ∃ g, Run.runs step (Globals.initial .calm) ((setAndDelete keyAb).map (calmLine kind)) =
      some (g, replies)) ↔ All (fun m r => r.Stored m ∧ r.FindsLong m) Map.empty (setAndDelete keyAb) :=
  engines_agree_iff (setAndDelete_ok argument_ab) (setAndDelete_room keyAb)
    (setAndDelete_sends argument_ab (by decide))

/-- What the engine replies to a `SET` of one key and a `DEL` of the other. -/
def repliesApart (kind : EngineKind) : Option (List Bytes) :=
  (Run.runs step (Globals.initial .calm) ((setAndDelete keyBa).map (calmLine kind))).map Prod.snd

theorem del_otherKey :
    (∀ r ∈ setAndDelete keyBa, r.Ok) ∧ ((setAndDelete keyBa).filterMap newKey).dedup.length < kvsArraySize ∧
      (∀ kind, List.Forall₂ (Sends kind) (setAndDelete keyBa) ((setAndDelete keyBa).map (calmLine kind))) ∧
      repliesApart .array = some [ascii "SUCCESS", ascii "NO EXIST"] ∧
      repliesApart .rbtree = some [ascii "SUCCESS", ascii "ERROR"] ∧
      repliesApart .hash = some [ascii "SUCCESS", ascii "SUCCESS"] ∧
      repliesApart .skiptable = some [ascii "SUCCESS", ascii "ERROR"] :=
  ⟨setAndDelete_ok argument_ba, setAndDelete_room keyBa, setAndDelete_sends argument_ba (by decide),
    by decide +kernel, by decide +kernel, by decide +kernel, by decide +kernel⟩

end Dispatch

end KvStore
