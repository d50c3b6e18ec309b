import KvStore.Theorems.Adds
import KvStore.Theorems.HashDelete
import KvStore.Theorems.Loading
import Mathlib.Data.Finset.Card

/-! When a load that returns 0 has stored every key of its file. The loop does not look at what `set` returns, so that a
    record that finds the table full, or no memory, or an item of its key without a value, is dropped without a word. -/

namespace KvStore
open IntCodec

namespace Record

/-- The string that the key buffer of the record begins with. -/
def key (r : Record) : CString := .ofBytes r.1

/-- The string that its value buffer begins with. -/
def value (r : Record) : CString := .ofBytes r.2

end Record

/-- The records of a file: those that are read when no allocation fails. -/
def recorded (file : List UInt8) : List Record := (readFile (fun _ => .calm 0) file).1

/-- A load without an error has read all of them. -/
theorem recorded_eq {env : Nat → Env} {file : List UInt8} (h : (readFile env file).2 = 0) :
    (readFile env file).1 = recorded file := by
  rcases readFile_layout env file with ⟨-, hcode⟩ | ⟨n, rest, hn, hfile, hwhole, hcount⟩
  · omega
  · have hlen : (readFile env file).1.length = n.toNat := by omega
    have henv : ∀ _ : Nat, (Env.calm 0).Allocates := fun _ => Env.calm_allocates 0
    have hread : readRecords (fun _ => .calm 0) n.toNat ((readFile env file).1.flatMap recordBytes ++ rest) = _ :=
      readRecords_append henv hwhole hlen.le
    rw [hlen, Nat.sub_self] at hread
    have hcalm : readFile (fun _ => .calm 0) file =
        readRecords (fun _ => .calm 0) n.toNat ((readFile env file).1.flatMap recordBytes ++ rest) := by
      rw [← readFile_int32 hn, ← hfile]
    rw [recorded, hcalm, hread]
    exact (List.append_nil _).symm

section SetAll
variable {σ : Type} {E : Engine σ} {L : Limits σ} {I : σ → Prop} {env : Nat → Env} {s s₁ s' : σ} {r : Record}
  {rs : List Record} {k v : CString} {n : Int}

theorem setBuffers_eq {e : Env} (h : r.Terminated) : E.setBuffers e s r.1 r.2 = E.set e s r.key r.value := by
  simp only [Engine.setBuffers, readString, if_pos h.1, if_pos h.2, Option.bind_eq_bind, Option.bind_some]
  rfl

theorem mem_of_readString {b : List UInt8} (h : readString b = some k) : 0 ∈ b := by
  rw [readString] at h
  split at h
  · assumption
  · cases h

theorem terminated_of_setBuffers {e : Env} {p : σ × Int} (h : E.setBuffers e s r.1 r.2 = some p) : r.Terminated := by
  simp only [Engine.setBuffers, Option.bind_eq_bind, Option.bind_eq_some_iff] at h
  obtain ⟨k, hk, v, hv, -⟩ := h
  exact ⟨mem_of_readString hk, mem_of_readString hv⟩

theorem setAll_cons_inv (h : setAll E.setBuffers env s (r :: rs) = some s') : ∃ s₁ n,
    E.set ((env 0).after 2) s r.key r.value = some (s₁, n) ∧
      setAll E.setBuffers (fun i => env (i + 1)) s₁ rs = some s' := by
  simp only [setAll, Option.bind_eq_bind] at h
  obtain ⟨⟨s₁, n⟩, hset, h⟩ := Option.bind_eq_some_iff.mp h
  rw [setBuffers_eq (terminated_of_setBuffers hset)] at hset
  exact ⟨s₁, n, hset, h⟩

namespace Engine

/-- The keys of the records that the store does not have yet. -/
def missing (E : Engine σ) (s : σ) (rs : List Record) : Finset CString :=
  (rs.map Record.key).toFinset.filter fun k => E.exist s k ≠ some 0

theorem mem_missing : k ∈ E.missing s rs ↔ k ∈ rs.map Record.key ∧ ¬E.Present s k := by
  rw [missing, Finset.mem_filter, List.mem_toFinset]
  rfl

theorem head_mem_missing (hp : ¬E.Present s r.key) : r.key ∈ E.missing s (r :: rs) :=
  mem_missing.mpr ⟨List.mem_cons_self, hp⟩

/-- A record that stores its key takes it out of the missing ones. -/
theorem missing_added (absent : ¬E.Present s r.key) (stored : E.Present s₁ r.key)
    (others : ∀ j, j ≠ r.key → E.SameAt s s₁ j) :
    E.missing s (r :: rs) = insert r.key (E.missing s₁ rs) ∧ r.key ∉ E.missing s₁ rs := by
  refine ⟨?_, fun hmem => (mem_missing.mp hmem).2 stored⟩
  ext k
  rw [Finset.mem_insert, mem_missing, mem_missing, List.map_cons, List.mem_cons]
  by_cases hkr : k = r.key
  · exact iff_of_true ⟨Or.inl hkr, hkr ▸ absent⟩ (Or.inl hkr)
  · rw [(others k hkr).present_iff, or_iff_right hkr, or_iff_right hkr]

theorem card_missing_added (absent : ¬E.Present s r.key) (stored : E.Present s₁ r.key)
    (others : ∀ j, j ≠ r.key → E.SameAt s s₁ j) : (E.missing s (r :: rs)).card = (E.missing s₁ rs).card + 1 := by
  rw [(missing_added absent stored others).1, Finset.card_insert_of_notMem (missing_added absent stored others).2]

/-- A record for the key whose allocations succeed is the first one or one behind it. -/
theorem offered_cons : (∃ i r', (r :: rs)[i]? = some r' ∧ r'.key = k ∧ L.Allocates ((env i).after 2)) ↔
    (r.key = k ∧ L.Allocates ((env 0).after 2)) ∨
      ∃ i r', rs[i]? = some r' ∧ r'.key = k ∧ L.Allocates ((env (i + 1)).after 2) := by
  constructor
  · rintro ⟨i, r', hr', hkey, halloc⟩
    cases i with
    | zero =>
      cases hr'
      exact Or.inl ⟨hkey, halloc⟩
    | succ i => exact Or.inr ⟨i, r', hr', hkey, halloc⟩
  · rintro (⟨hkey, halloc⟩ | ⟨i, r', hr', hkey, halloc⟩)
    · exact ⟨0, r, rfl, hkey, halloc⟩
    · exact ⟨i + 1, r', hr', hkey, halloc⟩

/-- Nothing stands in the way of the missing keys: no item has one of them without a value, for each of them the
    allocations of one of its records succeed, and there is room for all of them. -/
structure TakesAll (E : Engine σ) (L : Limits σ) (env : Nat → Env) (s : σ) (rs : List Record) : Prop where
  found : ∀ k ∈ E.missing s rs, ¬L.Stranded s k
  allocates : ∀ k ∈ E.missing s rs, ∃ i r, rs[i]? = some r ∧ r.key = k ∧ L.Allocates ((env i).after 2)
  room : ∀ n, E.count s = some n → L.Room (n + (E.missing s rs).card)

namespace Adds
variable (A : E.Adds L I)
include A

/-- The stores of a run keep what is there, and what no record is about. -/
theorem setAll_frame (h : I s) (hs : setAll E.setBuffers env s rs = some s') : I s' ∧
    (∀ j, L.Stranded s j → L.Stranded s' j) ∧
    (∀ j, E.Present s j ∨ j ∉ rs.map Record.key → E.SameAt s s' j) := by
  induction rs generalizing env s with
  | nil =>
    cases hs
    exact ⟨h, fun _ hj => hj, fun _ _ => .refl⟩
  | cons r rs ih =>
    obtain ⟨s₁, n, hset, hs⟩ := setAll_cons_inv hs
    obtain ⟨h', hstr, hsame⟩ := ih (A.keeps h hset) hs
    have hstep : (∀ j, L.Stranded s j → L.Stranded s₁ j) ∧ ∀ j, E.Present s j ∨ j ≠ r.key → E.SameAt s s₁ j := by
      cases A.set h hset with
      | kept same stranded => exact ⟨fun j hj => (stranded j).mpr hj, fun j _ => same j⟩
      | buried found same stranded => exact ⟨fun j hj => (stranded j).mpr hj, fun j _ => same j⟩
      | added absent notStranded _ _ _ _ _ others =>
        refine ⟨fun j hj => ?_, fun j hj => (others j ?_).1⟩
        · have hne : j ≠ r.key := fun hjk => notStranded (hjk ▸ hj)
          exact (others j hne).2.mpr hj
        · rcases hj with hj | hj
          · exact fun hjk => absent (hjk ▸ hj)
          · exact hj
    refine ⟨h', fun j hj => hstr j (hstep.1 j hj), fun j hj => ?_⟩
    have hsame₁ : E.SameAt s s₁ j := hstep.2 j (hj.imp_right fun hj hjk => hj (by simp [hjk]))
    refine hsame₁.trans (hsame j (hj.imp hsame₁.present_iff.mpr fun hj hmem => hj ?_))
    exact List.mem_cons_of_mem _ hmem

/-- From a set of keys that nothing stands in the way of, every record takes out its key as it is stored. -/
theorem setAll_complete {M : Finset CString} (h : I s) (hs : setAll E.setBuffers env s rs = some s')
    (hcount : E.count s = some n) (hroom : L.Room (n + M.card))
    (hM : ∀ k ∈ M, ¬E.Present s k ∧ ¬L.Stranded s k ∧
      ∃ i r, rs[i]? = some r ∧ r.key = k ∧ L.Allocates ((env i).after 2))
    (hrs : ∀ r ∈ rs, E.Present s r.key ∨ r.key ∈ M) : ∀ k ∈ M, E.Present s' k := by
  induction rs generalizing env s M n with
  | nil =>
    intro k hk
    obtain ⟨-, -, i, r, hr, -⟩ := hM k hk
    cases hr
  | cons r rs ih =>
    obtain ⟨s₁, ret, hset, hs⟩ := setAll_cons_inv hs
    have h₁ := A.keeps h hset
    rw [List.forall_mem_cons] at hrs
    cases A.set h hset with
    | kept same stranded count why =>
      refine ih h₁ hs (count.trans hcount) hroom (fun k hk => ?_) fun r' hr' =>
        (hrs.2 r' hr').imp_left (same r'.key).present_iff.mpr
      obtain ⟨habsent, hfree, hoffered⟩ := hM k hk
      refine ⟨fun hp => habsent ((same k).present_iff.mp hp), fun hst => hfree ((stranded k).mp hst), ?_⟩
      rcases offered_cons.mp hoffered with ⟨rfl, halloc⟩ | hlater
      · -- the first record has its memory, and a key of `M` has its room
        rcases why with hp | hno | hfull
        · exact absurd hp habsent
        · exact absurd halloc hno
        · have hpos : 0 < M.card := Finset.card_pos.mpr ⟨r.key, hk⟩
          exact absurd (A.room_mono (by omega) hroom) (hfull n hcount)
      · exact hlater
    | buried found same =>
      rcases hrs.1 with hp | hk
      · exact absurd hp (A.stranded h found)
      · exact absurd found (hM r.key hk).2.1
    | added absent _ _ count get exist timestamp others =>
      have hk : r.key ∈ M := hrs.1.resolve_left absent
      obtain ⟨m, hm, hcount₁⟩ := count
      obtain rfl := Option.some.inj (hm.symm.trans hcount)
      have hcard := Finset.card_erase_add_one hk
      have hrest := ih (M := M.erase r.key) h₁ hs hcount₁ (A.room_mono (by omega) hroom) (fun k hk => ?_) fun r' hr' => ?_
      · intro k hk
        by_cases hkr : k = r.key
        · subst hkr
          have hp : E.Present s₁ r.key := exist
          exact ((A.setAll_frame h₁ hs).2.2 r.key (Or.inl hp)).present_iff.mpr hp
        · exact hrest k (Finset.mem_erase.mpr ⟨hkr, hk⟩)
      · obtain ⟨hkr, hk⟩ := Finset.mem_erase.mp hk
        obtain ⟨habsent, hfree, hoffered⟩ := hM k hk
        obtain ⟨hsame, hst⟩ := others k hkr
        refine ⟨fun hp => habsent (hsame.present_iff.mp hp), fun hs => hfree (hst.mp hs), ?_⟩
        exact (offered_cons.mp hoffered).resolve_left fun hfirst => hkr hfirst.1.symm
      · by_cases hkr : r'.key = r.key
        · refine Or.inl ?_
          rw [hkr]
          exact exist
        · refine (hrs.2 r' hr').imp (others r'.key hkr).1.present_iff.mpr fun hmem => ?_
          exact Finset.mem_erase.mpr ⟨hkr, hmem⟩

theorem takesAll_nil (h : I s) : E.TakesAll L env s [] := by
  obtain ⟨n, hn, hroom⟩ := A.count h
  have hnil : E.missing s [] = ∅ := rfl
  refine ⟨by simp [hnil], by simp [hnil], fun m hm => ?_⟩
  obtain rfl := Option.some.inj (hn.symm.trans hm)
  rw [hnil, Finset.card_empty, Nat.cast_zero, add_zero]
  exact hroom

/-- When all keys are there in the end, nothing has stood in the way of one. -/
theorem takesAll_of_present (h : I s) (hs : setAll E.setBuffers env s rs = some s')
    (hall : ∀ r ∈ rs, E.Present s' r.key) : E.TakesAll L env s rs := by
  induction rs generalizing env s with
  | nil => exact A.takesAll_nil h
  | cons r rs ih =>
    obtain ⟨s₁, ret, hset, hs⟩ := setAll_cons_inv hs
    have h₁ := A.keeps h hset
    rw [List.forall_mem_cons] at hall
    obtain ⟨h', hstr, hframe⟩ := A.setAll_frame h₁ hs
    obtain ⟨found, allocates, room⟩ := ih h₁ hs hall.2
    have hlater : ∀ k ∈ E.missing s₁ rs, ∃ i r', (r :: rs)[i]? = some r' ∧ r'.key = k ∧
        L.Allocates ((env i).after 2) := fun k hk => offered_cons.mpr (Or.inr (allocates k hk))
    cases A.set h hset with
    | kept same stranded count =>
      have hmissing : E.missing s (r :: rs) = E.missing s₁ rs := by
        ext k
        rw [mem_missing, mem_missing, (same k).present_iff, List.map_cons, List.mem_cons]
        refine ⟨fun ⟨hk, hp⟩ => ⟨?_, hp⟩, fun ⟨hk, hp⟩ => ⟨Or.inr hk, hp⟩⟩
        -- a key that this record has not stored is stored by a later one
        by_contra hmem
        obtain rfl := hk.resolve_right hmem
        have hsame := (same r.key).trans (hframe r.key (Or.inr hmem))
        exact hp (hsame.present_iff.mp hall.1)
      rw [count] at room
      rw [← hmissing] at hlater found room
      exact ⟨fun k hk hst => found k hk ((stranded k).mpr hst), hlater, room⟩
    | buried found' same stranded =>
      exact absurd hall.1 (A.stranded h' (hstr r.key ((stranded r.key).mpr found')))
    | added absent notStranded halloc count get exist timestamp others =>
      obtain ⟨hmissing, hnew⟩ := missing_added absent exist fun j hj => (others j hj).1
      refine ⟨fun k hk => ?_, fun k hk => ?_, fun n hn => ?_⟩
      · rcases Finset.mem_insert.mp (hmissing ▸ hk) with rfl | hk
        · exact notStranded
        · have hne : k ≠ r.key := fun hkr => hnew (hkr ▸ hk)
          exact fun hst => found k hk ((others k hne).2.mpr hst)
      · rcases Finset.mem_insert.mp (hmissing ▸ hk) with rfl | hk
        · exact offered_cons.mpr (Or.inl ⟨rfl, halloc⟩)
        · exact hlater k hk
      · obtain ⟨m, hm, hcount₁⟩ := count
        obtain rfl := Option.some.inj (hm.symm.trans hn)
        have hroom := room _ hcount₁
        rw [hmissing, Finset.card_insert_of_notMem hnew]
        rwa [Nat.cast_succ, add_comm _ (1 : Int), ← add_assoc]

/-- The keys of the records are all stored exactly when nothing stands in the way of one. -/
theorem present_iff_takesAll (h : I s) (hs : setAll E.setBuffers env s rs = some s') :
    (∀ r ∈ rs, E.Present s' r.key) ↔ E.TakesAll L env s rs := by
  refine ⟨A.takesAll_of_present h hs, fun T r hr => ?_⟩
  have hkey : r.key ∈ rs.map Record.key := List.mem_map_of_mem hr
  by_cases hp : E.Present s r.key
  · exact ((A.setAll_frame h hs).2.2 r.key (Or.inl hp)).present_iff.mpr hp
  · obtain ⟨n, hn, -⟩ := A.count h
    refine A.setAll_complete h hs hn (T.room n hn) (fun k hk => ⟨(mem_missing.mp hk).2, T.found k hk, T.allocates k hk⟩)
      (fun r' hr' => ?_) r.key (mem_missing.mpr ⟨hkey, hp⟩)
    by_cases hp' : E.Present s r'.key
    · exact Or.inl hp'
    · exact Or.inr (mem_missing.mpr ⟨List.mem_map_of_mem hr', hp'⟩)

/-- With memory and room for them, records whose keys are found are all taken, the first of each missing key with its
    value. -/
theorem setAll_adds (henv : ∀ i, (env i).Allocates) (h : I s)
    (hrs : ∀ r ∈ rs, r.Terminated ∧ L.key r.key ∧ ¬L.Stranded s r.key)
    (hroom : ∀ n, E.count s = some n → L.Room (n + (E.missing s rs).card)) :
    ∃ s', setAll E.setBuffers env s rs = some s' ∧ ∀ k, ¬E.Present s k → ∀ v,
      (rs.map fun r => (r.key, r.value)).lookup k = some v → E.Present s' k ∧ E.get s' k = some (.str v) := by
  induction rs generalizing env s with
  | nil => exact ⟨s, rfl, fun k _ v hv => by cases hv⟩
  | cons r rs ih =>
    rw [List.forall_mem_cons] at hrs
    obtain ⟨⟨hterm, hkey, hfree⟩, hrest⟩ := hrs
    obtain ⟨⟨s₁, ret⟩, hset⟩ := A.returns h hkey (A.allocates ((henv 0).after 2)) r.value
    have h₁ := A.keeps h hset
    have hstep : ∀ s', setAll E.setBuffers (fun i => env (i + 1)) s₁ rs = some s' →
        setAll E.setBuffers env s (r :: rs) = some s' := by
      intro s' hs
      rw [setAll, setBuffers_eq hterm, hset]
      exact hs
    cases A.set h hset with
    | kept same stranded count why =>
      have hsub : E.missing s₁ rs ⊆ E.missing s (r :: rs) := by
        intro k hk
        obtain ⟨hmem, hp⟩ := mem_missing.mp hk
        exact mem_missing.mpr ⟨List.mem_cons_of_mem _ hmem, fun hp' => hp ((same k).present_iff.mpr hp')⟩
      have hle := Finset.card_le_card hsub
      obtain ⟨s', hs, hadded⟩ := ih (fun i => henv (i + 1)) h₁
        (fun r' hr' => ⟨(hrest r' hr').1, (hrest r' hr').2.1, fun hst => (hrest r' hr').2.2 ((stranded _).mp hst)⟩)
        fun n hn => A.room_mono (by omega) (hroom n (count ▸ hn))
      refine ⟨s', hstep s' hs, fun k hk v hv => hadded k (fun hp => hk ((same k).present_iff.mp hp)) v ?_⟩
      -- the record is kept out because its key is there
      have hp : E.Present s r.key := by
        by_contra hp
        rcases why with hp' | hno | hfull
        · exact hp hp'
        · exact hno (A.allocates ((henv 0).after 2))
        · obtain ⟨n, hn, -⟩ := A.count h
          have hpos : 0 < (E.missing s (r :: rs)).card :=
            Finset.card_pos.mpr ⟨r.key, head_mem_missing hp⟩
          exact hfull n hn (A.room_mono (by omega) (hroom n hn))
      have hne : k ≠ r.key := fun hkr => hk (hkr ▸ hp)
      rwa [List.map_cons, List.lookup_cons, beq_eq_false_iff_ne.mpr hne] at hv
    | buried found => exact absurd found hfree
    | added absent _ _ count get exist timestamp others =>
      have hcard : (E.missing s (r :: rs)).card = (E.missing s₁ rs).card + 1 :=
        card_missing_added absent exist fun j hj => (others j hj).1
      have hstranded : ∀ r' ∈ rs, ¬L.Stranded s₁ r'.key := by
        intro r' hr' hst
        by_cases hkr : r'.key = r.key
        · rw [hkr] at hst
          exact A.stranded h₁ hst exist
        · exact (hrest r' hr').2.2 ((others _ hkr).2.mp hst)
      obtain ⟨s', hs, hadded⟩ := ih (fun i => henv (i + 1)) h₁
        (fun r' hr' => ⟨(hrest r' hr').1, (hrest r' hr').2.1, hstranded r' hr'⟩) fun n hn => by
          obtain ⟨m, hm, hcount₁⟩ := count
          obtain rfl := Option.some.inj (hcount₁.symm.trans hn)
          exact A.room_mono (by omega) (hroom m hm)
      refine ⟨s', hstep s' hs, fun k hk v hv => ?_⟩
      by_cases hkr : k = r.key
      · subst hkr
        rw [List.map_cons, List.lookup_cons_self] at hv
        cases hv
        have hframe := (A.setAll_frame h₁ hs).2.2 r.key (Or.inl exist)
        exact ⟨hframe.present_iff.mpr exist, hframe.get.trans get⟩
      · refine hadded k (fun hp => hk ((others k hkr).1.present_iff.mp hp)) v ?_
        rwa [List.map_cons, List.lookup_cons, beq_eq_false_iff_ne.mpr hkr] at hv

end Adds
end Engine
end SetAll

namespace EngineKind

theorem setBuffers_engine {kind : EngineKind} (hkind : kind ≠ .skiptable) :
    kind.setBuffers = kind.engine.setBuffers := by
  cases kind with
  | skiptable => exact absurd rfl hkind
  | _ => rfl

/-- In every store that calls lead to, whatever their allocations come to: a load that returns 0 has stored every key of
    its file exactly when nothing has stood in the way of a key that was missing. -/
theorem load_complete_iff {kind : EngineKind} (hkind : kind ≠ .skiptable) {calls : List Call} {s s' : kind.Store}
    {outs : List Ret} (hrun : Run.runs kind.engine.exec kind.created calls = some (s, outs)) {env : Nat → Env}
    {file : List UInt8} (hload : kind.backend.load env s file = some (s', 0)) :
    (∀ r ∈ recorded file, kind.engine.Present s' r.key) ↔ kind.engine.TakesAll kind.limits env s (recorded file) := by
  obtain ⟨I, A, hreached⟩ := adds hkind
  rw [kind.load_eq, setBuffers_engine hkind, Option.map_eq_some_iff] at hload
  obtain ⟨s₁, hset, heq⟩ := hload
  obtain ⟨rfl, hcode⟩ := Prod.mk.inj heq
  rw [recorded_eq hcode] at hset
  exact A.present_iff_takesAll (hreached hrun) hset

/-- The file that is saved after `oneSet`. -/
def oneFile : List UInt8 := fileBytes [([97, 98, 0], [1, 0])]

theorem oneFile_recorded : (([97, 98, 0], [1, 0]) : Record) ∈ recorded oneFile := by decide +kernel

/-- A load of the file into a new store. -/
theorem load_complete_iff_oneFile : ∃ T', array.backend.load (fun _ => .calm 0) array.created oneFile = some (T', 0) ∧
    ((∀ r ∈ recorded oneFile, arrayEngine.Present T' r.key) ↔
      arrayEngine.TakesAll arrayLimits (fun _ => .calm 0) kvsArrayCreate (recorded oneFile)) := by
  have hcode : (array.backend.load (fun _ => .calm 0) array.created oneFile).map Prod.snd = some 0 := by decide +kernel
  obtain ⟨⟨T', code⟩, hload, rfl⟩ := Option.map_eq_some_iff.mp hcode
  exact ⟨T', hload, @load_complete_iff array (by decide) [] array.created T' [] rfl (fun _ => .calm 0) oneFile hload⟩

end EngineKind

/-- Surroundings in which a load can read a record, but `set` finds no memory. -/
def memoryForTwo : Env := ⟨0, fun i => i < 2, fun _ => false⟩

/-- A load with the code 0 after which a key of the saved file is not there. -/
def EngineKind.DropsRecord (kind : EngineKind) (env : Nat → Env) (file : List UInt8) : Prop :=
  (∃ calls s outs, Run.runs kind.engine.exec kind.created calls = some (s, outs) ∧
    kind.backend.save .good s = some (file, 0)) ∧
  ∃ s', kind.backend.load env kind.created file = some (s', 0) ∧ ∃ r ∈ recorded file, ¬kind.engine.Present s' r.key

theorem load_drops_record : EngineKind.array.DropsRecord (fun _ => memoryForTwo) EngineKind.oneFile ∧
    EngineKind.hash.DropsRecord (fun _ => memoryForTwo) EngineKind.oneFile := by
  have hsave : (Run.runs arrayEngine.exec kvsArrayCreate oneSet).map (fun p => kvsArraySave .good p.1) =
      some (some (EngineKind.oneFile, 0)) := by decide +kernel
  have hsave' : (Run.runs hashEngine.exec kvsHashCreate oneSet).map (fun p => kvsHashSave .good p.1) =
      some (some (EngineKind.oneFile, 0)) := by decide +kernel
  have hload : (EngineKind.array.backend.load (fun _ => memoryForTwo) EngineKind.array.created EngineKind.oneFile).map
      (fun p => (p.2, arrayEngine.exist p.1 (.ofBytes [97, 98, 0]))) = some (0, some (-1)) := by decide +kernel
  have hload' : (EngineKind.hash.backend.load (fun _ => memoryForTwo) EngineKind.hash.created EngineKind.oneFile).map
      (fun p => (p.2, hashEngine.exist p.1 (.ofBytes [97, 98, 0]))) = some (0, some (-1)) := by decide +kernel
  constructor
  · obtain ⟨⟨T, outs⟩, hrun, hfile⟩ := Option.map_eq_some_iff.mp hsave
    obtain ⟨⟨T', code⟩, hcall, heq⟩ := Option.map_eq_some_iff.mp hload
    obtain ⟨rfl, habsent⟩ := Prod.mk.inj heq
    refine ⟨⟨oneSet, T, outs, hrun, hfile⟩, T', hcall, _, EngineKind.oneFile_recorded, fun hp => ?_⟩
    cases habsent.symm.trans hp
  · obtain ⟨⟨H, outs⟩, hrun, hfile⟩ := Option.map_eq_some_iff.mp hsave'
    obtain ⟨⟨H', code⟩, hcall, heq⟩ := Option.map_eq_some_iff.mp hload'
    obtain ⟨rfl, habsent⟩ := Prod.mk.inj heq
    refine ⟨⟨oneSet, H, outs, hrun, hfile⟩, H', hcall, _, EngineKind.oneFile_recorded, fun hp => ?_⟩
    cases habsent.symm.trans hp

end KvStore
