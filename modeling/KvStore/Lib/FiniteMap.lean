import Mathlib.Data.Set.Card
import Mathlib.Data.List.Nodup
import Mathlib.Data.List.Perm.Basic

/-! # Finite maps and the lists that enumerate them

A map is its lookup function. A store keeps it as a list of pairs in some order of its own: `Lists es m`
says that `es` holds each pair of `m` exactly once and no other. Every change of a store edits its list at
one place, and the lemmas below say which map the edited list enumerates. -/

namespace FiniteMap

variable {κ α β : Type}

abbrev Map (κ α : Type) := κ → Option α

namespace Map

def empty : Map κ α := fun _ => none

def insert [DecidableEq κ] (m : Map κ α) (k : κ) (a : α) : Map κ α := fun j => if j = k then some a else m j

def erase [DecidableEq κ] (m : Map κ α) (k : κ) : Map κ α := fun j => if j = k then none else m j

/-- The map, and what `m'` has for other keys. -/
def orElse (m m' : Map κ α) : Map κ α := fun k => (m k).or (m' k)

/-- The map with `f` applied to every value. -/
def mapVal (f : α → β) (m : Map κ α) : Map κ β := fun k => (m k).map f

/-- The pairs of the keys that are in the list. -/
def pairs (keys : List κ) (m : Map κ α) : List (κ × α) := keys.filterMap fun k => (m k).map fun a => (k, a)

/-- The number of keys. -/
noncomputable def size (m : Map κ α) : Nat := {k | m k ≠ none}.ncard

section
variable {m : Map κ α} {j k : κ} {a : α}

@[simp] theorem empty_apply : (empty : Map κ α) k = none := rfl

@[simp] theorem mapVal_apply (f : α → β) : m.mapVal f k = (m k).map f := rfl

@[simp] theorem mapVal_empty (f : α → β) : (empty : Map κ α).mapVal f = empty := rfl

@[simp] theorem mapVal_id : m.mapVal id = m := by
  funext j
  simp [mapVal]

theorem mapVal_mapVal {γ : Type} (f : α → β) (g : β → γ) : (m.mapVal f).mapVal g = m.mapVal (g ∘ f) := by
  funext j
  simp [mapVal]

theorem size_mapVal (f : α → β) : (m.mapVal f).size = m.size := by
  simp [size, mapVal]

/-- Maps with entries for the same keys have the same size. -/
theorem size_congr {m' : Map κ β} (h : ∀ k, m k = none ↔ m' k = none) : m.size = m'.size := by
  have hset : {k | m k ≠ none} = {k | m' k ≠ none} := Set.ext fun k => not_congr (h k)
  rw [size, hset, size]

variable [DecidableEq κ]

@[simp] theorem insert_self : m.insert k a k = some a := by simp [insert]

@[simp] theorem erase_self : m.erase k k = none := by simp [erase]

theorem insert_of_ne (h : j ≠ k) : m.insert k a j = m j := by simp [insert, h]

theorem erase_of_ne (h : j ≠ k) : m.erase k j = m j := by simp [erase, h]

theorem erase_of_none (h : m k = none) : m.erase k = m := by
  funext j
  by_cases hj : j = k
  · rw [hj, h, erase_self]
  · exact erase_of_ne hj

theorem insert_of_apply (h : m k = some a) : m.insert k a = m := by
  funext j
  by_cases hj : j = k
  · rw [hj, insert_self, h]
  · exact insert_of_ne hj

theorem mapVal_insert (f : α → β) : (m.insert k a).mapVal f = (m.mapVal f).insert k (f a) := by
  funext j
  by_cases hj : j = k <;> simp [mapVal, insert, hj]

theorem mapVal_erase (f : α → β) : (m.erase k).mapVal f = (m.mapVal f).erase k := by
  funext j
  by_cases hj : j = k <;> simp [mapVal, erase, hj]

end

end Map

/-- `es` holds every pair of `m` exactly once, and nothing else. -/
structure Lists (es : List (κ × α)) (m : Map κ α) : Prop where
  nodup : (es.map Prod.fst).Nodup
  mem : ∀ k a, (k, a) ∈ es ↔ m k = some a

namespace Lists
variable {es es' l₁ l₂ : List (κ × α)} {m m' : Map κ α} {k : κ} {a b : α}

theorem nil : Lists ([] : List (κ × α)) Map.empty := ⟨by simp, by simp [Map.empty]⟩

/-- A map whose keys are all in a list is listed by its pairs. -/
theorem pairs {keys : List κ} (hnd : keys.Nodup) (h : ∀ k, m k ≠ none → k ∈ keys) : Lists (m.pairs keys) m where
  nodup := by
    have hsublist : ∀ keys : List κ, ((m.pairs keys).map Prod.fst).Sublist keys := by
      intro keys
      induction keys with
      | nil => exact .slnil
      | cons k keys ih =>
        rw [Map.pairs, List.filterMap_cons]
        cases m k with
        | none => exact ih.cons k
        | some a => exact ih.cons_cons k
    exact hnd.sublist (hsublist keys)
  mem k a := by
    rw [Map.pairs, List.mem_filterMap]
    constructor
    · rintro ⟨k', -, hk'⟩
      obtain ⟨a', ha', heq⟩ := Option.map_eq_some_iff.mp hk'
      cases heq
      exact ha'
    · exact fun hk => ⟨k, h k (by simp [hk]), by rw [hk, Option.map_some]⟩

theorem perm (h : Lists es m) (p : es.Perm es') : Lists es' m where
  nodup := (p.map Prod.fst).nodup_iff.mp h.nodup
  mem k a := p.mem_iff.symm.trans (h.mem k a)

theorem unique (h : Lists es m) (h' : Lists es m') : m = m' := by
  funext k
  refine Option.ext fun a => ?_
  rw [← h.mem, ← h'.mem]

theorem apply_eq_none (h : Lists es m) : m k = none ↔ k ∉ es.map Prod.fst := by
  rw [Option.eq_none_iff_forall_ne_some, List.mem_map, not_exists]
  constructor
  · rintro hm ⟨j, a⟩ ⟨hj, rfl⟩
    exact hm a ((h.mem _ _).mp hj)
  · intro hn a ha
    exact hn (k, a) ⟨(h.mem k a).mpr ha, rfl⟩

theorem finite (h : Lists es m) : {k | m k ≠ none}.Finite := by
  refine (List.finite_toSet (es.map Prod.fst)).subset fun k hk => ?_
  exact not_not.mp (mt h.apply_eq_none.mpr hk)

theorem eq_empty (h : Lists es m) : es = [] ↔ m = Map.empty := by
  constructor
  · rintro rfl
    exact h.unique nil
  · rintro rfl
    cases es with
    | nil => rfl
    | cons e es => cases (h.mem e.1 e.2).mp List.mem_cons_self

theorem size (h : Lists es m) : m.size = es.length := by
  have hs : {k | m k ≠ none} = {k | k ∈ es.map Prod.fst} := by
    ext k
    simp only [Set.mem_ofPred_eq, ne_eq, h.apply_eq_none, not_not]
  rw [Map.size, hs, ← List.length_map (f := Prod.fst)]
  classical
  rw [← List.toFinset_card_of_nodup h.nodup, ← Set.ncard_coe_finset]
  congr 1
  ext k
  simp

theorem mapVal (f : α → β) (h : Lists es m) : Lists (es.map fun e => (e.1, f e.2)) (m.mapVal f) where
  nodup := by
    rw [List.map_map]
    exact h.nodup
  mem k b := by
    simp only [List.mem_map, Prod.mk.injEq, Prod.exists, Map.mapVal, Option.map_eq_some_iff]
    constructor
    · rintro ⟨j, a, hj, rfl, rfl⟩
      exact ⟨a, (h.mem _ _).mp hj, rfl⟩
    · rintro ⟨a, ha, rfl⟩
      exact ⟨k, a, (h.mem k a).mpr ha, rfl, rfl⟩

/-- The pairs behind a list of images. -/
theorem exists_of_mapVal {f : α → β} {bs : List (κ × β)} (h : Lists bs (m.mapVal f)) :
    ∃ es, bs = es.map (fun e => (e.1, f e.2)) ∧ Lists es m := by
  have hex : ∀ bs : List (κ × β), (∀ b ∈ bs, m.mapVal f b.1 = some b.2) →
      ∃ es : List (κ × α), bs = es.map (fun e => (e.1, f e.2)) ∧ ∀ e ∈ es, m e.1 = some e.2 := by
    intro bs hbs
    induction bs with
    | nil => exact ⟨[], rfl, by simp⟩
    | cons b bs ih =>
      obtain ⟨es, rfl, hes⟩ := ih fun b' hb' => hbs b' (List.mem_cons_of_mem b hb')
      obtain ⟨a, ha, hb⟩ := Option.map_eq_some_iff.mp (hbs b List.mem_cons_self)
      refine ⟨(b.1, a) :: es, by simp [hb], ?_⟩
      intro e he
      rcases List.mem_cons.mp he with rfl | he
      · exact ha
      · exact hes e he
  obtain ⟨es, rfl, hes⟩ := hex bs fun b hb => (h.mem b.1 b.2).mp hb
  have hnd := h.nodup
  rw [List.map_map] at hnd
  refine ⟨es, rfl, hnd, fun k a => ⟨hes (k, a), fun ha => ?_⟩⟩
  have hmem : (k, f a) ∈ es.map fun e => (e.1, f e.2) := (h.mem k (f a)).mpr (by simp [ha])
  obtain ⟨⟨j, b⟩, he, heq⟩ := List.mem_map.mp hmem
  obtain ⟨rfl, -⟩ := Prod.mk.inj heq
  have hb := hes _ he
  rw [ha] at hb
  cases hb
  exact he

/-- Only one list of increasing keys lists a map. -/
theorem eq_of_increasing [Preorder κ] (h : Lists es m) (h' : Lists es' m) (hs : es.Pairwise fun a b => a.1 < b.1)
    (hs' : es'.Pairwise fun a b => a.1 < b.1) : es = es' := by
  have hnd : es.Nodup := List.Nodup.of_map Prod.fst h.nodup
  have hnd' : es'.Nodup := List.Nodup.of_map Prod.fst h'.nodup
  have hperm : es.Perm es' := (List.perm_ext_iff_of_nodup hnd hnd').mpr fun ⟨k, e⟩ => by rw [h.mem, h'.mem]
  exact hperm.eq_of_pairwise (fun a b _ _ hab hba => absurd hab (lt_asymm hba)) hs hs'

theorem apply_middle (h : Lists (l₁ ++ (k, a) :: l₂) m) : m k = some a :=
  (h.mem k a).mp (by simp)

/-- A key of the map stands at one place of the list. -/
theorem exists_middle (h : Lists es m) (hm : m k = some a) :
    ∃ l₁ l₂, es = l₁ ++ (k, a) :: l₂ ∧ k ∉ l₁.map Prod.fst := by
  obtain ⟨l₁, l₂, rfl⟩ := List.append_of_mem ((h.mem k a).mpr hm)
  have hnd := h.nodup
  rw [List.map_append, List.map_cons, List.nodup_middle, List.nodup_cons] at hnd
  exact ⟨l₁, l₂, rfl, fun hk => hnd.1 (List.mem_append_left _ hk)⟩

variable [DecidableEq κ]

/-- A new pair at any place of the list adds it to the map. -/
theorem insert (h : Lists (l₁ ++ l₂) m) (hk : m k = none) : Lists (l₁ ++ (k, a) :: l₂) (m.insert k a) where
  nodup := by
    rw [List.map_append, List.map_cons, List.nodup_middle, ← List.map_append]
    exact List.nodup_cons.mpr ⟨h.apply_eq_none.mp hk, h.nodup⟩
  mem j b := by
    have hmid : (j, b) ∈ l₁ ++ (k, a) :: l₂ ↔ (j = k ∧ b = a) ∨ (j, b) ∈ l₁ ++ l₂ := by
      simp only [List.mem_append, List.mem_cons, Prod.mk.injEq]
      tauto
    rw [hmid, h.mem]
    by_cases hj : j = k
    · subst hj
      simp [hk, eq_comm]
    · simp [hj, Map.insert_of_ne]

/-- Taking a pair out of the list removes its key from the map. -/
theorem erase (h : Lists (l₁ ++ (k, a) :: l₂) m) : Lists (l₁ ++ l₂) (m.erase k) := by
  have hnd := h.nodup
  rw [List.map_append, List.map_cons, List.nodup_middle, ← List.map_append, List.nodup_cons] at hnd
  refine ⟨hnd.2, fun j b => ?_⟩
  by_cases hj : j = k
  · subst hj
    simp only [Map.erase_self, reduceCtorEq, iff_false]
    exact fun hb => hnd.1 (List.mem_map.mpr ⟨_, hb, rfl⟩)
  · rw [Map.erase_of_ne hj, ← h.mem]
    simp only [List.mem_append, List.mem_cons, Prod.mk.injEq]
    tauto

/-- Replacing the value of a pair replaces it in the map. -/
theorem update (h : Lists (l₁ ++ (k, a) :: l₂) m) : Lists (l₁ ++ (k, b) :: l₂) (m.insert k b) := by
  have := h.erase.insert (a := b) Map.erase_self
  have hm : (m.erase k).insert k b = m.insert k b := by
    funext j
    by_cases hj : j = k <;> simp [Map.insert, Map.erase, hj]
  rwa [hm] at this

/-- Inserting the pairs of a map into another one. -/
theorem foldl_insert {es : List (κ × α)} {m' : Map κ α} (h : Lists es m') (m : Map κ α) :
    es.foldl (fun m e => m.insert e.1 e.2) m = m'.orElse m := by
  induction es generalizing m m' with
  | nil =>
    obtain rfl := h.eq_empty.mp rfl
    funext k
    simp [Map.orElse]
  | cons e es ih =>
    have h : Lists ([] ++ (e.1, e.2) :: es) m' := h
    have herase : Lists es (m'.erase e.1) := h.erase
    rw [List.foldl_cons, ih herase]
    funext k
    by_cases hk : k = e.1
    · subst hk
      simp [Map.orElse, h.apply_middle]
    · rw [Map.orElse, Map.orElse, Map.insert_of_ne hk, Map.erase_of_ne hk]

/-- Adding the pairs of a map to another one, each where its key is not there yet. -/
theorem foldl_add {es : List (κ × α)} {m' : Map κ α} (h : Lists es m') (m : Map κ α) :
    es.foldl (fun m e => if m e.1 = none then m.insert e.1 e.2 else m) m = m.orElse m' := by
  induction es generalizing m m' with
  | nil =>
    obtain rfl := h.eq_empty.mp rfl
    funext k
    simp [Map.orElse]
  | cons e es ih =>
    have h : Lists ([] ++ (e.1, e.2) :: es) m' := h
    have herase : Lists es (m'.erase e.1) := h.erase
    have he : m' e.1 = some e.2 := h.apply_middle
    rw [List.foldl_cons, ih herase]
    funext k
    by_cases hk : k = e.1
    · subst hk
      cases hm : m e.1 with
      | none => simp [Map.orElse, hm, he]
      | some a => simp [Map.orElse, hm]
    · have hm : (if m e.1 = none then m.insert e.1 e.2 else m) k = m k := by
        split
        · exact Map.insert_of_ne hk
        · rfl
      rw [Map.orElse, Map.orElse, hm, Map.erase_of_ne hk]

end Lists

/-- A table of lists, read in order, when the list of one slot is replaced. -/
theorem exists_flatMap_update {i n : Nat} (h : i < n) (f : Nat → List β) :
    ∃ l₁ l₂, ∀ c, (List.range n).flatMap (Function.update f i c) = l₁ ++ c ++ l₂ := by
  obtain ⟨s, t, hst⟩ := List.append_of_mem (List.mem_range.mpr h)
  have hnd := List.nodup_range (n := n)
  rw [hst, List.nodup_middle, List.nodup_cons] at hnd
  have hne : ∀ j ∈ s ++ t, j ≠ i := by
    rintro j hj rfl
    exact hnd.1 hj
  have hcongr : ∀ l : List Nat, (∀ j ∈ l, j ≠ i) → ∀ c, l.flatMap (Function.update f i c) = l.flatMap f := by
    intro l hl c
    exact List.flatMap_congr fun j hj => Function.update_of_ne (hl j hj) c f
  refine ⟨s.flatMap f, t.flatMap f, fun c => ?_⟩
  rw [hst, List.flatMap_append, List.flatMap_cons, Function.update_self,
    hcongr s fun j hj => hne j (List.mem_append_left t hj), hcongr t fun j hj => hne j (List.mem_append_right s hj),
    List.append_assoc]

end FiniteMap
