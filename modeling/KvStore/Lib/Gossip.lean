import KvStore.Lib.Merge
import Mathlib.Data.Set.Lattice

/-! # Holders that learn from each other

A holder keeps the newest of the records that it has seen for each key. Records spread when one holder joins what
another has into its own; which records a holder has seen then depends only on who has heard from whom. -/

namespace FiniteMap

section Newest
variable {κ α τ : Type} [LinearOrder τ] (stamp : α → τ)

/-- The map has, for each key of the records, a newest one of them, and nothing else. -/
structure Map.Newest (R : Set (κ × α)) (m : Map κ α) : Prop where
  mem : ∀ {k a}, m k = some a → (k, a) ∈ R
  le : ∀ {k a b}, m k = some a → (k, b) ∈ R → stamp b ≤ stamp a
  absent : ∀ {k a}, m k = none → (k, a) ∉ R

variable {stamp} {R R' : Set (κ × α)} {m m' : Map κ α} {k : κ} {a : α}

namespace Map.Newest

theorem empty : Map.Newest stamp (∅ : Set (κ × α)) Map.empty where
  mem h := by cases h
  le h := by cases h
  absent _ := Set.notMem_empty _

theorem eq_none_iff (h : m.Newest stamp R) : m k = none ↔ ∀ a, (k, a) ∉ R := by
  refine ⟨fun hk a => h.absent hk, fun hk => ?_⟩
  cases hm : m k with
  | none => rfl
  | some a => exact absurd (h.mem hm) (hk a)

/-- A record that is no older than those of its key replaces them. -/
theorem insert [DecidableEq κ] (h : m.Newest stamp R) (ha : ∀ b, (k, b) ∈ R → stamp b ≤ stamp a) :
    (m.insert k a).Newest stamp (Insert.insert (k, a) R) where
  mem {j b} hb := by
    by_cases hj : j = k
    · subst hj
      rw [insert_self] at hb
      obtain rfl := Option.some.inj hb
      exact Set.mem_insert _ _
    · rw [insert_of_ne hj] at hb
      exact Set.mem_insert_of_mem _ (h.mem hb)
  le {j b c} hb hc := by
    by_cases hj : j = k
    · subst hj
      rw [insert_self] at hb
      obtain rfl := Option.some.inj hb
      rcases Set.mem_insert_iff.mp hc with heq | hc
      · rw [(Prod.mk.inj heq).2]
      · exact ha c hc
    · rw [insert_of_ne hj] at hb
      rcases Set.mem_insert_iff.mp hc with heq | hc
      · exact absurd (Prod.mk.inj heq).1 hj
      · exact h.le hb hc
  absent {j b} hb := by
    have hj : j ≠ k := by
      rintro rfl
      rw [insert_self] at hb
      cases hb
    rw [insert_of_ne hj] at hb
    exact fun hmem => (Set.mem_insert_iff.mp hmem).elim (fun heq => hj (Prod.mk.inj heq).1) (h.absent hb)

theorem join (h : m.Newest stamp R) (h' : m'.Newest stamp R') : (m.join stamp m').Newest stamp (R ∪ R') where
  mem {k a} hk := (Map.join_apply_eq hk).imp h.mem h'.mem
  le {k a b} hk hb := by
    rw [Map.join] at hk
    cases hm : m k with
    | none =>
      rw [hm] at hk
      rcases hb with hb | hb
      · exact absurd hb (h.absent hm)
      · exact h'.le hk hb
    | some c =>
      cases hm' : m' k with
      | none =>
        simp only [hm, hm', Option.some.injEq] at hk
        subst hk
        exact hb.elim (h.le hm) fun hb => absurd hb (h'.absent hm')
      | some c' =>
        simp only [hm, hm'] at hk
        split at hk
        · next hlt =>
          obtain rfl := Option.some.inj hk
          exact hb.elim (fun hb => (h.le hm hb).trans hlt.le) (h'.le hm')
        · next hle =>
          obtain rfl := Option.some.inj hk
          exact hb.elim (h.le hm) fun hb => (h'.le hm' hb).trans (not_lt.mp hle)
  absent {k a} hk := by
    obtain ⟨hm, hm'⟩ := Map.join_eq_none.mp hk
    exact fun hmem => hmem.elim (h.absent hm) (h'.absent hm')

/-- The newest record of a key, when no other is as new. -/
theorem eq_some (h : m.Newest stamp R) (ha : (k, a) ∈ R) (hle : ∀ b, (k, b) ∈ R → stamp b ≤ stamp a)
    (htie : ∀ b, (k, b) ∈ R → stamp b = stamp a → b = a) : m k = some a := by
  cases hm : m k with
  | none => exact absurd ha (h.absent hm)
  | some b =>
    have hb := h.mem hm
    rw [htie b hb ((hle b hb).antisymm (h.le hm ha))]

/-- Records of a key that are told apart by their stamps leave no choice. -/
theorem unique (h : m.Newest stamp R) (h' : m'.Newest stamp R)
    (htie : ∀ k a b, (k, a) ∈ R → (k, b) ∈ R → stamp a = stamp b → a = b) : m = m' := by
  funext k
  cases hm : m k with
  | none => exact (h'.eq_none_iff.mpr (h.eq_none_iff.mp hm)).symm
  | some a =>
    exact (h'.eq_some (h.mem hm) (fun _ hb => h.le hm hb) fun b hb heq => htie k b a hb (h.mem hm) heq).symm

end Map.Newest

end Newest

/-! ### Who has heard from whom -/

section Spread
variable {ι β : Type} [DecidableEq ι]

/-- The first of the two adds to what it has seen what the second has. -/
def learn (S : ι → Set β) (p : ι × ι) : ι → Set β := Function.update S p.1 (S p.1 ∪ S p.2)

/-- What each has seen after a list of pulls. -/
def spread (S : ι → Set β) (pulls : List (ι × ι)) : ι → Set β := pulls.foldl learn S

/-- The holders that one has heard from, directly or through others; each has heard from itself. -/
def heard (pulls : List (ι × ι)) : ι → Set ι := spread (fun i => {i}) pulls

variable {S S' : ι → Set β} {pulls : List (ι × ι)} {i j : ι} {p : ι × ι} {x : β}

theorem spread_append (pulls' : List (ι × ι)) : spread S (pulls ++ pulls') = spread (spread S pulls) pulls' :=
  List.foldl_append

theorem mem_learn : x ∈ learn S p i ↔ x ∈ S i ∨ i = p.1 ∧ x ∈ S p.2 := by
  by_cases hi : i = p.1
  · subst hi
    simp [learn]
  · simp [learn, hi]

/-- A holder has seen what those had at first that it has heard from. -/
theorem mem_spread : x ∈ spread S pulls i ↔ ∃ j ∈ heard pulls i, x ∈ S j := by
  induction pulls using List.reverseRecOn generalizing i with
  | nil => simp [spread, heard]
  | append_singleton pulls p ih =>
    rw [spread_append, heard, spread_append]
    show x ∈ learn (spread S pulls) p i ↔ ∃ j ∈ learn (heard pulls) p i, x ∈ S j
    simp only [mem_learn, ih, or_and_right, exists_or, and_assoc, exists_and_left]

theorem subset_spread (h : x ∈ S i) : x ∈ spread S pulls i := by
  induction pulls using List.reverseRecOn generalizing i with
  | nil => exact h
  | append_singleton pulls p ih =>
    rw [spread_append]
    exact mem_learn.mpr (Or.inl (ih h))

/-! ### A line of holders -/

/-- Each but the first pulls from the one before it. -/
def forward : List ι → List (ι × ι)
  | i :: j :: rest => (j, i) :: forward (j :: rest)
  | [_] => []
  | [] => []

/-- What one has seen goes down the line. -/
theorem forward_spread : ∀ {rest : List ι} {i : ι} {S : ι → Set β}, x ∈ S i → ∀ j ∈ i :: rest,
    x ∈ spread S (forward (i :: rest)) j
  | [], i, S, h, j, hj => by
    obtain rfl := List.mem_singleton.mp hj
    exact h
  | i' :: rest, i, S, h, j, hj => by
    have hi' : x ∈ learn S (i', i) i' := mem_learn.mpr (Or.inr ⟨rfl, h⟩)
    show x ∈ spread (learn S (i', i)) (forward (i' :: rest)) j
    rcases List.mem_cons.mp hj with rfl | hj
    · exact subset_spread (mem_learn.mpr (Or.inl h))
    · exact forward_spread hi' j hj

omit [DecidableEq ι] in
theorem forward_append (l : List ι) (i : ι) (rest : List ι) :
    forward (l ++ i :: rest) = forward (l ++ [i]) ++ forward (i :: rest) := by
  match l with
  | [] => rfl
  | [j] => rfl
  | j :: j' :: l =>
    show (j', j) :: forward (j' :: l ++ i :: rest) = (j', j) :: (forward (j' :: l ++ [i]) ++ forward (i :: rest))
    rw [forward_append (j' :: l)]

/-- Pulls down the line and back. -/
def sweep (line : List ι) : List (ι × ι) := forward line ++ forward line.reverse

/-- After pulls down the line and back each of the line has heard from all. -/
theorem heard_sweep {line : List ι} (hi : i ∈ line) (hj : j ∈ line) : j ∈ heard (sweep line) i := by
  obtain ⟨init, last, rfl⟩ : ∃ init last, line = init ++ [last] :=
    ⟨line.dropLast, line.getLast (List.ne_nil_of_mem hi), (List.dropLast_append_getLast _).symm⟩
  have hlast : j ∈ spread (fun i : ι => ({i} : Set ι)) (forward (init ++ [last])) last := by
    obtain ⟨l, rest, hsplit⟩ := List.append_of_mem hj
    have hself : j ∈ spread (fun i : ι => ({i} : Set ι)) (forward (l ++ [j])) j := subset_spread (Set.mem_singleton j)
    rw [hsplit, forward_append, spread_append]
    refine forward_spread hself last ?_
    have hmem : last ∈ l ++ j :: rest := hsplit ▸ by simp
    have hend : (l ++ j :: rest).getLast (by simp) = last := by simp [← hsplit]
    rw [List.getLast_append_of_right_ne_nil _ _ (by simp)] at hend
    exact hend ▸ List.getLast_mem _
  rw [heard, sweep, spread_append, List.reverse_append]
  exact forward_spread hlast i (by simpa [or_comm] using hi)

end Spread

end FiniteMap
