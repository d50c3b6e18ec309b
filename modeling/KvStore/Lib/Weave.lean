import KvStore.Lib.Ordered
import Mathlib.Algebra.Order.Ring.Nat

/-! # Lists between separators

`weave xs ls` puts the separators `xs` between the lists `ls`. Around one of the lists it falls into what stands in
front of it and what follows: `front` and `back`. -/

namespace Weave
open Ordered Std

variable {α β : Type}

def weave : List α → List (List α) → List α
  | _, [] => []
  | [], l :: _ => l
  | x :: xs, l :: ls => l ++ x :: weave xs ls

/-- Each list with the separator behind it. -/
def front : List α → List (List α) → List α
  | x :: xs, l :: ls => l ++ x :: front xs ls
  | _, _ => []

/-- Each list with the separator in front of it. -/
def back : List α → List (List α) → List α
  | x :: xs, l :: ls => x :: (l ++ back xs ls)
  | _, _ => []

variable {xs ys : List α} {ls ms : List (List α)} {l : List α} {k : α} {cmp : α → α → Ordering}

@[simp] theorem front_nil : front [] ls = [] := by cases ls <;> rfl

@[simp] theorem back_nil : back [] ls = [] := by cases ls <;> rfl

theorem weave_back (h : ys.length = ms.length) : weave ys (l :: ms) = l ++ back ys ms := by
  induction ys generalizing l ms with
  | nil => simp [weave]
  | cons y ys ih =>
    obtain ⟨m, ms, rfl⟩ := List.exists_cons_of_length_eq_add_one h.symm
    rw [weave, back, ih (Nat.succ.inj h)]

theorem weave_append (h : xs.length = ls.length) :
    weave (xs ++ ys) (ls ++ ms) = front xs ls ++ weave ys ms := by
  induction xs generalizing ls with
  | nil => rw [List.eq_nil_of_length_eq_zero h.symm, front_nil]; rfl
  | cons x xs ih =>
    obtain ⟨m, ls, rfl⟩ := List.exists_cons_of_length_eq_add_one h.symm
    simp only [List.cons_append, weave, front, ih (Nat.succ.inj h), List.append_assoc]

theorem weave_focus (h : xs.length = ls.length) (h' : ys.length = ms.length) :
    weave (xs ++ ys) (ls ++ l :: ms) = front xs ls ++ (l ++ back ys ms) := by
  rw [weave_append h, weave_back h']

/-- The lists on both sides of a separator. -/
theorem weave_cut {y : α} (h : ls.length = xs.length + 1) :
    weave (xs ++ y :: ys) (ls ++ ms) = weave xs ls ++ y :: weave ys ms := by
  induction xs generalizing ls with
  | nil =>
    obtain ⟨l, rfl⟩ := List.length_eq_one_iff.mp h
    rfl
  | cons x xs ih =>
    obtain ⟨l, ls, rfl⟩ := List.exists_cons_of_length_eq_add_one h
    simp only [List.cons_append, weave, ih (Nat.succ.inj h), List.append_assoc]

theorem front_concat {x : α} (h : xs.length = ls.length) :
    front (xs ++ [x]) (ls ++ [l]) = front xs ls ++ (l ++ [x]) := by
  induction xs generalizing ls with
  | nil =>
    rw [List.eq_nil_of_length_eq_zero h.symm]
    simp [front]
  | cons y xs ih =>
    obtain ⟨m, ls, rfl⟩ := List.exists_cons_of_length_eq_add_one h.symm
    simp only [List.cons_append, front, ih (Nat.succ.inj h), List.append_assoc]

theorem back_append (h : xs.length = ls.length) : back (xs ++ ys) (ls ++ ms) = back xs ls ++ back ys ms := by
  induction xs generalizing ls with
  | nil => rw [List.eq_nil_of_length_eq_zero h.symm, back_nil]; rfl
  | cons x xs ih =>
    obtain ⟨m, ls, rfl⟩ := List.exists_cons_of_length_eq_add_one h.symm
    simp only [List.cons_append, back, ih (Nat.succ.inj h), List.append_assoc]

/-- Read backwards, what stands in front of a list is what follows it. -/
theorem reverse_front (h : xs.length = ls.length) :
    (front xs ls).reverse = back xs.reverse (ls.map List.reverse).reverse := by
  induction xs generalizing ls with
  | nil => simp
  | cons x xs ih =>
    obtain ⟨l, ls, rfl⟩ := List.exists_cons_of_length_eq_add_one h.symm
    have hlen : xs.reverse.length = (ls.map List.reverse).reverse.length := by simpa using h
    rw [List.reverse_cons, List.map_cons, List.reverse_cons, back_append hlen, ← ih (Nat.succ.inj h)]
    simp [front, back]

theorem sublist_weave (h : xs.length < ls.length) : xs.Sublist (weave xs ls) := by
  induction xs generalizing ls with
  | nil => exact List.nil_sublist _
  | cons x xs ih =>
    obtain ⟨l, ls, rfl⟩ := List.exists_cons_of_ne_nil (List.ne_nil_of_length_pos (Nat.zero_lt_of_lt h))
    exact ((ih (Nat.lt_of_succ_lt_succ h)).cons_cons x).trans (List.sublist_append_right l _)

theorem sublist_front (h : xs.length = ls.length) : xs.Sublist (front xs ls) := by
  induction xs generalizing ls with
  | nil => exact List.nil_sublist _
  | cons x xs ih =>
    obtain ⟨l, ls, rfl⟩ := List.exists_cons_of_length_eq_add_one h.symm
    exact ((ih (Nat.succ.inj h)).cons_cons x).trans (List.sublist_append_right l _)

theorem length_weave (h : ls.length = xs.length + 1) :
    (weave xs ls).length + 1 = (ls.map fun l => l.length + 1).sum := by
  induction xs generalizing ls with
  | nil =>
    obtain ⟨l, rfl⟩ := List.length_eq_one_iff.mp h
    rfl
  | cons x xs ih =>
    obtain ⟨l, ls, rfl⟩ := List.exists_cons_of_length_eq_add_one h
    rw [weave, List.map_cons, List.sum_cons, ← ih (Nat.succ.inj h), List.length_append, List.length_cons]
    omega

variable [TransCmp cmp]

/-- What stands in front of a list is less than a key that the separators are less than. -/
theorem gt_front (hs : Sorted cmp (front xs ls)) (h : ∀ x ∈ xs, cmp k x = .gt) : ∀ x ∈ front xs ls, cmp k x = .gt := by
  induction xs generalizing ls with
  | nil => simp
  | cons y xs ih =>
    cases ls with
    | nil => simp [front]
    | cons l ls =>
      rw [List.forall_mem_cons] at h
      have hl := (Sorted.around (k := k) hs).1 (by simp [h.1])
      have hrest := ih (sorted_cons.mp (sorted_append.mp hs).2.1).2 h.2
      simp only [front, List.mem_append, List.mem_cons]
      rintro x (hx | rfl | hx)
      · exact hl x hx
      · exact h.1
      · exact hrest x hx

theorem lt_back (hs : Sorted cmp (back ys ms)) (h : ∀ x ∈ ys, cmp k x = .lt) : ∀ x ∈ back ys ms, cmp k x = .lt := by
  cases ys with
  | nil => simp
  | cons y ys =>
    cases ms with
    | nil => simp [back]
    | cons m ms =>
      rw [List.forall_mem_cons] at h
      have hlt := (sorted_cons.mp hs).1
      exact List.forall_mem_cons.mpr ⟨h.1, fun x hx => TransCmp.lt_trans h.1 (hlt x hx)⟩

/-! ### A list at a place -/

section Place
variable {as bs : List β} {a a' c : β} {i : Nat}

theorem exists_place {xs ys : List α} (h : as.length = (xs ++ ys).length + 1) :
    ∃ cs c ds, as = cs ++ c :: ds ∧ cs.length = xs.length ∧ ds.length = ys.length := by
  rw [List.length_append] at h
  have hlt : xs.length < as.length := by omega
  refine ⟨as.take xs.length, as[xs.length], as.drop (xs.length + 1), ?_, List.length_take_of_le hlt.le, ?_⟩
  · rw [← List.drop_eq_getElem_cons hlt, List.take_append_drop]
  · rw [List.length_drop]
    omega

variable (h : as.length = i)
include h

theorem get_place : (as ++ a :: bs)[i]? = some a := by
  subst h
  simp

theorem get_next : (as ++ a :: c :: bs)[i + 1]? = some c := by
  subst h
  simp

theorem drop_next : (as ++ a :: bs).drop (i + 1) = bs := by
  subst h
  simp

theorem set_place : (as ++ a :: bs).set i c = as ++ c :: bs := by
  subst h
  simp

theorem set_next : (as ++ a :: a' :: bs).set (i + 1) c = as ++ a :: c :: bs := by
  subst h
  simp

theorem insert_place : (as ++ bs).insertIdx i c = as ++ c :: bs := by
  subst h
  induction as with
  | nil => rfl
  | cons a as ih => exact congrArg (a :: ·) ih

theorem insert_next : (as ++ a :: bs).insertIdx (i + 1) c = as ++ a :: c :: bs := by
  have happend : (as ++ [a] ++ bs).insertIdx (i + 1) c = as ++ [a] ++ c :: bs := insert_place (by simp [h])
  simpa using happend

theorem erase_place : (as ++ a :: bs).eraseIdx i = as ++ bs := by
  subst h
  rw [List.eraseIdx_append_of_length_le le_rfl, Nat.sub_self, List.eraseIdx_cons_zero]

theorem erase_next : (as ++ a :: c :: bs).eraseIdx (i + 1) = as ++ a :: bs := by
  subst h
  have happend : (as ++ [a] ++ c :: bs).eraseIdx (as.length + 1) = as ++ [a] ++ bs := erase_place (by simp)
  simpa using happend

end Place

end Weave
