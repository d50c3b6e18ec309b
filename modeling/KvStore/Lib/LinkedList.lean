import Mathlib.Data.List.Nodup

/-! # Singly linked lists

`next` reads the link of a node and may fault. `Links next null p qs` says that from `p` on the links go through
the nodes `qs` in order and end in `null`. The rules change one link: `insert` puts a node behind the last of
some nodes, and `remove` takes the node behind them out. -/

namespace LinkedList

variable {α : Type}

def Links (next : α → Option α) (null : α) : α → List α → Prop
  | p, [] => next p = some null
  | p, q :: qs => next p = some q ∧ Links next null q qs

variable {next next' : α → Option α} {null p q c : α} {xs ys : List α}

theorem getLastD_append : (xs ++ ys).getLastD p = ys.getLastD (xs.getLastD p) := by
  induction xs generalizing p with
  | nil => rfl
  | cons x xs ih => simpa only [List.cons_append, List.getLastD_cons] using ih

/-- The links of `ys`, reached from another node. -/
theorem Links.relink (h : Links next null p ys) (hq : next' q = next p) (hys : ∀ a ∈ ys, next' a = next a) :
    Links next' null q ys := by
  induction ys generalizing p q with
  | nil => exact hq.trans h
  | cons y ys ih =>
    obtain ⟨hy, h⟩ := h
    exact ⟨hq.trans hy, ih h (hys y List.mem_cons_self) fun a ha => hys a (List.mem_cons_of_mem y ha)⟩

theorem Links.congr (h : Links next null p ys) (hp : ∀ a ∈ p :: ys, next' a = next a) : Links next' null p ys :=
  h.relink (hp p List.mem_cons_self) fun a ha => hp a (List.mem_cons_of_mem p ha)

/-- From the last of some nodes on. -/
theorem Links.drop (h : Links next null p (xs ++ ys)) : Links next null (xs.getLastD p) ys := by
  induction xs generalizing p with
  | nil => exact h
  | cons x xs ih =>
    rw [List.getLastD_cons]
    exact ih h.2

theorem Links.next_eq (h : Links next null p ys) : next p = some (ys.headD null) := by
  cases ys with
  | nil => exact h
  | cons y ys => exact h.1

theorem Links.next_last (h : Links next null p (xs ++ ys)) : next (xs.getLastD p) = some (ys.headD null) :=
  h.drop.next_eq

theorem Links.insert (h : Links next null p (xs ++ ys)) (hnd : (p :: (xs ++ ys)).Nodup)
    (hlast : next' (xs.getLastD p) = some c) (hnew : next' c = next (xs.getLastD p))
    (hrest : ∀ a ∈ p :: (xs ++ ys), a ≠ xs.getLastD p → next' a = next a) : Links next' null p (xs ++ c :: ys) := by
  induction xs generalizing p with
  | nil =>
    refine ⟨hlast, Links.relink h hnew fun a ha => hrest a (List.mem_cons_of_mem p ha) ?_⟩
    rintro rfl
    exact (List.nodup_cons.mp hnd).1 ha
  | cons x xs ih =>
    rw [List.getLastD_cons] at hlast hnew hrest
    obtain ⟨hx, h⟩ := h
    obtain ⟨hp, hnd⟩ := List.nodup_cons.mp hnd
    refine ⟨?_, ih h hnd hlast hnew fun a ha => hrest a (List.mem_cons_of_mem p ha)⟩
    rw [← hx]
    refine hrest p List.mem_cons_self ?_
    rintro rfl
    exact hp (List.mem_append_left ys List.getLastD_mem_cons)

theorem Links.remove (h : Links next null p (xs ++ c :: ys)) (hnd : (p :: (xs ++ c :: ys)).Nodup)
    (hlast : next' (xs.getLastD p) = next c) (hrest : ∀ a ∈ p :: (xs ++ ys), a ≠ xs.getLastD p → next' a = next a) :
    Links next' null p (xs ++ ys) := by
  induction xs generalizing p with
  | nil =>
    refine h.2.relink hlast fun a ha => hrest a (List.mem_cons_of_mem p ha) ?_
    rintro rfl
    exact (List.nodup_cons.mp hnd).1 (List.mem_cons_of_mem c ha)
  | cons x xs ih =>
    rw [List.getLastD_cons] at hlast hrest
    obtain ⟨hx, h⟩ := h
    obtain ⟨hp, hnd⟩ := List.nodup_cons.mp hnd
    refine ⟨?_, ih h hnd hlast fun a ha => hrest a (List.mem_cons_of_mem p ha)⟩
    rw [← hx]
    refine hrest p List.mem_cons_self ?_
    rintro rfl
    exact hp (List.mem_append_left (c :: ys) List.getLastD_mem_cons)

end LinkedList
