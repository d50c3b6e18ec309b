import KvStore.Lib.RedBlackRepair
import Mathlib.Order.Lattice

/-! # Search in a red-black tree

The descent for a key ends at the node with that key, or at the empty tree where it belongs. -/

namespace RedBlack

variable {α κ : Type} [LinearOrder κ] {key : α → κ} {k : κ}

/-- The keys of the items increase. -/
def Sorted (key : α → κ) (es : List α) : Prop := es.Pairwise fun a b => key a < key b

/-- The descent for `k`: the subtree at which it ends, under its context. -/
def descend (key : α → κ) (k : κ) : Ctx α → RBTree α → Ctx α × RBTree α
  | ctx, .nil => (ctx, .nil)
  | ctx, .node c l a r =>
    if k < key a then descend key k (⟨.left, c, a, r⟩ :: ctx) l
    else if key a < k then descend key k (⟨.right, c, a, l⟩ :: ctx) r
    else (ctx, .node c l a r)

theorem plug_descend (key : α → κ) (k : κ) (ctx : Ctx α) (t : RBTree α) :
    plug (descend key k ctx t).1 (descend key k ctx t).2 = plug ctx t := by
  induction t generalizing ctx with
  | nil => rfl
  | node c l a r ihl ihr =>
    simp only [descend]
    split
    · exact ihl _
    split
    · exact ihr _
    · rfl

/-- A descent ends at an empty tree or at the key. -/
theorem descend_end (key : α → κ) (k : κ) (ctx : Ctx α) (t : RBTree α) : (descend key k ctx t).2 = .nil ∨
    ∃ c l a r, (descend key k ctx t).2 = .node c l a r ∧ key a = k := by
  induction t generalizing ctx with
  | nil => exact Or.inl rfl
  | node c l a r ihl ihr =>
    simp only [descend]
    split
    · exact ihl _
    split
    · exact ihr _
    · next hlt hgt => exact Or.inr ⟨c, l, a, r, rfl, le_antisymm (not_lt.mp hlt) (not_lt.mp hgt)⟩

/-- The key belongs between what comes before the subtree and what comes after it. -/
structure Ctx.Around (key : α → κ) (k : κ) (ctx : Ctx α) : Prop where
  before : ∀ a ∈ ctx.before, key a < k
  after : ∀ a ∈ ctx.after, k < key a

theorem Ctx.Around.nil : Ctx.Around key k ([] : Ctx α) := ⟨by simp [Ctx.before], by simp [Ctx.after]⟩

theorem Sorted.plug {ctx : Ctx α} {t : RBTree α} (h : Sorted key (plug ctx t).toList) : Sorted key t.toList := by
  rw [toList_plug] at h
  exact (List.pairwise_append.mp (List.pairwise_append.mp h).1).2.1

/-- The items of the subtree on the left of a node have smaller keys, those on the right greater ones. -/
theorem Sorted.node {c : Color} {l r : RBTree α} {a : α} (h : Sorted key (RBTree.node c l a r).toList) :
    (∀ b ∈ l.toList, key b < key a) ∧ ∀ b ∈ r.toList, key a < key b := by
  obtain ⟨-, hr, hlt⟩ := List.pairwise_append.mp h
  exact ⟨fun b hb => hlt b hb a List.mem_cons_self, (List.pairwise_cons.mp hr).1⟩

theorem Ctx.Around.descend {ctx : Ctx α} {t : RBTree α} (h : ctx.Around key k) (hs : Sorted key (plug ctx t).toList) :
    (RedBlack.descend key k ctx t).1.Around key k := by
  induction t generalizing ctx with
  | nil => exact h
  | node c l a r ihl ihr =>
    obtain ⟨hl, hr⟩ := hs.plug.node
    simp only [RedBlack.descend]
    split
    · next hlt =>
      refine ihl ⟨?_, ?_⟩ hs
      · simpa [Ctx.before, Side.pick] using h.before
      · simp only [Ctx.after, Side.pick, List.cons_append, List.mem_cons, List.mem_append]
        rintro b (rfl | hb | hb)
        · exact hlt
        · exact hlt.trans (hr b hb)
        · exact h.after b hb
    split
    · next hgt =>
      refine ihr ⟨?_, ?_⟩ hs
      · simp only [Ctx.before, Side.pick, List.mem_append, List.mem_cons, List.not_mem_nil, or_false]
        rintro b (hb | hb | rfl)
        · exact h.before b hb
        · exact (hl b hb).trans hgt
        · exact hgt
      · simpa [Ctx.after, Side.pick] using h.after
    · exact h

/-- The two ends of a descent from the root of a search tree. -/
theorem Sorted.descend {t : RBTree α} (hs : Sorted key t.toList) (k : κ) :
    (∃ ctx, RedBlack.descend key k [] t = (ctx, .nil) ∧ RedBlack.plug ctx .nil = t ∧ ctx.Around key k) ∨
    ∃ ctx c l a r, RedBlack.descend key k [] t = (ctx, .node c l a r) ∧ RedBlack.plug ctx (.node c l a r) = t ∧
      key a = k := by
  have hplug := plug_descend key k [] t
  have haround := Ctx.Around.nil.descend (k := k) hs
  have hend := descend_end key k [] t
  rcases hd : RedBlack.descend key k [] t with ⟨ctx, u⟩
  rw [hd] at hplug haround hend
  rcases hend with rfl | ⟨c, l, a, r, rfl, ha⟩
  · exact Or.inl ⟨ctx, rfl, hplug, haround⟩
  · exact Or.inr ⟨ctx, c, l, a, r, rfl, hplug, ha⟩

/-- A key that belongs into an empty tree is not in the tree around it. -/
theorem Ctx.Around.not_mem {ctx : Ctx α} (h : ctx.Around key k) : ∀ a ∈ (plug ctx .nil).toList, key a ≠ k := by
  intro a ha
  rw [toList_plug] at ha
  rcases List.mem_append.mp ha with ha | ha
  · exact (h.before a (by simpa [RBTree.toList] using ha)).ne
  · exact (h.after a ha).ne'

/-- An item with the key can stand there. -/
theorem Ctx.Around.sorted {ctx : Ctx α} {a : α} (h : ctx.Around key (key a)) (hs : Sorted key (plug ctx .nil).toList) :
    Sorted key (ctx.before ++ a :: ctx.after) := by
  have hs : Sorted key (ctx.before ++ ctx.after) := by simpa [toList_plug, RBTree.toList] using hs
  obtain ⟨hb, ha, hba⟩ := List.pairwise_append.mp hs
  refine List.pairwise_append.mpr ⟨hb, List.pairwise_cons.mpr ⟨h.after, ha⟩, fun b hb c hc => ?_⟩
  rcases List.mem_cons.mp hc with rfl | hc
  · exact h.before b hb
  · exact hba b hb c hc

end RedBlack
