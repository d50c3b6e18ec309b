import KvStore.Rbtree

/-! What the functions of the red-black tree do to the sentinel. `kvs_rbtree_create` writes its color only. As long as
    its children, its key, its value and its timestamp are unwritten, a function that returns has not read them, so that
    every node that it went on from is a real one, and every write to such a node leaves the sentinel as it is. -/

namespace KvStore
open RedBlack (Side Color)

/-- Of the sentinel nothing is written but its color and, if at all, its parent, which is `p`. -/
def Bare (p : Option Ptr) (T : Rbtree) : Prop :=
  ∃ c, T.mem T.nil = some { RbtreeNode.fresh with color := c, parent := p }

/-- The sentinel is bare after an update as it was before. -/
structure StaysBare (p : Option Ptr) (T T' : Rbtree) : Prop where
  nil : T'.nil = T.nil
  bare : Bare p T'

theorem StaysBare.trans {p : Option Ptr} {T T' T'' : Rbtree} (h : StaysBare p T T') (h' : StaysBare p T' T'') :
    StaysBare p T T'' := ⟨h'.nil.trans h.nil, h'.bare⟩

namespace Bare
variable {T T' : Rbtree} {s : Side} {p : Option Ptr} {q r : Ptr}

theorem refl (h : Bare p T) : StaysBare p T T := ⟨rfl, h⟩

/-! ### Reads -/

/-- A field that is not written is not read there. -/
theorem field_ne {α : Type} {f : RbtreeNode → Option α} {a : α}
    (hf : ∀ c, f { RbtreeNode.fresh with color := c, parent := p } = none) (h : Bare p T)
    (hr : T.mem q >>= f = some a) : q ≠ T.nil := by
  rintro rfl
  obtain ⟨c, hc⟩ := h
  rw [hc, Option.bind_eq_bind, Option.bind_some, hf c] at hr
  cases hr

theorem left_ne (h : Bare p T) (hr : T.left q = some r) : q ≠ T.nil := h.field_ne (fun _ => rfl) hr

theorem child_ne (h : Bare p T) (hr : T.child s q = some r) : q ≠ T.nil := by
  cases s
  · exact h.left_ne hr
  · exact h.field_ne (f := (·.right)) (fun _ => rfl) hr

theorem key_ne {k : CString} (h : Bare p T) (hr : T.key q = some k) : q ≠ T.nil := h.field_ne (fun _ => rfl) hr

/-! ### Writes -/

theorem update {f : RbtreeNode → RbtreeNode} (h : Bare p T) (hq : q ≠ T.nil) (hu : T.update q f = some T') :
    StaysBare p T T' := by
  obtain ⟨n, hn, rfl⟩ := Option.map_eq_some_iff.mp hu
  obtain ⟨c, hc⟩ := h
  exact ⟨rfl, c, (if_neg hq.symm).trans hc⟩

theorem setColor {c : Color} (h : Bare p T) (hu : T.setColor q c = some T') : StaysBare p T T' := by
  by_cases hq : q = T.nil
  · obtain ⟨n, hn, rfl⟩ := Option.map_eq_some_iff.mp hu
    obtain ⟨c', hc⟩ := h
    rw [hq, hc] at hn
    cases hn
    exact ⟨rfl, some c, if_pos hq.symm⟩
  · exact h.update hq hu

theorem setChild (h : Bare p T) (hq : q ≠ T.nil) (hu : T.setChild s q r = some T') : StaysBare p T T' := by
  cases s
  · exact h.update hq hu
  · exact h.update hq hu

/-- The parent is the one field of the sentinel that gets a value. -/
theorem setParent (h : Bare p T) (hu : T.setParent q r = some T') : ∃ p', StaysBare p' T T' := by
  by_cases hq : q = T.nil
  · obtain ⟨n, hn, rfl⟩ := Option.map_eq_some_iff.mp hu
    obtain ⟨c, hc⟩ := h
    rw [hq, hc] at hn
    cases hn
    exact ⟨some r, rfl, c, if_pos hq.symm⟩
  · exact ⟨p, h.update hq hu⟩

theorem replaceChild {old new : Ptr} (h : Bare p T) (hu : T.replaceChild s q old new = some T') :
    StaysBare p T T' := by
  rw [Rbtree.replaceChild] at hu
  split at hu
  · cases hu
    exact ⟨rfl, h⟩
  · next hq =>
    obtain ⟨c, -, hu⟩ := Option.bind_eq_some_iff.mp hu
    split at hu
    · exact h.setChild hq hu
    · exact h.setChild hq hu

/-- A rotation reads a child of both of its nodes. -/
theorem rotate_ne {x y : Ptr} (h : Bare p T) (hu : rbtreeRotate s T x = some T') (hy : T.child s.other x = some y) :
    x ≠ T.nil ∧ y ≠ T.nil := by
  simp only [rbtreeRotate, Option.bind_eq_bind, hy, Option.bind_some, Option.bind_eq_some_iff] at hu
  obtain ⟨b, hb, -⟩ := hu
  exact ⟨h.child_ne hy, h.child_ne hb⟩

theorem rotate {x : Ptr} (h : Bare p T) (hu : rbtreeRotate s T x = some T') : x ≠ T.nil ∧ StaysBare p T T' := by
  simp only [rbtreeRotate, Option.bind_eq_bind, Option.bind_eq_some_iff] at hu
  obtain ⟨y, hy, b, hb, T₁, hT₁, T₂, hT₂, q, -, T₃, hT₃, T₄, hT₄, T₅, hT₅, hT₆⟩ := hu
  have hx := h.child_ne hy
  have hy := h.child_ne hb
  have h₁ := h.setChild hx hT₁
  have h₂ : StaysBare p T₁ T₂ := by
    split at hT₂
    · next hb => exact h₁.bare.update hb hT₂
    · cases hT₂
      exact h₁.bare.refl
  have h₂ := h₁.trans h₂
  have h₃ := h₂.trans (h₂.bare.update (h₂.nil ▸ hy) hT₃)
  have h₄ := h₃.trans (h₃.bare.replaceChild hT₄)
  have h₅ := h₄.trans (h₄.bare.setChild (h₄.nil ▸ hy) hT₅)
  exact ⟨hx, h₅.trans (h₅.bare.update (h₅.nil ▸ hx) hT₆)⟩

end Bare

/-! ### Insertion -/

/-- The loop of `rbtree_insert_fixup` comes from a node to another one. -/
inductive InsertReaches : Rbtree → Ptr → Rbtree → Ptr → Prop where
  | refl {T : Rbtree} {z : Ptr} : InsertReaches T z T z
  | step {T T₁ T₂ : Rbtree} {z z₁ z₂ p g l : Ptr} : T.parent z = some p → T.color p = some .red → T.parent p = some g →
      T.left g = some l → rbtreeInsertFixupSide (if p = l then .left else .right) T z = some (T₁, z₁) →
      InsertReaches T₁ z₁ T₂ z₂ → InsertReaches T z T₂ z₂

/-- The grandparents that a turn of the loop works with: that of `z`, and that of the node that it goes on with after
    the first rotation. Each comes with the memory at that moment. -/
inductive Grandparent (T : Rbtree) (z : Ptr) : Rbtree → Ptr → Prop where
  | first {p g : Ptr} : T.parent z = some p → T.color p = some .red → T.parent p = some g → Grandparent T z T g
  | outer {T₁ T₂ : Rbtree} {p g l y r z₁ p₁ g₁ : Ptr} {s : Side} {c : Color} : T.parent z = some p →
      T.color p = some .red → T.parent p = some g → T.left g = some l → s = (if p = l then .left else .right) →
      T.child s.other g = some y → T.color y = some c → c ≠ .red → T.child s.other p = some r →
      (if z = r then (rbtreeRotate s T p).map (·, p) else some (T, z)) = some (T₁, z₁) → T₁.parent z₁ = some p₁ →
      T₁.setColor p₁ .black = some T₂ → T₂.parent p₁ = some g₁ → Grandparent T z T₂ g₁

/-- The part of `rbtree_insert` before the repair; nothing when the key is there. -/
def rbtreeLink (T : Rbtree) (z : Ptr) : Option (Option Rbtree) := do
  let k ← T.key z
  let y ← rbtreeInsertLoop T k T.fuel T.root T.nil
  match y with
  | none => some none
  | some y => do
    let T ← T.setParent z y
    let T ← (if y = T.nil then some { T with root := z }
      else do
        let ky ← T.key y
        if strcmp k ky < 0 then T.setLeft y z else T.setRight y z)
    let T ← T.setLeft z T.nil
    let T ← T.setRight z T.nil
    let T ← T.setColor z .red
    some (some T)

theorem rbtreeInsert_eq (T : Rbtree) (z : Ptr) : rbtreeInsert T z =
    (rbtreeLink T z).bind fun linked => linked.elim (some T) fun T' => rbtreeInsertFixup T' z := by
  simp only [rbtreeInsert, rbtreeLink, Option.bind_eq_bind, Option.bind_assoc]
  congr 1
  funext k
  congr 1
  funext y
  cases y with
  | none => rfl
  | some y => simp only [Option.bind_assoc, Option.bind_some, Option.elim_some]

section Insert
variable {T T' : Rbtree} {s : Side} {par : Option Ptr} {z z' p g : Ptr} {fuel : Nat}

/-- The first rotation of a turn, if it takes place. -/
theorem Bare.rotateIf {r z₁ : Ptr} (h : Bare par T)
    (hu : (if z = r then (rbtreeRotate s T p).map (·, p) else some (T, z)) = some (T', z₁)) : StaysBare par T T' := by
  split at hu
  · obtain ⟨T₁, hT₁, heq⟩ := Option.map_eq_some_iff.mp hu
    cases heq
    exact (h.rotate hT₁).2
  · cases hu
    exact h.refl

/-- The last step of a turn writes to the grandparent and rotates at it. -/
theorem Bare.insertFixupOuter (h : Bare par T) (hu : rbtreeInsertFixupOuter s T z = some T') : StaysBare par T T' ∧
    ∀ p T₁ g, T.parent z = some p → T.setColor p .black = some T₁ → T₁.parent p = some g → g ≠ T₁.nil := by
  simp only [rbtreeInsertFixupOuter, Option.bind_eq_bind, Option.bind_eq_some_iff] at hu
  obtain ⟨p, hp, T₁, hT₁, g, hg, T₂, hT₂, hT₃⟩ := hu
  have h₁ := h.setColor hT₁
  have h₂ := h₁.bare.setColor hT₂
  obtain ⟨hne, h₃⟩ := h₂.bare.rotate hT₃
  refine ⟨h₁.trans (h₂.trans h₃), fun p' T₁' g' hp' hT₁' hg' => ?_⟩
  obtain rfl := Option.some.inj (hp.symm.trans hp')
  obtain rfl := Option.some.inj (hT₁.symm.trans hT₁')
  obtain rfl := Option.some.inj (hg.symm.trans hg')
  exact h₂.nil ▸ hne

theorem Bare.insertFixupSide (h : Bare par T) (hu : rbtreeInsertFixupSide s T z = some (T', z')) :
    StaysBare par T T' := by
  simp only [rbtreeInsertFixupSide, Option.bind_eq_bind, Option.bind_eq_some_iff] at hu
  obtain ⟨p, hp, g, hg, y, hy, c, hc, hu⟩ := hu
  split at hu
  · simp only [Option.bind_eq_some_iff, Option.some.injEq] at hu
    obtain ⟨T₁, hT₁, T₂, hT₂, T₃, hT₃, rfl, rfl⟩ := hu
    have h₁ := h.setColor hT₁
    have h₂ := h₁.trans (h₁.bare.setColor hT₂)
    exact h₂.trans (h₂.bare.setColor hT₃)
  · simp only [Option.bind_eq_some_iff] at hu
    obtain ⟨r, -, ⟨T₁, z₁⟩, hT₁, T₂, hT₂, hu⟩ := hu
    cases hu
    have h₁ := h.rotateIf hT₁
    exact h₁.trans (h₁.bare.insertFixupOuter hT₂).1

/-- What a loop that goes on has done in its turn, and that it returns from there. -/
theorem insertFixupLoop_red (hu : rbtreeInsertFixupLoop fuel T z = some T') (hp : T.parent z = some p)
    (hc : T.color p = some .red) : ∃ fuel' g l T₁ z₁, T.parent p = some g ∧ T.left g = some l ∧
      rbtreeInsertFixupSide (if p = l then .left else .right) T z = some (T₁, z₁) ∧
      rbtreeInsertFixupLoop fuel' T₁ z₁ = some T' := by
  cases fuel with
  | zero => cases hu
  | succ fuel =>
    simp only [rbtreeInsertFixupLoop, Option.bind_eq_bind, hp, hc, Option.bind_some, if_true,
      Option.bind_eq_some_iff] at hu
    obtain ⟨g, hg, l, hl, ⟨T₁, z₁⟩, hside, hrest⟩ := hu
    exact ⟨fuel, g, l, T₁, z₁, hg, hl, hside, hrest⟩

theorem Bare.insertFixupLoop (h : Bare par T) (hu : rbtreeInsertFixupLoop fuel T z = some T') : StaysBare par T T' := by
  induction fuel generalizing T z with
  | zero => cases hu
  | succ fuel ih =>
    simp only [rbtreeInsertFixupLoop, Option.bind_eq_bind, Option.bind_eq_some_iff] at hu
    obtain ⟨p, -, c, -, hu⟩ := hu
    split at hu
    · simp only [Option.bind_eq_some_iff] at hu
      obtain ⟨g, -, l, -, ⟨T₁, z₁⟩, hside, hrest⟩ := hu
      have h₁ := h.insertFixupSide hside
      exact h₁.trans (ih h₁.bare hrest)
    · cases hu
      exact h.refl

theorem Bare.insertFixup (h : Bare par T) (hu : rbtreeInsertFixup T z = some T') : StaysBare par T T' := by
  simp only [rbtreeInsertFixup, Option.bind_eq_bind, Option.bind_eq_some_iff] at hu
  obtain ⟨T₁, hT₁, hT₂⟩ := hu
  have h₁ := h.insertFixupLoop hT₁
  exact h₁.trans (h₁.bare.setColor hT₂)

theorem Bare.link (h : Bare par T) (hu : rbtreeLink T z = some (some T')) : StaysBare par T T' := by
  simp only [rbtreeLink, Option.bind_eq_bind, Option.bind_eq_some_iff] at hu
  obtain ⟨k, hk, y, -, hu⟩ := hu
  have hz := h.key_ne hk
  cases y with
  | none => cases hu
  | some y =>
    simp only [Option.bind_eq_some_iff] at hu
    obtain ⟨T₁, hT₁, T₂, hT₂, T₃, hT₃, T₄, hT₄, T₅, hT₅, hu⟩ := hu
    cases hu
    have h₁ := h.update hz hT₁
    have h₂ : StaysBare par T₁ T₂ := by
      split at hT₂
      · cases hT₂
        exact ⟨rfl, h₁.bare⟩
      · next hy =>
        obtain ⟨ky, -, hT₂⟩ := Option.bind_eq_some_iff.mp hT₂
        split at hT₂
        · exact h₁.bare.update hy hT₂
        · exact h₁.bare.update hy hT₂
    have h₂ := h₁.trans h₂
    have h₃ := h₂.trans (h₂.bare.update (h₂.nil ▸ hz) hT₃)
    have h₄ := h₃.trans (h₃.bare.update (h₃.nil ▸ hz) hT₄)
    exact h₄.trans (h₄.bare.setColor hT₅)

theorem Bare.insert (h : Bare par T) (hu : rbtreeInsert T z = some T') : StaysBare par T T' := by
  rw [rbtreeInsert_eq] at hu
  obtain ⟨linked, hlink, hu⟩ := Option.bind_eq_some_iff.mp hu
  cases linked with
  | none =>
    cases hu
    exact h.refl
  | some T₁ =>
    have h₁ := h.link hlink
    exact h₁.trans (h₁.bare.insertFixup hu)

theorem Bare.insertReaches {T₁ : Rbtree} {z₁ : Ptr} (h : Bare par T) (hr : InsertReaches T z T₁ z₁) :
    StaysBare par T T₁ := by
  induction hr with
  | refl => exact h.refl
  | step hp hc hg hl hside hrest ih =>
    have h₁ := h.insertFixupSide hside
    exact h₁.trans (ih h₁.bare)

theorem insertReaches_returns {T₁ : Rbtree} {z₁ : Ptr} (hr : InsertReaches T z T₁ z₁)
    (hu : rbtreeInsertFixupLoop fuel T z = some T') : ∃ fuel', rbtreeInsertFixupLoop fuel' T₁ z₁ = some T' := by
  induction hr generalizing fuel with
  | refl => exact ⟨fuel, hu⟩
  | step hp hc hg hl hside hrest ih =>
    obtain ⟨fuel', g', l', T₁', z₁', hg', hl', hside', hu'⟩ := insertFixupLoop_red hu hp hc
    obtain rfl := Option.some.inj (hg.symm.trans hg')
    obtain rfl := Option.some.inj (hl.symm.trans hl')
    rw [hside] at hside'
    cases hside'
    exact ih hu'

/-- No grandparent is the sentinel in a turn of a loop that returns. -/
theorem Bare.grandparent (h : Bare par T) (hu : rbtreeInsertFixupLoop fuel T z = some T') {T₂ : Rbtree}
    (hg : Grandparent T z T₂ g) : g ≠ T₂.nil := by
  cases hg with
  | first hp hc hg =>
    obtain ⟨fuel', g', l, T₁, z₁, hg', hl, -, -⟩ := insertFixupLoop_red hu hp hc
    obtain rfl := Option.some.inj (hg.symm.trans hg')
    exact h.left_ne hl
  | outer hp hc hg hl hs hy hcy hblack hr hrot hp₁ hT₂ hg₁ =>
    obtain ⟨fuel', g', l', T₃, z₃, hg', hl', hside, -⟩ := insertFixupLoop_red hu hp hc
    obtain rfl := Option.some.inj (hg.symm.trans hg')
    obtain rfl := Option.some.inj (hl.symm.trans hl')
    rw [← hs] at hside
    simp only [rbtreeInsertFixupSide, Option.bind_eq_bind, hp, hg, hy, hcy, Option.bind_some, if_neg hblack, hr, hrot,
      Option.bind_eq_some_iff] at hside
    obtain ⟨T₄, houter, -⟩ := hside
    exact ((h.rotateIf hrot).bare.insertFixupOuter houter).2 _ _ _ hp₁ hT₂ hg₁

end Insert

/-! ### Deletion -/

/-- The loop of `rbtree_delete_fixup` takes a turn for `x` on side `s`. -/
def DeleteTurn (T : Rbtree) (x : Ptr) (s : Side) : Prop :=
  x ≠ T.root ∧ T.color x = some .black ∧
    ∃ p l, T.parent x = some p ∧ T.left p = some l ∧ s = if x = l then .left else .right

/-- The loop of `rbtree_delete_fixup` comes from a node to another one. -/
inductive DeleteReaches : Rbtree → Ptr → Rbtree → Ptr → Prop where
  | refl {T : Rbtree} {x : Ptr} : DeleteReaches T x T x
  | step {T T₁ T₂ : Rbtree} {x x₁ x₂ : Ptr} {s : Side} : DeleteTurn T x s →
      rbtreeDeleteFixupSide s T x = some (T₁, x₁) → DeleteReaches T₁ x₁ T₂ x₂ → DeleteReaches T x T₂ x₂

/-- The sibling `w` whose children a turn tests: that of `x`, or, when that one is red, the one after the rotation. It
    comes with the memory at that moment. -/
inductive BlackSibling (s : Side) (T : Rbtree) (x : Ptr) : Rbtree → Ptr → Prop where
  | same {p w : Ptr} {c : Color} : T.parent x = some p → T.child s.other p = some w → T.color w = some c → c ≠ .red →
      BlackSibling s T x T w
  | rotated {T₁ T₂ T₃ : Rbtree} {p w p' w' : Ptr} : T.parent x = some p → T.child s.other p = some w →
      T.color w = some .red → T.setColor w .black = some T₁ → T₁.setColor p .red = some T₂ →
      rbtreeRotate s T₂ p = some T₃ → T₃.parent x = some p' → T₃.child s.other p' = some w' → BlackSibling s T x T₃ w'

/-- Every `w` of a turn: the first one, the one whose children are tested, and the one after the rotation at it. -/
inductive Sibling (s : Side) (T : Rbtree) (x : Ptr) : Rbtree → Ptr → Prop where
  | first {p w : Ptr} : T.parent x = some p → T.child s.other p = some w → Sibling s T x T w
  | black {T' : Rbtree} {w : Ptr} : BlackSibling s T x T' w → Sibling s T x T' w
  | last {T₁ T₂ T₃ T₄ : Rbtree} {w l r far near p w' : Ptr} {cl cr : Color} : BlackSibling s T x T₁ w →
      T₁.left w = some l → T₁.color l = some cl → T₁.right w = some r → T₁.color r = some cr →
      ¬(cl = .black ∧ cr = .black) → T₁.child s.other w = some far → T₁.color far = some .black →
      T₁.child s w = some near → T₁.setColor near .black = some T₂ → T₂.setColor w .red = some T₃ →
      rbtreeRotate s.other T₃ w = some T₄ → T₄.parent x = some p → T₄.child s.other p = some w' →
      Sibling s T x T₄ w'

/-- The part of `rbtree_delete` before the repair: the memory, the node `x` that takes the place of `y`, and `y`. -/
def rbtreeUnlink (T : Rbtree) (z : Ptr) : Option (Rbtree × Ptr × Ptr) := do
  let l ← T.left z
  let r ← T.right z
  let y ← (if l = T.nil ∨ r = T.nil then some z else rbtreeSuccessor T z)
  let ly ← T.left y
  let x ← (if ly ≠ T.nil then some ly
    else do
      let ry ← T.right y
      some (if ry ≠ T.nil then ry else T.nil))
  let p ← T.parent y
  let T ← T.setParent x p
  let T ← T.replaceChild .left p y x
  let T ← (if y ≠ z then T.swapEntry z y else some T)
  some (T, x, y)

theorem rbtreeDelete_eq (T : Rbtree) (z : Ptr) : rbtreeDelete T z = (rbtreeUnlink T z).bind fun (T, x, y) =>
    (T.color y).bind fun c => (if c = .black then rbtreeDeleteFixup T x else some T).map (·, y) := by
  simp only [rbtreeDelete, rbtreeUnlink, Option.bind_eq_bind, Option.bind_assoc, Option.bind_some, Option.map_eq_bind,
    Function.comp_def]

section Delete
variable {T T' : Rbtree} {s : Side} {par : Option Ptr} {x x' w : Ptr} {fuel : Nat}

theorem child_setColor {q r : Ptr} {c : Color} (hu : T.setColor q c = some T') : T'.child s r = T.child s r := by
  obtain ⟨n, hn, rfl⟩ := Option.map_eq_some_iff.mp hu
  by_cases hr : r = q
  · subst hr
    cases s <;> simp [Rbtree.child, Rbtree.left, Rbtree.right, Rbtree.put, hn]
  · cases s <;> simp [Rbtree.child, Rbtree.left, Rbtree.right, Rbtree.put, hr]

theorem Bare.deleteFixupFar (h : Bare par T) (hu : rbtreeDeleteFixupFar s T x w = some (T', x')) :
    w ≠ T.nil ∧ StaysBare par T T' := by
  simp only [rbtreeDeleteFixupFar, Option.bind_eq_bind, Option.bind_eq_some_iff] at hu
  obtain ⟨p, -, cp, -, T₁, hT₁, T₂, hT₂, far, hfar, T₃, hT₃, T₄, hT₄, hu⟩ := hu
  cases hu
  have h₁ := h.setColor hT₁
  have h₂ := h₁.trans (h₁.bare.setColor hT₂)
  have h₃ := h₂.trans (h₂.bare.setColor hT₃)
  exact ⟨h₂.nil ▸ h₂.bare.child_ne hfar, h₃.trans (h₃.bare.rotate hT₄).2⟩

theorem Bare.deleteFixupBlack (h : Bare par T) (hu : rbtreeDeleteFixupBlack s T x w = some (T', x')) :
    w ≠ T.nil ∧ StaysBare par T T' := by
  simp only [rbtreeDeleteFixupBlack, Option.bind_eq_bind, Option.bind_eq_some_iff] at hu
  obtain ⟨l, hl, cl, -, r, -, cr, -, hu⟩ := hu
  refine ⟨h.left_ne hl, ?_⟩
  split at hu
  · simp only [Option.bind_eq_some_iff] at hu
    obtain ⟨T₁, hT₁, p, -, hu⟩ := hu
    cases hu
    exact h.setColor hT₁
  · simp only [Option.bind_eq_some_iff] at hu
    obtain ⟨far, -, cf, -, hu⟩ := hu
    split at hu
    · simp only [Option.bind_eq_some_iff] at hu
      obtain ⟨near, -, T₁, hT₁, T₂, hT₂, T₃, hT₃, p, -, w', -, hu⟩ := hu
      have h₁ := h.setColor hT₁
      have h₂ := h₁.trans (h₁.bare.setColor hT₂)
      have h₃ := h₂.trans (h₂.bare.rotate hT₃).2
      exact h₃.trans (h₃.bare.deleteFixupFar hu).2
    · exact (h.deleteFixupFar hu).2

theorem Bare.deleteFixupSide (h : Bare par T) (hu : rbtreeDeleteFixupSide s T x = some (T', x')) :
    StaysBare par T T' := by
  simp only [rbtreeDeleteFixupSide, Option.bind_eq_bind, Option.bind_eq_some_iff] at hu
  obtain ⟨p, -, w, -, c, -, hu⟩ := hu
  split at hu
  · simp only [Option.bind_eq_some_iff] at hu
    obtain ⟨T₁, hT₁, T₂, hT₂, T₃, hT₃, p', -, w', -, hu⟩ := hu
    have h₁ := h.setColor hT₁
    have h₂ := h₁.trans (h₁.bare.setColor hT₂)
    have h₃ := h₂.trans (h₂.bare.rotate hT₃).2
    exact h₃.trans (h₃.bare.deleteFixupBlack hu).2
  · exact (h.deleteFixupBlack hu).2

/-- A turn that returns has gone on from the sibling whose children it tests. -/
theorem Bare.blackSibling {T₁ : Rbtree} (h : Bare par T) (hu : rbtreeDeleteFixupSide s T x = some (T', x'))
    (hw : BlackSibling s T x T₁ w) : StaysBare par T T₁ ∧ rbtreeDeleteFixupBlack s T₁ x w = some (T', x') := by
  cases hw with
  | same hp hw hc hne =>
    simp only [rbtreeDeleteFixupSide, Option.bind_eq_bind, hp, hw, hc, Option.bind_some, if_neg hne] at hu
    exact ⟨h.refl, hu⟩
  | rotated hp hw hc hT₁ hT₂ hT₃ hp' hw' =>
    simp only [rbtreeDeleteFixupSide, Option.bind_eq_bind, hp, hw, hc, Option.bind_some, if_true, hT₁, hT₂, hT₃, hp',
      hw'] at hu
    have h₁ := h.setColor hT₁
    have h₂ := h₁.trans (h₁.bare.setColor hT₂)
    exact ⟨h₂.trans (h₂.bare.rotate hT₃).2, hu⟩

/-- No sibling is the sentinel in a turn that returns. -/
theorem Bare.sibling {T₁ : Rbtree} (h : Bare par T) (hu : rbtreeDeleteFixupSide s T x = some (T', x'))
    (hw : Sibling s T x T₁ w) : w ≠ T₁.nil := by
  cases hw with
  | @first p _ hp hw =>
    have hside := hu
    simp only [rbtreeDeleteFixupSide, Option.bind_eq_bind, hp, hw, Option.bind_some, Option.bind_eq_some_iff] at hside
    obtain ⟨c, hc, hside⟩ := hside
    split at hside
    · -- a red sibling comes up in the rotation
      simp only [Option.bind_eq_some_iff] at hside
      obtain ⟨T₂, hT₂, T₃, hT₃, T₄, hT₄, -⟩ := hside
      have h₂ := h.setColor hT₂
      have h₃ := h₂.trans (h₂.bare.setColor hT₃)
      have hchild : T₃.child s.other p = some w := (child_setColor hT₃).trans ((child_setColor hT₂).trans hw)
      exact h₃.nil ▸ (h₃.bare.rotate_ne hT₄ hchild).2
    · next hne =>
      obtain ⟨-, hblack⟩ := h.blackSibling hu (.same hp hw hc hne)
      exact (h.deleteFixupBlack hblack).1
  | black hw =>
    obtain ⟨h₁, hblack⟩ := h.blackSibling hu hw
    exact (h₁.bare.deleteFixupBlack hblack).1
  | last hw hl hcl hr hcr hred hfar hcfar hnear hT₂ hT₃ hT₄ hp hw' =>
    obtain ⟨h₁, hblack⟩ := h.blackSibling hu hw
    simp only [rbtreeDeleteFixupBlack, Option.bind_eq_bind, hl, hcl, hr, hcr, hfar, hcfar, hnear, hT₂, hT₃, hT₄, hp, hw',
      Option.bind_some, if_neg hred, if_true] at hblack
    have h₂ := h₁.bare.setColor hT₂
    have h₃ := h₂.trans (h₂.bare.setColor hT₃)
    exact ((h₃.bare.rotate hT₄).2.bare.deleteFixupFar hblack).1

theorem deleteFixupLoop_turn {R : Rbtree × Ptr} (hu : rbtreeDeleteFixupLoop fuel T x = some R) (ht : DeleteTurn T x s) :
    ∃ fuel' T₁ x₁, rbtreeDeleteFixupSide s T x = some (T₁, x₁) ∧ rbtreeDeleteFixupLoop fuel' T₁ x₁ = some R := by
  obtain ⟨hroot, hc, p, l, hp, hl, rfl⟩ := ht
  cases fuel with
  | zero => cases hu
  | succ fuel =>
    simp only [rbtreeDeleteFixupLoop, Option.bind_eq_bind, if_pos hroot, hc, Option.bind_some, if_true, hp, hl,
      Option.bind_eq_some_iff] at hu
    obtain ⟨⟨T₁, x₁⟩, hside, hrest⟩ := hu
    exact ⟨fuel, T₁, x₁, hside, hrest⟩

theorem Bare.deleteFixupLoop (h : Bare par T) (hu : rbtreeDeleteFixupLoop fuel T x = some (T', x')) :
    StaysBare par T T' := by
  induction fuel generalizing T x with
  | zero => cases hu
  | succ fuel ih =>
    rw [rbtreeDeleteFixupLoop] at hu
    split at hu
    · simp only [Option.bind_eq_bind, Option.bind_eq_some_iff] at hu
      obtain ⟨c, -, hu⟩ := hu
      split at hu
      · simp only [Option.bind_eq_some_iff] at hu
        obtain ⟨p, -, l, -, ⟨T₁, x₁⟩, hside, hrest⟩ := hu
        have h₁ := h.deleteFixupSide hside
        exact h₁.trans (ih h₁.bare hrest)
      · cases hu
        exact h.refl
    · cases hu
      exact h.refl

theorem Bare.deleteFixup (h : Bare par T) (hu : rbtreeDeleteFixup T x = some T') : StaysBare par T T' := by
  simp only [rbtreeDeleteFixup, Option.bind_eq_bind, Option.bind_eq_some_iff] at hu
  obtain ⟨⟨T₁, x₁⟩, hT₁, hT₂⟩ := hu
  have h₁ := h.deleteFixupLoop hT₁
  exact h₁.trans (h₁.bare.setColor hT₂)

theorem Bare.deleteReaches {T₁ : Rbtree} {x₁ : Ptr} (h : Bare par T) (hr : DeleteReaches T x T₁ x₁) :
    StaysBare par T T₁ := by
  induction hr with
  | refl => exact h.refl
  | step ht hside hrest ih =>
    have h₁ := h.deleteFixupSide hside
    exact h₁.trans (ih h₁.bare)

theorem deleteReaches_returns {T₁ : Rbtree} {x₁ : Ptr} {R : Rbtree × Ptr} (hr : DeleteReaches T x T₁ x₁)
    (hu : rbtreeDeleteFixupLoop fuel T x = some R) : ∃ fuel', rbtreeDeleteFixupLoop fuel' T₁ x₁ = some R := by
  induction hr generalizing fuel with
  | refl => exact ⟨fuel, hu⟩
  | step ht hside hrest ih =>
    obtain ⟨fuel', T₂, x₂, hside', hu'⟩ := deleteFixupLoop_turn hu ht
    rw [hside] at hside'
    cases hside'
    exact ih hu'

theorem Bare.swapEntry {z y : Ptr} (h : Bare par T) (hu : T.swapEntry z y = some T') : StaysBare par T T' := by
  simp only [Rbtree.swapEntry, Option.bind_eq_bind, Option.bind_eq_some_iff] at hu
  obtain ⟨kz, hkz, ky, hky, T₁, hT₁, T₂, hT₂, vz, -, vy, -, T₃, hT₃, hT₄⟩ := hu
  have hz := h.key_ne hkz
  have hy := h.key_ne hky
  have h₁ := h.update hz hT₁
  have h₂ := h₁.trans (h₁.bare.update (h₁.nil ▸ hy) hT₂)
  have h₃ := h₂.trans (h₂.bare.update (h₂.nil ▸ hz) hT₃)
  exact h₃.trans (h₃.bare.update (h₃.nil ▸ hy) hT₄)

/-- The parent of the sentinel may be written here, and nowhere else. -/
theorem Bare.unlink {z y : Ptr} (h : Bare par T) (hu : rbtreeUnlink T z = some (T', x, y)) :
    y ≠ T.nil ∧ ∃ par', StaysBare par' T T' := by
  simp only [rbtreeUnlink, Option.bind_eq_bind, Option.bind_eq_some_iff] at hu
  obtain ⟨l, -, r, -, y', -, ly, hly, x', -, p, -, T₁, hT₁, T₂, hT₂, T₃, hT₃, hu⟩ := hu
  cases hu
  obtain ⟨par', h₁⟩ := h.setParent hT₁
  have h₂ := h₁.trans (h₁.bare.replaceChild hT₂)
  refine ⟨h.left_ne hly, par', ?_⟩
  split at hT₃
  · exact h₂.trans (h₂.bare.swapEntry hT₃)
  · cases hT₃
    exact h₂

theorem Bare.delete {z y : Ptr} (h : Bare par T) (hu : rbtreeDelete T z = some (T', y)) :
    y ≠ T.nil ∧ ∃ par', StaysBare par' T T' := by
  rw [rbtreeDelete_eq] at hu
  obtain ⟨⟨T₁, x, y'⟩, hunlink, hu⟩ := Option.bind_eq_some_iff.mp hu
  obtain ⟨c, -, hu⟩ := Option.bind_eq_some_iff.mp hu
  obtain ⟨T₂, hT₂, heq⟩ := Option.map_eq_some_iff.mp hu
  cases heq
  obtain ⟨hy, par', h₁⟩ := h.unlink hunlink
  refine ⟨hy, par', ?_⟩
  split at hT₂
  · exact h₁.trans (h₁.bare.deleteFixup hT₂)
  · cases hT₂
    exact h₁

end Delete

/-! ### The calls -/

section Calls
variable {T T' : Rbtree} {par : Option Ptr} {env : Env} {k v : CString} {ts : UInt64} {n : Int}

theorem Bare.malloc (h : Bare par T) (hnext : T.nil ≠ T.next) : StaysBare par T T.malloc.1 := by
  obtain ⟨c, hc⟩ := h
  exact ⟨rfl, c, (if_neg hnext).trans hc⟩

theorem Bare.kvsSet (h : Bare par T) (hnext : T.nil ≠ T.next)
    (hs : kvsRbtreeSetWithTimestamp env T k v ts = some (T', n)) : StaysBare par T T' := by
  simp only [kvsRbtreeSetWithTimestamp, Option.bind_eq_bind, Option.bind_eq_some_iff] at hs
  obtain ⟨oldValue, -, hs⟩ := hs
  split at hs
  · cases hs
    exact h.refl
  split at hs
  · cases hs
  have h₀ := h.malloc hnext
  have hmalloc : T.malloc = (T.malloc.1, T.next) := rfl
  rw [hmalloc] at hs
  simp only at hs
  split at hs
  · cases hs
    exact h₀
  obtain ⟨T₁, hT₁, hs⟩ := Option.bind_eq_some_iff.mp hs
  have h₁ := h₀.trans (h₀.bare.update (h₀.nil ▸ hnext.symm) hT₁)
  split at hs
  · cases hs
    exact h₁
  simp only [Option.bind_eq_some_iff] at hs
  obtain ⟨T₂, hT₂, T₃, hT₃, T₄, hT₄, hs⟩ := hs
  cases hs
  have h₂ := h₁.trans (h₁.bare.update (h₁.nil ▸ hnext.symm) hT₂)
  have h₃ := h₂.trans (h₂.bare.update (h₂.nil ▸ hnext.symm) hT₃)
  exact h₃.trans (h₃.bare.insert hT₄)

theorem Bare.kvsModify (h : Bare par T) (hs : kvsRbtreeModifyWithTimestamp env T k v ts = some (T', n)) :
    StaysBare par T T' := by
  simp only [kvsRbtreeModifyWithTimestamp, Option.bind_eq_bind, Option.bind_eq_some_iff] at hs
  obtain ⟨node, -, hs⟩ := hs
  split at hs
  · cases hs
    exact h.refl
  next hne =>
  obtain ⟨old, -, hs⟩ := Option.bind_eq_some_iff.mp hs
  split at hs
  · obtain ⟨T₁, hT₁, hs⟩ := Option.bind_eq_some_iff.mp hs
    cases hs
    exact h.update hne hT₁
  · simp only [Option.bind_eq_some_iff] at hs
    obtain ⟨T₁, hT₁, T₂, hT₂, hs⟩ := hs
    cases hs
    have h₁ := h.update hne hT₁
    exact h₁.trans (h₁.bare.update (h₁.nil ▸ hne) hT₂)

theorem Bare.kvsDelete (h : Bare par T) (hs : kvsRbtreeDelete T k = some (T', n)) :
    ∃ par', StaysBare par' T T' := by
  simp only [kvsRbtreeDelete, Option.bind_eq_bind, Option.bind_eq_some_iff] at hs
  obtain ⟨node, -, hs⟩ := hs
  split at hs
  · cases hs
    exact ⟨par, h.refl⟩
  · simp only [Option.bind_eq_some_iff] at hs
    obtain ⟨⟨T₁, cur⟩, hdelete, key, -, value, -, hs⟩ := hs
    cases hs
    obtain ⟨hcur, par', h₁⟩ := h.delete hdelete
    obtain ⟨c, hc⟩ := h₁.bare
    have hne : T₁.nil ≠ cur := h₁.nil ▸ hcur.symm
    exact ⟨par', h₁.nil, c, (if_neg hne).trans hc⟩

end Calls

end KvStore
