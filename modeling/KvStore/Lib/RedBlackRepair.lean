import KvStore.Lib.RedBlack

/-! # Repairs along the path to the root

The context of a subtree lists the frames above it, the nearest first. `insertFixup` repairs a red node under
a red parent, `deleteFixup` a subtree whose paths cross one black node too few. -/

namespace RedBlack

variable {α : Type}

/-- A node on the path above the subtree in focus: the side on which the path leaves it, its color and
    item, and its other child. -/
structure Frame (α : Type) where
  side : Side
  color : Color
  item : α
  sibling : RBTree α

abbrev Ctx (α : Type) := List (Frame α)

/-- The whole tree: the subtree `t` put back under its context. -/
def plug : Ctx α → RBTree α → RBTree α
  | [], t => t
  | f :: ctx, t => plug ctx (.mk f.side f.color t f.item f.sibling)

namespace Ctx

/-- The color above the subtree; there is no red node above the root. -/
def color : Ctx α → Color
  | [] => .black
  | f :: _ => f.color

/-- What comes before the subtree in order. -/
def before : Ctx α → List α
  | [] => []
  | f :: ctx => before ctx ++ f.side.pick [] (f.sibling.toList ++ [f.item])

/-- What comes after the subtree in order. -/
def after : Ctx α → List α
  | [] => []
  | f :: ctx => f.side.pick (f.item :: f.sibling.toList) [] ++ after ctx

/-- The context is that of a red-black tree from which a subtree of black height `n` was taken out. -/
def Balanced : Ctx α → Nat → Prop
  | [], _ => True
  | f :: ctx, n =>
    f.sibling.Balanced n ∧
      match f.color with
      | .red => f.sibling.rootColor = .black ∧ ctx ≠ [] ∧ color ctx = .black ∧ Balanced ctx n
      | .black => Balanced ctx (n + 1)

/-- A subtree fits under the context when it does not put a red node under a red one or at the root. -/
def Fits (ctx : Ctx α) (t : RBTree α) : Prop := t.rootColor = .black ∨ (ctx ≠ [] ∧ color ctx = .black)

end Ctx

open Ctx RedBlack.RBTree

theorem plug_append (c₁ c₂ : Ctx α) (t : RBTree α) : plug (c₁ ++ c₂) t = plug c₂ (plug c₁ t) := by
  induction c₁ generalizing t with
  | nil => rfl
  | cons f c₁ ih => exact ih _

theorem Ctx.before_append (c₁ c₂ : Ctx α) : before (c₁ ++ c₂) = before c₂ ++ before c₁ := by
  induction c₁ with
  | nil => simp [before]
  | cons f c₁ ih => simp [before, ih]

theorem Ctx.after_append (c₁ c₂ : Ctx α) : after (c₁ ++ c₂) = after c₁ ++ after c₂ := by
  induction c₁ with
  | nil => simp [after]
  | cons f c₁ ih => simp [after, ih]

/-- In order, the whole tree is its subtree between what comes before and after it. -/
theorem toList_plug (ctx : Ctx α) (t : RBTree α) :
    (plug ctx t).toList = before ctx ++ t.toList ++ after ctx := by
  induction ctx generalizing t with
  | nil => simp [plug, before, after]
  | cons f ctx ih =>
    rw [plug, ih, toList_mk, before, after]
    cases f.side <;> simp [Side.cat, Side.pick]

/-- Every item of a tree in order is at the root of a subtree. -/
theorem exists_plug_of_toList {t : RBTree α} {xs ys : List α} {a : α} (h : t.toList = xs ++ a :: ys) :
    ∃ ctx c l r, plug ctx (.node c l a r) = t ∧ before ctx ++ l.toList = xs ∧ r.toList ++ after ctx = ys := by
  induction t generalizing xs ys with
  | nil => simp [toList] at h
  | node c l b r ihl ihr =>
    rcases List.append_eq_append_iff.mp h with ⟨zs, rfl, hr⟩ | ⟨zs, hl, hr⟩
    · cases zs with
      | nil =>
        obtain ⟨rfl, rfl⟩ := List.cons.inj hr
        exact ⟨[], c, l, r, rfl, by simp [before], by simp [after]⟩
      | cons z zs =>
        obtain ⟨rfl, htail⟩ := List.cons.inj hr
        obtain ⟨ctx, c', l', r', hplug, rfl, rfl⟩ := ihr htail
        refine ⟨ctx ++ [⟨.right, c, b, l⟩], c', l', r', ?_, ?_, ?_⟩
        · rw [plug_append, hplug]
          rfl
        · simp [before_append, before, Side.pick]
        · simp [after_append, after, Side.pick]
    · cases zs with
      | nil =>
        obtain ⟨rfl, rfl⟩ := List.cons.inj hr
        exact ⟨[], c, l, r, rfl, by simpa [before] using hl, by simp [after]⟩
      | cons z zs =>
        obtain ⟨rfl, rfl⟩ := List.cons.inj hr
        obtain ⟨ctx, c', l', r', hplug, rfl, rfl⟩ := ihl hl
        refine ⟨ctx ++ [⟨.left, c, b, r⟩], c', l', r', ?_, ?_, ?_⟩
        · rw [plug_append, hplug]
          rfl
        · simp [before_append, before, Side.pick]
        · simp [after_append, after, Side.pick]

theorem toList_plug_congr {t u : RBTree α} (ctx : Ctx α) (h : t.toList = u.toList) :
    (plug ctx t).toList = (plug ctx u).toList := by
  rw [toList_plug, toList_plug, h]

theorem Ctx.length_le (ctx : Ctx α) (t : RBTree α) : ctx.length + t.toList.length ≤ (plug ctx t).toList.length := by
  induction ctx generalizing t with
  | nil => simp [plug]
  | cons f ctx ih =>
    have := ih (.mk f.side f.color t f.item f.sibling)
    rw [plug]
    cases hs : f.side <;> simp [toList_mk, Side.cat, Side.pick, hs] at this ⊢ <;> omega

/-- A balanced subtree that fits completes its context to a red-black tree. -/
theorem Ctx.Balanced.fill {ctx : Ctx α} {t : RBTree α} {n : Nat} (h : Ctx.Balanced ctx n) (ht : t.Balanced n)
    (hf : ctx.Fits t) : (plug ctx t).Valid := by
  induction ctx generalizing t n with
  | nil =>
    rcases hf with hf | ⟨hf, -⟩
    · exact ⟨hf, n, ht⟩
    · exact absurd rfl hf
  | cons f ctx ih =>
    obtain ⟨side, c, a, sib⟩ := f
    cases c with
    | red =>
      obtain ⟨hs, hsc, hne, hctx, hb⟩ := h
      have htc : t.rootColor = .black := by
        rcases hf with hf | ⟨-, hf⟩
        · exact hf
        · cases hf
      exact ih hb (balanced_mk_red.mpr ⟨⟨ht, htc⟩, hs, hsc⟩) (Or.inr ⟨hne, hctx⟩)
    | black =>
      obtain ⟨hs, hb⟩ := h
      exact ih hb (balanced_mk_black_succ.mpr ⟨ht, hs⟩) (Or.inl rfl)

/-- A red-black tree taken apart at any place: the context is balanced, and the subtree fits. -/
theorem RBTree.Valid.split {ctx : Ctx α} {t : RBTree α} (h : (plug ctx t).Valid) :
    ∃ n, Ctx.Balanced ctx n ∧ t.Balanced n ∧ ctx.Fits t := by
  induction ctx generalizing t with
  | nil =>
    obtain ⟨hc, n, hn⟩ := h
    exact ⟨n, trivial, hn, Or.inl hc⟩
  | cons f ctx ih =>
    obtain ⟨side, c, a, sib⟩ := f
    obtain ⟨n, hctx, hmk, hfit⟩ := ih h
    cases c with
    | red =>
      obtain ⟨⟨ht, htc⟩, hs, hsc⟩ := balanced_mk_red.mp hmk
      rcases hfit with hfit | ⟨hne, hblack⟩
      · cases hfit
      · exact ⟨n, ⟨hs, hsc, hne, hblack, hctx⟩, ht, Or.inl htc⟩
    | black =>
      obtain ⟨m, rfl, ht, hs⟩ := balanced_mk_black.mp hmk
      exact ⟨m, ⟨hs, hctx⟩, ht, Or.inr ⟨List.cons_ne_nil _ _, rfl⟩⟩

/-- The balance does not depend on the items. -/
theorem RBTree.Valid.setItem {ctx : Ctx α} {s : Side} {c : Color} {n f : RBTree α} {a b : α}
    (h : (plug ctx (.mk s c n a f)).Valid) : (plug ctx (.mk s c n b f)).Valid := by
  obtain ⟨m, hctx, hm, hfit⟩ := h.split
  refine hctx.fill ?_ hfit
  cases c with
  | red => exact balanced_mk_red.mpr (balanced_mk_red.mp hm)
  | black => exact balanced_mk_black.mpr (balanced_mk_black.mp hm)

/-- Painting a fitting root black keeps a red-black tree. -/
theorem RBTree.Valid.setColor_black {t : RBTree α} (h : t.Valid) : t.setColor .black = t := setColor_eq h.1

/-! ### After an insertion -/

/-- The repair of a red subtree `t` under a possibly red parent: recolor below a red uncle and go on two
    levels up, rotate otherwise. The root is painted black afterwards. -/
def insertFixup : Ctx α → RBTree α → RBTree α
  | f :: g :: ctx, t =>
    if f.color = .black then plug (f :: g :: ctx) t
    else if g.sibling.rootColor = .red then
      insertFixup ctx (.mk g.side .red (.mk f.side .black t f.item f.sibling) g.item (g.sibling.setColor .black))
    else if f.side = g.side then
      plug ctx (.mk g.side .black t f.item (.mk g.side .red f.sibling g.item g.sibling))
    else
      match t with
      | .nil => plug (f :: g :: ctx) .nil
      | .node _ l a r =>
        plug ctx (.mk g.side .black (.mk g.side .red f.sibling f.item (g.side.pick l r)) a
          (.mk g.side .red (g.side.pick r l) g.item g.sibling))
  | ctx, t => plug ctx t

theorem insertFixup_of_black {ctx : Ctx α} {t : RBTree α} (h : ctx.color = .black) : insertFixup ctx t = plug ctx t := by
  match ctx with
  | [] => rfl
  | [_] => rfl
  | f :: g :: ctx =>
    have : f.color = .black := h
    simp [insertFixup, this]

/-- The last case, with the subtree seen from the side of the parent. -/
theorem insertFixup_inner {f g : Frame α} {ctx : Ctx α} {c : Color} {n m : RBTree α} {a : α} (hf : f.color = .red)
    (hu : g.sibling.rootColor = .black) (hs : f.side ≠ g.side) :
    insertFixup (f :: g :: ctx) (.mk g.side c n a m) =
      plug ctx (.mk g.side .black (.mk g.side .red f.sibling f.item n) a (.mk g.side .red m g.item g.sibling)) := by
  simp [insertFixup, hf, hu, hs, mk]

theorem insertFixup_valid : ∀ {ctx : Ctx α} {t : RBTree α} {n : Nat}, Ctx.Balanced ctx n → t.Balanced n →
    t.rootColor = .red → ((insertFixup ctx t).setColor .black).Valid
  | [], t, n, _, ht, hc => ⟨rootColor_setColor (ne_nil_of_red hc), n + 1, ht.blacken hc⟩
  | [f], t, n, h, ht, _ => by
    -- A lone frame is the root, and it is black.
    obtain ⟨side, c, a, sib⟩ := f
    cases c with
    | red => exact absurd rfl h.2.2.1
    | black =>
      have hv := Ctx.Balanced.fill h ht (Or.inr ⟨List.cons_ne_nil _ _, rfl⟩)
      rw [insertFixup_of_black rfl, hv.setColor_black]
      exact hv
  | f :: g :: ctx, t, n, h, ht, hc => by
    obtain ⟨fs, fc, a, sib⟩ := f
    obtain ⟨gs, gc, b, uncle⟩ := g
    cases fc with
    | black =>
      have hv := Ctx.Balanced.fill h ht (Or.inr ⟨List.cons_ne_nil _ _, rfl⟩)
      rw [insertFixup_of_black rfl, hv.setColor_black]
      exact hv
    | red =>
      obtain ⟨hsib, hsibc, -, hgc, hg⟩ := h
      obtain rfl : gc = .black := hgc
      obtain ⟨hun, hctx⟩ := hg
      by_cases hred : uncle.rootColor = .red
      · have : insertFixup (⟨fs, .red, a, sib⟩ :: ⟨gs, .black, b, uncle⟩ :: ctx) t =
            insertFixup ctx (.mk gs .red (.mk fs .black t a sib) b (uncle.setColor .black)) := by
          simp [insertFixup, hred]
        rw [this]
        refine insertFixup_valid hctx (balanced_mk_red.mpr ⟨⟨?_, rfl⟩, ?_, ?_⟩) rfl
        · exact balanced_mk_black_succ.mpr ⟨ht, hsib⟩
        · exact hun.blacken hred
        · exact rootColor_setColor (ne_nil_of_red hred)
      · have hblack := Color.eq_black_of_ne hred
        by_cases hs : fs = gs
        · have : insertFixup (⟨fs, .red, a, sib⟩ :: ⟨gs, .black, b, uncle⟩ :: ctx) t =
              plug ctx (.mk gs .black t a (.mk gs .red sib b uncle)) := by
            simp [insertFixup, hblack, hs]
          rw [this]
          have hv : (plug ctx (.mk gs .black t a (.mk gs .red sib b uncle))).Valid := Ctx.Balanced.fill hctx
            (balanced_mk_black_succ.mpr ⟨ht, balanced_mk_red.mpr ⟨⟨hsib, hsibc⟩, hun, hblack⟩⟩) (Or.inl rfl)
          rw [hv.setColor_black]
          exact hv
        · obtain ⟨x, c, y, rfl, hx, hy⟩ := ht.exists_mk_red gs hc
          rw [insertFixup_inner rfl hblack hs]
          have hv : (plug ctx (.mk gs .black (.mk gs .red sib a x) c (.mk gs .red y b uncle))).Valid :=
            Ctx.Balanced.fill hctx (balanced_mk_black_succ.mpr
              ⟨balanced_mk_red.mpr ⟨⟨hsib, hsibc⟩, hx⟩, balanced_mk_red.mpr ⟨hy, hun, hblack⟩⟩) (Or.inl rfl)
          rw [hv.setColor_black]
          exact hv

theorem toList_insertFixup : ∀ (ctx : Ctx α) (t : RBTree α), (insertFixup ctx t).toList = (plug ctx t).toList
  | [], _ => rfl
  | [_], _ => rfl
  | f :: g :: ctx, t => by
    obtain ⟨fs, fc, a, sib⟩ := f
    obtain ⟨gs, gc, b, uncle⟩ := g
    simp only [insertFixup]
    split
    · rfl
    split
    · rw [toList_insertFixup, plug, plug]
      exact toList_plug_congr ctx (by simp [toList_mk])
    split
    · next h =>
      subst h
      rw [plug, plug]
      exact toList_plug_congr ctx (by simp [toList_mk, Side.cat_assoc])
    · next h =>
      obtain rfl := Side.eq_other_of_ne h
      cases t with
      | nil => rfl
      | node c l x r =>
        rw [plug, plug]
        refine toList_plug_congr ctx ?_
        cases gs <;> simp [mk, toList, Side.pick, Side.other]

theorem insertFixup_ne_nil {ctx : Ctx α} {t : RBTree α} (h : t ≠ .nil) : insertFixup ctx t ≠ .nil := by
  intro hn
  have hl := toList_insertFixup ctx t
  have hle := Ctx.length_le ctx t
  rw [← hl, hn] at hle
  cases t with
  | nil => exact h rfl
  | node c l a r => simp [toList] at hle

/-! ### After a deletion -/

/-- A subtree `t` that is one black node short, under a node of color `c` with a black sibling `w`. Either the
    shortage moves up to the returned subtree, or it is gone. -/
inductive Absorbed (α : Type) where
  | up (t : RBTree α)
  | done (t : RBTree α)

def Absorbed.tree : Absorbed α → RBTree α
  | up t => t
  | done t => t

def absorb (s : Side) (c : Color) (t : RBTree α) (a : α) : RBTree α → Absorbed α
  | .nil => .up (.mk s c t a .nil)
  | .node _ l b r =>
    let near := s.pick l r
    let far := s.pick r l
    if near.rootColor = .black ∧ far.rootColor = .black then .up (.mk s c t a (.mk s .red near b far))
    else if far.rootColor = .black then
      match near with
      | .nil => .up (.mk s c t a (.mk s .red near b far))
      | .node _ l' x r' =>
        .done (.mk s c (.mk s .black t a (s.pick l' r')) x (.mk s .black (s.pick r' l') b far))
    else .done (.mk s c (.mk s .black t a near) b (far.setColor .black))

theorem absorb_up {s : Side} {c c' : Color} {t near far : RBTree α} {a b : α} (hn : near.rootColor = .black)
    (hf : far.rootColor = .black) :
    absorb s c t a (.mk s c' near b far) = .up (.mk s c t a (.mk s .red near b far)) := by
  simp [absorb, mk, hn, hf]

theorem absorb_near {s : Side} {c c' : Color} {t n m far : RBTree α} {a b x : α} (hf : far.rootColor = .black) :
    absorb s c t a (.mk s c' (.mk s .red n x m) b far) =
      .done (.mk s c (.mk s .black t a n) x (.mk s .black m b far)) := by
  have hn : (RBTree.node .red (s.pick n m) x (s.pick m n)).rootColor = .red := rfl
  simp [absorb, mk, hf, hn]

theorem absorb_far {s : Side} {c c' : Color} {t near far : RBTree α} {a b : α} (hf : far.rootColor = .red) :
    absorb s c t a (.mk s c' near b far) = .done (.mk s c (.mk s .black t a near) b (far.setColor .black)) := by
  simp [absorb, mk, hf]

theorem toList_absorb (s : Side) (c : Color) (t : RBTree α) (a : α) (w : RBTree α) :
    (absorb s c t a w).tree.toList = (mk s c t a w).toList := by
  by_cases hw : w = .nil
  · subst hw
    rfl
  obtain ⟨cw, near, b, far, rfl⟩ := exists_mk s hw
  by_cases hf : far.rootColor = .red
  · rw [absorb_far hf]
    simp [Absorbed.tree, toList_mk, Side.cat_assoc]
  by_cases hn : near.rootColor = .red
  · obtain ⟨d, n, x, m, rfl⟩ := exists_mk s (ne_nil_of_red hn)
    obtain rfl : d = .red := hn
    rw [absorb_near (Color.eq_black_of_ne hf)]
    simp [Absorbed.tree, toList_mk, Side.cat_assoc]
  · rw [absorb_up (Color.eq_black_of_ne hn) (Color.eq_black_of_ne hf)]
    simp [Absorbed.tree, toList_mk]

theorem absorb_rootColor (s : Side) (c : Color) (t : RBTree α) (a : α) (w : RBTree α) :
    (absorb s c t a w).tree.rootColor = c := by
  by_cases hw : w = .nil
  · subst hw
    rfl
  obtain ⟨cw, near, b, far, rfl⟩ := exists_mk s hw
  by_cases hf : far.rootColor = .red
  · rw [absorb_far hf]
    rfl
  by_cases hn : near.rootColor = .red
  · obtain ⟨d, n, x, m, rfl⟩ := exists_mk s (ne_nil_of_red hn)
    obtain rfl : d = .red := hn
    rw [absorb_near (Color.eq_black_of_ne hf)]
    rfl
  · rw [absorb_up (Color.eq_black_of_ne hn) (Color.eq_black_of_ne hf)]
    rfl

theorem absorb_ne_nil (s : Side) (c : Color) (t : RBTree α) (a : α) (w : RBTree α) : (absorb s c t a w).tree ≠ .nil := by
  intro h
  have := toList_absorb s c t a w
  rw [h, toList_mk] at this
  cases s <;> simp [toList, Side.cat, Side.pick] at this

/-- What `absorb` does to the black height: the subtree it hands up is short only while it is black, and
    the one it is done with is not. -/
theorem absorb_balanced {s : Side} {c : Color} {t w : RBTree α} {a : α} {n : Nat} (ht : t.Balanced n)
    (hw : w.Balanced (n + 1)) (hwc : w.rootColor = .black) :
    (∃ t', absorb s c t a w = .up t' ∧ t'.rootColor = c ∧ (t'.setColor .black).Balanced (n + 1)) ∨
    (∃ t', absorb s c t a w = .done t' ∧ t'.rootColor = c ∧ t'.Balanced (n + 1 + c.weight)) := by
  obtain ⟨near, b, far, rfl, hn, hf⟩ := hw.exists_mk_black s hwc
  by_cases hfr : far.rootColor = .red
  · right
    refine ⟨_, absorb_far hfr, rfl, ?_⟩
    have h₁ : (mk s .black t a near).Balanced (n + 1) := balanced_mk_black_succ.mpr ⟨ht, hn⟩
    have h₂ := hf.blacken hfr
    cases c
    · exact balanced_mk_red.mpr ⟨⟨h₁, rfl⟩, h₂, rootColor_setColor (ne_nil_of_red hfr)⟩
    · exact balanced_mk_black_succ.mpr ⟨h₁, h₂⟩
  have hfb := Color.eq_black_of_ne hfr
  by_cases hnr : near.rootColor = .red
  · right
    obtain ⟨x, y, z, rfl, ⟨hx, -⟩, hz, -⟩ := hn.exists_mk_red s hnr
    refine ⟨_, absorb_near hfb, rfl, ?_⟩
    have h₁ : (mk s .black t a x).Balanced (n + 1) := balanced_mk_black_succ.mpr ⟨ht, hx⟩
    have h₂ : (mk s .black z b far).Balanced (n + 1) := balanced_mk_black_succ.mpr ⟨hz, hf⟩
    cases c
    · exact balanced_mk_red.mpr ⟨⟨h₁, rfl⟩, h₂, rfl⟩
    · exact balanced_mk_black_succ.mpr ⟨h₁, h₂⟩
  · left
    have hnb := Color.eq_black_of_ne hnr
    exact ⟨_, absorb_up hnb hfb, rfl,
      balanced_mk_black_succ.mpr ⟨ht, balanced_mk_red.mpr ⟨⟨hn, hnb⟩, hf, hfb⟩⟩⟩

/-- The repair of a subtree `t` that is one black node short. A red sibling is first rotated above the
    parent, which is then red, so that the next step ends the walk. -/
def deleteFixup : Ctx α → RBTree α → RBTree α
  | [], t => t.setColor .black
  | f :: ctx, t =>
    if t.rootColor = .red then plug (f :: ctx) (t.setColor .black)
    else
      match f.sibling with
      | .node .red l b r =>
        match absorb f.side .red t f.item (f.side.pick l r) with
        | .up t' => plug (⟨f.side, .black, b, f.side.pick r l⟩ :: ctx) (t'.setColor .black)
        | .done t' => (plug (⟨f.side, .black, b, f.side.pick r l⟩ :: ctx) t').setColor .black
      | w =>
        match absorb f.side f.color t f.item w with
        | .up t' => deleteFixup ctx t'
        | .done t' => (plug ctx t').setColor .black

theorem deleteFixup_of_red {ctx : Ctx α} {t : RBTree α} (h : t.rootColor = .red) :
    deleteFixup ctx t = plug ctx (t.setColor .black) := by
  cases ctx with
  | nil => rfl
  | cons f ctx => exact if_pos h

theorem deleteFixup_red_sibling {f : Frame α} {ctx : Ctx α} {t n m : RBTree α} {b : α} (ht : t.rootColor = .black)
    (hf : f.sibling = .mk f.side .red n b m) : deleteFixup (f :: ctx) t =
      match absorb f.side .red t f.item n with
      | .up t' => plug (⟨f.side, .black, b, m⟩ :: ctx) (t'.setColor .black)
      | .done t' => (plug (⟨f.side, .black, b, m⟩ :: ctx) t').setColor .black := by
  simp [deleteFixup, ht, hf, mk]

theorem deleteFixup_black_sibling {f : Frame α} {ctx : Ctx α} {t : RBTree α} (ht : t.rootColor = .black)
    (hf : f.sibling.rootColor = .black) : deleteFixup (f :: ctx) t =
      match absorb f.side f.color t f.item f.sibling with
      | .up t' => deleteFixup ctx t'
      | .done t' => (plug ctx t').setColor .black := by
  obtain ⟨s, c, a, w⟩ := f
  cases w with
  | nil => simp [deleteFixup, ht]
  | node cw l b r =>
    obtain rfl : cw = .black := hf
    simp [deleteFixup, ht]

theorem toList_deleteFixup : ∀ (ctx : Ctx α) (t : RBTree α), (deleteFixup ctx t).toList = (plug ctx t).toList
  | [], t => toList_setColor
  | f :: ctx, t => by
    by_cases ht : t.rootColor = .red
    · rw [deleteFixup_of_red ht]
      exact toList_plug_congr _ toList_setColor
    have ht := Color.eq_black_of_ne ht
    by_cases hw : f.sibling.rootColor = .red
    · obtain ⟨c, n, b, m, hm⟩ := exists_mk f.side (ne_nil_of_red hw)
      obtain rfl : c = .red := by rw [hm] at hw; exact hw
      rw [deleteFixup_red_sibling ht hm]
      have habs := toList_absorb f.side .red t f.item n
      have hgoal : (plug (⟨f.side, .black, b, m⟩ :: ctx) (absorb f.side .red t f.item n).tree).toList =
          (plug (f :: ctx) t).toList := by
        rw [plug, plug]
        refine toList_plug_congr ctx ?_
        rw [toList_mk, habs, hm]
        simp [toList_mk, Side.cat_assoc]
      split
      · next heq =>
        rw [heq] at hgoal
        rw [← hgoal]
        exact toList_plug_congr _ toList_setColor
      · next heq =>
        rw [heq] at hgoal
        rw [← hgoal]
        exact toList_setColor
    · rw [deleteFixup_black_sibling ht (Color.eq_black_of_ne hw)]
      have habs := toList_absorb f.side f.color t f.item f.sibling
      split
      · next heq =>
        rw [heq] at habs
        rw [toList_deleteFixup, plug]
        exact toList_plug_congr ctx habs
      · next heq =>
        rw [heq] at habs
        rw [toList_setColor, plug]
        exact toList_plug_congr ctx habs

/-- The repair of a subtree that is short when it is black, and that is whole once painted black when it is
    red: the result is a red-black tree. -/
theorem deleteFixup_valid : ∀ {ctx : Ctx α} {t : RBTree α} {n : Nat}, Ctx.Balanced ctx (n + 1) →
    (t.rootColor = .red → (t.setColor .black).Balanced (n + 1)) → (t.rootColor = .black → t.Balanced n) →
    (deleteFixup ctx t).Valid
  | [], t, n, _, hr, hb => by
    by_cases ht : t.rootColor = .red
    · exact ⟨rootColor_setColor (ne_nil_of_red ht), n + 1, hr ht⟩
    · have ht := Color.eq_black_of_ne ht
      have : deleteFixup [] t = t := setColor_eq ht
      rw [this]
      exact ⟨ht, n, hb ht⟩
  | f :: ctx, t, n, h, hr, hb => by
    by_cases ht : t.rootColor = .red
    · rw [deleteFixup_of_red ht]
      exact Ctx.Balanced.fill h (hr ht) (Or.inl (rootColor_setColor (ne_nil_of_red ht)))
    have ht := Color.eq_black_of_ne ht
    have hbt := hb ht
    obtain ⟨s, c, a, w⟩ := f
    by_cases hw : w.rootColor = .red
    · -- The parent of a red sibling is black.
      obtain ⟨x, b, y, rfl, ⟨hx, hxc⟩, hy, -⟩ := h.1.exists_mk_red s hw
      cases c with
      | red => exact absurd h.2.1 (by simp)
      | black =>
        have hctx : Ctx.Balanced (⟨s, .black, b, y⟩ :: ctx) (n + 1) := ⟨hy, h.2⟩
        rw [deleteFixup_red_sibling ht rfl]
        rcases absorb_balanced (s := s) (c := .red) (a := a) hbt hx hxc with
          ⟨t', heq, htc, hbal⟩ | ⟨t', heq, htc, hbal⟩
        · rw [heq]
          exact hctx.fill hbal (Or.inr ⟨List.cons_ne_nil _ _, rfl⟩)
        · rw [heq]
          have hv := hctx.fill hbal (Or.inr ⟨List.cons_ne_nil _ _, rfl⟩)
          simp only [hv.setColor_black]
          exact hv
    · have hw := Color.eq_black_of_ne hw
      rw [deleteFixup_black_sibling ht hw]
      rcases absorb_balanced (s := s) (c := c) (a := a) hbt h.1 hw with
        ⟨t', heq, htc, hbal⟩ | ⟨t', heq, htc, hbal⟩
      · simp only [heq]
        cases c with
        | red =>
          obtain ⟨-, -, -, -, hctx⟩ := h
          exact deleteFixup_valid hctx (fun _ => hbal) fun hb' => absurd (htc.symm.trans hb') (by simp)
        | black =>
          obtain ⟨-, hctx⟩ := h
          refine deleteFixup_valid hctx (fun hr' => absurd (htc.symm.trans hr') (by simp)) fun hb' => ?_
          rwa [setColor_eq hb'] at hbal
      · simp only [heq]
        cases c with
        | red =>
          obtain ⟨-, -, hne, hcol, hctx⟩ := h
          have hv := Ctx.Balanced.fill hctx hbal (Or.inr ⟨hne, hcol⟩)
          rw [hv.setColor_black]
          exact hv
        | black =>
          obtain ⟨-, hctx⟩ := h
          have hv := Ctx.Balanced.fill hctx hbal (Or.inl htc)
          rw [hv.setColor_black]
          exact hv

end RedBlack
