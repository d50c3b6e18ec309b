import KvStore.Theorems.RbtreeSearch

/-! `rbtree_delete_fixup` in memory does what `RedBlack.deleteFixup` does to the represented tree, and
    `rbtree_delete` takes one entry out of it. The sentinel takes part in the repair when the removed node had
    no child: its parent pointer is then set, and every read of it in the loop relies on that. -/

namespace KvStore
open RedBlack

section Fixup
variable {T : Rbtree} {s : Side} {c cw : Color} {t near far w : RBTree Cell} {p b : Cell} {ctx : Ctx Cell} {f : Frame Cell}

/-- The parent pointer of the subtree in focus, which the sentinel shares when the subtree is empty. -/
def HasParent (T : Rbtree) (t : RBTree Cell) (ctx : Ctx Cell) : Prop :=
  T.parent (ptrOf T.nil t) = some (ctxPtr T.nil ctx)

theorem Rep.hasParent (h : Rep T (plug ctx t)) (ht : t ≠ .nil) : HasParent T t ctx :=
  h.parent_ptrOf fun h => absurd h ht

theorem HasParent.kept {T' : Rbtree} {ctx' : Ctx Cell} (hp : HasParent T t ctx) (h : Rep T' (plug ctx' t))
    (K : Kept T T') (hctx : ctxPtr T.nil ctx' = ctxPtr T.nil ctx) : HasParent T' t ctx' := by
  refine h.parent_ptrOf fun ht => ?_
  subst ht
  rw [K.parent, K.nil, hctx]
  exact hp

/-- A red nephew away from `x`: the sibling comes up, and the shortage is gone. -/
theorem Rep.deleteFixupFar (h : Rep T (plug ctx (.mk s c t p (.mk s cw near b far)))) (hfar : far ≠ .nil)
    (hx : T.parent (ptrOf T.nil t) = some p.ptr) :
    ∃ T', rbtreeDeleteFixupFar s T (ptrOf T.nil t) b.ptr = some (T', T'.root) ∧
      Rep T' (plug ctx (.mk s c (.mk s .black t p near) b (far.setColor .black))) ∧ Kept T T' := by
  have hw : Rep T (plug (⟨s.other, c, p, t⟩ :: ctx) (.mk s cw near b far)) := plug_far ▸ h
  obtain ⟨T₁, hT₁, h₁, K₁⟩ := hw.setColor c
  have hp₁ : Rep T₁ (plug ctx (.mk s c t p (.mk s c near b far))) := plug_far ▸ h₁
  obtain ⟨T₂, hT₂, h₂, K₂⟩ := hp₁.setColor .black
  have hw₂ : Rep T₂ (plug (⟨s.other, .black, p, t⟩ :: ctx) (.mk s c near b far)) := plug_far ▸ h₂
  have hf₂ : Rep T₂ (plug (⟨s.other, c, b, near⟩ :: ⟨s.other, .black, p, t⟩ :: ctx) far) := plug_far ▸ hw₂
  obtain ⟨T₃, hT₃, h₃, K₃⟩ := hf₂.setColor_ptrOf hfar .black
  have hr₃ : Rep T₃ (plug ctx (.mk s .black t p (.mk s c near b (far.setColor .black)))) := by
    simpa [plug] using h₃
  obtain ⟨T₄, hT₄, h₄, K₄⟩ := hr₃.rotate
  refine ⟨T₄, ?_, h₄, K₁.trans (K₂.trans (K₃.trans K₄))⟩
  simp only [rbtreeDeleteFixupFar, Option.bind_eq_bind]
  rw [hx, Option.bind_some, h.fields.color, Option.bind_some, hT₁, Option.bind_some, hT₂, Option.bind_some, hw₂.fields.far,
    Option.bind_some, hT₃, Option.bind_some, hT₄, Option.bind_some]

/-- What the body of the loop returns: the tree with the result of `absorb`, and where to go on. -/
def Repaired (T T' : Rbtree) (x : Ptr) (ctx : Ctx Cell) (a : Absorbed Cell) : Prop :=
  Rep T' (plug ctx a.tree) ∧ Kept T T' ∧
    match a with
    | .up t' => x = ptrOf T'.nil t'
    | .done _ => x = T'.root

/-- The rest of the body of the loop, from a black sibling on. -/
theorem Rep.deleteFixupBlack (h : Rep T (plug (⟨s, c, p, w⟩ :: ctx) t)) (hw : w ≠ .nil)
    (hp : HasParent T t (⟨s, c, p, w⟩ :: ctx)) :
    ∃ T' x, rbtreeDeleteFixupBlack s T (ptrOf T.nil t) (ptrOf T.nil w) = some (T', x) ∧
      Repaired T T' x ctx (absorb s c t p w) := by
  obtain ⟨cw, near, b, far, rfl⟩ := RBTree.exists_mk s hw
  have hpw : Rep T (plug ctx (.mk s c t p (.mk s cw near b far))) := h
  have hw : Rep T (plug (⟨s.other, c, p, t⟩ :: ctx) (.mk s cw near b far)) := plug_far ▸ h
  have hnear : Rep T (plug (⟨s, cw, b, far⟩ :: ⟨s.other, c, p, t⟩ :: ctx) near) := hw
  have hfar : Rep T (plug (⟨s.other, cw, b, near⟩ :: ⟨s.other, c, p, t⟩ :: ctx) far) := plug_far ▸ hw
  have hl : T.color (s.pick (ptrOf T.nil near) (ptrOf T.nil far)) = some (s.pick near.rootColor far.rootColor) := by
    cases s
    · exact hnear.color_ptrOf
    · exact hfar.color_ptrOf
  have hr : T.color (s.pick (ptrOf T.nil far) (ptrOf T.nil near)) = some (s.pick far.rootColor near.rootColor) := by
    cases s
    · exact hfar.color_ptrOf
    · exact hnear.color_ptrOf
  have hboth : (s.pick near.rootColor far.rootColor = .black ∧ s.pick far.rootColor near.rootColor = .black) ↔
      near.rootColor = .black ∧ far.rootColor = .black := Side.pick_and (· = Color.black) _ _
  by_cases hf : far.rootColor = .red
  · obtain ⟨T₁, hT₁, h₁, K₁⟩ := hpw.deleteFixupFar (RBTree.ne_nil_of_red hf) hp
    refine ⟨T₁, T₁.root, ?_, ?_⟩
    · simp only [rbtreeDeleteFixupBlack, Option.bind_eq_bind, ptrOf_mk]
      rw [hw.fields.left, Option.bind_some, hl, Option.bind_some, hw.fields.right, Option.bind_some, hr,
        Option.bind_some, if_neg fun h' => absurd (hboth.mp h').2 (by simp [hf]), hw.fields.far, Option.bind_some,
        hfar.color_ptrOf, Option.bind_some, if_neg (by simp [hf]), hT₁]
    · rw [absorb_far hf]
      exact ⟨h₁, K₁, rfl⟩
  have hf := Color.eq_black_of_ne hf
  by_cases hn : near.rootColor = .red
  · obtain ⟨d, n, x, m, rfl⟩ := RBTree.exists_mk s (RBTree.ne_nil_of_red hn)
    obtain rfl : d = .red := hn
    obtain ⟨T₁, hT₁, h₁, K₁⟩ := hnear.setColor .black
    have hw₁ : Rep T₁ (plug (⟨s.other, c, p, t⟩ :: ctx) (.mk s cw (.mk s .black n x m) b far)) := h₁
    obtain ⟨T₂, hT₂, h₂, K₂⟩ := hw₁.setColor .red
    have hr₂ : Rep T₂ (plug (⟨s.other, c, p, t⟩ :: ctx) (.mk s.other .red far b (.mk s.other .black m x n))) := by
      simpa using h₂
    obtain ⟨T₃, hT₃, h₃, K₃⟩ := hr₂.rotate
    have hpw₃ : Rep T₃ (plug ctx (.mk s c t p (.mk s .black n x (.mk s .red m b far)))) := by
      simpa [plug] using h₃
    have K := K₁.trans (K₂.trans K₃)
    have hp₃ : HasParent T₃ t (⟨s, c, p, .mk s .black n x (.mk s .red m b far)⟩ :: ctx) := hp.kept hpw₃ K rfl
    obtain ⟨T₄, hT₄, h₄, K₄⟩ := hpw₃.deleteFixupFar RBTree.mk_ne_nil hp₃
    refine ⟨T₄, T₄.root, ?_, ?_⟩
    · have hx₃ : T₃.parent (ptrOf T.nil t) = some p.ptr := by
        rw [← K.nil]
        exact hp₃
      rw [ptrOf_mk] at hl hr
      rw [K.nil] at hT₄
      simp only [rbtreeDeleteFixupBlack, Option.bind_eq_bind, ptrOf_mk]
      rw [hw.fields.left, Option.bind_some, ptrOf_mk, hl, Option.bind_some, hw.fields.right, Option.bind_some, ptrOf_mk,
        hr, Option.bind_some, if_neg fun h' => absurd (hboth.mp h').1 (by simp), hw.fields.far, Option.bind_some,
        hfar.color_ptrOf, Option.bind_some, if_pos hf, hw.fields.near, Option.bind_some, ptrOf_mk, hT₁,
        Option.bind_some, hT₂, Option.bind_some, hT₃, Option.bind_some, hx₃, Option.bind_some, hpw₃.fields.far,
        Option.bind_some, ptrOf_mk, hT₄]
    · rw [absorb_near hf]
      exact ⟨h₄, K.trans K₄, rfl⟩
  · have hn := Color.eq_black_of_ne hn
    obtain ⟨T₁, hT₁, h₁, K₁⟩ := hw.setColor .red
    have h₁' : Rep T₁ (plug (⟨s, c, p, .mk s .red near b far⟩ :: ctx) t) := by
      simpa [plug] using h₁
    have hp₁ : HasParent T₁ t (⟨s, c, p, .mk s .red near b far⟩ :: ctx) := hp.kept h₁' K₁ rfl
    refine ⟨T₁, p.ptr, ?_, ?_⟩
    · have hx₁ : T₁.parent (ptrOf T.nil t) = some p.ptr := by
        rw [← K₁.nil]
        exact hp₁
      simp only [rbtreeDeleteFixupBlack, Option.bind_eq_bind, ptrOf_mk]
      rw [hw.fields.left, Option.bind_some, hl, Option.bind_some, hw.fields.right, Option.bind_some, hr,
        Option.bind_some, if_pos (hboth.mpr ⟨hn, hf⟩), hT₁, Option.bind_some, hx₁, Option.bind_some]
    · rw [absorb_up hn hf]
      exact ⟨h₁', K₁, rfl⟩

theorem Rep.deleteFixupSide_black (h : Rep T (plug (f :: ctx) t)) (hw : f.sibling ≠ .nil)
    (hwc : f.sibling.rootColor = .black) (hp : HasParent T t (f :: ctx)) :
    ∃ T' x, rbtreeDeleteFixupSide f.side T (ptrOf T.nil t) = some (T', x) ∧
      Repaired T T' x ctx (absorb f.side f.color t f.item f.sibling) := by
  obtain ⟨s, c, p, w⟩ := f
  have hsib : Rep T (plug (⟨s.other, c, p, t⟩ :: ctx) w) := plug_far ▸ (h : Rep T (plug ctx (.mk s c t p w)))
  obtain ⟨T₁, x, hT₁, h₁⟩ := h.deleteFixupBlack hw hp
  refine ⟨T₁, x, ?_, h₁⟩
  simp only [rbtreeDeleteFixupSide, Option.bind_eq_bind]
  rw [hp, Option.bind_some, ctxPtr_cons, h.frame.far, Option.bind_some, hsib.color_ptrOf, Option.bind_some,
    if_neg (by simp [hwc]), hT₁]

/-- A red sibling is rotated above the parent, which hands its black child to the rest of the body. -/
theorem Rep.deleteFixupSide_red {n m : RBTree Cell} (h : Rep T (plug (⟨s, c, p, .mk s .red n b m⟩ :: ctx) t))
    (hn : n ≠ .nil) (hp : HasParent T t (⟨s, c, p, .mk s .red n b m⟩ :: ctx)) :
    ∃ T' x, rbtreeDeleteFixupSide s T (ptrOf T.nil t) = some (T', x) ∧
      Repaired T T' x (⟨s, .black, b, m⟩ :: ctx) (absorb s .red t p n) := by
  have hpw : Rep T (plug ctx (.mk s c t p (.mk s .red n b m))) := h
  have hsib : Rep T (plug (⟨s.other, c, p, t⟩ :: ctx) (.mk s .red n b m)) := plug_far ▸ hpw
  obtain ⟨T₁, hT₁, h₁, K₁⟩ := hsib.setColor .black
  have hp₁ : Rep T₁ (plug ctx (.mk s c t p (.mk s .black n b m))) := plug_far ▸ h₁
  obtain ⟨T₂, hT₂, h₂, K₂⟩ := hp₁.setColor .red
  obtain ⟨T₃, hT₃, h₃, K₃⟩ := h₂.rotate
  have h₃' : Rep T₃ (plug (⟨s, .red, p, n⟩ :: ⟨s, .black, b, m⟩ :: ctx) t) := h₃
  have K := K₁.trans (K₂.trans K₃)
  have hp₃ : HasParent T₃ t (⟨s, .red, p, n⟩ :: ⟨s, .black, b, m⟩ :: ctx) := hp.kept h₃' K rfl
  obtain ⟨T₄, x, hT₄, h₄, K₄, hx⟩ := h₃'.deleteFixupBlack hn hp₃
  refine ⟨T₄, x, ?_, h₄, K.trans K₄, hx⟩
  have hx₃ : T₃.parent (ptrOf T.nil t) = some p.ptr := by
    rw [← K.nil]
    exact hp₃
  rw [K.nil] at hT₄
  have hchild : T₃.child s.other p.ptr = some (ptrOf T.nil n) := by
    rw [← K.nil]
    exact h₃'.frame.far
  simp only [rbtreeDeleteFixupSide, Option.bind_eq_bind]
  rw [hp, Option.bind_some, ctxPtr_cons, hpw.fields.far, Option.bind_some, ptrOf_mk, hsib.fields.color,
    Option.bind_some, if_pos rfl, hT₁, Option.bind_some, hT₂, Option.bind_some, hT₃, Option.bind_some, hx₃,
    Option.bind_some, hchild, Option.bind_some, hT₄]

theorem Rep.deleteFixupLoop_root {fuel : Nat} (h : Rep T t) (hfuel : 0 < fuel) :
    rbtreeDeleteFixupLoop fuel T T.root = some (T, ptrOf T.nil t) := by
  obtain ⟨fuel, rfl⟩ := Nat.exists_eq_succ_of_ne_zero hfuel.ne'
  simp [rbtreeDeleteFixupLoop, h.linked.root]

theorem Rep.deleteFixupLoop_of_red {fuel : Nat} (h : Rep T (plug ctx t)) (ht : t.rootColor = .red) (hfuel : 0 < fuel) :
    rbtreeDeleteFixupLoop fuel T (ptrOf T.nil t) = some (T, ptrOf T.nil t) := by
  obtain ⟨fuel, rfl⟩ := Nat.exists_eq_succ_of_ne_zero hfuel.ne'
  simp [rbtreeDeleteFixupLoop, h.color_ptrOf, ht]

/-- One round of the loop for a black subtree below the root. -/
theorem Rep.deleteFixupLoop_step (h : Rep T (plug (f :: ctx) t)) (ht : t.rootColor = .black) (hw : f.sibling ≠ .nil)
    (hp : HasParent T t (f :: ctx)) (fuel : Nat) : rbtreeDeleteFixupLoop (fuel + 1) T (ptrOf T.nil t) =
      (rbtreeDeleteFixupSide f.side T (ptrOf T.nil t)).bind fun r => rbtreeDeleteFixupLoop fuel r.1 r.2 := by
  have hroot : ptrOf T.nil t ≠ T.root := h.ptrOf_ne_root
  have hside : (if ptrOf T.nil t = f.side.pick (ptrOf T.nil t) (ptrOf T.nil f.sibling) then Side.left
      else Side.right) = f.side := by
    obtain ⟨s, c, p, w⟩ := f
    cases s
    · exact if_pos rfl
    · exact if_neg (h.ptrOf_ne_sibling (Or.inr hw))
  simp only [rbtreeDeleteFixupLoop, Option.bind_eq_bind]
  rw [if_pos hroot, h.color_ptrOf, Option.bind_some, if_pos ht, hp, Option.bind_some, ctxPtr_cons, h.frame.left,
    Option.bind_some, hside]

/-- The loop of `rbtree_delete_fixup` ends at a subtree that only has to be painted black. -/
theorem Rep.deleteFixupLoop : ∀ {ctx : Ctx Cell} {t : RBTree Cell} {T : Rbtree} {n fuel : Nat},
    Rep T (plug ctx t) → Ctx.Balanced ctx (n + 1) → HasParent T t ctx → ctx.length + 1 < fuel →
      ∃ T' ctx' t', rbtreeDeleteFixupLoop fuel T (ptrOf T.nil t) = some (T', ptrOf T'.nil t') ∧
        Rep T' (plug ctx' t') ∧ plug ctx' (t'.setColor .black) = RedBlack.deleteFixup ctx t ∧ Kept T T'
  | [], t, T, _, fuel, h, _, _, hfuel => by
    have hroot : T.root = ptrOf T.nil t := h.linked.root
    refine ⟨T, [], t, ?_, h, rfl, Kept.refl T⟩
    rw [← hroot, h.deleteFixupLoop_root (by omega), hroot]
    rfl
  | f :: ctx, t, T, n, fuel, h, hb, hp, hfuel => by
    by_cases ht : t.rootColor = .red
    · exact ⟨T, f :: ctx, t, h.deleteFixupLoop_of_red ht (by omega), h, (deleteFixup_of_red ht).symm, Kept.refl T⟩
    have ht := Color.eq_black_of_ne ht
    obtain ⟨fuel, rfl⟩ := Nat.exists_eq_succ_of_ne_zero (n := fuel) (by omega)
    have hlen : ctx.length + 1 < fuel := by
      simp only [List.length_cons] at hfuel
      omega
    obtain ⟨s, c, p, w⟩ := f
    have hw : w ≠ .nil := hb.1.ne_nil
    have hstep := h.deleteFixupLoop_step ht hw hp fuel
    by_cases hwc : w.rootColor = .red
    · obtain ⟨n', b, m, rfl, ⟨hn', -⟩, -⟩ := hb.1.exists_mk_red s hwc
      obtain ⟨T₁, x, hT₁, h₁, K₁, hx⟩ := h.deleteFixupSide_red hn'.ne_nil hp
      rw [deleteFixup_red_sibling ht rfl]
      have hcol := absorb_rootColor s .red t p n'
      simp only [hstep, hT₁, Option.bind_some]
      cases ha : absorb s .red t p n' with
      | up t' =>
        simp only [ha, Absorbed.tree] at hx h₁ hcol
        subst hx
        exact ⟨T₁, _, t', h₁.deleteFixupLoop_of_red hcol (by omega), h₁, rfl, K₁⟩
      | done t' =>
        simp only [ha, Absorbed.tree] at hx h₁
        subst hx
        exact ⟨T₁, [], _, h₁.deleteFixupLoop_root (by omega), h₁, rfl, K₁⟩
    · have hwc := Color.eq_black_of_ne hwc
      obtain ⟨T₁, x, hT₁, h₁, K₁, hx⟩ := h.deleteFixupSide_black hw hwc hp
      rw [deleteFixup_black_sibling ht hwc]
      simp only [hstep, hT₁, Option.bind_some]
      cases ha : absorb s c t p w with
      | up t' =>
        simp only [ha, Absorbed.tree] at hx h₁
        subst hx
        have hne : t' ≠ .nil := by simpa [ha, Absorbed.tree] using absorb_ne_nil s c t p w
        have hctx : ∃ n', Ctx.Balanced ctx (n' + 1) := by
          cases c
          · exact ⟨n, hb.2.2.2.2⟩
          · exact ⟨n + 1, hb.2⟩
        obtain ⟨n', hctx⟩ := hctx
        obtain ⟨T₂, ctx₂, t₂, hT₂, h₂, heq, K₂⟩ := Rep.deleteFixupLoop h₁ hctx (h₁.hasParent hne) hlen
        exact ⟨T₂, ctx₂, t₂, hT₂, h₂, heq, K₁.trans K₂⟩
      | done t' =>
        simp only [ha, Absorbed.tree] at hx h₁
        subst hx
        exact ⟨T₁, [], _, h₁.deleteFixupLoop_root (by omega), h₁, rfl, K₁⟩

/-- Painting a node in the color it has, as happens to the sentinel. -/
theorem setColor_self {q : Ptr} (h : T.color q = some c) : T.setColor q c = some T := by
  obtain ⟨n, hn, hc⟩ := Option.bind_eq_some_iff.mp h
  have hput : T.put q n = T := by
    have hmem : (fun r => if r = q then some n else T.mem r) = T.mem := by
      funext r
      split
      · next hr => rw [hr, hn]
      · rfl
    simp only [Rbtree.put, hmem]
  have hself : ({ n with color := some c } : RbtreeNode) = n := by
    rw [← hc]
  rw [Rbtree.setColor, update_eq hn, hself, hput]

/-- `rbtree_delete_fixup` -/
theorem Rep.deleteFixup {n : Nat} (h : Rep T (plug ctx t)) (hb : Ctx.Balanced ctx (n + 1)) (hp : HasParent T t ctx) :
    ∃ T', rbtreeDeleteFixup T (ptrOf T.nil t) = some T' ∧ Rep T' (RedBlack.deleteFixup ctx t) ∧ Kept T T' := by
  have hfuel : ctx.length + 1 < T.fuel := by
    have hlen := Ctx.length_le ctx t
    have hlt := h.length_lt
    simp only [Rbtree.fuel]
    omega
  obtain ⟨T₁, ctx', t', hT₁, h₁, heq, K₁⟩ := h.deleteFixupLoop hb hp hfuel
  rw [← heq]
  simp only [rbtreeDeleteFixup, Option.bind_eq_bind]
  rw [hT₁, Option.bind_some]
  by_cases ht : t' = .nil
  · subst ht
    exact ⟨T₁, setColor_self h₁.sentinel, h₁, K₁⟩
  · obtain ⟨T₂, hT₂, h₂, K₂⟩ := h₁.setColor_ptrOf ht .black
    exact ⟨T₂, hT₂, h₂, K₁.trans K₂⟩

end Fixup

/-! ### Unlinking -/

section Unlink
variable {T : Rbtree} {s : Side} {c : Color} {t n f : RBTree Cell} {y z : Cell} {ctx : Ctx Cell}

/-- `x->parent = q` for the child that takes the place of the removed node, which may be the sentinel. -/
theorem Holds.setParent {par : Ptr} (h : Holds T f par) (hnil : T.nil ∉ addrs f) (hnd : (addrs f).Nodup)
    (hs : T.color T.nil = some .black) (q : Ptr) :
    ∃ T', T.setParent (ptrOf T.nil f) q = some T' ∧ Holds T' f q ∧ T'.parent (ptrOf T.nil f) = some q ∧
      (∀ p, p ∉ addrs f → p ≠ T.nil → T'.mem p = T.mem p) ∧ T'.color T.nil = some .black ∧
      T'.nil = T.nil ∧ T'.root = T.root ∧ T'.next = T.next := by
  cases f with
  | nil =>
    obtain ⟨m, hm, hc⟩ := Option.bind_eq_some_iff.mp hs
    refine ⟨_, update_eq hm _, trivial, ?_, fun p _ hp => put_ne hp, ?_, rfl, rfl, rfl⟩
    · simp [Rbtree.parent]
    · simp [Rbtree.color, hc]
  | node c l e r =>
    have hne : e.ptr ≠ T.nil := fun h' => hnil (h' ▸ ptrOf_mem T.nil (by simp))
    obtain ⟨T', hT', hf, hm, hnil', hroot, hnext⟩ := h.reparent hnil hnd q
    rw [ptrOf_node, if_pos hne] at hT'
    refine ⟨T', hT', hf, ?_, fun p hp _ => hm p hp, ?_, hnil', hroot, hnext⟩
    · have F : Fields T' e .left c (ptrOf T'.nil l) (ptrOf T'.nil r) q := ⟨hf.1⟩
      exact F.parent
    · simp only [Rbtree.color, hm T.nil hnil] at hs ⊢
      exact hs

/-- The child of a node with one takes its place. -/
theorem Rep.unlink (h : Rep T (plug ctx (.mk s c .nil y f))) :
    ∃ T₁ T', T.setParent (ptrOf T.nil f) (ctxPtr T.nil ctx) = some T₁ ∧
      T₁.replaceChild .left (ctxPtr T.nil ctx) y.ptr (ptrOf T.nil f) = some T' ∧
        Rep T' (plug ctx f) ∧ HasParent T' f ctx ∧ T'.nil = T.nil ∧ T'.mem y.ptr = T.mem y.ptr := by
  obtain ⟨⟨-, hyf, hyctx⟩, -, -, hfctx⟩ := h.apart
  have hperm : (addrs (plug ctx (.mk s c .nil y f))).Perm (y.ptr :: addrs (plug ctx f)) := by
    refine ((addrs_plug _ _).trans (addrs_mk.append_right _)).trans ?_
    exact ((addrs_plug ctx f).symm).cons y.ptr
  have hnd := List.nodup_cons.mp (hperm.nodup_iff.mp h.nodup)
  have hfnd := (List.nodup_append'.mp ((addrs_plug ctx f).nodup_iff.mp hnd.2)).1
  have hfnil : T.nil ∉ addrs f := fun hm => (h.live T.nil (hperm.mem_iff.mpr
    (List.mem_cons_of_mem _ ((addrs_plug ctx f).mem_iff.mpr (List.mem_append_left _ hm))))).1 rfl
  obtain ⟨hmk, hctx⟩ := linked_plug.mp h.linked
  obtain ⟨-, -, hf⟩ := holds_mk.mp hmk
  obtain ⟨T₁, hT₁, hf₁, hpar₁, hm₁, hsent₁, hnil₁, hroot₁, hnext₁⟩ :=
    hf.setParent hfnil hfnd h.sentinel (ctxPtr T.nil ctx)
  have hctx₁ : CtxHolds T₁ ctx y.ptr := hctx.congr hnil₁ hroot₁ fun q hq =>
    hm₁ q (fun h' => hfctx h' hq) fun h' => h.sentinel_out.2 (h' ▸ hq)
  obtain ⟨T₂, hT₂, hctx₂, hm₂, hnil₂, hnext₂⟩ := hctx₁.replaceChild (hnil₁ ▸ h.sentinel_out.2) h.nodup_plug.2.1
    (by
      rintro g ctx' rfl
      rw [hnil₁]
      exact h.ptrOf_ne_sibling (Or.inl RBTree.mk_ne_nil)) .left (ptrOf T.nil f)
  have hnil : T₂.nil = T.nil := hnil₂.trans hnil₁
  have hmf : ∀ q, q ∈ addrs f ∨ q = T.nil → T₂.mem q = T₁.mem q := by
    intro q hq
    refine hm₂ q ?_
    rcases hq with hq | rfl
    · exact fun h' => hfctx hq h'
    · exact h.sentinel_out.2
  have hptr : ptrOf T.nil f ∈ addrs f ∨ ptrOf T.nil f = T.nil := by
    by_cases hfn : f = .nil
    · exact Or.inr (hfn ▸ rfl)
    · exact Or.inl (ptrOf_mem T.nil hfn)
  rw [hnil₁] at hT₂
  refine ⟨T₁, T₂, hT₁, hT₂, ⟨linked_plug.mpr ⟨?_, ?_⟩, hnd.2, ?_, ?_, ?_⟩, ?_, hnil, ?_⟩
  · rw [hnil]
    exact hf₁.congr hnil₂ fun q hq => hmf q (Or.inl hq)
  · rw [hnil]
    exact hctx₂
  · intro p hp
    rw [hnil, hnext₂.trans hnext₁]
    exact h.live p (hperm.mem_iff.mpr (List.mem_cons_of_mem _ hp))
  · simp only [Rbtree.color, hnil, hmf T.nil (Or.inr rfl)] at hsent₁ ⊢
    exact hsent₁
  · rw [hnil, hnext₂.trans hnext₁]
    exact h.nilLt
  · simp only [HasParent, Rbtree.parent, hnil, hmf _ hptr] at hpar₁ ⊢
    exact hpar₁
  · rw [hm₂ _ hyctx, hm₁ _ hyf (h.live_mk).1]

theorem addrs_setItem (ctx : Ctx Cell) {e : Cell} (he : e.ptr = z.ptr) :
    (addrs (plug ctx (.mk s c n e f))).Perm (addrs (plug ctx (.mk s c n z f))) := by
  refine ((addrs_plug _ _).trans (addrs_mk.append_right _)).trans ?_
  rw [he]
  exact ((addrs_plug _ _).trans (addrs_mk.append_right _)).symm

/-- Changing the entry of a node. -/
theorem Rep.setItem (h : Rep T (plug ctx (.mk s c n z f))) {e : Cell} (he : e.ptr = z.ptr) :
    Rep (T.put z.ptr (e.node s c (ptrOf T.nil n) (ptrOf T.nil f) (ctxPtr T.nil ctx))) (plug ctx (.mk s c n e f)) := by
  obtain ⟨⟨hn, hf, hx⟩, -⟩ := h.apart
  obtain ⟨hmk, hctx⟩ := linked_plug.mp h.linked
  obtain ⟨-, hn', hf'⟩ := holds_mk.mp hmk
  have hperm := addrs_setItem (s := s) (c := c) (n := n) (f := f) ctx he
  refine ⟨linked_plug.mpr ⟨holds_mk.mpr ⟨?_, ?_, ?_⟩, ?_⟩, hperm.nodup_iff.mpr h.nodup,
    fun p hp => h.live p (hperm.mem_iff.mp hp), ?_, h.nilLt⟩
  · rw [he]
    exact put_self
  · rw [he]
    exact hn'.put hn
  · rw [he]
    exact hf'.put hf
  · rw [ptrOf_mk, he]
    exact hctx.put hx
  · simp only [Rbtree.color, put_nil, put_ne h.live_mk.1.symm]
    exact h.sentinel

theorem Rep.put_out {p : Ptr} {r : RbtreeNode} (h : Rep T t) (hp : p ∉ addrs t) (hnil : p ≠ T.nil) :
    Rep (T.put p r) t where
  linked := ⟨h.linked.1.put hp, h.linked.2⟩
  nodup := h.nodup
  live := h.live
  sentinel := by
    simp only [Rbtree.color, put_nil, put_ne hnil.symm]
    exact h.sentinel
  nilLt := h.nilLt

end Unlink

/-! ### Deletion -/

section Delete
variable {T : Rbtree} {s : Side} {c : Color} {t n f l r : RBTree Cell} {y z : Cell} {ctx : Ctx Cell}

/-- `rbtree_mini` walks the left spine. -/
theorem Rep.miniLoop {fuel : Nat} (h : Rep T (plug ctx t)) (ht : t ≠ .nil) (hfuel : t.toList.length < fuel) :
    ∃ fs c y r, rbtreeMiniLoop T fuel (ptrOf T.nil t) = some y.ptr ∧ plug fs (.mk .left c .nil y r) = t ∧
      Ctx.before fs = [] := by
  induction t generalizing ctx fuel with
  | nil => exact absurd rfl ht
  | node c l e r ih _ =>
    obtain ⟨fuel, rfl⟩ := Nat.exists_eq_succ_of_ne_zero (n := fuel) (by omega)
    simp only [RBTree.toList, List.length_append, List.length_cons] at hfuel
    have F := h.fields (s := .left)
    by_cases hl : l = .nil
    · subst hl
      refine ⟨[], c, e, r, ?_, rfl, rfl⟩
      simp only [rbtreeMiniLoop, Option.bind_eq_bind, ptrOf_node]
      rw [F.left, Option.bind_some]
      exact if_neg (by simp [Side.pick])
    · have hL : Rep T (plug (⟨.left, c, e, r⟩ :: ctx) l) := h
      obtain ⟨fs, c', y, r', hmini, hplug, hbefore⟩ := ih hL hl (show _ < fuel by omega)
      refine ⟨fs ++ [⟨.left, c, e, r⟩], c', y, r', ?_, ?_, ?_⟩
      · simp only [rbtreeMiniLoop, Option.bind_eq_bind, ptrOf_node]
        rw [F.left, Option.bind_some]
        exact (if_pos (hL.root_ne_nil hl)).trans hmini
      · rw [plug_append, hplug]
        rfl
      · rw [Ctx.before_append, hbefore]
        rfl

/-- `rbtree_successor` of a node with a right child. -/
theorem Rep.successor (h : Rep T (plug ctx (.mk .right c r z l))) (hr : r ≠ .nil) :
    ∃ fs c' y f, rbtreeSuccessor T z.ptr = some y.ptr ∧ plug fs (.mk .left c' .nil y f) = r ∧ Ctx.before fs = [] := by
  have hR : Rep T (plug (⟨.right, c, z, l⟩ :: ctx) r) := h
  have hfuel : r.toList.length < T.fuel := by
    have hlen := Ctx.length_le (⟨.right, c, z, l⟩ :: ctx) r
    have hlt := hR.length_lt
    simp only [Rbtree.fuel]
    omega
  obtain ⟨fs, c', y, f, hmini, hplug, hbefore⟩ := hR.miniLoop hr hfuel
  refine ⟨fs, c', y, f, ?_, hplug, hbefore⟩
  simp only [rbtreeSuccessor, Option.bind_eq_bind]
  rw [h.fields.parent, Option.bind_some, h.fields.right, Option.bind_some]
  exact (if_pos (hR.root_ne_nil hr)).trans hmini

/-- The exchange of the entries of `z` and of the unlinked `y`. -/
theorem Rep.swapEntry (h : Rep T (plug ctx (.mk s c n z f))) (hy : y.ptr ∉ addrs (plug ctx (.mk s c n z f)))
    (hynil : y.ptr ≠ T.nil) {sy : Side} {cy : Color} {near far par : Ptr} (hm : Fields T y sy cy near far par) :
    ∃ T', T.swapEntry z.ptr y.ptr = some T' ∧
      Rep T' (plug ctx (.mk s c n { z with key := y.key, value := y.value } f)) ∧ T'.nil = T.nil ∧
      T'.mem T.nil = T.mem T.nil ∧ Fields T' { y with key := z.key, value := z.value } sy cy near far par := by
  have hzy : z.ptr ≠ y.ptr := fun h' => hy (h' ▸ Rep.item_mem ctx s c n f z)
  have hznil : z.ptr ≠ T.nil := h.live_mk.1
  have Fz := h.fields
  set z₁ : Cell := { z with key := y.key } with hz₁
  set T₁ := T.put z.ptr (z₁.node s c (ptrOf T.nil n) (ptrOf T.nil f) (ctxPtr T.nil ctx)) with hT₁
  have h₁ : Rep T₁ (plug ctx (.mk s c n z₁ f)) := h.setItem rfl
  have hy₁ : y.ptr ∉ addrs (plug ctx (.mk s c n z₁ f)) := fun h' =>
    hy ((addrs_setItem ctx (show z₁.ptr = z.ptr from rfl)).mem_iff.mp h')
  have Fy₁ : Fields T₁ y sy cy near far par := ⟨(put_ne hzy.symm).trans hm.mem⟩
  set y₁ : Cell := { y with key := z.key } with hy₁'
  set T₂ := T₁.put y.ptr (y₁.node sy cy near far par) with hT₂
  have h₂ : Rep T₂ (plug ctx (.mk s c n z₁ f)) := h₁.put_out hy₁ hynil
  have Fz₂ : Fields T₂ z₁ s c (ptrOf T.nil n) (ptrOf T.nil f) (ctxPtr T.nil ctx) := h₂.fields
  have Fy₂ : Fields T₂ y₁ sy cy near far par := ⟨put_self⟩
  set T₃ := T₂.put z.ptr ({ z₁ with value := y.value }.node s c (ptrOf T.nil n) (ptrOf T.nil f) (ctxPtr T.nil ctx))
    with hT₃
  have h₃ : Rep T₃ (plug ctx (.mk s c n { z₁ with value := y.value } f)) := Rep.setItem h₂ rfl
  have hy₃ : y.ptr ∉ addrs (plug ctx (.mk s c n { z₁ with value := y.value } f)) :=
    fun h' => hy₁ ((addrs_setItem ctx (show ({ z₁ with value := y.value } : Cell).ptr = z₁.ptr from rfl)).mem_iff.mp h')
  have Fy₃ : Fields T₃ y₁ sy cy near far par := ⟨(put_ne hzy.symm).trans Fy₂.mem⟩
  set T₄ := T₃.put y.ptr ({ y₁ with value := z.value }.node sy cy near far par) with hT₄
  refine ⟨T₄, ?_, h₃.put_out hy₃ hynil, rfl, ?_, ⟨put_self⟩⟩
  · have hk₂ : T₂.value z.ptr = some z.value := Fz₂.value
    have hs₂ : T₂.setValue z.ptr y.value = some T₃ := Fz₂.setValue y.value
    have hv₂ : T₂.value y.ptr = some y.value := Fy₂.value
    simp only [Rbtree.swapEntry, Option.bind_eq_bind]
    rw [Fz.key, Option.bind_some, hm.key, Option.bind_some, Fz.setKey, Option.bind_some, ← hz₁, ← hT₁, Fy₁.setKey,
      Option.bind_some, ← hy₁', ← hT₂, hk₂, Option.bind_some, hv₂, Option.bind_some, hs₂, Option.bind_some]
    exact Fy₃.setValue z.value
  · rw [hT₄, put_ne hynil.symm, hT₃, put_ne hznil.symm, hT₂, put_ne hynil.symm, hT₁, put_ne hznil.symm]

/-- Without a node that has one child, the tree is a red-black tree again, after the repair if the node was
    black. -/
theorem Rep.rebalance (h : Rep T (plug ctx f)) (hp : HasParent T f ctx) (hv : (plug ctx (.mk s c .nil y f)).Valid) :
    ∃ T' t', (if c = .black then rbtreeDeleteFixup T (ptrOf T.nil f) else some T) = some T' ∧ Rep T' t' ∧ t'.Valid ∧
      t'.toList = (plug ctx f).toList ∧ Kept T T' := by
  obtain ⟨m, hb, hm, -⟩ := hv.split
  cases c with
  | red =>
    obtain ⟨-, hf, hfc⟩ := RBTree.balanced_mk_red.mp hm
    exact ⟨T, _, if_neg (by simp), h, hb.fill hf (Or.inl hfc), rfl, Kept.refl T⟩
  | black =>
    obtain ⟨m, rfl, -, hf⟩ := RBTree.balanced_mk_black.mp hm
    obtain ⟨T', hT', h', K⟩ := h.deleteFixup hb hp
    exact ⟨T', _, (if_pos rfl).trans hT', h', deleteFixup_valid hb (fun hr => hf.blacken hr) fun _ => hf,
      toList_deleteFixup _ _, K⟩

/-- The child that takes the place of the removed node. -/
theorem Fields.onlyChild {pf par : Ptr} (F : Fields T y s c T.nil pf par) :
    (if s.pick T.nil pf ≠ T.nil then some (s.pick T.nil pf)
      else (T.right y.ptr).bind fun ry => some (if ry ≠ T.nil then ry else T.nil)) = some pf := by
  rw [F.right, Option.bind_some]
  cases s <;> by_cases hpf : pf = T.nil <;> simp [Side.pick, hpf]

/-- What a deletion does to the list of entries: the entry of `z` goes, or its node takes over the key and the
    value of the next one and keeps its own timestamp. -/
def Removed (z : Cell) (es es' : List Cell) : Prop :=
  ∃ l₁ l₂, (es = l₁ ++ z :: l₂ ∧ es' = l₁ ++ l₂) ∨
    ∃ y, es = l₁ ++ z :: y :: l₂ ∧ es' = l₁ ++ { z with key := y.key, value := y.value } :: l₂

/-- The entry of `z` goes. -/
def TakenOut (z : Cell) (es es' : List Cell) : Prop := ∃ l₁ l₂, es = l₁ ++ z :: l₂ ∧ es' = l₁ ++ l₂

/-- The node of `z` takes over the key and the value of its successor and keeps its own timestamp. -/
def TakenOver (T : Rbtree) (z : Cell) (es es' : List Cell) : Prop :=
  ∃ l₁ y l₂, rbtreeSuccessor T z.ptr = some y.ptr ∧ es = l₁ ++ z :: y :: l₂ ∧
    es' = l₁ ++ { z with key := y.key, value := y.value } :: l₂

theorem TakenOut.removed {es es' : List Cell} (h : TakenOut z es es') : Removed z es es' := by
  obtain ⟨l₁, l₂, hes⟩ := h
  exact ⟨l₁, l₂, Or.inl hes⟩

theorem TakenOver.removed {es es' : List Cell} (h : TakenOver T z es es') : Removed z es es' := by
  obtain ⟨l₁, y, l₂, -, hes⟩ := h
  exact ⟨l₁, l₂, Or.inr ⟨y, hes⟩⟩

/-- The node that `rbtree_delete` returns has left the tree, with its strings in place. -/
def Loose (T : Rbtree) (t : RBTree Cell) (p : Ptr) : Prop :=
  p ∉ addrs t ∧ p ≠ T.nil ∧ (∃ k, T.key p = some k) ∧ ∃ v, T.value p = some v

/-- A node with an empty child is taken out itself. -/
theorem Rep.delete_one (h : Rep T (plug ctx (.mk s c .nil z f))) (hv : (plug ctx (.mk s c .nil z f)).Valid) :
    ∃ T' t', rbtreeDelete T z.ptr = some (T', z.ptr) ∧ Rep T' t' ∧ t'.Valid ∧
      TakenOut z (plug ctx (.mk s c .nil z f)).toList t'.toList ∧ Loose T' t' z.ptr := by
  have F : Fields T z s c T.nil (ptrOf T.nil f) (ctxPtr T.nil ctx) := h.fields
  obtain ⟨T₀, T₁, hT₀, hT₁, h₁, hp₁, hnil₁, hz₁⟩ := h.unlink
  have Fz₁ : Fields T₁ z s c T.nil (ptrOf T.nil f) (ctxPtr T.nil ctx) := ⟨hz₁.trans F.mem⟩
  obtain ⟨T₂, t', hT₂, h₂, hv₂, hlist, K⟩ := h₁.rebalance hp₁ hv
  have hout : z.ptr ∉ addrs t' := by
    have hd := h.apart
    rw [addrs, hlist]
    intro hm
    rcases List.mem_append.mp ((addrs_plug ctx f).mem_iff.mp hm) with hm | hm
    · exact hd.1.2.1 hm
    · exact hd.1.2.2 hm
  refine ⟨T₂, t', ?_, h₂, hv₂, ?_, hout, ?_, ⟨z.key, ?_⟩, z.value, ?_⟩
  · have hempty : s.pick T.nil (ptrOf T.nil f) = T.nil ∨ s.pick (ptrOf T.nil f) T.nil = T.nil := by
      cases s
      · exact Or.inl rfl
      · exact Or.inr rfl
    rw [hnil₁] at hT₂
    simp only [rbtreeDelete, Option.bind_eq_bind]
    rw [F.left, Option.bind_some, F.right, Option.bind_some, if_pos hempty, Option.bind_some, F.left, Option.bind_some,
      F.onlyChild, Option.bind_some, F.parent, Option.bind_some, hT₀, Option.bind_some, hT₁, Option.bind_some,
      if_neg (by simp), Option.bind_some, Fz₁.color, Option.bind_some, hT₂, Option.bind_some]
  · refine ⟨ctx.before ++ s.pick [] f.toList, s.pick f.toList [] ++ ctx.after, ?_, ?_⟩
    · rw [toList_plug, RBTree.toList_mk]
      cases s <;> simp [Side.cat, Side.pick, RBTree.toList]
    · rw [hlist, toList_plug]
      cases s <;> simp [Side.pick]
  · rw [K.nil, hnil₁]
    exact h.live_mk.1
  · rw [K.key, Fz₁.key]
  · rw [K.value, Fz₁.value]

theorem ctxPtr_setItem {nil : Ptr} {fs : Ctx Cell} {e : Cell} (he : e.ptr = z.ptr) :
    ctxPtr nil (fs ++ ⟨s, c, e, l⟩ :: ctx) = ctxPtr nil (fs ++ ⟨s, c, z, l⟩ :: ctx) := by
  cases fs with
  | nil => exact he
  | cons g fs => rfl

/-- A node with two children is overwritten by its successor, whose node is taken out. -/
theorem Rep.delete_two (h : Rep T (plug ctx (.mk .right c r z l))) (hv : (plug ctx (.mk .right c r z l)).Valid)
    (hr : r ≠ .nil) (hl : l ≠ .nil) :
    ∃ T' t' p, rbtreeDelete T z.ptr = some (T', p) ∧ Rep T' t' ∧ t'.Valid ∧
      TakenOver T z (plug ctx (.mk .right c r z l)).toList t'.toList ∧ Loose T' t' p := by
  have F := h.fields
  obtain ⟨fs, cy, y, f, hsucc, rfl, hbefore⟩ := h.successor hr
  set z' : Cell := { z with key := y.key, value := y.value } with hz'
  have hY : Rep T (plug (fs ++ ⟨.right, c, z, l⟩ :: ctx) (.mk .left cy .nil y f)) := by
    rw [plug_append]
    exact h
  have Fy : Fields T y .left cy T.nil (ptrOf T.nil f) (ctxPtr T.nil (fs ++ ⟨.right, c, z, l⟩ :: ctx)) := hY.fields
  obtain ⟨T₀, T₁, hT₀, hT₁, h₁, hp₁, hnil₁, hy₁⟩ := hY.unlink
  have Fy₁ : Fields T₁ y .left cy T.nil (ptrOf T.nil f) (ctxPtr T.nil (fs ++ ⟨.right, c, z, l⟩ :: ctx)) :=
    ⟨hy₁.trans Fy.mem⟩
  have hyout : y.ptr ∉ addrs (plug (fs ++ ⟨.right, c, z, l⟩ :: ctx) f) := by
    intro hm
    rcases List.mem_append.mp ((addrs_plug _ f).mem_iff.mp hm) with hm | hm
    · exact hY.apart.1.2.1 hm
    · exact hY.apart.1.2.2 hm
  have hynil : y.ptr ≠ T₁.nil := hnil₁ ▸ hY.live_mk.1
  have h₁' : Rep T₁ (plug ctx (.mk .right c (plug fs f) z l)) := by
    rw [plug_append] at h₁
    exact h₁
  have hyout' : y.ptr ∉ addrs (plug ctx (.mk .right c (plug fs f) z l)) := by
    rw [plug_append] at hyout
    exact hyout
  obtain ⟨T₂, hT₂, h₂, hnil₂, hsent₂, Fy₂⟩ := h₁'.swapEntry hyout' hynil Fy₁
  have h₂' : Rep T₂ (plug (fs ++ ⟨.right, c, z', l⟩ :: ctx) f) := by
    rw [plug_append]
    exact h₂
  have hp₂ : HasParent T₂ f (fs ++ ⟨.right, c, z', l⟩ :: ctx) := by
    refine h₂'.parent_ptrOf fun hf => ?_
    subst hf
    have hpar : T₁.parent T₁.nil = some (ctxPtr T₁.nil (fs ++ ⟨.right, c, z, l⟩ :: ctx)) := hp₁
    simp only [Rbtree.parent, hnil₂, hsent₂] at hpar ⊢
    rw [hpar, ctxPtr_setItem (show z'.ptr = z.ptr from rfl)]
  have hv₂ : (plug (fs ++ ⟨.right, c, z', l⟩ :: ctx) (.mk .left cy .nil y f)).Valid := by
    rw [plug_append]
    exact RBTree.Valid.setItem (s := .right) (c := c) hv
  obtain ⟨T₃, t', hT₃, h₃, hv₃, hlist, K⟩ := h₂'.rebalance hp₂ hv₂
  refine ⟨T₃, t', y.ptr, ?_, h₃, hv₃, ?_, ?_, ?_, ⟨z.key, ?_⟩, z.value, ?_⟩
  · have hzr : ¬(ptrOf T.nil l = T.nil ∨ ptrOf T.nil (plug fs (.mk .left cy .nil y f)) = T.nil) := by
      have hL : Rep T (plug (⟨.left, c, z, plug fs (.mk .left cy .nil y f)⟩ :: ctx) l) := h
      have hR : Rep T (plug (⟨.right, c, z, l⟩ :: ctx) (plug fs (.mk .left cy .nil y f))) := h
      rintro (h' | h')
      · exact hL.root_ne_nil hl h'
      · exact hR.root_ne_nil hr h'
    have hzy : y.ptr ≠ z.ptr := fun h' => hyout' (h' ▸ Rep.item_mem ctx .right c (plug fs f) l z)
    have hleft : T.left z.ptr = some (ptrOf T.nil l) := F.left
    have hright : T.right z.ptr = some (ptrOf T.nil (plug fs (.mk .left cy .nil y f))) := F.right
    have hcolor : T₂.color y.ptr = some cy := Fy₂.color
    rw [hnil₂, hnil₁] at hT₃
    simp only [rbtreeDelete, Option.bind_eq_bind]
    rw [hleft, Option.bind_some, hright, Option.bind_some, if_neg hzr, hsucc, Option.bind_some, Fy.left,
      Option.bind_some, Fy.onlyChild, Option.bind_some, Fy.parent, Option.bind_some, hT₀, Option.bind_some, hT₁,
      Option.bind_some, if_pos hzy, hT₂, Option.bind_some, hcolor, Option.bind_some, hT₃, Option.bind_some]
  · refine ⟨ctx.before ++ l.toList, y, f.toList ++ Ctx.after fs ++ ctx.after, hsucc, ?_, ?_⟩
    · rw [toList_plug, RBTree.toList_mk, toList_plug, hbefore]
      simp [Side.cat, Side.pick, RBTree.toList, RBTree.mk]
    · rw [hlist, toList_plug, Ctx.before_append, Ctx.after_append, hbefore]
      simp [Side.pick, Ctx.before, Ctx.after, hz']
  · rw [addrs, hlist, ← addrs, plug_append]
    exact fun hm => hyout' ((addrs_setItem ctx (show z'.ptr = z.ptr from rfl)).mem_iff.mp hm)
  · rw [K.nil, hnil₂]
    exact hynil
  · rw [K.key]
    exact Fy₂.key
  · rw [K.value]
    exact Fy₂.value

/-- `rbtree_delete` takes the entry of `z` out of the tree and restores the balance; a node with two children is taken
    over by its successor. -/
theorem Rep.delete (h : Rep T (plug ctx (.node c l z r))) (hv : (plug ctx (.node c l z r)).Valid) :
    ∃ T' t' p, rbtreeDelete T z.ptr = some (T', p) ∧ Rep T' t' ∧ t'.Valid ∧ Loose T' t' p ∧
      (((l = .nil ∨ r = .nil) ∧ TakenOut z (plug ctx (.node c l z r)).toList t'.toList) ∨
        (l ≠ .nil ∧ r ≠ .nil) ∧ TakenOver T z (plug ctx (.node c l z r)).toList t'.toList) := by
  by_cases hl : l = .nil
  · subst hl
    obtain ⟨T', t', hd, h', hv', hout, hloose⟩ := Rep.delete_one (s := .left) h hv
    exact ⟨T', t', z.ptr, hd, h', hv', hloose, Or.inl ⟨Or.inl rfl, hout⟩⟩
  by_cases hr : r = .nil
  · subst hr
    obtain ⟨T', t', hd, h', hv', hout, hloose⟩ := Rep.delete_one (s := .right) h hv
    exact ⟨T', t', z.ptr, hd, h', hv', hloose, Or.inl ⟨Or.inr rfl, hout⟩⟩
  · obtain ⟨T', t', p, hd, h', hv', hover, hloose⟩ := Rep.delete_two h hv hr hl
    exact ⟨T', t', p, hd, h', hv', hloose, Or.inr ⟨⟨hl, hr⟩, hover⟩⟩

/-- `kvs_free` of the node that left the tree. -/
theorem Rep.free {p : Ptr} (h : Rep T t) (hp : Loose T t p) : Rep (T.free p) t where
  linked := by
    have hm : ∀ q ∈ addrs t, (T.free p).mem q = T.mem q := fun q hq =>
      if_neg fun h' : q = p => hp.1 (h' ▸ hq)
    exact ⟨h.linked.1.congr rfl hm, h.linked.2⟩
  nodup := h.nodup
  live := h.live
  sentinel := by
    have hm : (T.free p).mem T.nil = T.mem T.nil := if_neg hp.2.1.symm
    have hs := h.sentinel
    unfold Rbtree.color at hs ⊢
    rw [show (T.free p).nil = T.nil from rfl, hm]
    exact hs
  nilLt := h.nilLt

end Delete

end KvStore
