import KvStore.Theorems.RbtreeSearch

/-! `rbtree_insert_fixup` in memory does what `RedBlack.insertFixup` does to the represented tree, and
    `rbtree_insert` hangs the new node where its key belongs. -/

namespace KvStore
open RedBlack

section Fixup
variable {T : Rbtree} {s : Side} {t : RBTree Cell} {ctx : Ctx Cell} {f g : Frame Cell}

/-- `z` outside its parent: the parent comes up black, the grandparent goes down red. -/
theorem Rep.insertFixupOuter {cp cg : Color} {p q : Cell} {m u : RBTree Cell}
    (h : Rep T (plug ctx (.mk s cg (.mk s cp t p m) q u))) (ht : t ≠ .nil) :
    ∃ T', rbtreeInsertFixupOuter s T (ptrOf T.nil t) = some T' ∧
      Rep T' (plug ctx (.mk s .black t p (.mk s .red m q u))) ∧ Kept T T' := by
  have hp : Rep T (plug (⟨s, cg, q, u⟩ :: ctx) (.mk s cp t p m)) := h
  have ht' : Rep T (plug (⟨s, cp, p, m⟩ :: ⟨s, cg, q, u⟩ :: ctx) t) := h
  obtain ⟨T₁, hT₁, h₁, K₁⟩ := hp.setColor .black
  have hg : Rep T₁ (plug ctx (.mk s cg (.mk s .black t p m) q u)) := h₁
  obtain ⟨T₂, hT₂, h₂, K₂⟩ := hg.setColor .red
  have h₂' : Rep T₂ (plug ctx (.mk s.other .red u q (.mk s.other .black m p t))) := by
    simpa using h₂
  obtain ⟨T₃, hT₃, h₃, K₃⟩ := h₂'.rotate
  refine ⟨T₃, ?_, by simpa using h₃, K₁.trans (K₂.trans K₃)⟩
  have hpar := h₁.fields.parent
  simp only [rbtreeInsertFixupOuter, Option.bind_eq_bind]
  rw [ht'.parent_ptrOf fun h => absurd h ht, Option.bind_some, ctxPtr_cons, hT₁, Option.bind_some, hpar,
    Option.bind_some, ctxPtr_cons, hT₂, Option.bind_some, hT₃]

/-- A red uncle: the parent and the uncle are painted black and the grandparent red. -/
theorem Rep.insertFixupSide_red (h : Rep T (plug (f :: g :: ctx) t)) (ht : t ≠ .nil)
    (hu : g.sibling.rootColor = .red) :
    ∃ T', rbtreeInsertFixupSide g.side T (ptrOf T.nil t) = some (T', g.item.ptr) ∧
      Rep T' (plug ctx (.mk g.side .red (.mk f.side .black t f.item f.sibling) g.item (g.sibling.setColor .black))) ∧
      Kept T T' := by
  have hp : Rep T (plug (g :: ctx) (.mk f.side f.color t f.item f.sibling)) := h
  obtain ⟨T₁, hT₁, h₁, K₁⟩ := hp.setColor .black
  have hu₁ : Rep T₁ (plug (⟨g.side.other, g.color, g.item, .mk f.side .black t f.item f.sibling⟩ :: ctx) g.sibling) :=
    plug_far ▸ h₁
  obtain ⟨T₂, hT₂, h₂, K₂⟩ := hu₁.setColor_ptrOf (RBTree.ne_nil_of_red hu) .black
  rw [K₁.nil] at hT₂
  have h₂' : Rep T₂ (plug ctx (.mk g.side g.color (.mk f.side .black t f.item f.sibling) g.item
      (g.sibling.setColor .black))) := by
    rw [plug_far]
    exact h₂
  obtain ⟨T₃, hT₃, h₃, K₃⟩ := h₂'.setColor .red
  refine ⟨T₃, ?_, h₃, K₁.trans (K₂.trans K₃)⟩
  have huncle : Rep T (plug (⟨g.side.other, g.color, g.item, .mk f.side f.color t f.item f.sibling⟩ :: ctx) g.sibling) :=
    plug_far ▸ hp
  simp only [rbtreeInsertFixupSide, Option.bind_eq_bind]
  rw [h.parent_ptrOf fun h => absurd h ht, Option.bind_some, ctxPtr_cons, hp.fields.parent, Option.bind_some,
    ctxPtr_cons, hp.frame.far, Option.bind_some, huncle.color_ptrOf, Option.bind_some, if_pos (by rw [hu]), hT₁,
    Option.bind_some, hT₂, Option.bind_some, hT₃, Option.bind_some]

/-- A black uncle: one or two rotations, and the node to go on with lies under a black one. -/
theorem Rep.insertFixupSide_black (h : Rep T (plug (f :: g :: ctx) t)) (ht : t.rootColor = .red)
    (hf : f.color = .red) (hu : g.sibling.rootColor = .black) :
    ∃ T' f' ctx' t', rbtreeInsertFixupSide g.side T (ptrOf T.nil t) = some (T', ptrOf T.nil t') ∧ t' ≠ .nil ∧
      f'.color = .black ∧ Rep T' (plug (f' :: ctx') t') ∧ plug (f' :: ctx') t' = insertFixup (f :: g :: ctx) t ∧
      Kept T T' := by
  have hne := RBTree.ne_nil_of_red ht
  have hp : Rep T (plug (g :: ctx) (.mk f.side f.color t f.item f.sibling)) := h
  have huncle : Rep T (plug (⟨g.side.other, g.color, g.item, .mk f.side f.color t f.item f.sibling⟩ :: ctx) g.sibling) :=
    plug_far ▸ hp
  have hpar : T.parent (ptrOf T.nil t) = some f.item.ptr := h.parent_ptrOf fun h => absurd h hne
  by_cases hs : f.side = g.side
  · have hp' : Rep T (plug ctx (.mk g.side g.color (.mk g.side f.color t f.item f.sibling) g.item g.sibling)) := by
      rw [← hs]
      simpa [plug, hs] using hp
    obtain ⟨T₁, hT₁, h₁, K₁⟩ := hp'.insertFixupOuter hne
    refine ⟨T₁, ⟨g.side, .black, f.item, .mk g.side .red f.sibling g.item g.sibling⟩, ctx, t, ?_, hne, rfl, h₁, ?_, K₁⟩
    · have hfar : T.child g.side.other f.item.ptr = some (ptrOf T.nil f.sibling) := hs ▸ h.frame.far
      simp only [rbtreeInsertFixupSide, Option.bind_eq_bind]
      rw [hpar, Option.bind_some, hp.fields.parent, Option.bind_some, ctxPtr_cons, hp.frame.far, Option.bind_some,
        huncle.color_ptrOf, Option.bind_some, if_neg (by simp [hu]), hfar, Option.bind_some,
        if_neg (h.ptrOf_ne_sibling (Or.inl hne)), Option.bind_some, hT₁, Option.bind_some]
    · simp [insertFixup, hf, hu, hs, plug]
  · have hs' := Side.eq_other_of_ne hs
    obtain ⟨c, n, x, m, rfl⟩ := RBTree.exists_mk g.side hne
    have hr : Rep T (plug (g :: ctx) (.mk g.side f.color f.sibling f.item (.mk g.side c n x m))) := by
      rw [hs'] at hp
      simpa using hp
    obtain ⟨T₁, hT₁, h₁, K₁⟩ := hr.rotate
    have h₁' : Rep T₁ (plug ctx (.mk g.side g.color (.mk g.side c (.mk g.side f.color f.sibling f.item n) x m)
        g.item g.sibling)) := h₁
    obtain ⟨T₂, hT₂, h₂, K₂⟩ := h₁'.insertFixupOuter RBTree.mk_ne_nil
    refine ⟨T₂, ⟨g.side, .black, x, .mk g.side .red m g.item g.sibling⟩, ctx, .mk g.side f.color f.sibling f.item n, ?_,
      RBTree.mk_ne_nil, rfl, h₂, ?_, K₁.trans K₂⟩
    · have hnear : T.child g.side.other f.item.ptr = some (ptrOf T.nil (.mk g.side c n x m)) := hs' ▸ h.frame.near
      simp only [rbtreeInsertFixupSide, Option.bind_eq_bind]
      rw [hpar, Option.bind_some, hp.fields.parent, Option.bind_some, ctxPtr_cons, hp.frame.far, Option.bind_some,
        huncle.color_ptrOf, Option.bind_some, if_neg (by simp [hu]), hnear, Option.bind_some, if_pos rfl, hT₁,
        Option.map_some, Option.bind_some]
      rw [ptrOf_mk] at hT₂
      rw [hT₂, Option.bind_some, ptrOf_mk]
    · rw [insertFixup_inner hf hu hs]
      simp [plug, hf]

theorem Rep.insertFixupLoop_of_black (h : Rep T (plug ctx t)) (ht : t ≠ .nil) (hc : ctx.color = .black) {fuel : Nat}
    (hfuel : 0 < fuel) : rbtreeInsertFixupLoop fuel T (ptrOf T.nil t) = some T := by
  obtain ⟨fuel, rfl⟩ := Nat.exists_eq_succ_of_ne_zero hfuel.ne'
  simp only [rbtreeInsertFixupLoop, Option.bind_eq_bind]
  rw [h.parent_ptrOf fun h => absurd h ht, Option.bind_some, h.color_ctxPtr, Option.bind_some, if_neg (by simp [hc])]

/-- The loop repairs a red subtree under its context. The first frame with a red parent above it exists, as
    the root is black. -/
theorem Rep.insertFixupLoop : ∀ {ctx : Ctx Cell} {t : RBTree Cell} {T : Rbtree} {n fuel : Nat},
    Rep T (plug ctx t) → Ctx.Balanced ctx n → t.rootColor = .red → ctx.length + 1 < fuel →
      ∃ T', rbtreeInsertFixupLoop fuel T (ptrOf T.nil t) = some T' ∧ Rep T' (insertFixup ctx t) ∧ Kept T T'
  | [], t, T, _, fuel, h, _, ht, hfuel =>
    ⟨T, h.insertFixupLoop_of_black (RBTree.ne_nil_of_red ht) rfl (by omega), h, Kept.refl T⟩
  | f :: ctx, t, T, n, fuel, h, hb, ht, hfuel => by
    have hne := RBTree.ne_nil_of_red ht
    by_cases hf : f.color = .black
    · have hc : Ctx.color (f :: ctx) = .black := hf
      exact ⟨T, h.insertFixupLoop_of_black hne hc (by omega), insertFixup_of_black hc ▸ h, Kept.refl T⟩
    have hf := Color.eq_red_of_ne hf
    obtain ⟨fs, fc, p, sib⟩ := f
    obtain rfl : fc = .red := hf
    obtain ⟨hsib, hsibc, hnil, hg, hctx⟩ := hb
    obtain ⟨g, ctx, rfl⟩ := List.exists_cons_of_ne_nil hnil
    obtain ⟨gs, gc, q, u⟩ := g
    obtain rfl : gc = .black := hg
    obtain ⟨hub, hctx⟩ := hctx
    obtain ⟨fuel, rfl⟩ := Nat.exists_eq_succ_of_ne_zero (n := fuel) (by omega)
    have hp : Rep T (plug (⟨gs, .black, q, u⟩ :: ctx) (.mk fs .red t p sib)) := h
    have hside : (if p.ptr = gs.pick p.ptr (ptrOf T.nil u) then Side.left else Side.right) = gs := by
      cases gs
      · exact if_pos rfl
      · exact if_neg (hp.ptrOf_ne_sibling (Or.inl RBTree.mk_ne_nil))
    have hstep : rbtreeInsertFixupLoop (fuel + 1) T (ptrOf T.nil t) =
        (rbtreeInsertFixupSide gs T (ptrOf T.nil t)).bind fun r => rbtreeInsertFixupLoop fuel r.1 r.2 := by
      simp only [rbtreeInsertFixupLoop, Option.bind_eq_bind]
      rw [h.parent_ptrOf fun h => absurd h hne, Option.bind_some, h.color_ctxPtr, Option.bind_some,
        Ctx.color, if_pos rfl, ctxPtr_cons, hp.fields.parent, Option.bind_some, ctxPtr_cons, hp.frame.left,
        Option.bind_some, ptrOf_mk, hside]
    by_cases hu : u.rootColor = .red
    · obtain ⟨T₁, hT₁, h₁, K₁⟩ := h.insertFixupSide_red hne hu
      have hlen : ctx.length + 1 < fuel := by
        simp only [List.length_cons] at hfuel
        omega
      obtain ⟨T₂, hT₂, h₂, K₂⟩ := Rep.insertFixupLoop h₁ hctx rfl hlen
      refine ⟨T₂, ?_, ?_, K₁.trans K₂⟩
      · rw [hstep, hT₁, Option.bind_some]
        exact hT₂
      · simpa [insertFixup, hu] using h₂
    · have hu := Color.eq_black_of_ne hu
      obtain ⟨T₁, f', ctx', t', hT₁, hne', hf', h₁, heq, K₁⟩ := h.insertFixupSide_black ht rfl hu
      refine ⟨T₁, ?_, heq ▸ h₁, K₁⟩
      rw [hstep, hT₁, Option.bind_some, ← K₁.nil]
      exact h₁.insertFixupLoop_of_black hne' hf' (by simp only [List.length_cons] at hfuel; omega)

/-- `rbtree_insert_fixup` -/
theorem Rep.insertFixup {n : Nat} (h : Rep T (plug ctx t)) (hb : Ctx.Balanced ctx n) (ht : t.rootColor = .red) :
    ∃ T', rbtreeInsertFixup T (ptrOf T.nil t) = some T' ∧
      Rep T' ((RedBlack.insertFixup ctx t).setColor .black) ∧ Kept T T' := by
  have hlen := Ctx.length_le ctx t
  have hlt := h.length_lt
  have hfuel : ctx.length + 1 < T.fuel := by
    simp only [Rbtree.fuel]
    omega
  obtain ⟨T₁, hT₁, h₁, K₁⟩ := h.insertFixupLoop hb ht hfuel
  have h₁' : Rep T₁ (plug [] (RedBlack.insertFixup ctx t)) := h₁
  obtain ⟨T₂, hT₂, h₂, K₂⟩ := h₁'.setColor_ptrOf (insertFixup_ne_nil (RBTree.ne_nil_of_red ht)) .black
  refine ⟨T₂, ?_, h₂, K₁.trans K₂⟩
  simp only [rbtreeInsertFixup, Option.bind_eq_bind]
  rw [hT₁, Option.bind_some, h₁.linked.root, hT₂]

end Fixup

/-! ### Linking the new node -/

section Link
variable {T : Rbtree} {ctx : Ctx Cell} {e : Cell}

/-- The memory holds the entry `e` in a node of its own, outside of the tree. -/
structure Spare (T : Rbtree) (t : RBTree Cell) (e : Cell) : Prop where
  fresh : e.ptr ∉ addrs t
  live : e.ptr ≠ T.nil ∧ e.ptr < T.next
  mem : ∃ n, T.mem e.ptr = some n ∧ n.key = some e.key ∧ n.value = some e.value ∧ n.timestamp = some e.timestamp

/-- The link from above: the root pointer, or the child pointer on the side where the key belongs. -/
theorem CtxHolds.attach (h : CtxHolds T ctx T.nil) (hnil : T.nil ∉ ctxAddrs ctx) (hnd : (ctxAddrs ctx).Nodup)
    {k : CString} (hk : ctx.Around Cell.key k) (new : Ptr) :
    ∃ T', (if ctxPtr T.nil ctx = T.nil then some { T with root := new }
      else (T.key (ctxPtr T.nil ctx)).bind fun ky =>
        if strcmp k ky < 0 then T.setLeft (ctxPtr T.nil ctx) new else T.setRight (ctxPtr T.nil ctx) new) = some T' ∧
      CtxHolds T' ctx new ∧ (∀ p ∉ ctxAddrs ctx, T'.mem p = T.mem p) ∧ T'.nil = T.nil ∧ T'.next = T.next := by
  cases ctx with
  | nil => exact ⟨{ T with root := new }, if_pos rfl, rfl, fun _ _ => rfl, rfl, rfl⟩
  | cons g ctx =>
    obtain ⟨s, c, y, sib⟩ := g
    have hmem : y.ptr ∈ ctxAddrs (⟨s, c, y, sib⟩ :: ctx) := ctxAddrs_cons.mem_iff.mpr List.mem_cons_self
    have hne : y.ptr ≠ T.nil := fun h' => hnil (h' ▸ hmem)
    rw [ctxAddrs_cons.nodup_iff, List.nodup_cons, List.mem_append, not_or] at hnd
    obtain ⟨hy, hsib, hctx⟩ := h
    have F : Fields T y s c T.nil (ptrOf T.nil sib) (ctxPtr T.nil ctx) := ⟨hy⟩
    refine ⟨T.put y.ptr (y.node s c new (ptrOf T.nil sib) (ctxPtr T.nil ctx)), ?_, ⟨put_self, ?_, ?_⟩, ?_, rfl, rfl⟩
    · rw [ctxPtr_cons, if_neg hne, F.key, Option.bind_some]
      cases s with
      | left => exact (if_pos (strcmp_neg.mpr (hk.after y (by simp [Ctx.after, Side.pick])))).trans (F.setNear new)
      | right =>
        have hlt := hk.before y (by simp [Ctx.before, Side.pick])
        exact (if_neg fun h => absurd (strcmp_neg.mp h) hlt.not_gt).trans (F.setNear new)
    · exact hsib.put hnd.1.1
    · exact hctx.put hnd.1.2
    · exact fun p hp => put_ne fun h' => hp (h' ▸ hmem)

/-- The part of `rbtree_insert` before the repair: the node hangs red where the descent ended. -/
theorem Rep.link (h : Rep T (plug ctx .nil)) (he : Spare T (plug ctx .nil) e) (hk : ctx.Around Cell.key e.key)
    (hloop : rbtreeInsertLoop T e.key T.fuel T.root T.nil = some (some (ctxPtr T.nil ctx))) :
    ∃ T', rbtreeInsert T e.ptr = rbtreeInsertFixup T' e.ptr ∧
      Rep T' (plug ctx (.mk .left .red .nil e .nil)) ∧ T'.nil = T.nil ∧ T'.next = T.next := by
  obtain ⟨n, hn, hnk, hnv, hnt⟩ := he.mem
  have hout : e.ptr ∉ ctxAddrs ctx := fun hm => he.fresh ((addrs_plug _ _).mem_iff.mpr (List.mem_append_right _ hm))
  have hctx := (linked_plug.mp h.linked).2
  set T₁ := T.put e.ptr { n with parent := some (ctxPtr T.nil ctx) } with hT₁
  obtain ⟨T₂, hT₂, hctx₂, hm₂, hnil₂, hnext₂⟩ := CtxHolds.attach (T := T₁) (hctx.put hout) h.sentinel_out.2
    h.nodup_plug.2.1 hk e.ptr
  have hn₂ : T₂.mem e.ptr = some { n with parent := some (ctxPtr T.nil ctx) } := by
    rw [hm₂ _ hout]
    exact put_self
  set T₃ := T₂.put e.ptr { n with parent := some (ctxPtr T.nil ctx), left := some T.nil } with hT₃
  set T₄ := T₃.put e.ptr { n with parent := some (ctxPtr T.nil ctx), left := some T.nil, right := some T.nil } with hT₄
  set T₅ := T₄.put e.ptr (e.node .left .red T.nil T.nil (ctxPtr T.nil ctx)) with hT₅
  have hm₅ : ∀ q, q ≠ e.ptr → T₅.mem q = T₂.mem q := fun q hq => by
    rw [hT₅, put_ne hq, hT₄, put_ne hq, hT₃, put_ne hq]
  have hnil₅ : T₅.nil = T.nil := hnil₂
  have hnext₅ : T₅.next = T.next := hnext₂
  have hnode : e.node .left .red T.nil T.nil (ctxPtr T.nil ctx) = { n with
      parent := some (ctxPtr T.nil ctx), left := some T.nil, right := some T.nil, color := some .red } := by
    simp [Cell.node, Side.pick, hnk, hnv, hnt]
  have hrun : rbtreeInsert T e.ptr = rbtreeInsertFixup T₅ e.ptr := by
    have hkey : T.key e.ptr = some e.key := by simp [Rbtree.key, hn, hnk]
    have hset : T.setParent e.ptr (ctxPtr T.nil ctx) = some T₁ := update_eq hn _
    have hleft : T₂.setLeft e.ptr T₂.nil = some T₃ := by
      rw [hnil₂]
      exact update_eq hn₂ _
    have hright : T₃.setRight e.ptr T₃.nil = some T₄ := by
      have : T₃.nil = T.nil := hnil₂
      rw [this]
      exact update_eq put_self _
    have hcolor : T₄.setColor e.ptr .red = some T₅ := by
      rw [hT₅, hnode]
      exact update_eq put_self _
    simp only [rbtreeInsert, Option.bind_eq_bind]
    rw [hkey, Option.bind_some, hloop, Option.bind_some]
    simp only
    rw [hset, Option.bind_some]
    have hnil₁ : T₁.nil = T.nil := rfl
    rw [hnil₁] at hT₂ ⊢
    rw [hT₂, Option.bind_some, hleft, Option.bind_some, hright, Option.bind_some, hcolor, Option.bind_some]
  have hperm : (addrs (plug ctx (.mk .left .red .nil e .nil))).Perm (e.ptr :: addrs (plug ctx .nil)) := by
    refine ((addrs_plug _ _).trans (addrs_mk.append_right _)).trans ?_
    exact ((addrs_plug _ _).symm).cons e.ptr
  have hsent : T₅.mem T.nil = T.mem T.nil := by
    rw [hm₅ _ he.live.1.symm, hm₂ _ h.sentinel_out.2, hT₁, put_ne he.live.1.symm]
  refine ⟨T₅, hrun, ⟨linked_plug.mpr ⟨holds_mk.mpr ⟨?_, trivial, trivial⟩, ?_⟩, ?_, ?_, ?_, ?_⟩, hnil₅, hnext₅⟩
  · rw [hT₅, put_self, ← hT₅, hnil₅, ptrOf_nil]
  · exact hctx₂.congr rfl rfl fun q hq => hm₅ q fun h' => hout (h' ▸ hq)
  · exact hperm.nodup_iff.mpr (List.nodup_cons.mpr ⟨he.fresh, h.nodup⟩)
  · intro p hp
    rw [hnil₅, hnext₅]
    rcases List.mem_cons.mp (hperm.mem_iff.mp hp) with rfl | hp
    · exact he.live
    · exact h.live p hp
  · have := h.sentinel
    simp only [Rbtree.color] at this ⊢
    rw [hnil₅, hsent]
    exact this
  · rw [hnil₅, hnext₅]
    exact h.nilLt

/-- `rbtree_insert` of a key that is not in the tree puts the node between the smaller and the greater keys and
    restores the balance. -/
theorem Rep.insert {t : RBTree Cell} (h : Rep T t) (he : Spare T t e) (hv : t.Valid) (hs : Sorted Cell.key t.toList)
    (hk : ∀ a ∈ t.toList, a.key ≠ e.key) :
    ∃ T' t' l₁ l₂, rbtreeInsert T e.ptr = some T' ∧ Rep T' t' ∧ t'.Valid ∧ Sorted Cell.key t'.toList ∧
      t.toList = l₁ ++ l₂ ∧ t'.toList = l₁ ++ e :: l₂ ∧ T'.nil = T.nil := by
  have hroot : Rep T (plug [] t) := h
  have hloop := hroot.insertLoop (k := e.key) (Nat.lt_succ_of_lt h.length_lt)
  rw [← h.linked.root] at hloop
  rcases hs.descend e.key with ⟨ctx, hd, rfl, haround⟩ | ⟨ctx, c, l, a, r, -, rfl, ha⟩
  · rw [hd] at hloop
    obtain ⟨T₁, hT₁, h₁, hnil₁, -⟩ := h.link he haround hloop
    obtain ⟨n, hb, hn, -⟩ := hv.split
    obtain rfl : n = 0 := hn
    have hbal : (RBTree.mk .left .red .nil e .nil).Balanced 0 := RBTree.balanced_mk_red.mpr ⟨⟨rfl, rfl⟩, rfl, rfl⟩
    obtain ⟨T₂, hT₂, h₂, K₂⟩ := h₁.insertFixup hb rfl
    have hlist : ((RedBlack.insertFixup ctx (.mk .left .red .nil e .nil)).setColor .black).toList =
        ctx.before ++ e :: ctx.after := by
      simp [toList_insertFixup, toList_plug, RBTree.toList_mk, RBTree.toList, Side.cat, Side.pick]
    refine ⟨T₂, _, ctx.before, ctx.after, ?_, h₂, insertFixup_valid hb hbal rfl, ?_, ?_, hlist, K₂.nil.trans hnil₁⟩
    · rw [hT₁]
      exact hT₂
    · rw [hlist]
      exact haround.sorted hs
    · simp [toList_plug, RBTree.toList]
  · exact absurd ha (hk a (by simp [toList_plug, RBTree.toList]))

/-- `rbtree_insert` of a key that is in the tree leaves it as it is, and the new node behind. -/
theorem Rep.insert_present {t : RBTree Cell} (h : Rep T t) (he : Spare T t e) (hs : Sorted Cell.key t.toList)
    (hk : ∃ a ∈ t.toList, a.key = e.key) : rbtreeInsert T e.ptr = some T := by
  have hroot : Rep T (plug [] t) := h
  have hlen : t.toList.length < T.fuel := Nat.lt_succ_of_lt h.length_lt
  obtain ⟨node, hnode, hkey, -, -⟩ := he.mem
  have hread : T.key e.ptr = some e.key := by simp [Rbtree.key, hnode, hkey]
  rcases hs.descend e.key with ⟨ctx, -, rfl, haround⟩ | ⟨ctx, c, l, a, r, hd, rfl, -⟩
  · obtain ⟨a, ha, hak⟩ := hk
    exact absurd hak (haround.not_mem a ha)
  · have hloop : rbtreeInsertLoop T e.key T.fuel T.root T.nil = some none := by
      have hloop := hroot.insertLoop (k := e.key) hlen
      rw [hd, ← h.linked.root] at hloop
      exact hloop
    rw [rbtreeInsert, hread]
    simp only [Option.bind_eq_bind, Option.bind_some, hloop]

end Link

end KvStore
