import KvStore.Lib.FiniteMap
import Mathlib.Data.List.MinMax

/-! # Last-writer-wins merging

Entries carry a stamp, and a map takes an offered entry for a key when it has none for the key or one with a
smaller stamp. After a list of offers a key holds the entry with the greatest stamp among its old entry and
the offers for it, the first of them in this order when several have it. -/

namespace FiniteMap

variable {κ α τ : Type} [DecidableEq κ] [LinearOrder τ] (stamp : α → τ)

/-- The offers for a key, in order. -/
def offers (k : κ) (rs : List (κ × α)) : List α := (rs.filter fun r => r.1 = k).map Prod.snd

def Map.offer (m : Map κ α) (r : κ × α) : Map κ α :=
  match m r.1 with
  | none => m.insert r.1 r.2
  | some a => if stamp a < stamp r.2 then m.insert r.1 r.2 else m

def Map.merge (m : Map κ α) (rs : List (κ × α)) : Map κ α := rs.foldl (Map.offer stamp) m

variable {stamp} {m : Map κ α} {k : κ} {r : κ × α} {rs rs' : List (κ × α)} {a : α}

theorem offers_append : offers k (rs ++ rs') = offers k rs ++ offers k rs' := by
  simp [offers]

theorem offers_of_not_mem (h : k ∉ rs.map Prod.fst) : offers k rs = [] := by
  rw [offers, List.map_eq_nil_iff, List.filter_eq_nil_iff]
  intro r hr
  have : r.1 ≠ k := fun hk => h (hk ▸ List.mem_map_of_mem hr)
  simpa using this

theorem mem_offers (hr : r ∈ rs) : r.2 ∈ offers r.1 rs :=
  List.mem_map_of_mem (List.mem_filter.mpr ⟨hr, by simp⟩)

namespace Map

theorem merge_cons : m.merge stamp (r :: rs) = (m.offer stamp r).merge stamp rs := rfl

theorem merge_append : m.merge stamp (rs ++ rs') = (m.merge stamp rs).merge stamp rs' := List.foldl_append

theorem offer_absent (h : m r.1 = none) : m.offer stamp r = m.insert r.1 r.2 := by
  simp [offer, h]

theorem offer_newer (h : m r.1 = some a) (ha : stamp a < stamp r.2) : m.offer stamp r = m.insert r.1 r.2 := by
  simp [offer, h, ha]

theorem offer_older (h : m r.1 = some a) (ha : stamp r.2 ≤ stamp a) : m.offer stamp r = m := by
  simp [offer, h, not_lt.mpr ha]

theorem offer_of_ne (h : k ≠ r.1) : m.offer stamp r k = m k := by
  rw [offer]
  cases m r.1 with
  | none => exact insert_of_ne h
  | some a =>
    by_cases ha : stamp a < stamp r.2
    · simp only [ha, if_true]
      exact insert_of_ne h
    · simp only [ha, if_false]

theorem offer_self : m.offer stamp r r.1 = ((m r.1).toList ++ [r.2]).argmax stamp := by
  rw [List.argmax_concat, offer]
  cases h : m r.1 with
  | none => simp
  | some a =>
    by_cases ha : stamp a < stamp r.2
    · simp [ha]
    · simp [ha, h]

/-- What a key holds after a merge. -/
theorem merge_apply : m.merge stamp rs k = ((m k).toList ++ offers k rs).argmax stamp := by
  induction rs using List.reverseRecOn with
  | nil =>
    cases h : m k with
    | none => simp [merge, offers, h]
    | some a => simp [merge, offers, h]
  | append_singleton rs r ih =>
    rw [merge_append, merge_cons, merge, List.foldl_nil, offers_append, ← List.append_assoc]
    by_cases hk : k = r.1
    · subst hk
      have hr : offers r.1 [r] = [r.2] := by simp [offers]
      rw [offer_self, ih, hr, List.argmax_concat, List.argmax_concat]
      cases ((m r.1).toList ++ offers r.1 rs).argmax stamp <;> simp
    · have hr : offers k [r] = [] := offers_of_not_mem (by simpa using hk)
      rw [offer_of_ne hk, ih, hr, List.append_nil]

theorem merge_of_not_mem (h : k ∉ rs.map Prod.fst) : m.merge stamp rs k = m k := by
  rw [merge_apply, offers_of_not_mem h, List.append_nil]
  cases m k <;> simp

/-- Offers that are no newer than what the map holds leave it as it is. -/
def Settled (stamp : α → τ) (m : Map κ α) (rs : List (κ × α)) : Prop :=
  ∀ r ∈ rs, ∃ a, m r.1 = some a ∧ stamp r.2 ≤ stamp a

theorem merge_settled : Settled stamp (m.merge stamp rs) rs := by
  intro r hr
  have hmem : r.2 ∈ (m r.1).toList ++ offers r.1 rs := List.mem_append_right _ (mem_offers hr)
  cases h : m.merge stamp rs r.1 with
  | none =>
    rw [merge_apply, List.argmax_eq_none] at h
    rw [h] at hmem
    cases hmem
  | some a =>
    rw [merge_apply] at h
    exact ⟨a, rfl, List.le_of_mem_argmax hmem h⟩

/-- A key keeps its entry when no offer for it is newer. -/
theorem merge_of_no_newer (h : m k = some a) (ha : ∀ r ∈ rs, r.1 = k → stamp r.2 ≤ stamp a) :
    m.merge stamp rs k = some a := by
  induction rs generalizing m with
  | nil => exact h
  | cons r rs ih =>
    rw [merge_cons]
    refine ih ?_ fun r' hr' => ha r' (List.mem_cons_of_mem r hr')
    by_cases hk : k = r.1
    · subst hk
      rw [offer_older h (ha r List.mem_cons_self rfl), h]
    · rw [offer_of_ne hk, h]

theorem merge_ne_none (h : m.merge stamp rs k ≠ none) : m k ≠ none ∨ k ∈ rs.map Prod.fst := by
  by_cases hk : k ∈ rs.map Prod.fst
  · exact Or.inr hk
  · exact Or.inl (by rwa [merge_of_not_mem hk] at h)

theorem merge_apply_eq (h : m.merge stamp rs k = some a) : m k = some a ∨ (k, a) ∈ rs := by
  rw [merge_apply] at h
  rcases List.mem_append.mp (List.argmax_mem h) with hmem | hmem
  · exact Or.inl (Option.mem_toList.mp hmem)
  · obtain ⟨⟨j, b⟩, hr, rfl⟩ := List.mem_map.mp hmem
    obtain ⟨hin, hj⟩ := List.mem_filter.mp hr
    obtain rfl : j = k := by simpa using hj
    exact Or.inr hin

/-- A merge takes no key away. -/
theorem merge_keeps (h : m k ≠ none) : m.merge stamp rs k ≠ none := by
  rw [merge_apply, ne_eq, List.argmax_eq_none, List.append_eq_nil_iff]
  intro hnil
  exact h (by simpa using hnil.1)

theorem eq_none_of_merge (h : m.merge stamp rs k = none) : m k = none := not_not.mp fun hk => merge_keeps hk h

theorem merge_eq_none : m.merge stamp rs k = none ↔ m k = none ∧ k ∉ rs.map Prod.fst := by
  refine ⟨fun h => ⟨eq_none_of_merge h, fun hk => ?_⟩, fun ⟨hm, hk⟩ => (merge_of_not_mem hk).trans hm⟩
  obtain ⟨r, hr, rfl⟩ := List.mem_map.mp hk
  have hset : Settled stamp (m.merge stamp rs) rs := merge_settled
  obtain ⟨a, ha, -⟩ := hset r hr
  rw [h] at ha
  cases ha

section Shown
variable {β : Type} {f : α → β} {m' : Map κ α} {a' : α}

theorem merge_apply_some (h : m k = some a) : m.merge stamp rs k =
    ((offers k rs).argmax stamp).elim (some a) fun b => if stamp a < stamp b then some b else some a := by
  rw [merge_apply, h, Option.toList_some, List.singleton_append, List.argmax_cons]
  cases (offers k rs).argmax stamp <;> rfl

/-- Of two entries that show the same, the same offers leave entries that show the same exactly when the best offer is
    newer than both or than neither, or shows nothing new. -/
theorem merge_shows_iff (ha : m k = some a) (ha' : m' k = some a') (hf : f a' = f a) :
    (m'.merge stamp rs k).map f = (m.merge stamp rs k).map f ↔ ∀ b, (offers k rs).argmax stamp = some b →
      (stamp a < stamp b ↔ stamp a' < stamp b) ∨ f b = f a := by
  rw [merge_apply_some ha, merge_apply_some ha']
  cases (offers k rs).argmax stamp with
  | none => simp [hf]
  | some b =>
    by_cases hb : stamp a < stamp b <;> by_cases hb' : stamp a' < stamp b <;> simp [hb, hb', hf, eq_comm]

/-- Two maps that show the same take the same offers. -/
theorem merge_mapVal_eq_iff (hf : m'.mapVal f = m.mapVal f) :
    (m'.merge stamp rs).mapVal f = (m.merge stamp rs).mapVal f ↔ ∀ k a a' b, m k = some a → m' k = some a' →
      (offers k rs).argmax stamp = some b → (stamp a < stamp b ↔ stamp a' < stamp b) ∨ f b = f a := by
  constructor
  · intro h k a a' b ha ha'
    have hshown := congrFun hf k
    simp only [mapVal_apply, ha, ha', Option.map_some, Option.some.injEq] at hshown
    exact (merge_shows_iff ha ha' hshown).mp (congrFun h k) b
  · intro h
    funext k
    have hshown := congrFun hf k
    cases ha : m k with
    | none =>
      rw [mapVal_apply, mapVal_apply, ha, Option.map_none, Option.map_eq_none_iff] at hshown
      rw [mapVal_apply, mapVal_apply, merge_apply, merge_apply, ha, hshown]
    | some a =>
      rw [mapVal_apply, mapVal_apply, ha, Option.map_some, Option.map_eq_some_iff] at hshown
      obtain ⟨a', ha', hf'⟩ := hshown
      exact (merge_shows_iff ha ha' hf').mpr fun b => h k a a' b ha ha'

end Shown

end Map

/-! ### Joining two maps -/

variable (stamp) in
/-- For each key the later of its two entries, the first map's when neither is later. -/
def Map.join (m m' : Map κ α) : Map κ α := fun k =>
  match m k, m' k with
  | none, b => b
  | some a, none => some a
  | some a, some b => if stamp a < stamp b then some b else some a

section Join
variable {m' : Map κ α} {b : α}

theorem offers_lists (hl : Lists rs m') (k : κ) : offers k rs = (m' k).toList := by
  have hmem : ∀ b, b ∈ offers k rs ↔ m' k = some b := by
    intro b
    rw [← hl.mem, offers]
    constructor
    · intro h
      obtain ⟨⟨j, b'⟩, hr, rfl⟩ := List.mem_map.mp h
      obtain ⟨hmem, hj⟩ := List.mem_filter.mp hr
      obtain rfl : j = k := by simpa using hj
      exact hmem
    · exact fun h => List.mem_map.mpr ⟨(k, b), List.mem_filter.mpr ⟨h, by simp⟩, rfl⟩
  have hlen : (offers k rs).length ≤ 1 := by
    have hcount := List.nodup_iff_count_le_one.mp hl.nodup k
    have heq : ((rs.filter fun r => r.1 = k).map Prod.snd).length = (rs.map Prod.fst).count k := by
      rw [List.length_map, List.count_eq_countP, List.countP_map, List.countP_eq_length_filter]
      congr 1
    rw [offers, heq]
    exact hcount
  cases h : m' k with
  | none =>
    refine List.eq_nil_iff_forall_not_mem.mpr fun b hb => ?_
    rw [hmem, h] at hb
    cases hb
  | some b =>
    have hb := (hmem b).mpr h
    obtain ⟨c, hc⟩ := List.length_eq_one_iff.mp (le_antisymm hlen (List.length_pos_of_mem hb))
    rw [hc, List.mem_singleton] at hb
    rw [hc, hb]
    rfl

/-- The merge of all entries of a map is the join with it. -/
theorem Map.merge_lists (hl : Lists rs m') : m.merge stamp rs = m.join stamp m' := by
  funext k
  rw [merge_apply, offers_lists hl, join]
  cases h : m k <;> cases h' : m' k <;> simp [List.argmax_cons]

omit [DecidableEq κ] in
@[simp] theorem Map.join_eq_none : m.join stamp m' k = none ↔ m k = none ∧ m' k = none := by
  rw [join]
  cases m k <;> cases m' k <;> simp
  split <;> simp

omit [DecidableEq κ] in
theorem Map.join_apply_eq (h : m.join stamp m' k = some a) : m k = some a ∨ m' k = some a := by
  rw [join] at h
  cases ha : m k with
  | none =>
    rw [ha] at h
    exact Or.inr h
  | some a' =>
    cases hb : m' k with
    | none =>
      rw [ha, hb] at h
      exact Or.inl h
    | some b =>
      simp only [ha, hb] at h
      split at h
      · exact Or.inr h
      · exact Or.inl h

omit [DecidableEq κ] in
theorem Map.join_ne_empty (h : m ≠ Map.empty) : m.join stamp m' ≠ Map.empty := by
  intro hjoin
  refine h (funext fun k => ?_)
  have hk : m.join stamp m' k = none := by rw [hjoin, empty_apply]
  exact (join_eq_none.mp hk).1

omit [DecidableEq κ] in
@[simp] theorem Map.join_empty : m.join stamp Map.empty = m := by
  funext k
  rw [join, empty_apply]
  cases m k <;> rfl

omit [DecidableEq κ] in
/-- Joining in the other order afterwards changes only which of two entries with the same stamp is held. -/
theorem Map.join_join {β : Type} {f : α → β}
    (h : ∀ a b, m k = some a → m' k = some b → stamp a = stamp b → f a = f b) :
    (m'.join stamp (m.join stamp m') k).map f = (m.join stamp m' k).map f := by
  cases ha : m k with
  | none =>
    cases hb : m' k with
    | none => simp [join, ha, hb]
    | some b => simp [join, ha, hb]
  | some a =>
    cases hb : m' k with
    | none => simp [join, ha, hb]
    | some b =>
      rcases lt_trichotomy (stamp a) (stamp b) with hlt | heq | hgt
      · simp [join, ha, hb, hlt]
      · simp [join, ha, hb, heq, h a b ha hb heq]
      · simp [join, ha, hb, hgt, not_lt.mpr hgt.le]

end Join

/-! ### A copy that lags behind -/

section Behind
variable {β : Type} {f : α → β} {m' : Map κ α} {b : α}

omit [DecidableEq κ] in
variable (stamp f) in
/-- Every entry of `m` is an older one of `m'`, or has the stamp and what `f` shows of the one of `m'`. -/
def Map.Behind (m m' : Map κ α) : Prop :=
  ∀ k a, m k = some a → ∃ b, m' k = some b ∧ stamp a ≤ stamp b ∧ (stamp a = stamp b → f a = f b)

namespace Map.Behind

omit [DecidableEq κ] in
theorem empty : Map.empty.Behind stamp f m' := by
  intro k a ha
  cases ha

/-- The map that is ahead takes an entry that is newer than what the copy has. -/
theorem insert (h : m.Behind stamp f m') (hb : ∀ a, m k = some a → stamp a ≤ stamp b ∧ (stamp a = stamp b → f a = f b)) :
    m.Behind stamp f (m'.insert k b) := by
  intro j a ha
  by_cases hj : j = k
  · subst hj
    exact ⟨b, insert_self, hb a ha⟩
  · rw [insert_of_ne hj]
    exact h j a ha

omit [DecidableEq κ] in
theorem ne_none (h : m.Behind stamp f m') (hk : m k ≠ none) : m' k ≠ none := by
  obtain ⟨a, ha⟩ := Option.ne_none_iff_exists'.mp hk
  obtain ⟨b, hb, -⟩ := h k a ha
  simp [hb]

omit [DecidableEq κ] in
theorem join_eq_none (h : m.Behind stamp f m') : m.join stamp m' k = none ↔ m' k = none := by
  rw [Map.join_eq_none]
  exact and_iff_right_of_imp fun hb => not_not.mp fun ha => h.ne_none ha hb

omit [DecidableEq κ] in
/-- The join brings the copy up to date. -/
theorem join_apply (h : m.Behind stamp f m') (hb : m' k = some b) :
    ∃ a, m.join stamp m' k = some a ∧ stamp a = stamp b ∧ f a = f b := by
  cases ha : m k with
  | none => exact ⟨b, by simp [join, ha, hb], rfl, rfl⟩
  | some a =>
    obtain ⟨b', hb', hle, heq⟩ := h k a ha
    obtain rfl : b = b' := Option.some.inj (hb.symm.trans hb')
    rcases hle.lt_or_eq with hlt | hstamp
    · exact ⟨b, by simp [join, ha, hb, hlt], rfl, rfl⟩
    · exact ⟨a, by simp [join, ha, hb, hstamp], hstamp, heq hstamp⟩

omit [DecidableEq κ] in
theorem join (h : m.Behind stamp f m') : (m.join stamp m').Behind stamp f m' := by
  intro k a ha
  have hne : m' k ≠ none := fun hb => by simp [h.join_eq_none.mpr hb] at ha
  obtain ⟨b, hb⟩ := Option.ne_none_iff_exists'.mp hne
  obtain ⟨a', ha', hstamp, hf⟩ := h.join_apply hb
  obtain rfl : a = a' := Option.some.inj (ha.symm.trans ha')
  exact ⟨b, hb, hstamp.le, fun _ => hf⟩

end Map.Behind

end Behind

end FiniteMap
