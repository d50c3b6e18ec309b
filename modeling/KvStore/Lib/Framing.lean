/-! # Frames in a byte stream

A stream is cut into frames at each separator; what follows the last separator is the remainder, the
beginning of a frame that has not ended. Cutting a stream piece by piece, with the remainder carried
over, gives the frames of the whole stream. -/

namespace Framing

variable {β : Type} [DecidableEq β] (sep : β)

/-- The frames that end in the stream, and the remainder. -/
def frames : List β → List (List β) × List β
  | [] => ([], [])
  | b :: bs =>
    match frames bs with
    | (fs, r) =>
      if b = sep then ([] :: fs, r)
      else match fs with
        | [] => ([], b :: r)
        | f :: fs => ((b :: f) :: fs, r)

/-- The first frame and what follows it, when a frame ends in the stream. -/
def first : List β → Option (List β × List β)
  | [] => none
  | b :: bs => if b = sep then some ([], bs) else (first bs).map fun (f, rest) => (b :: f, rest)

variable {sep} {xs ys f rest : List β}

theorem first_length : ∀ {xs f rest : List β}, first sep xs = some (f, rest) → rest.length < xs.length
  | [], _, _, h => by cases h
  | b :: bs, f, rest, h => by
    simp only [first] at h
    split at h
    · cases h
      exact Nat.lt_succ_self _
    · obtain ⟨⟨f', rest'⟩, h', heq⟩ := Option.map_eq_some_iff.mp h
      cases heq
      exact Nat.lt_succ_of_lt (first_length h')

/-- The first frame is the first of the frames. -/
theorem frames_of_first : ∀ {xs f rest : List β}, first sep xs = some (f, rest) →
    frames sep xs = (f :: (frames sep rest).1, (frames sep rest).2)
  | [], _, _, h => by cases h
  | b :: bs, f, rest, h => by
    simp only [first] at h
    split at h
    · next hb =>
      cases h
      simp [frames, hb]
    · next hb =>
      obtain ⟨⟨f', rest'⟩, h', heq⟩ := Option.map_eq_some_iff.mp h
      cases heq
      simp [frames, hb, frames_of_first h']

theorem frames_of_not_mem : ∀ {xs : List β}, sep ∉ xs → frames sep xs = ([], xs)
  | [], _ => rfl
  | b :: bs, h => by
    have hb : b ≠ sep := fun h' => h (h' ▸ List.mem_cons_self)
    simp [frames, hb, frames_of_not_mem (List.not_mem_of_not_mem_cons h)]

theorem first_eq_none : ∀ {xs : List β}, first sep xs = none ↔ sep ∉ xs
  | [] => by simp [first]
  | b :: bs => by
    by_cases hb : b = sep
    · simp [first, hb]
    · have ih : first sep bs = none ↔ sep ∉ bs := first_eq_none
      simp [first, hb, ih, Ne.symm hb]

theorem first_append : ∀ {xs ys : List β}, sep ∉ xs → first sep (xs ++ sep :: ys) = some (xs, ys)
  | [], _, _ => by simp [first]
  | b :: bs, ys, h => by
    have hb : b ≠ sep := fun h' => h (h' ▸ List.mem_cons_self)
    have ih : first sep (bs ++ sep :: ys) = some (bs, ys) := first_append (List.not_mem_of_not_mem_cons h)
    simp [first, hb, ih]

/-- The stream is its frames, each with the separator that ends it, and the remainder. -/
theorem frames_flatten : ∀ xs : List β, ((frames sep xs).1.map (· ++ [sep])).flatten ++ (frames sep xs).2 = xs
  | [] => rfl
  | b :: bs => by
    have ih := frames_flatten bs
    rcases hf : frames sep bs with ⟨fs, r⟩
    rw [hf] at ih
    by_cases hb : b = sep
    · simpa [frames, hf, hb] using ih
    · cases fs with
      | nil => simpa [frames, hf, hb] using ih
      | cons f fs => simpa [frames, hf, hb] using ih

theorem sep_not_mem_frame : ∀ xs : List β, ∀ f ∈ (frames sep xs).1, sep ∉ f
  | [] => by simp [frames]
  | b :: bs => by
    have ih := sep_not_mem_frame bs
    rcases hf : frames sep bs with ⟨fs, r⟩
    rw [hf] at ih
    by_cases hb : b = sep
    · simpa [frames, hf, hb] using ih
    · cases fs with
      | nil => simp [frames, hf, hb]
      | cons f fs =>
        simp only [List.forall_mem_cons] at ih
        simpa [frames, hf, hb, Ne.symm hb] using ih

/-- The remainder holds no separator. -/
theorem sep_not_mem_frames : ∀ xs : List β, sep ∉ (frames sep xs).2
  | [] => by simp [frames]
  | b :: bs => by
    have ih := sep_not_mem_frames bs
    rcases hf : frames sep bs with ⟨fs, r⟩
    rw [hf] at ih
    by_cases hb : b = sep
    · simpa [frames, hf, hb] using ih
    · cases fs with
      | nil => simpa [frames, hf, hb, Ne.symm hb] using ih
      | cons f fs => simpa [frames, hf, hb] using ih

/-- The frames of a stream that arrives in two pieces: the second is cut with the remainder of the first
    before it. -/
theorem frames_append : ∀ xs ys : List β, frames sep (xs ++ ys) =
    ((frames sep xs).1 ++ (frames sep ((frames sep xs).2 ++ ys)).1, (frames sep ((frames sep xs).2 ++ ys)).2)
  | [], ys => by simp [frames]
  | b :: bs, ys => by
    have ih := frames_append bs ys
    rcases hf : frames sep bs with ⟨fs, r⟩
    rw [hf] at ih
    by_cases hb : b = sep
    · simp [frames, ih, hf, hb]
    · cases fs with
      | nil => simp [frames, ih, hf, hb]
      | cons f fs => simp [frames, ih, hf, hb]

/-! ### Lines -/

/-- The pieces between separators; the last has none behind it. -/
def pieces (sep : β) (xs : List β) : List (List β) := (frames sep xs).1 ++ [(frames sep xs).2]

theorem pieces_of_not_mem (h : sep ∉ xs) : pieces sep xs = [xs] := by
  simp [pieces, frames_of_not_mem h]

theorem pieces_append_cons (h : sep ∉ xs) : pieces sep (xs ++ sep :: ys) = xs :: pieces sep ys := by
  induction xs with
  | nil => simp [pieces, frames]
  | cons b bs ih =>
    have ih := ih (List.not_mem_of_not_mem_cons h)
    have hb : b ≠ sep := fun h' => h (h' ▸ List.mem_cons_self)
    simp only [pieces, List.cons_append, frames, hb, if_false] at ih ⊢
    rcases hf : frames sep (bs ++ sep :: ys) with ⟨fs, r⟩
    rw [hf] at ih
    cases fs with
    | nil =>
      have hlen := congrArg List.length ih
      simp at hlen
    | cons f fs =>
      obtain ⟨rfl, htail⟩ := List.cons.inj ih
      simpa using htail

/-- A piece has no elements but those of the stream. -/
theorem piece_subset (hf : f ∈ pieces sep xs) : f ⊆ xs := by
  intro b hb
  rw [← @frames_flatten _ _ sep xs]
  rcases List.mem_append.mp hf with hf | hf
  · refine List.mem_append_left _ (List.mem_flatten.mpr ⟨f ++ [sep], List.mem_map_of_mem hf, ?_⟩)
    exact List.mem_append_left _ hb
  · rw [List.mem_singleton.mp hf] at hb
    exact List.mem_append_right _ hb

/-- The first piece of a stream begins with what no separator cuts. -/
theorem exists_piece_of_not_mem (h : sep ∉ xs) (ys : List β) : ∃ f ∈ pieces sep (xs ++ ys), xs <+: f := by
  by_cases hs : sep ∈ ys
  · obtain ⟨s, t, rfl, hfirst⟩ := List.eq_append_cons_of_mem hs
    have hst : sep ∉ xs ++ s := by simp [h, hfirst]
    rw [← List.append_assoc, pieces_append_cons hst]
    exact ⟨xs ++ s, List.mem_cons_self, List.prefix_append xs s⟩
  · have hst : sep ∉ xs ++ ys := by simp [h, hs]
    rw [pieces_of_not_mem hst]
    exact ⟨xs ++ ys, List.mem_singleton_self _, List.prefix_append xs ys⟩

/-- Every piece of a stream that was cut off is the beginning of a piece of the whole stream. -/
theorem exists_piece_of_prefix (h : xs <+: ys) {f : List β} (hf : f ∈ pieces sep xs) :
    ∃ f' ∈ pieces sep ys, f <+: f' := by
  obtain ⟨zs, rfl⟩ := h
  have happ : pieces sep (xs ++ zs) = (frames sep xs).1 ++ pieces sep ((frames sep xs).2 ++ zs) := by
    rw [pieces, frames_append, pieces, List.append_assoc]
  rcases List.mem_append.mp hf with hf | hf
  · exact ⟨f, happ ▸ List.mem_append_left _ hf, List.prefix_refl f⟩
  · rw [List.mem_singleton.mp hf]
    obtain ⟨f', hf', hpre⟩ := exists_piece_of_not_mem (sep_not_mem_frames xs) zs
    exact ⟨f', happ ▸ List.mem_append_right _ hf', hpre⟩

/-! ### Lines that end in a pair -/

section Pair
variable {b₁ b₂ : β} {line : List β}

/-- What stands before the first `b₁` that has a `b₂` behind it, and what follows the two. -/
def firstPair (b₁ b₂ : β) : List β → Option (List β × List β)
  | b :: c :: bs =>
    if b = b₁ ∧ c = b₂ then some ([], bs)
    else (firstPair b₁ b₂ (c :: bs)).map fun (line, rest) => (b :: line, rest)
  | _ => none

theorem firstPair_eq : ∀ {xs line rest : List β}, firstPair b₁ b₂ xs = some (line, rest) →
    xs = line ++ b₁ :: b₂ :: rest
  | [], _, _, h => by cases h
  | [_], _, _, h => by cases h
  | b :: c :: bs, line, rest, h => by
    rw [firstPair] at h
    split at h
    · next hb =>
      cases h
      rw [hb.1, hb.2, List.nil_append]
    · obtain ⟨⟨line', rest'⟩, h', heq⟩ := Option.map_eq_some_iff.mp h
      cases heq
      rw [firstPair_eq h', List.cons_append]

theorem firstPair_length (h : firstPair b₁ b₂ xs = some (line, rest)) : rest.length < xs.length := by
  rw [firstPair_eq h, List.length_append, List.length_cons, List.length_cons]
  omega

/-- A line that has ended stays the first one when the stream goes on. -/
theorem firstPair_append : ∀ {xs line rest : List β}, firstPair b₁ b₂ xs = some (line, rest) → ∀ ys : List β,
    firstPair b₁ b₂ (xs ++ ys) = some (line, rest ++ ys)
  | [], _, _, h, _ => by cases h
  | [_], _, _, h, _ => by cases h
  | b :: c :: bs, line, rest, h, ys => by
    rw [firstPair] at h
    rw [List.cons_append, List.cons_append, firstPair]
    split at h
    · next hb =>
      cases h
      rw [if_pos hb]
    · next hb =>
      obtain ⟨⟨line', rest'⟩, h', heq⟩ := Option.map_eq_some_iff.mp h
      cases heq
      have ih := firstPair_append h' ys
      rw [List.cons_append] at ih
      rw [if_neg hb, ih, Option.map_some]

/-- A line without the pair, and the pair behind it. -/
theorem firstPair_line (hb : b₁ ≠ b₂) : ∀ {line : List β}, firstPair b₁ b₂ line = none → ∀ rest : List β,
    firstPair b₁ b₂ (line ++ b₁ :: b₂ :: rest) = some (line, rest)
  | [], _, _ => by simp [firstPair]
  | [b], _, rest => by simp [firstPair, hb]
  | b :: c :: bs, h, rest => by
    rw [firstPair] at h
    split at h
    · cases h
    · next hbc =>
      have ih := firstPair_line hb (Option.map_eq_none_iff.mp h) rest
      rw [List.cons_append] at ih
      rw [List.cons_append, List.cons_append, firstPair, if_neg hbc, ih, Option.map_some]

/-- The pair does not begin in a part without its first element. -/
theorem firstPair_append_none {xs ys : List β} (hxs : b₁ ∉ xs) (hys : firstPair b₁ b₂ ys = none) :
    firstPair b₁ b₂ (xs ++ ys) = none := by
  induction xs with
  | nil => exact hys
  | cons b xs ih =>
    rw [List.mem_cons, not_or] at hxs
    have ih := ih hxs.2
    rw [List.cons_append]
    cases hrest : xs ++ ys with
    | nil => rfl
    | cons c bs =>
      rw [hrest] at ih
      rw [firstPair, if_neg fun hb => hxs.1 hb.1.symm, ih, Option.map_none]

/-- No line has ended in a part of one that stops before the end of its pair. -/
theorem firstPair_short (hb : b₁ ≠ b₂) (hline : firstPair b₁ b₂ line = none)
    (h : xs ++ ys = line ++ b₁ :: b₂ :: rest) (hlen : xs.length < line.length + 2) : firstPair b₁ b₂ xs = none := by
  cases hxs : firstPair b₁ b₂ xs with
  | none => rfl
  | some r =>
    obtain ⟨line', rest'⟩ := r
    have hfirst := firstPair_append hxs ys
    rw [h, firstPair_line hb hline] at hfirst
    cases hfirst
    rw [firstPair_eq hxs, List.length_append, List.length_cons, List.length_cons] at hlen
    omega

end Pair

end Framing
