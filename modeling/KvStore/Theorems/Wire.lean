import KvStore.Wire
import Mathlib.Data.List.Nodup

/-! The wire format of a sync: which dumps the parser reads back, and what it makes of a dump that was cut off. -/

namespace KvStore
open Framing

/-- No white space in the sense of `std::isspace`. -/
def NoSpace (b : Bytes) : Prop := ∀ c ∈ b, ¬IsSpace c

instance (b : Bytes) : Decidable (NoSpace b) := List.decidableBAll (fun c => ¬IsSpace c) b

/-- What the tokenizer of `process_command` makes of a line: not empty, without NUL, space or newline. -/
def Token (b : Bytes) : Prop := b ≠ [] ∧ ∀ c ∈ b, c ≠ 0 ∧ c ≠ space ∧ c ≠ newline

instance (b : Bytes) : Decidable (Token b) :=
  have : Decidable (∀ c ∈ b, c ≠ 0 ∧ c ≠ space ∧ c ≠ newline) := List.decidableBAll _ b
  inferInstanceAs (Decidable (_ ∧ _))

/-! ### Reading words -/

theorem isSpace_space : IsSpace space := by decide

namespace IStream

theorem sentry_word {b : Bytes} (h : NoSpace b) (hne : b ≠ []) (rest : Bytes) :
    sentry ⟨b ++ rest, true⟩ = some (b ++ rest) := by
  cases b with
  | nil => exact absurd rfl hne
  | cons c b => simp [sentry, h c List.mem_cons_self]

@[simp] theorem sentry_space (rest : Bytes) : sentry ⟨space :: rest, true⟩ = sentry ⟨rest, true⟩ := by
  simp [sentry, isSpace_space]

@[simp] theorem sentry_nil (good : Bool) : sentry ⟨[], good⟩ = none := by
  cases good <;> rfl

/-- A word up to a space, which stays in the stream. -/
theorem readString_word {b : Bytes} (h : NoSpace b) (hne : b ≠ []) (rest str : Bytes) :
    readString ⟨b ++ space :: rest, true⟩ str = (⟨space :: rest, true⟩, b) := by
  have hall : ∀ c ∈ b, decide (¬IsSpace c) = true := fun c hc => by simpa using h c hc
  simp only [readString, sentry_word h hne]
  rw [List.dropWhile_append_of_pos hall, List.takeWhile_append_of_pos hall]
  simp [isSpace_space]

/-- A word that ends with the stream. -/
theorem readString_last {b : Bytes} (h : NoSpace b) (hne : b ≠ []) (str : Bytes) :
    readString ⟨b, true⟩ str = (⟨[], false⟩, b) := by
  have hall : ∀ c ∈ b, decide (¬IsSpace c) = true := fun c hc => by simpa using h c hc
  have hs := sentry_word h hne []
  rw [List.append_nil] at hs
  have hdrop := List.dropWhile_eq_nil_iff.mpr hall
  simp only [readString, hs, hdrop, List.takeWhile_eq_self_iff.mpr hall]
  rfl

@[simp] theorem readString_space (rest str : Bytes) :
    readString ⟨space :: rest, true⟩ str = readString ⟨rest, true⟩ str := by
  simp [readString]

@[simp] theorem readString_nil (good : Bool) (str : Bytes) : readString ⟨[], good⟩ str = (⟨[], false⟩, str) := by
  simp [readString]

@[simp] theorem readUInt64_space (rest : Bytes) (n : UInt64) :
    readUInt64 ⟨space :: rest, true⟩ n = readUInt64 ⟨rest, true⟩ n := by
  simp [readUInt64]

@[simp] theorem readUInt64_nil (good : Bool) (n : UInt64) : readUInt64 ⟨[], good⟩ n = n := by
  simp [readUInt64]

/-- What a read leaves in a string has no white space, unless it leaves the string as it was. -/
theorem noSpace_readString (s : IStream) {str : Bytes} (h : NoSpace str) : NoSpace (s.readString str).2 := by
  rw [readString]
  split
  · exact h
  · intro c hc
    simpa using List.mem_takeWhile_imp hc

end IStream

theorem isDigit_not_isSpace {b : UInt8} (h : Decimal.IsDigit b) : ¬IsSpace b := by
  obtain ⟨h₁, h₂⟩ := h
  rintro (hs | ⟨-, hs⟩) <;> omega

theorem NoSpace.mono {b b' : Bytes} (h : NoSpace b) (hp : b' <+: b) : NoSpace b' := fun c hc =>
  h c (hp.subset hc)

theorem noSpace_decimal (n : Nat) : NoSpace (Decimal.decimal n) := fun b hb =>
  isDigit_not_isSpace (Decimal.isDigit_of_mem_decimal n b hb)

/-- The first digits of a printed timestamp stand for a number that fits a timestamp. -/
theorem value_lt_size {ds : Bytes} {t : UInt64} (h : ds <+: Decimal.decimal t.toNat) :
    Decimal.value ds < UInt64.size := calc
  Decimal.value ds ≤ Decimal.value (Decimal.decimal t.toNat) := Decimal.value_le_of_prefix h
  _ = t.toNat := Decimal.value_decimal _
  _ < UInt64.size := t.toNat_lt_size

/-- Digits are read as the number they stand for. -/
theorem readUInt64_digits {ds : Bytes} (hne : ds ≠ []) (hd : ∀ b ∈ ds, Decimal.IsDigit b)
    (hlt : Decimal.value ds < UInt64.size) (n : UInt64) :
    IStream.readUInt64 ⟨ds, true⟩ n = UInt64.ofNat (Decimal.value ds) := by
  have hs := IStream.sentry_word (fun b hb => isDigit_not_isSpace (hd b hb)) hne []
  rw [List.append_nil] at hs
  have hall : ds.takeWhile (Decimal.IsDigit ·) = ds :=
    List.takeWhile_eq_self_iff.mpr fun b hb => by simpa using hd b hb
  cases ds with
  | nil => exact absurd rfl hne
  | cons c ds =>
    obtain ⟨h₁, h₂⟩ := hd c List.mem_cons_self
    have hminus : c ≠ 45 := by rintro rfl; exact absurd h₁ (by decide)
    have hplus : c ≠ 43 := by rintro rfl; exact absurd h₁ (by decide)
    simp only [IStream.readUInt64, hs]
    split
    · next h => exact absurd (List.cons.inj h).1 hminus
    · next h => exact absurd (List.cons.inj h).1 hplus
    · simp [hall, Nat.not_le.mpr hlt]

/-! ### Reading a line -/

section Line
variable {k v ds : Bytes} {junk : UInt64}

theorem parseLine_key (hk : NoSpace k) (hne : k ≠ []) : parseLine junk k = ⟨k, [], junk⟩ := by
  simp [parseLine, IStream.readString_last hk hne]

theorem parseLine_value (hk : NoSpace k) (hkne : k ≠ []) (hv : NoSpace v) (hvne : v ≠ []) :
    parseLine junk (k ++ space :: v) = ⟨k, v, junk⟩ := by
  simp [parseLine, IStream.readString_word hk hkne, IStream.readString_last hv hvne]

theorem parseLine_open (hk : NoSpace k) (hkne : k ≠ []) : parseLine junk (k ++ [space]) = ⟨k, [], junk⟩ := by
  simp [parseLine, IStream.readString_word hk hkne]

theorem parseLine_space (b : Bytes) : parseLine junk (space :: b) = parseLine junk b := by
  simp [parseLine]

theorem parseLine_nil : parseLine junk [] = ⟨[], [], junk⟩ := by
  simp [parseLine]

theorem parseLine_double_space (hk : NoSpace k) (hkne : k ≠ []) (b : Bytes) :
    parseLine junk (k ++ space :: space :: b) = parseLine junk (k ++ space :: b) := by
  simp [parseLine, IStream.readString_word hk hkne]

/-- A line whose value ends the line's second space: the timestamp is not read. -/
theorem parseLine_value_space (hk : NoSpace k) (hkne : k ≠ []) (hv : NoSpace v) (hvne : v ≠ []) :
    parseLine junk (k ++ space :: (v ++ [space])) = ⟨k, v, junk⟩ := by
  simp [parseLine, IStream.readString_word hk hkne, IStream.readString_word hv hvne]

theorem parseLine_digits (hk : NoSpace k) (hkne : k ≠ []) (hv : NoSpace v) (hvne : v ≠ []) {t : UInt64}
    (hd : ds <+: Decimal.decimal t.toNat) (hne : ds ≠ []) :
    parseLine junk (k ++ space :: (v ++ space :: ds)) = ⟨k, v, UInt64.ofNat (Decimal.value ds)⟩ := by
  have hdigit : ∀ b ∈ ds, Decimal.IsDigit b := fun b hb => Decimal.isDigit_of_mem_decimal _ b (hd.subset hb)
  simp [parseLine, IStream.readString_word hk hkne, IStream.readString_word hv hvne,
    readUInt64_digits hne hdigit (value_lt_size hd)]

end Line

/-- A whole line is read back. -/
theorem parseLine_dumpLine {data : SyncData} {junk : UInt64} (hk : NoSpace data.key) (hkne : data.key ≠ [])
    (hv : NoSpace data.value) (hvne : data.value ≠ []) : parseLine junk (dumpLine data) = data := by
  have h : parseLine junk (dumpLine data) = ⟨data.key, data.value, _⟩ :=
    parseLine_digits hk hkne hv hvne (List.prefix_refl _) (Decimal.decimal_ne_nil _)
  rw [Decimal.value_decimal, UInt64.ofNat_toNat] at h
  exact h

/-- A prefix of a concatenation ends in its first part or in its second. -/
theorem prefix_append_cases {l a b : Bytes} (h : l <+: a ++ b) : l <+: a ∨ ∃ c, l = a ++ c ∧ c <+: b := by
  rcases List.prefix_or_prefix_of_prefix h (List.prefix_append a b) with h' | ⟨c, rfl⟩
  · exact Or.inl h'
  · exact Or.inr ⟨c, rfl, (List.prefix_append_right_inj a).mp h⟩

/-- The timestamp of a line that was cut off is what the variable held, unless the cut is in the digits. -/
theorem parseLine_cut {data : SyncData} {line : Bytes} (hk : NoSpace data.key) (hv : NoSpace data.value)
    (hl : line <+: dumpLine data) : (∃ k v, ∀ junk, parseLine junk line = ⟨k, v, junk⟩) ∨
      data.key ≠ [] ∧ data.value ≠ [] ∧ ∃ ds, ds ≠ [] ∧ ds <+: Decimal.decimal data.timestamp.toNat ∧
        line = data.key ++ space :: (data.value ++ space :: ds) := by
  have word : ∀ b, NoSpace b → ∃ k v, ∀ junk, parseLine junk b = ⟨k, v, junk⟩ := by
    intro b hb
    by_cases hne : b = []
    · exact ⟨[], [], fun junk => by rw [hne, parseLine_nil]⟩
    · exact ⟨b, [], fun junk => parseLine_key hb hne⟩
  have two : ∀ a b, NoSpace a → NoSpace b → ∃ k v, ∀ junk, parseLine junk (a ++ space :: b) = ⟨k, v, junk⟩ := by
    intro a b ha hb
    by_cases hane : a = []
    · obtain ⟨k, v, h⟩ := word b hb
      exact ⟨k, v, fun junk => by rw [hane, List.nil_append, parseLine_space, h]⟩
    · by_cases hbne : b = []
      · exact ⟨a, [], fun junk => by rw [hbne, parseLine_open ha hane]⟩
      · exact ⟨a, b, fun junk => parseLine_value ha hane hb hbne⟩
  rcases prefix_append_cases hl with hl | ⟨t, rfl, ht⟩
  · exact Or.inl (word line (NoSpace.mono hk hl))
  rcases List.prefix_cons_iff.mp ht with rfl | ⟨t, rfl, hb⟩
  · rw [List.append_nil]
    exact Or.inl (word _ hk)
  rcases prefix_append_cases hb with hb | ⟨u, rfl, hu⟩
  · exact Or.inl (two _ _ hk (NoSpace.mono hv hb))
  rcases List.prefix_cons_iff.mp hu with rfl | ⟨ds, rfl, hds⟩
  · rw [List.append_nil]
    exact Or.inl (two _ _ hk hv)
  -- the cut is behind the second space
  have hdsw := NoSpace.mono (noSpace_decimal data.timestamp.toNat) hds
  by_cases hkne : data.key = []
  · obtain ⟨k, v, h⟩ := two _ _ hv hdsw
    exact Or.inl ⟨k, v, fun junk => by rw [hkne, List.nil_append, parseLine_space, h]⟩
  by_cases hvne : data.value = []
  · obtain ⟨k, v, h⟩ := two _ _ hk hdsw
    exact Or.inl ⟨k, v, fun junk => by rw [hvne, List.nil_append, parseLine_double_space hk hkne, h]⟩
  by_cases hne : ds = []
  · exact Or.inl ⟨_, _, fun junk => by rw [hne, parseLine_value_space hk hkne hv hvne]⟩
  · exact Or.inr ⟨hkne, hvne, ds, hne, hds, rfl⟩

/-! ### Reading a dump -/

theorem noSpace_newline {b : Bytes} (h : NoSpace b) : newline ∉ b := fun hb => h newline hb (by decide)

theorem newline_not_mem_dumpLine {data : SyncData} (hk : newline ∉ data.key) (hv : newline ∉ data.value) :
    newline ∉ dumpLine data := by
  have hd := noSpace_newline (noSpace_decimal data.timestamp.toNat)
  have hs : newline ≠ space := by decide
  simp [dumpLine, hk, hv, hd, hs]

/-- The lines of a dump. -/
theorem pieces_flatMap_dumpLine {rest : Bytes} : ∀ {localData : List SyncData},
    (∀ data ∈ localData, newline ∉ data.key ∧ newline ∉ data.value) →
      pieces newline ((localData.flatMap fun data => dumpLine data ++ [newline]) ++ rest) =
        localData.map dumpLine ++ pieces newline rest
  | [], _ => rfl
  | data :: localData, h => by
    obtain ⟨hk, hv⟩ := h data List.mem_cons_self
    have ih := @pieces_flatMap_dumpLine rest localData fun d hd => h d (List.mem_cons_of_mem data hd)
    simp only [List.flatMap_cons, List.append_assoc, List.nil_append, List.map_cons, List.cons_append]
    rw [pieces_append_cons (newline_not_mem_dumpLine hk hv), ih]

theorem pieces_dumpText {localData : List SyncData} (hne : localData ≠ [])
    (h : ∀ data ∈ localData, newline ∉ data.key ∧ newline ∉ data.value) :
    pieces newline (dumpText localData ++ [newline]) = localData.map dumpLine ++ [[], []] := by
  rw [dumpText, if_neg hne, pieces_flatMap_dumpLine h]
  rfl

theorem parseLines_append {lines rest : List Bytes} (h : ∀ line ∈ rest, line = []) :
    ∀ {junk : Nat → UInt64}, parseLines junk (lines ++ rest) = parseLines junk lines := by
  have hnil : ∀ (rest : List Bytes), (∀ line ∈ rest, line = []) → ∀ junk, parseLines junk rest = [] := by
    intro rest
    induction rest with
    | nil => exact fun _ _ => rfl
    | cons line rest ih =>
      intro h junk
      rw [parseLines, if_pos (h line List.mem_cons_self), ih fun l hl => h l (List.mem_cons_of_mem line hl)]
  induction lines with
  | nil => exact fun {junk} => hnil rest h junk
  | cons line lines ih =>
    intro junk
    simp only [List.cons_append, parseLines, ih]

theorem dumpLine_ne_nil (data : SyncData) : dumpLine data ≠ [] := by
  simp [dumpLine]

/-- What the parser yields, line by line. -/
theorem mem_parseLines {r : SyncData} : ∀ {lines : List Bytes} {junk : Nat → UInt64}, r ∈ parseLines junk lines →
    ∃ line ∈ lines, line ≠ [] ∧ ∃ j, r = parseLine j line
  | line :: lines, junk, h => by
    have ih := @mem_parseLines r lines fun n => junk (n + 1)
    rw [parseLines] at h
    split at h
    · obtain ⟨l, hl, hr⟩ := ih h
      exact ⟨l, List.mem_cons_of_mem line hl, hr⟩
    · next hne =>
      rcases List.mem_cons.mp h with rfl | h
      · exact ⟨line, List.mem_cons_self, hne, junk 0, rfl⟩
      · obtain ⟨l, hl, hr⟩ := ih h
        exact ⟨l, List.mem_cons_of_mem line hl, hr⟩

/-- Every line is parsed, whatever the timestamp variable holds then. -/
theorem parseLine_mem {line : Bytes} (hne : line ≠ []) (j : UInt64) : ∀ {lines : List Bytes}, line ∈ lines →
    parseLine j line ∈ parseLines (fun _ => j) lines
  | l :: lines, h => by
    rw [parseLines]
    rcases List.mem_cons.mp h with rfl | h
    · rw [if_neg hne]
      exact List.mem_cons_self
    · have ih := parseLine_mem hne j h
      split
      · exact ih
      · exact List.mem_cons_of_mem _ ih

theorem parseLines_dumpLines {localData : List SyncData} (h : ∀ data ∈ localData,
    (NoSpace data.key ∧ data.key ≠ []) ∧ NoSpace data.value ∧ data.value ≠ []) :
    ∀ {junk : Nat → UInt64}, parseLines junk (localData.map dumpLine) = localData := by
  induction localData with
  | nil => exact rfl
  | cons data localData ih =>
    intro junk
    obtain ⟨⟨hk, hkne⟩, hv, hvne⟩ := h data List.mem_cons_self
    rw [List.map_cons, parseLines, if_neg (dumpLine_ne_nil data), parseLine_dumpLine hk hkne hv hvne,
      ih fun d hd => h d (List.mem_cons_of_mem data hd)]

/-- A dump of records without white space and without empty strings is read back. -/
theorem parse_dumpText {localData : List SyncData} (hne : localData ≠ []) (h : ∀ data ∈ localData,
    (NoSpace data.key ∧ data.key ≠ []) ∧ NoSpace data.value ∧ data.value ≠ []) (junk : Nat → UInt64) :
    parseRemoteDataStr junk (dumpText localData ++ [newline]) = localData := by
  have hline : ∀ data ∈ localData, newline ∉ data.key ∧ newline ∉ data.value := fun data hd =>
    ⟨noSpace_newline (h data hd).1.1, noSpace_newline (h data hd).2.1⟩
  rw [parseRemoteDataStr, pieces_dumpText hne hline, parseLines_append (by simp), parseLines_dumpLines h]

/-- The parser gives keys and values without white space. -/
theorem noSpace_parseRemoteDataStr {junk : Nat → UInt64} {b : Bytes} {r : SyncData}
    (h : r ∈ parseRemoteDataStr junk b) : NoSpace r.key ∧ NoSpace r.value := by
  obtain ⟨line, -, -, j, rfl⟩ := mem_parseLines h
  have hnil : NoSpace [] := by simp [NoSpace]
  exact ⟨IStream.noSpace_readString _ hnil, IStream.noSpace_readString _ hnil⟩

/-- The dump of tokens is read back exactly when no token has a white-space byte. -/
theorem parse_dumpText_iff {localData : List SyncData} (hne : localData ≠ [])
    (htok : ∀ data ∈ localData, Token data.key ∧ Token data.value) (junk : Nat → UInt64) :
    parseRemoteDataStr junk (dumpText localData ++ [newline]) = localData ↔
      ∀ data ∈ localData, NoSpace data.key ∧ NoSpace data.value := by
  constructor
  · intro h data hd
    rw [← h] at hd
    exact noSpace_parseRemoteDataStr hd
  · intro h
    refine parse_dumpText hne (fun data hd => ?_) junk
    obtain ⟨hk, hv⟩ := h data hd
    obtain ⟨⟨hkne, -⟩, hvne, -⟩ := htok data hd
    exact ⟨⟨hk, hkne⟩, hv, hvne⟩

/-- The records that a dump is parsed as have its keys, and its values too unless a value is empty. -/
theorem mem_parse_dumpText {localData : List SyncData} {junk : Nat → UInt64} {r : SyncData} (hne : localData ≠ [])
    (h : ∀ data ∈ localData, NoSpace data.key ∧ data.key ≠ [] ∧ NoSpace data.value)
    (hr : r ∈ parseRemoteDataStr junk (dumpText localData ++ [newline])) : ∃ data ∈ localData,
      r.key = data.key ∧ (r.value = data.value ∨ r.value = Decimal.decimal data.timestamp.toNat) := by
  rw [parseRemoteDataStr, pieces_dumpText hne fun d hd =>
    ⟨noSpace_newline (h d hd).1, noSpace_newline (h d hd).2.2⟩] at hr
  obtain ⟨line, hl, hlne, j, rfl⟩ := mem_parseLines hr
  rcases List.mem_append.mp hl with hl | hl
  · obtain ⟨data, hd, rfl⟩ := List.mem_map.mp hl
    obtain ⟨hk, hkne, hv⟩ := h data hd
    refine ⟨data, hd, ?_⟩
    by_cases hvne : data.value = []
    · -- the line has two spaces in a row, and the timestamp is read as the value
      have hline : dumpLine data = data.key ++ space :: space :: Decimal.decimal data.timestamp.toNat := by
        rw [dumpLine, hvne, List.nil_append]
      rw [hline, parseLine_double_space hk hkne,
        parseLine_value hk hkne (noSpace_decimal _) (Decimal.decimal_ne_nil _)]
      exact ⟨rfl, Or.inr rfl⟩
    · rw [parseLine_dumpLine hk hkne hv hvne]
      exact ⟨rfl, Or.inl rfl⟩
  · simp only [List.mem_cons, List.not_mem_nil, or_false, or_self] at hl
    exact absurd hl hlne

/-- The entry of a client that ends its lines with a carriage return. -/
def crlfDump : List SyncData := [⟨ascii "k", ascii "v\r", 7⟩]

theorem crlfDump_token : ∀ data ∈ crlfDump, Token data.key ∧ Token data.value := by
  intro data hd
  rw [List.mem_singleton.mp hd]
  exact ⟨by decide, by decide⟩

theorem parse_dumpText_crlfDump : (∀ data ∈ crlfDump, Token data.key ∧ Token data.value) ∧
    ∀ junk, parseRemoteDataStr junk (dumpText crlfDump ++ [newline]) ≠ crlfDump := by
  refine ⟨crlfDump_token, fun junk h => ?_⟩
  have hmem : (⟨ascii "k", ascii "v\r", 7⟩ : SyncData) ∈
      parseRemoteDataStr junk (dumpText crlfDump ++ [newline]) := by
    rw [h]
    exact List.mem_singleton_self _
  have hspace := (noSpace_parseRemoteDataStr hmem).2
  revert hspace
  decide

theorem parse_dumpText_iff_crlfDump : parseRemoteDataStr (fun _ => 0) (dumpText crlfDump ++ [newline]) = crlfDump ↔
    ∀ data ∈ crlfDump, NoSpace data.key ∧ NoSpace data.value :=
  parse_dumpText_iff (by decide) crlfDump_token fun _ => 0

/-! ### A dump that was cut off -/

/-- A timestamp other than the one that is stored for a key. -/
theorem exists_fresh_timestamp {localData : List SyncData} (hnd : (localData.map SyncData.key).Nodup) (k v : Bytes) :
    ∃ t, (⟨k, v, t⟩ : SyncData) ∉ localData := by
  by_cases h : (⟨k, v, 0⟩ : SyncData) ∈ localData
  · refine ⟨1, fun h' => ?_⟩
    have heq := List.inj_on_of_nodup_map hnd h h' rfl
    cases heq
  · exact ⟨0, h⟩

/-- A part of the text of one line gives a stored record, whatever the timestamp variable holds, only if it is the
    whole line of an entry without empty strings. -/
theorem whole_of_parseLine_mem {localData : List SyncData} {line : Bytes}
    (hnd : (localData.map SyncData.key).Nodup) {data : SyncData} (hd : data ∈ localData) (hk : NoSpace data.key)
    (hv : NoSpace data.value) (hl : line <+: dumpLine data) (hmem : ∀ junk, parseLine junk line ∈ localData) :
    data.key ≠ [] ∧ data.value ≠ [] ∧ line = dumpLine data := by
  rcases parseLine_cut hk hv hl with ⟨k, v, hjunk⟩ | ⟨hkne, hvne, ds, hne, hds, rfl⟩
  · obtain ⟨t, ht⟩ := exists_fresh_timestamp hnd k v
    exact absurd (hjunk t ▸ hmem t) ht
  · have h := hmem 0
    rw [parseLine_digits hk hkne hv hvne hds hne] at h
    -- the record has the key of `data`, so it is `data`, and the digits are those of its timestamp
    have heq := List.inj_on_of_nodup_map hnd h hd rfl
    have hval : (UInt64.ofNat (Decimal.value ds)).toNat = data.timestamp.toNat :=
      congrArg (fun d : SyncData => d.timestamp.toNat) heq
    rw [UInt64.toNat_ofNat_of_lt' (value_lt_size hds)] at hval
    exact ⟨hkne, hvne, by rw [Decimal.eq_decimal_of_prefix hne hds hval, dumpLine]⟩

/-- Every line of a dump text that was cut off is the beginning of a line of the dump, or of the reply of a server
    without entries. -/
theorem piece_of_cut {localData : List SyncData} {cut line : Bytes}
    (hsp : ∀ data ∈ localData, NoSpace data.key ∧ NoSpace data.value) (hcut : cut <+: dumpText localData ++ [newline])
    (hl : line ∈ pieces newline cut) (hne : line ≠ []) :
    (∃ data ∈ localData, line <+: dumpLine data) ∨ localData = [] ∧ line <+: ascii "EMPTY" := by
  obtain ⟨f, hf, hpre⟩ := exists_piece_of_prefix hcut hl
  have hnil : ∀ {f : Bytes}, f = [] → ¬line <+: f := by
    rintro f rfl hpre
    exact hne (List.prefix_nil.mp hpre)
  by_cases hempty : localData = []
  · have hpieces : pieces newline (ascii "EMPTY" ++ [newline]) = [ascii "EMPTY", []] := by decide
    rw [hempty, dumpText, if_pos rfl, hpieces] at hf
    rcases List.mem_cons.mp hf with rfl | hf
    · exact Or.inr ⟨hempty, hpre⟩
    · exact absurd hpre (hnil (List.mem_singleton.mp hf))
  · rw [pieces_dumpText hempty fun d hd => ⟨noSpace_newline (hsp d hd).1, noSpace_newline (hsp d hd).2⟩] at hf
    rcases List.mem_append.mp hf with hf | hf
    · obtain ⟨data, hd, rfl⟩ := List.mem_map.mp hf
      exact Or.inl ⟨data, hd, hpre⟩
    · exact absurd hpre (hnil (by simpa using hf))

/-- The records of a dump that was cut off are records of the dump, whatever the timestamp variable holds, exactly
    when each of its lines is a whole line, of an entry without empty strings. -/
theorem parse_cut_iff {localData : List SyncData} {cut : Bytes} (hnd : (localData.map SyncData.key).Nodup)
    (hsp : ∀ data ∈ localData, NoSpace data.key ∧ NoSpace data.value)
    (hcut : cut <+: dumpText localData ++ [newline]) :
    (∀ junk, ∀ r ∈ parseRemoteDataStr junk cut, r ∈ localData) ↔ ∀ line ∈ pieces newline cut, line ≠ [] →
      ∃ data ∈ localData, data.key ≠ [] ∧ data.value ≠ [] ∧ line = dumpLine data := by
  constructor
  · intro h line hl hne
    have hmem : ∀ junk, parseLine junk line ∈ localData := fun junk => h _ _ (parseLine_mem hne junk hl)
    rcases piece_of_cut hsp hcut hl hne with ⟨data, hd, hpre⟩ | ⟨rfl, hpre⟩
    · obtain ⟨hk, hv⟩ := hsp data hd
      exact ⟨data, hd, whole_of_parseLine_mem hnd hd hk hv hpre hmem⟩
    · exact absurd (hmem 0) List.not_mem_nil
  · intro h junk r hr
    obtain ⟨line, hl, hne, j, rfl⟩ := mem_parseLines hr
    obtain ⟨data, hd, hkne, hvne, rfl⟩ := h line hl hne
    obtain ⟨hk, hv⟩ := hsp data hd
    rwa [parseLine_dumpLine hk hkne hv hvne]

/-- One entry, and its dump without the last digit. -/
def oneEntry : List SyncData := [⟨ascii "k", ascii "v", 17⟩]

theorem parse_cut_oneEntry : ascii "k v 1" <+: dumpText oneEntry ++ [newline] ∧
    ∀ junk, ¬∀ r ∈ parseRemoteDataStr junk (ascii "k v 1"), r ∈ oneEntry := by
  refine ⟨by decide, fun junk h => ?_⟩
  have hpieces : pieces newline (ascii "k v 1") = [ascii "k v 1"] := by decide
  rw [parseRemoteDataStr, hpieces] at h
  have hline : parseLine (junk 0) (ascii "k v 1") = ⟨ascii "k", ascii "v", 1⟩ :=
    @parseLine_digits (ascii "k") (ascii "v") (ascii "1") (junk 0) (by decide) (by decide) (by decide) (by decide) 17
      (by decide) (by decide)
  have hmem := h _ List.mem_cons_self
  rw [hline] at hmem
  simp [oneEntry] at hmem

theorem parse_cut_iff_oneEntry : (∀ junk, ∀ r ∈ parseRemoteDataStr junk (ascii "k v 1"), r ∈ oneEntry) ↔
    ∀ line ∈ pieces newline (ascii "k v 1"), line ≠ [] →
      ∃ data ∈ oneEntry, data.key ≠ [] ∧ data.value ≠ [] ∧ line = dumpLine data :=
  parse_cut_iff (by decide) (by decide) (by decide)

end KvStore
