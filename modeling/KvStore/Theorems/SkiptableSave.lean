import KvStore.Theorems.Save
import KvStore.Theorems.Skiptable

/-! # Saving and loading the skip list

The records of the skip list hold no terminators, so a loaded key or value is a C string only when `strncpy` stops
at its 255 bytes. -/

namespace KvStore
open IntCodec LinkedList

/-! ### The contents of a list -/

def skipEntriesLoop (T : Skiptable) : Nat → Ptr → Option (List (CString × CString))
  | 0, _ => none
  | fuel + 1, current =>
    if current = 0 then some []
    else do
      let n ← T.nodes current
      let next ← T.forward current 0
      let es ← skipEntriesLoop T fuel next
      some ((n.key, n.value) :: es)

/-- The keys and values that a walk along level 0 finds. -/
def Skiptable.entries (T : Skiptable) : Option (List (CString × CString)) := do
  let first ← T.forward T.header 0
  skipEntriesLoop T T.fuel first

def SkipCell.pair (c : SkipCell) : CString × CString := (c.key, c.value)

section Contents
variable {T : Skiptable} {L : List SkipCell} {p : Ptr} {fuel : Nat} {out : OutFile}

/-- What a walk along level 0 reads at the nodes `L`. -/
def WalksTo (T : Skiptable) (p : Ptr) (L : List SkipCell) : Prop :=
  Links (fun p => T.forward p 0) 0 p (L.map SkipCell.ptr) ∧ ∀ c ∈ L, c.ptr ≠ 0 ∧ T.nodes c.ptr = some c.node

theorem SkipRep.walksTo (h : SkipRep T L) : WalksTo T T.header L := by
  have hlinks := h.linked 0 (Nat.zero_le _)
  rw [LinkedAt, reach_zero] at hlinks
  exact ⟨hlinks, fun c hc => ⟨(h.live c.ptr (List.mem_cons_of_mem _ (List.mem_map_of_mem hc))).1, h.nodes c hc⟩⟩

theorem WalksTo.first (h : WalksTo T p L) : T.forward p 0 = some ((L.map SkipCell.ptr).headD 0) := h.1.next_eq

theorem WalksTo.tail {c : SkipCell} (h : WalksTo T p (c :: L)) : WalksTo T c.ptr L :=
  ⟨h.1.2, fun d hd => h.2 d (List.mem_cons_of_mem c hd)⟩

theorem WalksTo.entriesLoop (h : WalksTo T p L) (hfuel : L.length < fuel) :
    skipEntriesLoop T fuel ((L.map SkipCell.ptr).headD 0) = some (L.map SkipCell.pair) := by
  induction L generalizing p fuel with
  | nil =>
    obtain ⟨fuel, rfl⟩ := Nat.exists_eq_succ_of_ne_zero (Nat.ne_zero_of_lt hfuel)
    rfl
  | cons c L ih =>
    obtain ⟨fuel, rfl⟩ := Nat.exists_eq_succ_of_ne_zero (Nat.ne_zero_of_lt hfuel)
    obtain ⟨hne, hnode⟩ := h.2 c List.mem_cons_self
    have hrest := ih h.tail (Nat.lt_of_succ_lt_succ hfuel)
    rw [List.map_cons, List.headD_cons, skipEntriesLoop, if_neg hne, hnode]
    simp only [Option.bind_eq_bind, Option.bind_some, h.tail.first, hrest]
    rfl

theorem SkipInv.entries (h : SkipInv T L) : T.entries = some (L.map SkipCell.pair) := by
  have hwalk := h.rep.walksTo
  rw [Skiptable.entries, hwalk.first]
  exact hwalk.entriesLoop (Nat.lt_succ_of_lt h.rep.length_lt)

/-! ### Saving -/

/-- What a save writes behind the count: it ends at the first string that is empty. -/
def skipRecords : List (CString × CString) → List UInt8
  | [] => []
  | e :: es =>
    if e.1.bytes = [] then int32 0
    else objectBytes e.1.bytes ++ if e.2.bytes = [] then int32 0 else objectBytes e.2.bytes ++ skipRecords es

theorem writable_of_short {s : CString} (hne : s.bytes ≠ []) (h : s.strlen ≤ 255) : Writable s.bytes :=
  ⟨List.length_pos_of_ne_nil hne, lt_of_le_of_lt h (by decide)⟩

theorem fwrite_zero (obj : List UInt8) : fwrite .good out obj 0 = some (⟨out.bytes, out.writes + 1⟩, 0) := rfl

variable {k v : CString}

theorem saveRecord_emptyKey (hk : k.bytes = []) :
    saveRecord .good (-3) 0 out (.str k) (.str v) = some (⟨out.bytes ++ int32 0, out.writes + 2⟩, -4) := by
  have hlen : ((k.strlen + 0 : Nat) : Int).bmod UInt32.size = 0 := by simp [CString.strlen, hk]
  unfold saveRecord
  simp -implicitDefEqProofs only [CharPtr.deref, Option.bind_eq_bind, Option.bind_some, hlen, fwrite_int32, fwrite_zero,
    OutFile.append]
  simp

theorem saveRecord_emptyValue (hk : Writable k.bytes) (hv : v.bytes = []) :
    saveRecord .good (-3) 0 out (.str k) (.str v) =
      some (⟨out.bytes ++ (objectBytes k.bytes ++ int32 0), out.writes + 4⟩, -6) := by
  have hklen : ((k.strlen + 0 : Nat) : Int).bmod UInt32.size = (k.bytes.length : Nat) := hk.bmod_length
  have hvlen : ((v.strlen + 0 : Nat) : Int).bmod UInt32.size = 0 := by simp [CString.strlen, hv]
  have hle : k.bytes.length ≤ k.buf.length := by simp [CString.buf]
  have htake : k.buf.take k.bytes.length = k.bytes := by simp [CString.buf]
  unfold saveRecord
  simp -implicitDefEqProofs only [CharPtr.deref, Option.bind_eq_bind, Option.bind_some, hklen, hvlen, fwrite_int32,
    fwrite_good hk.1 hle, fwrite_zero, OutFile.append, htake, objectBytes]
  simp

theorem WalksTo.saveLoop_cons {disk : Disk} {c : SkipCell} {o : OutFile} {ret : Int} (h : WalksTo T p (c :: L))
    (hrec : saveRecord disk (-3) 0 out (.str c.key) (.str c.value) = some (o, ret)) :
    skiptableSaveLoop disk T (fuel + 1) (((c :: L).map SkipCell.ptr).headD 0) out =
      if ret ≠ 0 then some (o, ret) else skiptableSaveLoop disk T fuel ((L.map SkipCell.ptr).headD 0) o := by
  obtain ⟨hne, hnode⟩ := h.2 c List.mem_cons_self
  rw [List.map_cons, List.headD_cons, skiptableSaveLoop, if_neg hne, hnode]
  simp -implicitDefEqProofs only [Option.bind_eq_bind, Option.bind_some, SkipCell.node, hrec, h.tail.first]

theorem WalksTo.saveLoop (h : WalksTo T p L) (hfuel : L.length < fuel)
    (hshort : ∀ c ∈ L, c.key.strlen ≤ 255 ∧ c.value.strlen ≤ 255) :
    ∃ writes ret, skiptableSaveLoop .good T fuel ((L.map SkipCell.ptr).headD 0) out =
      some (⟨out.bytes ++ skipRecords (L.map SkipCell.pair), writes⟩, ret) := by
  induction L generalizing p fuel out with
  | nil =>
    obtain ⟨fuel, rfl⟩ := Nat.exists_eq_succ_of_ne_zero (Nat.ne_zero_of_lt hfuel)
    exact ⟨out.writes, 0, by simp [skiptableSaveLoop, skipRecords]⟩
  | cons c L ih =>
    obtain ⟨fuel, rfl⟩ := Nat.exists_eq_succ_of_ne_zero (Nat.ne_zero_of_lt hfuel)
    obtain ⟨hks, hvs⟩ := hshort c List.mem_cons_self
    by_cases hk : c.key.bytes = []
    · rw [h.saveLoop_cons (saveRecord_emptyKey hk)]
      exact ⟨out.writes + 2, -4, by simp [skipRecords, SkipCell.pair, hk]⟩
    have hkw : Writable c.key.bytes := writable_of_short hk hks
    by_cases hv : c.value.bytes = []
    · rw [h.saveLoop_cons (saveRecord_emptyValue hkw hv)]
      exact ⟨out.writes + 4, -6, by simp [skipRecords, SkipCell.pair, hk, hv]⟩
    have hvw : Writable c.value.bytes := writable_of_short hv hvs
    have hrec : saveRecord .good (-3) 0 out (.str c.key) (.str c.value) = _ :=
      saveRecord_good (Nat.zero_le 1) (c.key.object_zero.symm ▸ hkw) (c.value.object_zero.symm ▸ hvw)
    rw [h.saveLoop_cons hrec, if_neg (not_not.mpr rfl), CString.object_zero, CString.object_zero]
    obtain ⟨writes, ret, hrest⟩ := ih h.tail (Nat.lt_of_succ_lt_succ hfuel) fun d hd =>
      hshort d (List.mem_cons_of_mem c hd)
    refine ⟨writes, ret, hrest.trans ?_⟩
    simp [skipRecords, SkipCell.pair, hk, hv, recordBytes]

/-- `kvs_skiptable_save` is the loop from the first node on behind the count. -/
theorem SkipRep.save_eq (h : SkipRep T L) (disk : Disk) : kvsSkiptableSave disk T =
    saveFile disk T.size fun out => skiptableSaveLoop disk T T.fuel ((L.map SkipCell.ptr).headD 0) out := by
  simp only [kvsSkiptableSave, kvsSkiptableCount, h.walksTo.first, Option.bind_eq_bind, Option.bind_some]

/-- What `kvs_skiptable_save` writes. -/
theorem SkipInv.save (h : SkipInv T L) :
    ∃ ret, kvsSkiptableSave .good T = some (int32 L.length ++ skipRecords (L.map SkipCell.pair), ret) := by
  have hwalk := h.rep.walksTo
  have hfuel : L.length < T.fuel := Nat.lt_succ_of_lt h.rep.length_lt
  obtain ⟨writes, ret, hloop⟩ : ∃ writes ret, skiptableSaveLoop .good T T.fuel ((L.map SkipCell.ptr).headD 0)
      (OutFile.append ⟨[], 0⟩ (int32 L.length) 1) = some (⟨_, writes⟩, ret) := hwalk.saveLoop hfuel h.short
  refine ⟨ret, ?_⟩
  rw [h.rep.save_eq, h.size]
  simp -implicitDefEqProofs only [Option.bind_eq_bind, Option.bind_some, saveFile, fwrite_int32, hloop]
  simp [OutFile.append]

end Contents

/-! ### Setting a key and a value that were read from a file -/

section Set
variable {T : Skiptable} {L l₁ l₂ : List SkipCell} {c : SkipCell} {k v : CString} {env : Env} {t : UInt64} {i : Nat}

/-- A buffer without a terminator is never found. -/
theorem skipFind_unterminated {b : List UInt8} {found : Option Ptr} {update : List Ptr} (hb : (0 : UInt8) ∉ b)
    (h : skipFind T b = some (found, update)) : found = none := by
  simp only [skipFind, Option.bind_eq_bind, Option.bind_eq_some_iff, Prod.exists] at h
  obtain ⟨current, u, -, next, -, h⟩ := h
  split at h
  · cases h
    rfl
  · simp only [Option.bind_eq_some_iff] at h
    obtain ⟨n, -, d, hd, h⟩ := h
    rw [if_neg (strcmpBufBytes_ne_zero hb hd)] at h
    cases h
    rfl

/-- Copying a string of fewer than 255 bytes reads on behind the buffer. -/
theorem set_short_faults (henv : env.Allocates) (hshort : k.strlen < 255 ∨ v.strlen < 255) :
    kvsSkiptableSetWithTimestamp env T k.bytes v.bytes t = none := by
  have hcreate : ∀ T : Skiptable, ∀ level, createSkipNode env T level k.bytes v.bytes t = none := by
    intro T level
    rcases hshort with hk | hv
    · simp [createSkipNode, henv 0, strncpy255, strncpyBytes_short k.noNul hk]
    · simp [createSkipNode, henv 0, strncpy255, strncpyBytes_short v.noNul hv]
  simp only [kvsSkiptableSetWithTimestamp, Option.bind_eq_bind]
  cases hf : skipFind T k.bytes with
  | none => rfl
  | some r =>
    obtain ⟨found, update⟩ := r
    obtain rfl := skipFind_unterminated k.noNul hf
    simp [hcreate]

theorem strncpy255_bytes (h : k.strlen = 255) : strncpy255 k.bytes = some k := by
  have hcopy : strncpyBytes 255 k.bytes = some k.bytes := h ▸ strncpyBytes_of_length k.noNul
  rw [strncpy255, hcopy, Option.map_some, CString.ofBytes_bytes]

/-- Strings of 255 bytes that differ are told apart within them. -/
theorem strcmpBuf_bytes {s : CString} (hs : s.strlen = 255) (hk : k.strlen = 255) (hne : s ≠ k) :
    strcmpBuf s k.bytes = some (strcmp s k) :=
  strcmpBufBytes_of_length (hs.trans hk.symm) fun h => hne (CString.ext_bytes h)

/-- A key and a value of 255 bytes, behind the keys that the list has. -/
theorem SkipInv.set_full (h : SkipInv T L) (hL : ∀ c ∈ L, c.key.strlen = 255) (hlt : ∀ c ∈ L, c.key < k)
    (hk : k.strlen = 255) (hv : v.strlen = 255) (henv : env.Allocates) :
    ∃ T' c, kvsSkiptableSetWithTimestamp env T k.bytes v.bytes t = some (T', 0) ∧ SkipInv T' (L ++ [c]) ∧
      c.pair = (k, v) := by
  have hcut : Cut k L [] := ⟨hlt, by simp⟩
  have hreads : Reads k.bytes k (L ++ []) := by
    intro c hc
    rw [List.append_nil] at hc
    exact strcmpBuf_bytes (hL c hc) hk (hlt c hc).ne
  have hinv : SkipInv T (L ++ []) := by rwa [List.append_nil]
  have hkey : strncpy255 k.bytes = some k.trunc := by rw [strncpy255_bytes hk, CString.trunc_of_le hk.le]
  obtain ⟨T', hT', h'⟩ := hinv.insert_read (t := t) hcut hreads (by simp) henv hkey (strncpy255_bytes hv) hv.le
  refine ⟨T', _, hT', h', ?_⟩
  rw [SkipCell.pair, CString.trunc_of_le hk.le]

variable {p : Ptr} {key : List UInt8}

/-- The inner loop, when it meets a node whose comparison faults. -/
theorem skipWalk_faults {xs ys : List Ptr} {y : Ptr} {fuel : Nat}
    (hlinks : Links (fun p => T.forward p i) 0 p (xs ++ y :: ys)) (hne : ∀ q ∈ xs ++ y :: ys, q ≠ 0)
    (hxs : ∀ q ∈ xs, ∃ n d, T.nodes q = some n ∧ strcmpBuf n.key key = some d ∧ d < 0)
    (hy : ∃ n, T.nodes y = some n ∧ strcmpBuf n.key key = none) : skipWalk T key i fuel p = none := by
  induction xs generalizing p fuel with
  | nil =>
    cases fuel with
    | zero => rfl
    | succ fuel =>
      have hp : T.forward p i = some y := hlinks.1
      obtain ⟨n, hn, hd⟩ := hy
      simp [skipWalk, hp, hne y, hn, hd]
  | cons x xs ih =>
    cases fuel with
    | zero => rfl
    | succ fuel =>
      obtain ⟨hp, hlinks⟩ := hlinks
      simp only at hp
      obtain ⟨n, d, hn, hd, hlt⟩ := hxs x List.mem_cons_self
      have hrest : skipWalk T key i fuel x = none :=
        ih hlinks (fun q hq => hne q (List.mem_cons_of_mem x hq)) fun q hq => hxs q (List.mem_cons_of_mem x hq)
      simp [skipWalk, hp, hne x, hn, hd, hlt, hrest]

section Faults
variable (h : SkipRep T (l₁ ++ c :: l₂)) (hbefore : ∀ a ∈ l₁, ∃ d, strcmpBuf a.key key = some d ∧ d < 0)
  (hc : strcmpBuf c.key key = none)
  (hbehind : ∀ a ∈ l₂, strcmpBuf a.key key = none ∨ ∃ d, strcmpBuf a.key key = some d ∧ 0 ≤ d)
include h hbefore hc hbehind

/-- One level of a search whose comparison faults at the node `c`, and at the nodes behind it unless it stops there:
    only a level without `c` is left. -/
theorem SkipRep.walk_faults (hi : i ≤ maxLevel) (hp : p ∈ T.header :: reach i l₁) :
    skipWalk T key i T.fuel p = none ∨ 0 < i ∧ skipWalk T key i T.fuel p = some (lastAt T i l₁) := by
  obtain ⟨xs, hlinks, hsub, hlen, hlast⟩ := h.linksFrom hi hp
  have hne : ∀ q ∈ xs ++ reach i (c :: l₂), q ≠ 0 := by
    intro q hq
    refine h.reach_ne_zero (i := i) ?_
    rw [reach_append]
    rcases List.mem_append.mp hq with hq | hq
    · exact List.mem_append_left _ (hsub hq)
    · exact List.mem_append_right _ hq
  have hxs : ∀ q ∈ xs, ∃ n d, T.nodes q = some n ∧ strcmpBuf n.key key = some d ∧ d < 0 := by
    intro q hq
    obtain ⟨a, ha, hn⟩ := h.node_reach (List.subset_append_left l₁ _) (hsub hq)
    obtain ⟨d, hd, hlt⟩ := hbefore a ha
    exact ⟨_, d, hn, hd, hlt⟩
  have hnode : T.nodes c.ptr = some c.node := h.nodes c (by simp)
  by_cases hlevel : i ≤ c.level
  · rw [reach_cons_of_le hlevel] at hlinks hne
    exact Or.inl (skipWalk_faults hlinks hne hxs ⟨_, hnode, hc⟩)
  · have hpos : 0 < i := Nat.pos_of_ne_zero fun h0 => hlevel (h0 ▸ Nat.zero_le _)
    by_cases hfault : ∃ y ∈ (reach i (c :: l₂)).head?, ∃ n, T.nodes y = some n ∧ strcmpBuf n.key key = none
    · obtain ⟨y, hy, hnone⟩ := hfault
      obtain ⟨ys, hys⟩ := List.head?_eq_some_iff.mp hy
      rw [hys] at hlinks hne
      exact Or.inl (skipWalk_faults hlinks hne hxs hnone)
    · refine Or.inr ⟨hpos, hlast ▸ skipWalk_eq hlen hlinks hne hxs fun q hq => ?_⟩
      rw [reach_cons_of_lt (Nat.lt_of_not_le hlevel)] at hq hfault
      have hsub₂ : l₂ ⊆ l₁ ++ c :: l₂ := fun a ha => List.mem_append_right l₁ (List.mem_cons_of_mem c ha)
      obtain ⟨a, ha, hn⟩ := h.node_reach hsub₂ (List.mem_of_mem_head? hq)
      rcases hbehind a ha with hnone | ⟨d, hd, hle⟩
      · exact absurd ⟨q, hq, _, hn, hnone⟩ hfault
      · exact ⟨_, d, hn, hd, hle⟩

/-- Level 0 has all nodes, so that such a search faults at the latest there. -/
theorem SkipRep.search_faults {n : Nat} {update : List Ptr} (hn : n ≤ maxLevel) (hp : p ∈ T.header :: reach n l₁) :
    skipSearch T key (n + 1) p update = none := by
  induction n generalizing p update with
  | zero =>
    rcases h.walk_faults hbefore hc hbehind hn hp with hw | ⟨hpos, -⟩
    · rw [skipSearch, hw]
      rfl
    · exact absurd hpos (Nat.lt_irrefl 0)
  | succ n ih =>
    rw [skipSearch]
    rcases h.walk_faults hbefore hc hbehind hn hp with hw | ⟨-, hw⟩
    · rw [hw]
      rfl
    · have hlast : lastAt T (n + 1) l₁ ∈ T.header :: reach n l₁ :=
        List.cons_subset_cons T.header (reach_mono (Nat.le_succ n)).subset List.getLastD_mem_cons
      rw [hw]
      exact ih (Nat.le_of_succ_le hn) hlast

end Faults

theorem SkipInv.find_faults (h : SkipInv T (l₁ ++ c :: l₂))
    (hbefore : ∀ a ∈ l₁, ∃ d, strcmpBuf a.key key = some d ∧ d < 0) (hc : strcmpBuf c.key key = none)
    (hbehind : ∀ a ∈ l₂, strcmpBuf a.key key = none ∨ ∃ d, strcmpBuf a.key key = some d ∧ 0 ≤ d) :
    skipFind T key = none := by
  have hsearch : skipSearch T key (T.level + 1) T.header [] = none :=
    h.rep.search_faults hbefore hc hbehind h.rep.levelMax List.mem_cons_self
  rw [skipFind, hsearch]
  rfl

/-- A key of 255 bytes that the list has already, at its end. -/
theorem set_again_faults (h : SkipInv T L) (hL : ∀ c ∈ L, c.key.strlen = 255) (hle : ∀ c ∈ L, c.key ≤ k)
    (hmem : ∃ c ∈ L, c.key = k) : kvsSkiptableSetWithTimestamp env T k.bytes v.bytes t = none := by
  rcases cut_cases h.sorted k with ⟨l₁, l₂, rfl, hcut, hk⟩ | ⟨l₁, c, l₂, rfl, hcut, rfl⟩
  · obtain ⟨c, hc, rfl⟩ := hmem
    rcases List.mem_append.mp hc with hc | hc
    · exact absurd rfl (hcut.1 c hc).ne
    · exact absurd rfl (hk c hc)
  · have hbefore : ∀ a ∈ l₁, ∃ d, strcmpBuf a.key c.key.bytes = some d ∧ d < 0 := by
      intro a ha
      have hlt := hcut.1 a ha
      exact ⟨_, strcmpBuf_bytes (hL a (by simp [ha])) (hL c (by simp)) hlt.ne, strcmp_neg.mpr hlt⟩
    have hbehind : ∀ a ∈ l₂, strcmpBuf a.key c.key.bytes = none ∨ ∃ d, strcmpBuf a.key c.key.bytes = some d ∧ 0 ≤ d := by
      intro a ha
      have hmem : a ∈ c :: l₂ := List.mem_cons_of_mem c ha
      rw [le_antisymm (hle a (List.mem_append_right l₁ hmem)) (hcut.2 a hmem)]
      exact Or.inl (strcmpBufBytes_self _)
    rw [kvsSkiptableSetWithTimestamp, h.find_faults hbefore (strcmpBufBytes_self _) hbehind]
    rfl

/-! ### Setting any buffers -/

theorem ofBytes_of_nul {b : List UInt8} (hb : (0 : UInt8) ∈ b) : ∃ rest, b = (CString.ofBytes b).bytes ++ 0 :: rest := by
  obtain ⟨s, rest, rfl, hs⟩ := List.eq_append_cons_of_mem hb
  have hall : ∀ d ∈ s, (d != 0) = true := by
    intro d hd
    have hne : d ≠ 0 := fun h => hs (h ▸ hd)
    simpa using hne
  refine ⟨rest, ?_⟩
  simp [CString.ofBytes, List.takeWhile_append_of_pos hall]

theorem ofBytes_of_not_nul {b : List UInt8} (hb : (0 : UInt8) ∉ b) : (CString.ofBytes b).bytes = b :=
  List.takeWhile_eq_self_iff.mpr fun d hd => by
    have hne : d ≠ 0 := fun h => hb (h ▸ hd)
    simpa using hne

/-- What `strncpy` copies of a buffer, when it does not read on behind it, is cut to 255 bytes. -/
theorem strncpy255_ofBytes {b : List UInt8} {s : CString} (h : strncpy255 b = some s) :
    s = (CString.ofBytes b).trunc := by
  by_cases hb : (0 : UInt8) ∈ b
  · obtain ⟨rest, hrest⟩ := ofBytes_of_nul hb
    have hcopy : strncpyBytes 255 b = some (CString.ofBytes b).trunc.bytes := by
      conv_lhs => rw [hrest]
      exact strncpyBytes_buf (CString.ofBytes b).noNul rest
    rw [strncpy255, hcopy, Option.map_some, Option.some.injEq] at h
    rw [← h, CString.ofBytes_bytes]
  · rcases Nat.lt_or_ge b.length 255 with hlt | hge
    · rw [strncpy255, strncpyBytes_short hb hlt] at h
      cases h
    · have htrunc : (CString.ofBytes b).trunc.bytes = b.take 255 := congrArg (List.take 255) (ofBytes_of_not_nul hb)
      have hcopy : strncpyBytes 255 b = some (CString.ofBytes b).trunc.bytes := by
        rw [strncpyBytes_of_le hb hge, htrunc]
      rw [strncpy255, hcopy, Option.map_some, Option.some.injEq] at h
      rw [← h, CString.ofBytes_bytes]

/-- A search that returns without a node for a buffer that can be copied has read each key as it is. -/
theorem SkipInv.reads_of_absent {s : CString} {update : List Ptr} (h : SkipInv T L) (hcopy : strncpy255 key = some s)
    (hf : skipFind T key = some (none, update)) : ∃ l₁ l₂, L = l₁ ++ l₂ ∧ Cut (.ofBytes key) l₁ l₂ ∧
      (∀ c ∈ l₂, c.key ≠ .ofBytes key) ∧ Reads key (.ofBytes key) L := by
  by_cases hnul : (0 : UInt8) ∈ key
  · obtain ⟨rest, hrest⟩ := ofBytes_of_nul hnul
    have hreads : ∀ M, Reads key (.ofBytes key) M := by
      intro M c _
      rw [strcmpBuf]
      conv_lhs => rw [hrest]
      exact strcmpBufBytes_append c.key.noNul (CString.ofBytes key).noNul rest
    rcases cut_cases h.sorted (.ofBytes key) with ⟨l₁, l₂, rfl, hcut, hne⟩ | ⟨l₁, c, l₂, rfl, hcut, hc⟩
    · exact ⟨l₁, l₂, rfl, hcut, hne, hreads _⟩
    · rw [h.rep.find_some hcut (hreads _) hc] at hf
      cases hf
  · have hbytes := ofBytes_of_not_nul hnul
    have hlong : 255 ≤ key.length := by
      by_contra hlt
      rw [strncpy255, strncpyBytes_short hnul (Nat.lt_of_not_le hlt)] at hcopy
      cases hcopy
    -- a comparison reads on behind the buffer only for the key itself
    have hread : ∀ c ∈ L, c.key ≠ .ofBytes key → strcmpBuf c.key key = some (strcmp c.key (.ofBytes key)) := by
      intro c hc hne
      rw [strcmp, hbytes]
      refine strcmpBufBytes_of_not_prefix fun hpre => hne (CString.ext_bytes ?_)
      rw [hbytes]
      exact (hpre.eq_of_length_le ((h.short c hc).1.trans hlong)).symm
    have hself : ∀ c : SkipCell, c.key = .ofBytes key → strcmpBuf c.key key = none := by
      intro c hc
      rw [strcmpBuf, hc, hbytes]
      exact strcmpBufBytes_self key
    rcases cut_cases h.sorted (.ofBytes key) with ⟨l₁, l₂, rfl, hcut, hne⟩ | ⟨l₁, c, l₂, rfl, hcut, hc⟩
    · exact ⟨l₁, l₂, rfl, hcut, hne, fun a ha => hread a ha (hcut.absent hne a ha)⟩
    · have hbefore : ∀ a ∈ l₁, ∃ n, strcmpBuf a.key key = some n ∧ n < 0 := fun a ha =>
        ⟨_, hread a (List.mem_append_left _ ha) (hcut.1 a ha).ne, strcmp_neg.mpr (hcut.1 a ha)⟩
      have hbehind : ∀ a ∈ l₂, strcmpBuf a.key key = none ∨ ∃ n, strcmpBuf a.key key = some n ∧ 0 ≤ n := by
        intro a ha
        have hmem : a ∈ c :: l₂ := List.mem_cons_of_mem c ha
        by_cases hk : a.key = .ofBytes key
        · exact Or.inl (hself a hk)
        · exact Or.inr ⟨_, hread a (List.mem_append_right l₁ hmem) hk, strcmp_nonneg.mpr (hcut.2 a hmem)⟩
      rw [h.find_faults hbefore (hself c hc) hbehind] at hf
      cases hf

/-- Whatever the buffers are, a call that returns has left the list as it was or put one node into it. -/
theorem SkipInv.set_buffers {value : List UInt8} {T' : Skiptable} {n : Int} (h : SkipInv T L)
    (hs : kvsSkiptableSetWithTimestamp env T key value t = some (T', n)) :
    n ≠ 0 ∧ T' = T ∨ n = 0 ∧ ∃ l₁ l₂ c, L = l₁ ++ l₂ ∧ (∀ a ∈ L, a.key ≠ .ofBytes key) ∧ SkipInv T' (l₁ ++ c :: l₂) ∧
      c.key = (CString.ofBytes key).trunc ∧ c.value = (CString.ofBytes value).trunc := by
  cases hf : skipFind T key with
  | none =>
    rw [kvsSkiptableSetWithTimestamp, hf] at hs
    cases hs
  | some r =>
    obtain ⟨found | p, update⟩ := r
    · cases h₀ : env.alloc 0 with
      | false =>
        have hset : kvsSkiptableSetWithTimestamp env T key value t = some (T, -1) := by
          simp [kvsSkiptableSetWithTimestamp, hf, createSkipNode, h₀]
        rw [hset] at hs
        cases hs
        exact Or.inl ⟨by decide, rfl⟩
      | true =>
        cases hkey : strncpy255 key with
        | none => simp [kvsSkiptableSetWithTimestamp, hf, createSkipNode, h₀, hkey] at hs
        | some k =>
          cases hval : strncpy255 value with
          | none => simp [kvsSkiptableSetWithTimestamp, hf, createSkipNode, h₀, hkey, hval] at hs
          | some v =>
            cases h₁ : env.alloc 1 with
            | false =>
              have hset : kvsSkiptableSetWithTimestamp env T key value t = some (T, -1) := by
                simp [kvsSkiptableSetWithTimestamp, hf, createSkipNode, h₀, hkey, hval, h₁]
              rw [hset] at hs
              cases hs
              exact Or.inl ⟨by decide, rfl⟩
            | true =>
              obtain ⟨l₁, l₂, rfl, hcut, hne, hreads⟩ := h.reads_of_absent hkey hf
              obtain rfl := strncpy255_ofBytes hkey
              obtain rfl := strncpy255_ofBytes hval
              have hall : Env.Allocates { env with alloc := fun _ => true } := fun _ => rfl
              obtain ⟨T₁, hT₁, h'⟩ := h.insert_read (t := t) hcut hreads hne hall hkey hval (CString.strlen_trunc _)
              rw [set_all_allocs h₀ h₁, hT₁] at hs
              cases hs
              exact Or.inr ⟨rfl, l₁, l₂, _, rfl, hcut.absent hne, h', rfl, rfl⟩
    · have hset : kvsSkiptableSetWithTimestamp env T key value t = some (T, 1) := by
        simp [kvsSkiptableSetWithTimestamp, hf]
      rw [hset] at hs
      cases hs
      exact Or.inl ⟨by decide, rfl⟩

end Set

/-! ### Loading -/

/-- The strings that `strncpy` copies without a terminator. -/
def Full (e : CString × CString) : Prop := e.1.strlen = 255 ∧ e.2.strlen = 255

instance (e : CString × CString) : Decidable (Full e) := inferInstanceAs (Decidable (_ ∧ _))

section Load
variable {T : Skiptable} {L : List SkipCell} {e : CString × CString} {es : List (CString × CString)} {env : Nat → Env}
  {n : Nat}

theorem skipRecords_cons (hk : e.1.bytes ≠ []) (hv : e.2.bytes ≠ []) :
    skipRecords (e :: es) = recordBytes (e.1.bytes, e.2.bytes) ++ skipRecords es := by
  simp [skipRecords, hk, hv, recordBytes]

/-- A record with an empty key or an empty value ends the loop. -/
theorem loadLoop_empty (henv : (env 0).Allocates) (hk : e.1.strlen ≤ 255) (h : e.1.bytes = [] ∨ e.2.bytes = []) :
    ∃ r, loadLoop kvsSkiptableSet env (n + 1) T (skipRecords (e :: es)) = some (T, r) := by
  by_cases hempty : e.1.bytes = []
  · have hkey : loadObject ((env 0).alloc 0) (-3) (int32 0 ++ []) = .error (-3 - 2) := by rw [henv 0, loadObject_nil]
    rw [List.append_nil] at hkey
    have hrecords : skipRecords (e :: es) = int32 0 := if_pos hempty
    refine ⟨-5, ?_⟩
    rw [hrecords, loadLoop, hkey]
    rfl
  · have hv := h.resolve_left hempty
    have hkey : loadObject ((env 0).alloc 0) (-3) (objectBytes e.1.bytes ++ int32 0) = .ok (e.1.bytes, int32 0) := by
      rw [henv 0, loadObject_objectBytes (writable_of_short hempty hk)]
    have hvalue : loadObject ((env 0).alloc 1) (-6) (int32 0 ++ []) = .error (-6 - 2) := by rw [henv 1, loadObject_nil]
    rw [List.append_nil] at hvalue
    have hrecords : skipRecords (e :: es) = objectBytes e.1.bytes ++ int32 0 := by simp [skipRecords, hempty, hv]
    refine ⟨-8, ?_⟩
    rw [hrecords, loadLoop, hkey]
    simp only [hvalue]
    rfl

theorem Full.ne_nil (h : Full e) : e.1.bytes ≠ [] ∧ e.2.bytes ≠ [] := by
  obtain ⟨hk, hv⟩ := h
  rw [CString.strlen] at hk hv
  exact ⟨List.ne_nil_of_length_pos (by omega), List.ne_nil_of_length_pos (by omega)⟩

/-- The keys that the list has already are all of 255 bytes and come before those in the file. -/
structure Loaded (T : Skiptable) (L : List SkipCell) (es : List (CString × CString)) : Prop where
  inv : SkipInv T L
  full : ∀ c ∈ L, c.key.strlen = 255
  nodup : (L.map SkipCell.key).Nodup
  sorted : (L.map SkipCell.pair ++ es).Pairwise fun a b => a.1 ≤ b.1
  short : ∀ e ∈ es, e.1.strlen ≤ 255 ∧ e.2.strlen ≤ 255

theorem Loaded.le (h : Loaded T L (e :: es)) {c : SkipCell} (hc : c ∈ L) : c.key ≤ e.1 :=
  (List.pairwise_append.mp h.sorted).2.2 _ (List.mem_map_of_mem hc) _ List.mem_cons_self

/-- A record that is not loaded as it was, because it is not full or its key is there already. -/
theorem Loaded.stops (h : Loaded T L (e :: es)) (henv : ∀ n, (env n).Allocates)
    (hbad : ¬(Full e ∧ e.1 ∉ L.map SkipCell.key)) :
    loadLoop kvsSkiptableSet env (n + 1) T (skipRecords (e :: es)) = none ∨
      ∃ r, loadLoop kvsSkiptableSet env (n + 1) T (skipRecords (e :: es)) = some (T, r) := by
  obtain ⟨hks, hvs⟩ := h.short e List.mem_cons_self
  by_cases hempty : e.1.bytes = [] ∨ e.2.bytes = []
  · exact Or.inr (loadLoop_empty (henv 0) hks hempty)
  obtain ⟨hk, hv⟩ := not_or.mp hempty
  left
  have hset : kvsSkiptableSet ((env 0).after 2) T e.1.bytes e.2.bytes = none := by
    by_cases hfull : Full e
    · have hmem : ∃ c ∈ L, c.key = e.1 := by simpa [hfull] using hbad
      exact set_again_faults h.inv h.full (fun c hc => h.le hc) hmem
    · refine set_short_faults ((henv 0).after 2) ?_
      rw [Full, not_and_or] at hfull
      omega
  rw [skipRecords_cons hk hv, loadLoop_cons (henv 0) (writable_of_short hk hks) (writable_of_short hv hvs), hset]
  rfl

/-- A full record with a new key is appended. -/
theorem Loaded.step (h : Loaded T L (e :: es)) (henv : ∀ n, (env n).Allocates) (hfull : Full e)
    (hnew : e.1 ∉ L.map SkipCell.key) :
    ∃ T' c, Loaded T' (L ++ [c]) es ∧ c.pair = e ∧
      loadLoop kvsSkiptableSet env (n + 1) T (skipRecords (e :: es)) =
        loadLoop kvsSkiptableSet (fun i => env (i + 1)) n T' (skipRecords es) := by
  obtain ⟨hks, hvs⟩ := h.short e List.mem_cons_self
  obtain ⟨hk, hv⟩ := hfull.ne_nil
  have hlt : ∀ c ∈ L, c.key < e.1 := fun c hc =>
    lt_of_le_of_ne (h.le hc) fun heq => hnew (List.mem_map.mpr ⟨c, hc, heq⟩)
  obtain ⟨T', c, hset, hinv, hpair⟩ :=
    h.inv.set_full (t := ((env 0).after 2).now) h.full hlt hfull.1 hfull.2 ((henv 0).after 2)
  have hkey : c.key = e.1 := congrArg Prod.fst hpair
  refine ⟨T', c, ⟨hinv, ?_, ?_, ?_, fun a ha => h.short a (List.mem_cons_of_mem e ha)⟩, hpair, ?_⟩
  · intro a ha
    rcases List.mem_append.mp ha with ha | ha
    · exact h.full a ha
    · rw [List.mem_singleton.mp ha, hkey]
      exact hfull.1
  · rw [List.map_append, List.map_singleton, List.nodup_append_comm, List.singleton_append, List.nodup_cons, hkey]
    exact ⟨hnew, h.nodup⟩
  · rw [List.map_append, List.map_singleton, hpair, List.append_assoc]
    exact h.sorted
  · have hset' : kvsSkiptableSet ((env 0).after 2) T e.1.bytes e.2.bytes = some (T', 0) := hset
    rw [skipRecords_cons hk hv, loadLoop_cons (henv 0) (writable_of_short hk hks) (writable_of_short hv hvs), hset']
    rfl

/-- The loop yields all records exactly when they are full, their keys are new and the count reaches them all. -/
theorem Loaded.loadLoop_iff (h : Loaded T L es) (henv : ∀ n, (env n).Allocates) :
    (∃ T' r, loadLoop kvsSkiptableSet env n T (skipRecords es) = some (T', r) ∧
      T'.entries = some (L.map SkipCell.pair ++ es)) ↔
    es.length ≤ n ∧ (∀ e ∈ es, Full e) ∧ ((L.map SkipCell.pair ++ es).map Prod.fst).Nodup := by
  have hkeys : ∀ L : List SkipCell, (L.map SkipCell.pair).map Prod.fst = L.map SkipCell.key := fun L => by
    rw [List.map_map]
    rfl
  induction es generalizing T L env n with
  | nil =>
    have hdone : ∃ r, loadLoop kvsSkiptableSet env n T (skipRecords []) = some (T, r) := by
      cases n with
      | zero => exact ⟨0, rfl⟩
      | succ n => exact ⟨-3, rfl⟩
    obtain ⟨r, hr⟩ := hdone
    refine iff_of_true ⟨T, r, hr, by rw [h.inv.entries, List.append_nil]⟩ ⟨Nat.zero_le n, by simp, ?_⟩
    rw [List.append_nil, hkeys]
    exact h.nodup
  | cons e es ih =>
    -- a loop that ends before the record leaves a shorter list
    have hless : T.entries ≠ some (L.map SkipCell.pair ++ e :: es) := by
      intro heq
      rw [h.inv.entries, Option.some.injEq] at heq
      simpa using congrArg List.length heq
    cases n with
    | zero =>
      refine iff_of_false ?_ fun hright => absurd hright.1 (Nat.not_succ_le_zero _)
      rintro ⟨T', r, hs, he⟩
      cases hs
      exact hless he
    | succ n =>
      by_cases hgood : Full e ∧ e.1 ∉ L.map SkipCell.key
      · obtain ⟨hfull, hnew⟩ := hgood
        obtain ⟨T', c, h', hpair, hstep⟩ := h.step henv hfull hnew
        have hsplit : L.map SkipCell.pair ++ e :: es = (L ++ [c]).map SkipCell.pair ++ es := by simp [hpair]
        rw [hstep, hsplit]
        refine (ih h' fun n => henv (n + 1)).trans ?_
        simp [hfull]
      · refine iff_of_false ?_ ?_
        · rintro ⟨T', r, hs, he⟩
          rcases h.stops henv hgood with hnone | ⟨r', hsome⟩
          · rw [hnone] at hs
            cases hs
          · rw [hsome] at hs
            cases hs
            exact hless he
        · rintro ⟨-, hall, hnd⟩
          refine hgood ⟨hall e List.mem_cons_self, ?_⟩
          have := not_mem_of_nodup_append hnd
          rwa [hkeys] at this

end Load

/-! ### The round trip -/

/-- The file that a save writes loads, whatever the surroundings are, into a new list with the same keys and
    values, and no byte is read that is not in the file. -/
def SkipLoadsBack (T : Skiptable) : Prop :=
  ∃ file ret, kvsSkiptableSave .good T = some (file, ret) ∧ ∀ env : Nat → Env, (∀ n, (env n).Allocates) →
    ∃ T' ret', kvsSkiptableLoad env kvsSkiptableCreate file = some (T', ret') ∧ T'.entries = T.entries

theorem SkipInv.loadsBack_iff {T : Skiptable} {L : List SkipCell} (h : SkipInv T L) :
    SkipLoadsBack T ↔ (∀ e ∈ L.map SkipCell.pair, Full e) ∧ ((L.map SkipCell.pair).map Prod.fst).Nodup ∧
      (L.map SkipCell.pair).length < 2147483648 := by
  obtain ⟨ret, hsave⟩ := h.save
  have hloaded : Loaded kvsSkiptableCreate [] (L.map SkipCell.pair) := {
    inv := skipCreate_inv
    full := by simp
    nodup := List.nodup_nil
    sorted := by
      rw [List.map_nil, List.nil_append, List.pairwise_map]
      exact h.sorted
    short := by
      intro e he
      obtain ⟨c, hc, rfl⟩ := List.mem_map.mp he
      exact h.short c hc }
  have hload : ∀ env, kvsSkiptableLoad env kvsSkiptableCreate (int32 L.length ++ skipRecords (L.map SkipCell.pair)) =
      loadLoop kvsSkiptableSet env ((L.length : Int).bmod UInt32.size).toNat kvsSkiptableCreate
        (skipRecords (L.map SkipCell.pair)) := fun env => load_int32 _
  have hcount : L.length ≤ ((L.length : Int).bmod UInt32.size).toNat ↔ L.length < 2147483648 := by
    constructor
    · intro hle
      have := (bmod_isInt32 L.length).2
      omega
    · intro hlt
      rw [bmod_of_isInt32 ⟨by omega, by exact_mod_cast hlt⟩, Int.toNat_natCast]
  have hiff : ∀ env : Nat → Env, (∀ n, (env n).Allocates) → ((∃ T' r,
      kvsSkiptableLoad env kvsSkiptableCreate (int32 L.length ++ skipRecords (L.map SkipCell.pair)) = some (T', r) ∧
        T'.entries = T.entries) ↔ L.length < 2147483648 ∧ (∀ e ∈ L.map SkipCell.pair, Full e) ∧
      ((L.map SkipCell.pair).map Prod.fst).Nodup) := by
    intro env henv
    rw [hload, h.entries, ← hcount, ← L.length_map (f := SkipCell.pair)]
    exact hloaded.loadLoop_iff henv
  rw [List.length_map]
  constructor
  · rintro ⟨file, r, hs, hl⟩
    rw [hsave] at hs
    cases hs
    obtain ⟨hlen, hfull, hnd⟩ := (hiff _ fun _ => Env.calm_allocates 0).mp (hl _ fun _ => Env.calm_allocates 0)
    exact ⟨hfull, hnd, hlen⟩
  · rintro ⟨hfull, hnd, hlen⟩
    exact ⟨_, ret, hsave, fun env henv => (hiff env henv).mpr ⟨hlen, hfull, hnd⟩⟩

/-- Exactly the lists whose keys and values all have 255 bytes, without a key twice and with a count that is an `int`,
    are loaded as they were saved. -/
theorem skip_save_load_iff {calls : List Call} {T : Skiptable} {outs : List Ret}
    (hrun : Run.runs skiptableEngine.exec kvsSkiptableCreate calls = some (T, outs)) :
    ∃ es, T.entries = some es ∧
      (SkipLoadsBack T ↔ (∀ e ∈ es, Full e) ∧ (es.map Prod.fst).Nodup ∧ es.length < 2147483648) := by
  obtain ⟨T', outs', L, hrun', h⟩ := skipCreate_inv.runs calls
  rw [hrun] at hrun'
  cases hrun'
  exact ⟨_, h.entries, h.loadsBack_iff⟩

/-- A list with one entry. -/
theorem skip_one_set (k v : CString) :
    ∃ T c, Run.runs skiptableEngine.exec kvsSkiptableCreate [.set (.calm 0) k v] = some (T, [.code 0]) ∧
      SkipInv T [c] ∧ c.pair = (k.trunc, v.trunc) := by
  have hcut : Cut k [] [] := ⟨by simp, by simp⟩
  obtain ⟨T, hT, h⟩ := SkipInv.insert (v := v) (t := 0) skipCreate_inv hcut (by simp) (Env.calm_allocates 0)
  have hset : skiptableEngine.set (.calm 0) kvsSkiptableCreate k v = some (T, 0) := hT
  exact ⟨T, _, Run.runs_cons (Engine.exec_set hset) rfl, h, rfl⟩

def fullString : CString := ⟨List.replicate 255 97, by decide⟩

theorem fullString_strlen : fullString.strlen = 255 := List.length_replicate

theorem skip_save_load_iff_fullString :
    ∃ T outs, Run.runs skiptableEngine.exec kvsSkiptableCreate [.set (.calm 0) fullString fullString] = some (T, outs) ∧
      SkipLoadsBack T := by
  obtain ⟨T, c, hrun, h, hpair⟩ := skip_one_set fullString fullString
  obtain ⟨es, hes, hiff⟩ := skip_save_load_iff hrun
  have hentries : es = [(fullString, fullString)] := by
    rw [h.entries, Option.some.injEq] at hes
    rw [← hes, List.map_singleton, hpair, CString.trunc_of_le fullString_strlen.le]
  subst hentries
  exact ⟨T, _, hrun, hiff.mpr ⟨by simp [Full, fullString_strlen], by simp, by simp⟩⟩

/-- A key of one byte is read on behind its end. -/
theorem skip_save_load_short :
    ∃ T outs, Run.runs skiptableEngine.exec kvsSkiptableCreate [.set (.calm 0) (.ofBytes [97]) (.ofBytes [98])] =
      some (T, outs) ∧ ¬SkipLoadsBack T := by
  obtain ⟨T, c, hrun, h, hpair⟩ := skip_one_set (.ofBytes [97]) (.ofBytes [98])
  refine ⟨T, _, hrun, fun hback => ?_⟩
  have hfull := (h.loadsBack_iff.mp hback).1 c.pair (by simp)
  rw [hpair] at hfull
  exact absurd hfull.1 (by decide)

end KvStore
