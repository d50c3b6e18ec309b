import KvStore.Theorems.SaveErrors
import KvStore.Theorems.Scan

/-! On a store that holds a map every case of the dispatch returns, when its allocations succeed and its engine takes
    the strings of the line. -/

namespace KvStore
open FiniteMap RedBlack

/-! ### Saving -/

section Save
variable {disk : Disk} {out : OutFile} {obj : List UInt8} {size err : Int} {nul : Nat} {k v : CString}

theorem fwrite_returns (hpos : 0 ≤ size) (hle : size ≤ obj.length) : ∃ r, fwrite disk out obj size = some r := by
  unfold fwrite
  by_cases hzero : size = 0
  · exact ⟨_, if_pos hzero⟩
  · rw [if_neg hzero, if_neg (by omega)]
    cases disk out.writes with
    | none => exact ⟨_, rfl⟩
    | some n => exact ⟨_, rfl⟩

theorem writeUntil_returns {steps : List (List UInt8 × Int × Int)}
    (h : ∀ s ∈ steps, 0 ≤ s.2.1 ∧ s.2.1 ≤ s.1.length) : ∃ r, writeUntil disk out steps = some r := by
  induction steps generalizing out with
  | nil => exact ⟨_, rfl⟩
  | cons s steps ih =>
    obtain ⟨obj, size, code⟩ := s
    rw [List.forall_mem_cons] at h
    obtain ⟨⟨o, res⟩, hw⟩ : ∃ r, fwrite disk out obj size = some r := fwrite_returns h.1.1 h.1.2
    simp only [writeUntil, hw, Option.bind_eq_bind, Option.bind_some]
    by_cases hres : res ≠ 1
    · exact ⟨_, if_pos hres⟩
    · rw [if_neg hres]
      exact ih h.2

/-- A length that is a value of type `int`. -/
theorem lengthOf_bounds (hnul : nul ≤ 1) (h : k.strlen + 1 < 2147483648) :
    0 ≤ lengthOf nul k ∧ lengthOf nul k ≤ k.buf.length := by
  have hbuf := k.object_length_le hnul
  have hbmod : lengthOf nul k = (k.strlen + nul : Nat) := IntCodec.bmod_of_isInt32 ⟨by omega, by omega⟩
  omega

theorem saveRecord_returns (hnul : nul ≤ 1) (hk : k.strlen + 1 < 2147483648) (hv : v.strlen + 1 < 2147483648) :
    ∃ r, saveRecord disk err nul out (.str k) (.str v) = some r := by
  rw [saveRecord_eq]
  refine writeUntil_returns ?_
  simp only [List.forall_mem_cons]
  exact ⟨by simp, lengthOf_bounds hnul hk, by simp, lengthOf_bounds hnul hv, List.forall_mem_nil _⟩

theorem saveAll_returns {α : Type} {save : OutFile → α → Option (OutFile × Int)} {as : List α}
    (h : ∀ a ∈ as, ∀ out, ∃ r, save out a = some r) : ∃ r, saveAll save out as = some r := by
  induction as generalizing out with
  | nil => exact ⟨_, rfl⟩
  | cons a as ih =>
    rw [List.forall_mem_cons] at h
    obtain ⟨⟨o, ret⟩, hone⟩ := h.1 out
    simp only [saveAll, hone, Option.bind_eq_bind, Option.bind_some]
    by_cases hret : ret ≠ 0
    · exact ⟨_, if_pos hret⟩
    · rw [if_neg hret]
      exact ih h.2

theorem saveFile_returns {totalCount : Int} {records : OutFile → Option (OutFile × Int)}
    (h : ∀ out, ∃ r, records out = some r) : ∃ r, saveFile disk totalCount records = some r := by
  obtain ⟨⟨o, res⟩, hw⟩ : ∃ r, fwrite disk ⟨[], 0⟩ (IntCodec.int32 totalCount) 4 = some r :=
    fwrite_returns (by decide) (by simp)
  obtain ⟨⟨out, ret⟩, hrec⟩ := h o
  simp only [saveFile, hw, hrec, Option.bind_eq_bind, Option.bind_some]
  by_cases hres : res ≠ 1
  · exact ⟨_, if_pos hres⟩
  · exact ⟨_, if_neg hres⟩

/-- The entry of a record that an engine can write: it has a value, and its lengths are values of type `int`. -/
def Saved (e : CString × CharPtr) : Prop :=
  ∃ v, e.2 = .str v ∧ e.1.strlen + 1 < 2147483648 ∧ v.strlen + 1 < 2147483648

theorem Saved.record {p : CharPtr} (h : Saved (k, p)) (hnul : nul ≤ 1) (disk : Disk) (err : Int) (out : OutFile) :
    ∃ r, saveRecord disk err nul out (.str k) p = some r := by
  obtain ⟨v, rfl, hk, hv⟩ := h
  exact saveRecord_returns hnul hk hv

theorem array_save_returns {T : KvArray} {items : List (CString × CharPtr × UInt64)} (h : T.Stores items)
    (hs : ∀ e ∈ items, Saved (e.1, e.2.1)) : ∃ r, kvsArraySave disk T = some r := by
  have hrecords : ∀ out, ∃ r, saveAll (saveArrayItem disk T) out (List.range T.total) = some r := by
    refine fun out => saveAll_returns fun i hi out => ?_
    rw [List.mem_range, h.total] at hi
    rw [saveArrayItem_eq (h.item (List.getElem?_eq_getElem hi))]
    exact (hs _ (List.getElem_mem hi)).record le_rfl disk (-3) out
  rw [kvsArraySave_eq]
  exact saveFile_returns hrecords

theorem unwritten_returns {t : RBTree Cell} (h : ∀ e ∈ t.toList, Saved (e.key, e.value)) :
    ∃ r, unwritten disk t out = some r := by
  induction t generalizing out with
  | nil => exact ⟨_, rfl⟩
  | node c l e r ihl ihr =>
    rw [RBTree.toList, List.forall_mem_append, List.forall_mem_cons] at h
    obtain ⟨hl, he, hr⟩ := h
    obtain ⟨⟨o₁, res⟩, hrec⟩ := he.record le_rfl disk (-2) out
    obtain ⟨⟨o₂, left⟩, hleft⟩ := @ihl o₁ hl
    obtain ⟨⟨o₃, right⟩, hright⟩ := @ihr o₂ hr
    simp only [unwritten, hrec, hleft, hright, Option.bind_eq_bind, Option.bind_some]
    by_cases hres : res ≠ 0
    · exact ⟨_, if_pos hres⟩
    · exact ⟨_, if_neg hres⟩

theorem rbtree_save_returns {T : Rbtree} {t : RBTree Cell} (h : Rep T t)
    (hs : ∀ e ∈ t.toList, Saved (e.key, e.value)) : ∃ r, kvsRbtreeSave disk T = some r := by
  have hrep : Rep T (plug [] t) := h
  rw [h.save_eq]
  refine saveFile_returns fun out => ?_
  rcases hrep.saveNode_unwritten (Nat.lt_succ_of_lt h.length_lt) disk out with ⟨hnone, -⟩ | ⟨o, lost, ret, -, hw, -⟩
  · obtain ⟨r, hr⟩ : ∃ r, unwritten disk t out = some r := unwritten_returns hs
    rw [hnone] at hr
    cases hr
  · exact ⟨_, hw⟩

theorem hash_save_returns {H : Hash} (hs : ∀ e ∈ H.entries, Saved (e.1, e.2.1)) : ∃ r, kvsHashSave disk H = some r := by
  have hnode : ∀ i ∈ List.range maxTableSize, ∀ n ∈ H.table i, ∀ out, ∃ r, saveHashNode disk out n = some r := by
    intro i hi n hn out
    have hmem : n.entry ∈ H.entries := List.mem_flatMap.mpr ⟨i, hi, List.mem_map_of_mem hn⟩
    have hsaved : Saved (n.key, n.value) := hs _ hmem
    exact hsaved.record le_rfl disk (-3) out
  rw [kvsHashSave_eq]
  exact saveFile_returns fun out => saveAll_returns fun i hi out => saveAll_returns (hnode i hi)

theorem WalksTo.saveLoop_returns {T : Skiptable} {L : List SkipCell} {p : Ptr} {fuel : Nat} (h : WalksTo T p L)
    (hfuel : L.length < fuel) (hs : ∀ c ∈ L, Saved (c.key, .str c.value)) :
    ∃ r, skiptableSaveLoop disk T fuel ((L.map SkipCell.ptr).headD 0) out = some r := by
  induction L generalizing p fuel out with
  | nil =>
    obtain ⟨fuel, rfl⟩ := Nat.exists_eq_succ_of_ne_zero (Nat.ne_zero_of_lt hfuel)
    exact ⟨_, rfl⟩
  | cons c L ih =>
    obtain ⟨fuel, rfl⟩ := Nat.exists_eq_succ_of_ne_zero (Nat.ne_zero_of_lt hfuel)
    rw [List.forall_mem_cons] at hs
    obtain ⟨⟨o, ret⟩, hrec⟩ := hs.1.record (Nat.zero_le 1) disk (-3) out
    rw [h.saveLoop_cons hrec]
    by_cases hret : ret ≠ 0
    · exact ⟨_, if_pos hret⟩
    · rw [if_neg hret]
      exact ih h.tail (Nat.lt_of_succ_lt_succ hfuel) hs.2

theorem skip_save_returns {T : Skiptable} {L : List SkipCell} (h : SkipInv T L) :
    ∃ r, kvsSkiptableSave disk T = some r := by
  have hwalk := h.rep.walksTo
  have hshort : ∀ c ∈ L, Saved (c.key, .str c.value) := fun c hc => by
    obtain ⟨hk, hv⟩ := h.short c hc
    refine ⟨c.value, rfl, ?_, ?_⟩
    · exact Nat.lt_of_le_of_lt (Nat.succ_le_succ hk) (by decide)
    · exact Nat.lt_of_le_of_lt (Nat.succ_le_succ hv) (by decide)
  have hrecords : ∀ out, ∃ r, skiptableSaveLoop disk T T.fuel ((L.map SkipCell.ptr).headD 0) out = some r :=
    fun out => hwalk.saveLoop_returns (Nat.lt_succ_of_lt h.rep.length_lt) hshort
  rw [h.rep.save_eq]
  exact saveFile_returns hrecords

end Save

/-! ### The engines -/

section Engines
variable {σ : Type} {E : Engine σ} {A : Answers} {Holds : σ → Map CString Entry → Prop} {key val : CString → Prop}
  {Fits : Nat → Prop} {s : σ} {m : Map CString Entry}

theorem Engine.Laws.entries_saved (L : E.Laws A Holds key val) (B : Engine.Bounds A Holds key val Fits) (h : Holds s m)
    (hfits : E.StringsFit s) {es : List (CString × CharPtr × UInt64)} (hl : Lists es (m.mapVal Entry.stored)) :
    ∀ e ∈ es, Saved (e.1, e.2.1) := by
  rintro ⟨k, p⟩ he
  obtain ⟨e, hm, rfl⟩ := Option.map_eq_some_iff.mp ((hl.mem k p).mp he)
  obtain ⟨hk, -⟩ := B.stored h hm
  exact ⟨e.value, rfl, hfits k e.value (L.get_present h hk hm)⟩

/-- A merge of records whose strings the engine takes, even when it has no room for them. -/
theorem Engine.Laws.sync_returns (L : E.Laws A Holds key val) {data : List SyncData} {env : Nat → Env} (h : Holds s m)
    (hdata : ∀ item ∈ data, key item.record.1 ∧ val item.record.2.value) (henv : ∀ n, (env n).Allocates) :
    ∃ r, syncDataToLocal E env s data = some r := by
  induction data generalizing env s m with
  | nil => exact ⟨_, rfl⟩
  | cons item data ih =>
    rw [List.forall_mem_cons] at hdata
    obtain ⟨⟨hk, hv⟩, hdata⟩ := hdata
    have hrest : ∀ {s' m'}, Holds s' m' → ∃ r, syncDataToLocal E (fun n => env (n + 1)) s' data = some r :=
      fun h' => ih h' hdata fun n => henv (n + 1)
    have hreturns : ∀ {s' m'} {n : Int}, Holds s' m' →
        ∃ r, (if n ≠ 0 then some (s', n) else syncDataToLocal E (fun n => env (n + 1)) s' data) = some r := by
      intro s' m' n h'
      by_cases hn : n ≠ 0
      · exact ⟨_, if_pos hn⟩
      · rw [if_neg hn]
        exact hrest h'
    simp only [SyncData.record] at hk hv
    cases hm : m (.ofBytes item.key) with
    | none =>
      obtain ⟨s', n, m', hset, -, h'⟩ := L.set_step (V := .entries) (t := item.timestamp) h hk hv (henv 0)
      simp only [syncDataToLocal, L.get_absent h hk hm, hset, Option.bind_eq_bind, Option.bind_some, ne_eq,
        not_true_eq_false, if_false]
      exact hreturns h'
    | some e =>
      obtain ⟨s', n, m', hmodify, -, h'⟩ := L.modify_step (V := .entries) (t := item.timestamp) h hk hv (henv 0)
      simp only [syncDataToLocal, L.get_present h hk hm, L.getTimestamp h hk hm, Option.bind_eq_bind, Option.bind_some,
        ne_eq, reduceCtorEq, not_false_eq_true, if_true]
      by_cases hnew : item.timestamp > e.timestamp
      · simp only [if_pos hnew, hmodify, Option.bind_some]
        exact hreturns h'
      · simp only [if_neg hnew, Option.bind_some, not_true_eq_false, if_false]
        exact hrest h

end Engines

namespace EngineKind
variable {kind : EngineKind} {s : kind.Store} {m : Map CString Entry}

theorem Holds.save_returns (h : kind.Holds s m) (hfits : kind.engine.StringsFit s) (disk : Disk) :
    ∃ r, kind.backend.save disk s = some r := by
  have hsaved := fun {es : List (CString × CharPtr × UInt64)} => @Engine.Laws.entries_saved _ _ _ _ _ _ _ _ _ kind.laws
    kind.bounds h hfits es
  cases kind with
  | array =>
    obtain ⟨es, hst, hl⟩ := h
    exact array_save_returns hst (hsaved hl)
  | rbtree =>
    obtain ⟨t, hi, hl⟩ := h
    exact rbtree_save_returns hi.rep fun e he => hsaved hl _ (List.mem_map_of_mem he)
  | hash => exact hash_save_returns (hsaved h.lists)
  | skiptable =>
    obtain ⟨L, hi, -⟩ := h
    exact skip_save_returns hi

theorem Holds.pull_returns (h : kind.Holds s m) {env : Nat → Env} (henv : ∀ n, (env n).Allocates) {junk : Nat → UInt64}
    {response : Bytes}
    (hdata : ∀ item ∈ parseRemoteDataStr junk response, kind.Key item.record.1 ∧ kind.Val item.record.2.value) :
    ∃ r, pullResponse kind.engine env junk s response = some r := by
  rw [pullResponse]
  by_cases hnil : response = []
  · exact ⟨_, if_pos hnil⟩
  · rw [if_neg hnil]
    by_cases hempty : parseRemoteDataStr junk response = []
    · exact ⟨_, if_pos hempty⟩
    · obtain ⟨r, hsync⟩ := kind.laws.sync_returns h hdata henv
      simp only [if_neg hempty, hsync, Option.bind_eq_bind, Option.bind_some]
      exact ⟨_, rfl⟩

/-- The engine takes the arguments of a command, and what its surroundings give to it: its strings have their lengths in
    `int`s when it saves, it can read a file that is there, it can copy the entries of a range or of the whole store, and
    it takes the strings of a peer's records. -/
def Takes (kind : EngineKind) (w : Surroundings) (s : kind.Store) (files : Files) : Op → List Bytes → Prop
  | .set, key :: value :: _ => kind.Key (.ofBytes key) ∧ kind.Val (.ofBytes value)
  | .get, key :: _ => kind.Key (.ofBytes key)
  | .del, key :: _ => kind.Key (.ofBytes key)
  | .mod, key :: value :: _ => kind.Key (.ofBytes key) ∧ kind.Val (.ofBytes value)
  | .exist, key :: _ => kind.Key (.ofBytes key)
  | .save, _ => kind.engine.StringsFit s
  | .load, filename :: _ =>
    ∀ file, files.read (.ofBytes filename) = some file → ∃ r, kind.backend.load w.env s file = some r
  | .range, startKey :: endKey :: _ => ∀ k, inRange (.ofBytes startKey) (.ofBytes endKey) k = true → kind.CopiesKey s k
  | .sync, ip :: port :: _ => ∀ response, w.pull kind (.ofBytes ip) (.ofBytes port) = .reaches response →
      ∀ item ∈ parseRemoteDataStr w.junk response, kind.Key item.record.1 ∧ kind.Val item.record.2.value
  | .getAll, _ => ∀ k, kind.CopiesKey s k
  | _, _ => True

variable {w : Surroundings} {files : Files} {tokens : Tokens} {op : Op} {args : List Bytes}

/-- The case of a command returns, unless a `SYNC` meets an exception. -/
theorem Holds.runCase_returns (h : kind.Holds s m) (henv : ∀ n, (w.env n).Allocates)
    (hcount : op.unchecked ≤ args.length + 1) (htokens : ∀ i, ∀ a ∈ args[i]?, tokens (i + 1) = some (.ofBytes a))
    (htakes : kind.Takes w s files op args)
    (hpull : ∀ ip port rest, op = .sync → args = ip :: port :: rest →
      w.pull kind (.ofBytes ip) (.ofBytes port) ≠ .throws) :
    ∃ out, runCase kind.backend kind w tokens (args.length + 1) s files op = some out := by
  have hone : ∀ {a rest}, args = a :: rest → tokens 1 = some (.ofBytes a) := fun ha => htokens 0 _ (by simp [ha])
  have htwo : ∀ {a b rest}, args = a :: b :: rest → tokens 2 = some (.ofBytes b) := fun ha => htokens 1 _ (by simp [ha])
  have hcut : args.length < 2 ∨ ∃ a b rest, args = a :: b :: rest := by
    match args with
    | [] => exact Or.inl (by simp)
    | [a] => exact Or.inl (by simp)
    | a :: b :: rest => exact Or.inr ⟨a, b, rest, rfl⟩
  have hfirst : 2 ≤ args.length + 1 → ∃ a rest, args = a :: rest := fun hlen =>
    List.exists_cons_of_length_pos (Nat.le_of_succ_le_succ hlen)
  have hthree : ∀ {a b rest}, args = a :: b :: rest → 3 ≤ args.length + 1 := fun ha => by simp [ha]
  suffices ∃ s' files' response,
      CaseRuns kind.backend kind w tokens (args.length + 1) s files op s' files' response by
    obtain ⟨s', files', response, hruns⟩ := this
    exact ⟨_, hruns.runCase⟩
  cases op with
  | set =>
    rcases hcut with hlt | ⟨key, value, rest, rfl⟩
    · exact ⟨_, _, _, .setShort (Nat.succ_lt_succ hlt)⟩
    · obtain ⟨hk, hv⟩ := htakes
      obtain ⟨s', n, m', hset, -⟩ := kind.laws.set_step (V := .entries) (t := (w.env 0).now) h hk hv (henv 0)
      rw [← kind.laws.set_eq] at hset
      exact ⟨_, _, _, .set (hthree rfl) (hone rfl) (htwo rfl) hset⟩
  | get =>
    obtain ⟨key, rest, rfl⟩ := hfirst hcount
    obtain ⟨response, hreply⟩ : ∃ response, getReply (((m (.ofBytes key)).map Entry.value).elim .null .str) =
        some response := by
      cases m (.ofBytes key) <;> exact ⟨_, rfl⟩
    exact ⟨_, _, _, .get (hone rfl) (kind.laws.get_eq h htakes) hreply⟩
  | del =>
    obtain ⟨key, rest, rfl⟩ := hfirst hcount
    obtain ⟨s', n, m', hdelete, -⟩ := kind.erases h htakes
    exact ⟨_, _, _, .del (hone rfl) hdelete⟩
  | mod =>
    rcases hcut with hlt | ⟨key, value, rest, rfl⟩
    · exact absurd hlt (Nat.not_lt.mpr (Nat.le_of_succ_le_succ hcount))
    · obtain ⟨hk, hv⟩ := htakes
      obtain ⟨s', n, m', hmodify, -⟩ := kind.laws.modify_step (V := .entries) (t := (w.env 0).now) h hk hv (henv 0)
      rw [← kind.laws.modify_eq] at hmodify
      exact ⟨_, _, _, .mod (hone rfl) (htwo rfl) hmodify⟩
  | exist =>
    obtain ⟨key, rest, rfl⟩ := hfirst hcount
    cases hm : m (.ofBytes key) with
    | none => exact ⟨_, _, _, .exist (hone rfl) (kind.laws.exist_absent h htakes hm)⟩
    | some e => exact ⟨_, _, _, .exist (hone rfl) (kind.laws.exist_present h htakes hm)⟩
  | save =>
    obtain ⟨filename, rest, rfl⟩ := hfirst hcount
    cases hopens : w.opens with
    | false => exact ⟨_, _, _, .saveClosed (hone rfl) hopens⟩
    | true =>
      obtain ⟨⟨file, n⟩, hsave⟩ := h.save_returns htakes w.disk
      exact ⟨_, _, _, .save (hone rfl) hopens hsave⟩
  | load =>
    obtain ⟨filename, rest, rfl⟩ := hfirst hcount
    cases hfile : files.read (.ofBytes filename) with
    | none => exact ⟨_, _, _, .loadClosed (hone rfl) (Or.inl hfile)⟩
    | some file =>
      cases hopens : w.opens with
      | false => exact ⟨_, _, _, .loadClosed (hone rfl) (Or.inr hopens)⟩
      | true =>
        obtain ⟨⟨s', n⟩, hload⟩ := htakes file hfile
        exact ⟨_, _, _, .load (hone rfl) hfile hopens hload⟩
  | range =>
    rcases hcut with hlt | ⟨a, b, rest, rfl⟩
    · exact absurd hlt (Nat.not_lt.mpr (Nat.le_of_succ_le_succ hcount))
    · obtain ⟨⟨n, items⟩, hrange⟩ : ∃ r, kind.scan.range (w.env 0) s (.ofBytes a) (.ofBytes b) = some r := by
        rcases lt_or_ge (CString.ofBytes b) (.ofBytes a) with hlt | hle
        · exact ⟨_, kind.scanLaws.reversed hlt⟩
        · obtain ⟨es, n, -, -, -, hrange⟩ := kind.scanLaws.range_of h (henv 0) hle (h.mapOf_between htakes)
          exact ⟨_, hrange⟩
      exact ⟨_, _, _, .range (hone rfl) (htwo rfl) hrange⟩
  | sync =>
    rcases hcut with hlt | ⟨ip, port, rest, rfl⟩
    · exact ⟨_, _, _, .syncShort (Nat.succ_lt_succ hlt)⟩
    · cases hdial : w.pull kind (.ofBytes ip) (.ofBytes port) with
      | throws => exact absurd hdial (hpull ip port rest rfl rfl)
      | fails => exact ⟨_, _, _, .syncFails (hthree rfl) (hone rfl) (htwo rfl) hdial⟩
      | reaches response =>
        obtain ⟨⟨s', reply⟩, hpulled⟩ := h.pull_returns henv (htakes response hdial)
        exact ⟨_, _, _, .sync (hthree rfl) (hone rfl) (htwo rfl) hdial hpulled⟩
  | getAll =>
    obtain ⟨es, -, hall⟩ := kind.scanLaws.getAll_of h (henv 0) (h.mapOf_copyable htakes)
    obtain ⟨localData, hlocal⟩ : ∃ localData, getLocalData kind.scan (w.env 0) s = some localData := by
      simp only [getLocalData, hall, Option.bind_eq_bind, Option.bind_some]
      exact ⟨_, rfl⟩
    exact ⟨_, _, _, .getAll hlocal⟩

end EngineKind

namespace Dispatch

/-- The stores of a server hold maps, and the engine of a line takes what the line and its surroundings give to it. -/
structure Ready (w : Surroundings) (g : Globals) (line : Bytes) : Prop where
  holds : ∀ kind : EngineKind, ∃ m, kind.Holds (g.store kind) m
  allocates : ∀ n, (w.env n).Allocates
  takes : ∀ kind op, commandOf line = some (kind, op) → kind.Takes w (g.store kind) g.files op (pieces line).tail

/-- A line with the tokens that its case takes is answered, unless it is a `SYNC` that meets an exception. -/
theorem Ready.returns {w : Surroundings} {g : Globals} {tokens : Tokens} {line : Bytes} (h : Ready w g line)
    (hown : unchecked line ≤ (pieces line).length)
    (hpull : ∀ kind name ip port rest, commandOf line = some (kind, .sync) → pieces line = name :: ip :: port :: rest →
      w.pull kind (.ofBytes ip) (.ofBytes port) ≠ .throws) : ∃ out, processCommand w g tokens line = some out := by
  cases hcmd : commandOf line with
  | none => exact ⟨_, processCommand_unknown hcmd⟩
  | some c =>
    obtain ⟨kind, op⟩ := c
    obtain ⟨name, args, hp⟩ := List.exists_cons_of_length_pos (pieces_pos hcmd)
    obtain ⟨m, hm⟩ := h.holds kind
    have htakes := h.takes kind op hcmd
    rw [unchecked, hcmd, Option.elim_some] at hown
    rw [hp] at hown htakes
    have htokens : ∀ i, ∀ a ∈ args[i]?, lineTokens tokens line (i + 1) = some (.ofBytes a) := by
      intro i a ha
      have hi : (name :: args)[i + 1]? = some a := ha
      simp only [lineTokens, writeTokens, hp, hi]
    obtain ⟨out, hout⟩ := hm.runCase_returns h.allocates hown htokens htakes fun ip port rest hop hargs =>
      hpull kind name ip port rest (hop ▸ hcmd) (hargs ▸ hp)
    exact ⟨afterCase g kind out, by rw [processCommand_known hcmd, hp, List.length_cons, hout, Option.map_some]⟩

end Dispatch

end KvStore
