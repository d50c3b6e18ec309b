import KvStore.Theorems.Backend
import KvStore.Theorems.Wire

/-! # Pulling the entries of a peer

A `SYNC` merges what the parser makes of the peer's dump. When the peer has entries, all without white space, that is
the join of the two stores; the reply of an empty peer is merged as a record for a key `EMPTY`. -/

namespace KvStore
open FiniteMap

/-- Not empty and without white space. -/
def Word (s : CString) : Prop := s.bytes ≠ [] ∧ NoSpace s.bytes

abbrev Words (m : Map CString Entry) : Prop := MapOf Word m

/-- The record of an entry. -/
def wire (e : CString × Entry) : SyncData := ⟨e.1.bytes, e.2.value.bytes, e.2.timestamp⟩

@[simp] theorem record_wire (e : CString × Entry) : (wire e).record = e := by
  simp [wire, SyncData.record]

theorem map_record_wire (es : List (CString × Entry)) : (es.map wire).map SyncData.record = es := by
  simp [Function.comp_def]

section Pull
variable {σ : Type} {E : Engine σ} {S : Scan σ} {A : Answers} {Holds : σ → Map CString Entry → Prop}
  {key val string : CString → Prop} [DecidablePred string] {Fits : Nat → Prop} {s p : σ} {m mp : Map CString Entry}
  {peerEnv : Env} {env : Nat → Env} {junk : Nat → UInt64} {es : List (CString × Entry)} {data : List SyncData}

theorem Scan.Laws.localData (R : S.Laws Holds string) (h : Holds s m) (henv : peerEnv.Allocates)
    (hc : MapOf string m) : ∃ es, Lists es m ∧ getLocalData S peerEnv s = some (es.map wire) := by
  obtain ⟨es, hl, hall⟩ := R.getAll_of h henv hc
  refine ⟨es, hl, ?_⟩
  rw [getLocalData, hall]
  simp [item, wire, Function.comp_def]

/-- A peer with an entry that it cannot copy sends nothing. -/
theorem Scan.Laws.pullFrom_none (R : S.Laws Holds string) (hp : Holds p mp) (hpeer : peerEnv.Allocates)
    (hc : ¬MapOf string mp) : pullFrom E S peerEnv env junk s p = none := by
  rw [pullFrom, getLocalData, R.getAll_none hp hpeer hc]
  rfl

theorem parse_wire (hne : es ≠ []) (hw : ∀ e ∈ es, Word e.1 ∧ Word e.2.value) :
    parseRemoteDataStr junk (dumpText (es.map wire) ++ [newline]) = es.map wire := by
  refine parse_dumpText (by simpa using hne) (fun data hd => ?_) junk
  obtain ⟨e, he, rfl⟩ := List.mem_map.mp hd
  obtain ⟨⟨hk, hks⟩, hv, hvs⟩ := hw e he
  exact ⟨⟨hks, hk⟩, hvs, hv⟩

/-- The reply of a peer without entries is parsed as a record. -/
theorem parse_empty : parseRemoteDataStr junk (dumpText [] ++ [newline]) = [⟨ascii "EMPTY", [], junk 0⟩] := by
  have hpieces : Framing.pieces newline (dumpText [] ++ [newline]) = [ascii "EMPTY", []] := by decide
  have hline : parseLine (junk 0) (ascii "EMPTY") = ⟨ascii "EMPTY", [], junk 0⟩ :=
    parseLine_key (by decide) (by decide)
  rw [parseRemoteDataStr, hpieces, parseLines, if_neg (by decide), hline]
  rfl

/-- The reply of a `SYNC` for what the merge returns. -/
def syncReply (ret : Int) : Bytes := if ret ≠ 0 then ascii "FAILED" else ascii "SUCCESS"

theorem pullResponse_eq {response : Bytes} (hne : response ≠ []) (hdata : parseRemoteDataStr junk response ≠ []) :
    pullResponse E env junk s response =
      (syncDataToLocal E env s (parseRemoteDataStr junk response)).map fun r => (r.1, syncReply r.2) := by
  rw [pullResponse, if_neg hne]
  simp only [if_neg hdata]
  cases syncDataToLocal E env s (parseRemoteDataStr junk response) <;> rfl

theorem pullResponse_unparsed {response : Bytes} (hdata : parseRemoteDataStr junk response = []) :
    pullResponse E env junk s response = some (s, ascii "FAILED") := by
  rw [pullResponse]
  split
  · rfl
  · simp only [if_pos hdata]

theorem pullFrom_eq (hlocal : getLocalData S peerEnv p = some (es.map wire)) (hne : es ≠ [])
    (hw : ∀ e ∈ es, Word e.1 ∧ Word e.2.value) : pullFrom E S peerEnv env junk s p =
      (syncDataToLocal E env s (es.map wire)).map fun r => (r.1, syncReply r.2) := by
  have hparse : parseRemoteDataStr junk (dumpText (es.map wire) ++ [newline]) = es.map wire := parse_wire hne hw
  rw [pullFrom, hlocal]
  refine (pullResponse_eq (by simp) ?_).trans (by rw [hparse])
  rw [hparse]
  simpa using hne

theorem pullFrom_empty (hlocal : getLocalData S peerEnv p = some []) : pullFrom E S peerEnv env junk s p =
    (syncDataToLocal E env s [⟨ascii "EMPTY", [], junk 0⟩]).map fun r => (r.1, syncReply r.2) := by
  have hparse := @parse_empty junk
  have hne : parseRemoteDataStr junk (dumpText [] ++ [newline]) ≠ [] := by
    rw [hparse]
    exact List.cons_ne_nil _ _
  rw [pullFrom, hlocal]
  exact (pullResponse_eq (by simp) hne).trans (by rw [hparse])

/-! ### Merges that may run out of room -/

/-- A merge takes the records up to one that it has no room for. -/
theorem Engine.Laws.sync_some (L : E.Laws A Holds key val) (hfull : ∀ {n c}, A.full n = some c → c ≠ 0)
    (h : Holds s m) (hdata : ∀ item ∈ data, key item.record.1 ∧ val item.record.2.value)
    (henv : ∀ n, (env n).Allocates) : ∃ s' n pre, pre <+: data ∧ syncDataToLocal E env s data = some (s', n) ∧
      Holds s' (m.merge Entry.stamp (pre.map SyncData.record)) := by
  induction data generalizing env s m with
  | nil => exact ⟨s, 0, [], List.prefix_refl _, rfl, h⟩
  | cons item data ih =>
    obtain ⟨hk, hv⟩ := hdata item List.mem_cons_self
    by_cases hroom : m item.record.1 = none → A.full m.size = none
    · obtain ⟨s₁, hs₁, h₁⟩ := L.syncOne data h hk hv (henv 0) hroom
      obtain ⟨s', n, pre, hpre, hs', h'⟩ :=
        ih h₁ (fun i hi => hdata i (List.mem_cons_of_mem item hi)) fun n => henv (n + 1)
      exact ⟨s', n, item :: pre, List.cons_prefix_cons.mpr ⟨rfl, hpre⟩, hs₁.trans hs', h'⟩
    · rw [Classical.not_imp] at hroom
      obtain ⟨hnone, hfull'⟩ := hroom
      obtain ⟨c, hc⟩ := Option.ne_none_iff_exists'.mp hfull'
      have hget := L.get_absent h hk hnone
      have hset : E.setWithTimestamp (env 0) s item.record.1 item.record.2.value item.timestamp = some (s, c) :=
        L.set_full h hk hv hc
      simp only [SyncData.record] at hget hset
      refine ⟨s, c, [], List.nil_prefix, ?_, h⟩
      simp [syncDataToLocal, hget, hset, hfull hc]

/-- There is room for the entries of a map when the two maps together fit. -/
theorem Engine.Bounds.room (B : Engine.Bounds A Holds key val Fits) (h : Holds s m) (hp : Holds p mp)
    (hl : Lists es mp) (hfits : Fits (m.join Entry.stamp mp).size) : Room A m (es.map wire) := by
  rintro pre item post hdata hnone
  refine B.takes ?_ hfits
  have hpre : ∀ k ∈ (pre.map SyncData.record).map Prod.fst, mp k ≠ none := by
    intro k hk hmp
    refine hl.apply_eq_none.mp hmp ?_
    rw [← map_record_wire es, hdata, List.map_append, List.map_append]
    exact List.mem_append_left _ hk
  have hitem : mp item.record.1 ≠ none := by
    intro hmp
    refine hl.apply_eq_none.mp hmp ?_
    rw [← map_record_wire es, hdata, List.map_append, List.map_append]
    exact List.mem_append_right _ (List.mem_map_of_mem (List.mem_map_of_mem List.mem_cons_self))
  have hfin : {k | m.join Entry.stamp mp k ≠ none}.Finite := by
    refine ((B.finite h).union (B.finite hp)).subset fun k hk => ?_
    by_contra hout
    simp only [Set.mem_union, Set.mem_ofPred_eq, not_or, not_not] at hout
    exact hk (Map.join_eq_none.mpr hout)
  refine Set.ncard_lt_ncard ⟨fun k hk hjoin => ?_, fun hsub => ?_⟩ hfin
  · obtain ⟨hm, hmp⟩ := Map.join_eq_none.mp hjoin
    rcases Map.merge_ne_none hk with h' | h'
    · exact h' hm
    · exact hpre k h' hmp
  · have hmem : item.record.1 ∈ {k | m.join Entry.stamp mp k ≠ none} := fun hjoin =>
      hitem (Map.join_eq_none.mp hjoin).2
    exact hsub hmem hnone

/-- What a peer with entries sends, and what a pull from it comes to. -/
theorem Engine.Bounds.dumped (B : Engine.Bounds A Holds key val Fits) (R : S.Laws Holds string) (hp : Holds p mp)
    (hw : Words mp) (hc : MapOf string mp) (hne : mp ≠ Map.empty) (hpeer : peerEnv.Allocates) :
    ∃ es, Lists es mp ∧ (∀ item ∈ es.map wire, key item.record.1 ∧ val item.record.2.value) ∧
      pullFrom E S peerEnv env junk s p = (syncDataToLocal E env s (es.map wire)).map fun r => (r.1, syncReply r.2) := by
  obtain ⟨es, hl, hlocal⟩ := R.localData hp hpeer hc
  have hes : es ≠ [] := mt hl.eq_empty.mp hne
  have hword : ∀ e ∈ es, Word e.1 ∧ Word e.2.value := fun e he => hw e.1 e.2 ((hl.mem e.1 e.2).mp he)
  refine ⟨es, hl, fun item hi => ?_, pullFrom_eq hlocal hes hword⟩
  obtain ⟨e, he, rfl⟩ := List.mem_map.mp hi
  rw [record_wire]
  exact B.stored hp ((hl.mem e.1 e.2).mp he)

/-- A pull from a peer with entries leaves the join of the two stores, when it fits. -/
theorem Engine.Laws.pull_join (L : E.Laws A Holds key val) (R : S.Laws Holds string)
    (B : Engine.Bounds A Holds key val Fits) (h : Holds s m) (hp : Holds p mp) (hw : Words mp) (hc : MapOf string mp)
    (hne : mp ≠ Map.empty) (hfits : Fits (m.join Entry.stamp mp).size) (hpeer : peerEnv.Allocates)
    (henv : ∀ n, (env n).Allocates) :
    ∃ s', pullFrom E S peerEnv env junk s p = some (s', ascii "SUCCESS") ∧ Holds s' (m.join Entry.stamp mp) := by
  obtain ⟨es, hl, hdata, hpull⟩ := B.dumped R hp hw hc hne hpeer
  obtain ⟨s', hs', h'⟩ := L.sync h hdata henv (B.room h hp hl hfits)
  rw [map_record_wire, Map.merge_lists hl] at h'
  refine ⟨s', ?_, h'⟩
  rw [hpull, hs']
  rfl

/-- In any case a pull that is answered takes some of the entries of the peer. -/
theorem Engine.Laws.pull_some (L : E.Laws A Holds key val) (R : S.Laws Holds string)
    (B : Engine.Bounds A Holds key val Fits) (h : Holds s m) (hp : Holds p mp) (hw : Words mp) (hc : MapOf string mp)
    (hne : mp ≠ Map.empty) (hpeer : peerEnv.Allocates) (henv : ∀ n, (env n).Allocates) :
    ∃ s' r es, (∀ e ∈ es, mp e.1 = some e.2) ∧ pullFrom E S peerEnv env junk s p = some (s', r) ∧
      Holds s' (m.merge Entry.stamp es) := by
  obtain ⟨es, hl, hdata, hpull⟩ := B.dumped R hp hw hc hne hpeer
  obtain ⟨s', n, pre, ⟨post, hpre⟩, hs', h'⟩ := L.sync_some B.refuses h hdata henv
  refine ⟨s', syncReply n, pre.map SyncData.record, fun e he => (hl.mem e.1 e.2).mp ?_, ?_, h'⟩
  · rw [← map_record_wire es, ← hpre, List.map_append]
    exact List.mem_append_left _ he
  · rw [hpull, hs']
    rfl

end Pull

/-! ### What a pull comes to -/

/-- The key that the reply of an empty peer is merged as. -/
def emptyKey : CString := .ofBytes (ascii "EMPTY")

/-- The greatest timestamp. -/
def lastTimestamp : UInt64 := UInt64.ofNat (UInt64.size - 1)

theorem le_lastTimestamp (t : UInt64) : t ≤ lastTimestamp := by
  rw [UInt64.le_iff_toNat_le, lastTimestamp, UInt64.toNat_ofNat_of_lt' (by decide)]
  exact Nat.le_sub_one_of_lt t.toNat_lt

/-- A pull of `p` into `s` leaves the last writers' entries of the two, whatever the timestamp variable of the parser
    holds. -/
def PullsJoin {σ : Type} (E : Engine σ) (S : Scan σ) (key : CString → Prop) (peerEnv : Env) (env : Nat → Env) (s p : σ)
    (m mp : Map CString Entry) : Prop :=
  ∀ junk, ∃ s' r, pullFrom E S peerEnv env junk s p = some (s', r) ∧ E.Observes key s' (m.join Entry.stamp mp)

/-- The peer has entries, which it can copy, and the join fits; or it has none, and the record that its reply is merged
    as finds no room, or an entry that no record replaces. -/
def CleanPull (Fits : Nat → Prop) (string : CString → Prop) (m mp : Map CString Entry) : Prop :=
  (mp ≠ Map.empty ∧ MapOf string mp ∧ Fits (m.join Entry.stamp mp).size) ∨
  (mp = Map.empty ∧ (m emptyKey = none ∧ ¬Fits (m.size + 1) ∨ ∃ e, m emptyKey = some e ∧ e.timestamp = lastTimestamp))

section Clean
variable {σ : Type} {E : Engine σ} {S : Scan σ} {A : Answers} {Holds : σ → Map CString Entry → Prop}
  {key val string : CString → Prop} [DecidablePred string] {Fits : Nat → Prop} {s p : σ}
  {m m' mp : Map CString Entry} {peerEnv : Env} {env : Nat → Env} {junk : Nat → UInt64} {k : CString} {e : Entry}

theorem Scan.Laws.size_insert (R : S.Laws Holds string) (h : Holds s m) (hk : m k = none) :
    (m.insert k e).size = m.size + 1 := by
  obtain ⟨es, hl, -⟩ := R.getAll h (Env.calm_allocates 0)
  have hl' : Lists ((k, e) :: es) (m.insert k e) := @Lists.insert _ _ [] es m k e _ hl hk
  rw [hl'.size, hl.size, List.length_cons]

/-- What a store shows is what it holds. -/
theorem Engine.Laws.observed (L : E.Laws A Holds key val) (h : Holds s m) (hobs : E.Observes key s m') (hk : key k) :
    (m k).map Entry.value = (m' k).map Entry.value := by
  obtain ⟨hnone, hsome⟩ := hobs k hk
  cases hm : m k with
  | none =>
    have hget := L.get_absent h hk hm
    cases hm' : m' k with
    | none => rfl
    | some e' =>
      rw [(hsome e' hm').1] at hget
      cases hget
  | some e =>
    have hget := L.get_present h hk hm
    cases hm' : m' k with
    | none =>
      rw [hnone hm'] at hget
      cases hget
    | some e' =>
      rw [(hsome e' hm').1] at hget
      simpa using (CharPtr.str.inj (Option.some.inj hget)).symm

/-- A pull that shows the join of two stores fits. -/
theorem Engine.Laws.fits_of_observes (L : E.Laws A Holds key val) (B : Engine.Bounds A Holds key val Fits)
    (h : Holds s m) (hp : Holds p mp) {s' : σ} (h' : Holds s' m') (hobs : E.Observes key s' (m.join Entry.stamp mp)) :
    Fits (m.join Entry.stamp mp).size := by
  have hsize : m'.size = (m.join Entry.stamp mp).size := by
    refine Map.size_congr fun k => ?_
    by_cases hk : key k
    · rw [← Option.map_eq_none_iff (f := Entry.value), L.observed h' hobs hk, Option.map_eq_none_iff]
    · have hm' : m' k = none := not_not.mp (mt (B.key_of_mem h') hk)
      have hm : m k = none := not_not.mp (mt (B.key_of_mem h) hk)
      have hmp : mp k = none := not_not.mp (mt (B.key_of_mem hp) hk)
      simp [hm', hm, hmp]
  exact hsize ▸ B.fits h'

/-- What a pull from an empty peer merges. -/
def emptyRecord (t : UInt64) : SyncData := ⟨ascii "EMPTY", [], t⟩

theorem pullFrom_emptyRecord (R : S.Laws Holds string) (hp : Holds p Map.empty) (hpeer : peerEnv.Allocates) :
    pullFrom E S peerEnv env junk s p =
      (syncDataToLocal E env s [emptyRecord (junk 0)]).map fun r => (r.1, syncReply r.2) := by
  obtain ⟨es, hl, hlocal⟩ := R.localData hp hpeer (mapOf_empty string)
  obtain rfl := hl.eq_empty.mpr rfl
  exact pullFrom_empty hlocal

/-- A pull from an empty peer shows the store that was there before only when the record of the reply is dropped. -/
theorem Engine.Laws.pull_empty_iff (L : E.Laws A Holds key val) (R : S.Laws Holds string)
    (B : Engine.Bounds A Holds key val Fits) (hkey : key emptyKey) (hval : val (.ofBytes [])) (h : Holds s m)
    (hp : Holds p Map.empty) (hws : Words m) (hpeer : peerEnv.Allocates) (henv : ∀ n, (env n).Allocates) :
    PullsJoin E S key peerEnv env s p m Map.empty ↔
      m emptyKey = none ∧ ¬Fits (m.size + 1) ∨ ∃ e, m emptyKey = some e ∧ e.timestamp = lastTimestamp := by
  rw [PullsJoin, Map.join_empty]
  have hrec : ∀ t, (emptyRecord t).record = (emptyKey, ⟨.ofBytes [], t⟩) := fun _ => rfl
  have hpull : ∀ junk, pullFrom E S peerEnv env junk s p =
      (syncDataToLocal E env s [emptyRecord (junk 0)]).map fun r => (r.1, syncReply r.2) :=
    fun _ => pullFrom_emptyRecord R hp hpeer
  constructor
  · intro hjoin
    obtain ⟨s', r, hs', hobs⟩ := hjoin fun _ => lastTimestamp
    rw [hpull] at hs'
    by_cases hroom : m emptyKey = none → A.full m.size = none
    · have hk : key (emptyRecord lastTimestamp).record.1 := hkey
      obtain ⟨s₁, hs₁, h₁⟩ := L.syncOne [] h hk hval (henv 0) hroom
      rw [hs₁] at hs'
      obtain ⟨rfl, -⟩ := Prod.mk.inj (Option.some.inj hs')
      have hvalue := L.observed h₁ hobs hkey
      cases hm : m emptyKey with
      | none =>
        rw [Map.offer_absent hm, hrec, Map.insert_self, hm] at hvalue
        cases hvalue
      | some e =>
        by_cases he : e.timestamp = lastTimestamp
        · exact Or.inr ⟨e, rfl, he⟩
        · have hlt : e.timestamp < lastTimestamp := UInt64.lt_of_le_of_ne (le_lastTimestamp _) he
          rw [Map.offer_newer hm hlt, hrec, Map.insert_self, hm] at hvalue
          have hnil : e.value = .ofBytes [] := (Option.some.inj hvalue).symm
          exact absurd (congrArg CString.bytes hnil) (hws _ _ hm).2.1
    · obtain ⟨hm, hfull⟩ := Classical.not_imp.mp hroom
      exact Or.inl ⟨hm, fun hfits => hfull (B.takes (Nat.lt_succ_self _) hfits)⟩
  · intro hdrop junk
    suffices hs : ∃ n, syncDataToLocal E env s [emptyRecord (junk 0)] = some (s, n) by
      obtain ⟨n, hs⟩ := hs
      exact ⟨s, syncReply n, by rw [hpull, hs]; rfl, L.observes h⟩
    rcases hdrop with ⟨hm, hfits⟩ | ⟨e, hm, he⟩
    · have hfull : A.full m.size ≠ none := by
        intro hfull
        obtain ⟨s₁, -, h₁⟩ := L.set_absent (t := 0) h hkey hval (henv 0) hfull hm
        exact hfits (R.size_insert h hm ▸ B.fits h₁)
      obtain ⟨c, hc⟩ := Option.ne_none_iff_exists'.mp hfull
      have hget := L.get_absent h hkey hm
      have hset : E.setWithTimestamp (env 0) s emptyKey (.ofBytes []) (junk 0) = some (s, c) :=
        L.set_full h hkey hval hc
      simp only [emptyKey] at hget hset
      exact ⟨c, by simp [syncDataToLocal, emptyRecord, hget, hset, B.refuses hc]⟩
    · refine ⟨0, L.sync_settled h (by simpa [hrec] using hkey) ?_⟩
      intro r hr
      obtain rfl := List.mem_singleton.mp hr
      exact ⟨e, hm, by rw [Entry.stamp, Entry.stamp, he]; exact le_lastTimestamp _⟩

theorem Engine.Laws.pullsJoin_iff (L : E.Laws A Holds key val) (R : S.Laws Holds string)
    (B : Engine.Bounds A Holds key val Fits) (hkey : key emptyKey) (hval : val (.ofBytes [])) (h : Holds s m)
    (hp : Holds p mp) (hws : Words m) (hwp : Words mp) (hpeer : peerEnv.Allocates) (henv : ∀ n, (env n).Allocates) :
    PullsJoin E S key peerEnv env s p m mp ↔ CleanPull Fits string m mp := by
  by_cases hne : mp = Map.empty
  · subst hne
    rw [L.pull_empty_iff R B hkey hval h hp hws hpeer henv, CleanPull]
    simp
  · have hclean : CleanPull Fits string m mp ↔ MapOf string mp ∧ Fits (m.join Entry.stamp mp).size := by
      simp [CleanPull, hne]
    rw [hclean]
    constructor
    · intro hjoin
      obtain ⟨s', r, hs', hobs⟩ := hjoin fun _ => 0
      have hc : MapOf string mp := by
        by_contra hc
        rw [R.pullFrom_none hp hpeer hc] at hs'
        cases hs'
      obtain ⟨s₁, r₁, es, -, hs₁, h₁⟩ := L.pull_some R B h hp hwp hc hne hpeer henv
      rw [hs'] at hs₁
      obtain ⟨rfl, -⟩ := Prod.mk.inj (Option.some.inj hs₁)
      exact ⟨hc, L.fits_of_observes B h hp h₁ hobs⟩
    · rintro ⟨hc, hfits⟩ junk
      obtain ⟨s', hs', h'⟩ := L.pull_join R B h hp hwp hc hne hfits hpeer henv
      exact ⟨s', _, hs', L.observes h'⟩

end Clean

/-! ### The four engines -/

theorem EngineKind.key_emptyKey (kind : EngineKind) : kind.Key emptyKey := by
  cases kind with
  | array => exact trivial
  | rbtree => exact trivial
  | hash => exact ⟨by decide, by decide⟩
  | skiptable => exact (by decide : emptyKey.strlen ≤ 255)

theorem EngineKind.val_empty (kind : EngineKind) : kind.Val (.ofBytes []) := by
  cases kind with
  | array => exact trivial
  | rbtree => exact trivial
  | hash => exact trivial
  | skiptable => exact Nat.zero_le 255

/-- For every two stores of words, a pull of the one by the other leaves the last writers' entries of the two exactly
    when it is clean. -/
theorem pull_joins_iff (kind : EngineKind) {s p : kind.Store} {m mp : Map CString Entry} {peerEnv : Env}
    {env : Nat → Env} (h : kind.Holds s m) (hp : kind.Holds p mp) (hws : Words m) (hwp : Words mp)
    (hpeer : peerEnv.Allocates) (henv : ∀ n, (env n).Allocates) :
    PullsJoin kind.engine kind.scan kind.Key peerEnv env s p m mp ↔ CleanPull kind.Fits kind.Copyable m mp :=
  kind.laws.pullsJoin_iff kind.scanLaws kind.bounds kind.key_emptyKey kind.val_empty h hp hws hwp hpeer henv

/-- An array without entries that pulls from one without entries gets an entry. -/
theorem pull_joins_emptyPeer : (∃ s', pullFrom arrayEngine arrayScan (.calm 0) (fun _ => .calm 0) (fun _ => 7)
      kvsArrayCreate kvsArrayCreate = some (s', ascii "SUCCESS") ∧
      arrayEngine.get s' emptyKey = some (.str (.ofBytes []))) ∧
    ¬PullsJoin arrayEngine arrayScan AnyString (.calm 0) (fun _ => .calm 0) kvsArrayCreate kvsArrayCreate Map.empty
      Map.empty := by
  have hpull : ∀ junk, pullFrom arrayEngine arrayScan (.calm 0) (fun _ => .calm 0) junk kvsArrayCreate kvsArrayCreate =
      (syncDataToLocal arrayEngine (fun _ => .calm 0) kvsArrayCreate [emptyRecord (junk 0)]).map
        fun r => (r.1, syncReply r.2) :=
    fun _ => pullFrom_emptyRecord arrayScanLaws arrayCreate_holds (Env.calm_allocates 0)
  refine ⟨⟨_, (hpull _).trans rfl, rfl⟩, fun hjoin => ?_⟩
  obtain ⟨s', r, hs', hobs⟩ := hjoin fun _ => 7
  rw [hpull] at hs'
  obtain ⟨rfl, -⟩ := Prod.mk.inj (Option.some.inj hs')
  have hget := (hobs emptyKey trivial).1 rfl
  cases hget

theorem pull_joins_iff_emptyPeer : PullsJoin arrayEngine arrayScan AnyString (.calm 0) (fun _ => .calm 0) kvsArrayCreate
    kvsArrayCreate Map.empty Map.empty ↔ CleanPull (· ≤ kvsArraySize) AnyString Map.empty Map.empty :=
  pull_joins_iff .array arrayCreate_holds arrayCreate_holds (mapOf_empty _) (mapOf_empty _)
    (Env.calm_allocates 0) fun _ => Env.calm_allocates 0

end KvStore
