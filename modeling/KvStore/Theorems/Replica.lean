import KvStore.Replica
import KvStore.Theorems.Pull

/-! Two servers that pull from each other: when mutual pulls converge, when a copy that only pulls catches up with the
    server that is written to, and which deletions last. -/

namespace KvStore
open FiniteMap

/-! ### What one command does -/

section Calls
variable {σ : Type} {E : Engine σ} {A : Answers} {Holds : σ → Map CString Entry → Prop} {key val : CString → Prop}
  {Fits : Nat → Prop} {s : σ} {m : Map CString Entry} {k v : CString} {env : Env}

/-- A `set` adds the entry and returns 0, or changes nothing and returns something else. -/
theorem Engine.Laws.set_cases (L : E.Laws A Holds key val) (B : Engine.Bounds A Holds key val Fits) (h : Holds s m)
    (hk : key k) (hv : val v) (henv : env.Allocates) : ∃ s' n m', E.set env s k v = some (s', n) ∧ Holds s' m' ∧
      (n = 0 ∧ m k = none ∧ m' = m.insert k ⟨v, env.now⟩ ∨ n ≠ 0 ∧ m' = m) := by
  rw [L.set_eq]
  cases hf : A.full m.size with
  | some c => exact ⟨s, c, m, L.set_full h hk hv hf, h, Or.inr ⟨B.refuses hf, rfl⟩⟩
  | none =>
    cases hm : m k with
    | some e => exact ⟨s, 1, m, L.set_present h hk hv hf hm, h, Or.inr ⟨one_ne_zero, rfl⟩⟩
    | none =>
      obtain ⟨s', hs, h'⟩ := L.set_absent (t := env.now) h hk hv henv hf hm
      exact ⟨s', 0, _, hs, h', Or.inl ⟨rfl, rfl, rfl⟩⟩

/-- A `modify` replaces the entry of the key, or changes nothing when there is none. -/
theorem Engine.Laws.modify_cases (L : E.Laws A Holds key val) (h : Holds s m) (hk : key k) (hv : val v)
    (henv : env.Allocates) : ∃ s' n m', E.modify env s k v = some (s', n) ∧ Holds s' m' ∧
      (m k ≠ none ∧ m' = m.insert k ⟨v, env.now⟩ ∨ m k = none ∧ m' = m) := by
  rw [L.modify_eq]
  cases hm : m k with
  | some e =>
    obtain ⟨s', hs, h'⟩ := L.modify_present (t := env.now) h hk hv henv hm
    exact ⟨s', 0, _, hs, h', Or.inl ⟨by simp, rfl⟩⟩
  | none => exact ⟨s, _, m, L.modify_absent h hk hv hm, h, Or.inr ⟨rfl, rfl⟩⟩

end Calls

theorem MapOf.join {string : CString → Prop} {m m' : Map CString Entry} (h : MapOf string m) (h' : MapOf string m') :
    MapOf string (m.join Entry.stamp m') := by
  intro k e he
  rcases Map.join_apply_eq he with he | he
  · exact h k e he
  · exact h' k e he

/-- The strings of the command are words that the engine takes, and its allocations succeed. -/
def Action.Ok (kind : EngineKind) : Action → Prop
  | .set env k v => env.Allocates ∧ kind.Key k ∧ kind.Val v ∧ Word k ∧ Word v
  | .mod env k v => env.Allocates ∧ kind.Key k ∧ kind.Val v ∧ Word k ∧ Word v
  | .del k => kind.Key k
  | .sync peerEnv env _ => peerEnv.Allocates ∧ ∀ n, (env n).Allocates

namespace Replica
variable {kind : EngineKind} {stores : Stores kind}

/-! ### Mutual pulls -/

/-- Both servers hold the same map from keys to values. -/
def Agree (kind : EngineKind) (stores : Stores kind) : Prop :=
  ∀ k, kind.Key k → kind.engine.get (stores .a) k = kind.engine.get (stores .b) k

/-- No key has entries of the same time and different values. -/
def NoTies (ma mb : Map CString Entry) : Prop :=
  ∀ k e e', ma k = some e → mb k = some e' → e.timestamp = e'.timestamp → e.value = e'.value

section Mutual
variable {ma mb : Map CString Entry}

theorem agree_iff (ha : kind.Holds (stores .a) ma) (hb : kind.Holds (stores .b) mb) :
    Agree kind stores ↔ ma.mapVal Entry.value = mb.mapVal Entry.value := kind.laws.gets_eq_iff kind.bounds ha hb

variable {e₁ e₂ : Env} {env₁ env₂ : Nat → Env} {junk₁ junk₂ : Nat → UInt64}

theorem step_sync {site : Site} {s : kind.Store} {r : Bytes} {peerEnv : Env} {env : Nat → Env} {junk : Nat → UInt64}
    (h : pullFrom kind.engine kind.scan peerEnv env junk (stores site) (stores site.peer) = some (s, r)) :
    step kind stores (site, .sync peerEnv env junk) = some (Function.update stores site s, r) := by
  simp only [step]
  rw [h]
  rfl

/-- A pull by `a`, then one by `b`. -/
theorem mutual_eq {s p : kind.Store} {r r' : Bytes}
    (ha : pullFrom kind.engine kind.scan e₁ env₁ junk₁ (stores .a) (stores .b) = some (s, r))
    (hb : pullFrom kind.engine kind.scan e₂ env₂ junk₂ (stores .b) s = some (p, r')) :
    Run.runs (step kind) stores [(.a, .sync e₁ env₁ junk₁), (.b, .sync e₂ env₂ junk₂)] =
      some (Function.update (Function.update stores .a s) .b p, [r, r']) :=
  Run.runs_cons (step_sync ha) (Run.runs_cons (step_sync hb) rfl)

/-- What both hold after pulls from stores of words. -/
theorem mutual_holds (ha : kind.Holds (stores .a) ma) (hb : kind.Holds (stores .b) mb) (hwa : Words ma)
    (hwb : Words mb) (hca : MapOf kind.Copyable ma) (hcb : MapOf kind.Copyable mb) (hna : ma ≠ Map.empty)
    (hnb : mb ≠ Map.empty) (h₁ : e₁.Allocates) (h₂ : e₂.Allocates) (henv₁ : ∀ n, (env₁ n).Allocates)
    (henv₂ : ∀ n, (env₂ n).Allocates) : ∃ stores' replies es es',
      Run.runs (step kind) stores [(.a, .sync e₁ env₁ junk₁), (.b, .sync e₂ env₂ junk₂)] = some (stores', replies) ∧
      (∀ e ∈ es, mb e.1 = some e.2) ∧ kind.Holds (stores' .a) (ma.merge Entry.stamp es) ∧
      (∀ e ∈ es', ma.merge Entry.stamp es e.1 = some e.2) ∧ kind.Holds (stores' .b) (mb.merge Entry.stamp es') := by
  obtain ⟨s, r, es, hes, hs, h⟩ := kind.laws.pull_some kind.scanLaws kind.bounds ha hb hwb hcb hnb h₁ henv₁
  have hold : ∀ {k e}, ma.merge Entry.stamp es k = some e → ma k = some e ∨ mb k = some e := fun he =>
    (Map.merge_apply_eq he).imp_right (hes _)
  have hw : Words (ma.merge Entry.stamp es) := fun k e he => (hold he).elim (hwa k e) (hwb k e)
  have hc : MapOf kind.Copyable (ma.merge Entry.stamp es) := fun k e he => (hold he).elim (hca k e) (hcb k e)
  have hne : ma.merge Entry.stamp es ≠ Map.empty := by
    intro hempty
    refine hna (funext fun k => ?_)
    have hk : ma.merge Entry.stamp es k = none := by rw [hempty, Map.empty_apply]
    exact Map.eq_none_of_merge hk
  obtain ⟨p, r', es', hes', hp, h'⟩ := kind.laws.pull_some kind.scanLaws kind.bounds hb h hw hc hne h₂ henv₂
  exact ⟨_, _, es, es', mutual_eq hs hp, hes, by simpa using h, hes', by simpa using h'⟩

section Agreed
variable {es es' : List (CString × Entry)} (hes : ∀ e ∈ es, mb e.1 = some e.2)
  (hes' : ∀ e ∈ es', ma.merge Entry.stamp es e.1 = some e.2)
  (hagree : (ma.merge Entry.stamp es).mapVal Entry.value = (mb.merge Entry.stamp es').mapVal Entry.value)
include hes hagree

/-- A key of either server is at both afterwards, so that the first server has room for all of them. -/
theorem size_of_agree : (ma.merge Entry.stamp es).size = (ma.join Entry.stamp mb).size := by
  refine Map.size_congr fun k => ⟨fun hk => ?_, fun hk => ?_⟩
  · have hk' : mb.merge Entry.stamp es' k = none := by simpa [hk] using (congrFun hagree k).symm
    exact Map.join_eq_none.mpr ⟨Map.eq_none_of_merge hk, Map.eq_none_of_merge hk'⟩
  · obtain ⟨hka, hkb⟩ := Map.join_eq_none.mp hk
    by_contra hne
    obtain ⟨e, he⟩ := Option.ne_none_iff_exists'.mp hne
    rcases Map.merge_apply_eq he with he | he
    · simp [hka] at he
    · have hmb := hes _ he
      simp [hkb] at hmb

include hes' in
/-- Of two entries of the same time neither replaces the other. -/
theorem noTies_of_agree : NoTies ma mb := by
  intro k e e' he he' ht
  have hka : ma.merge Entry.stamp es k = some e := by
    refine Map.merge_of_no_newer he fun r hr hk => ?_
    have hr' := hes r hr
    rw [hk, he'] at hr'
    rw [← Option.some.inj hr', Entry.stamp, Entry.stamp, ht]
  have hkb : mb.merge Entry.stamp es' k = some e' := by
    refine Map.merge_of_no_newer he' fun r hr hk => ?_
    have hr' := hes' r hr
    rw [hk, hka] at hr'
    rw [← Option.some.inj hr', Entry.stamp, Entry.stamp, ht]
  have hvalue := congrFun hagree k
  rw [Map.mapVal_apply, Map.mapVal_apply, hka, hkb] at hvalue
  exact Option.some.inj hvalue

end Agreed

/-- After mutual pulls from stores that can be dumped both servers hold the same values exactly when the two stores fit
    together and no key has entries of the same time and different values. -/
theorem mutual_pulls_agree_iff (ha : kind.Holds (stores .a) ma) (hb : kind.Holds (stores .b) mb) (hwa : Words ma)
    (hwb : Words mb) (hca : MapOf kind.Copyable ma) (hcb : MapOf kind.Copyable mb) (hna : ma ≠ Map.empty)
    (hnb : mb ≠ Map.empty) (h₁ : e₁.Allocates) (h₂ : e₂.Allocates) (henv₁ : ∀ n, (env₁ n).Allocates)
    (henv₂ : ∀ n, (env₂ n).Allocates) :
    (∃ stores' replies, Run.runs (step kind) stores [(.a, .sync e₁ env₁ junk₁), (.b, .sync e₂ env₂ junk₂)] =
      some (stores', replies) ∧ Agree kind stores') ↔ kind.Fits (ma.join Entry.stamp mb).size ∧ NoTies ma mb := by
  constructor
  · rintro ⟨stores', replies, hrun, hagree⟩
    obtain ⟨stores₂, _, es, es', hrun', hes, hsa, hes', hsb⟩ :=
      mutual_holds ha hb hwa hwb hca hcb hna hnb h₁ h₂ henv₁ henv₂
    rw [hrun] at hrun'
    obtain ⟨rfl, -⟩ := Prod.mk.inj (Option.some.inj hrun')
    rw [agree_iff hsa hsb] at hagree
    exact ⟨size_of_agree hes hagree ▸ kind.bounds.fits hsa, noTies_of_agree hes hes' hagree⟩
  · rintro ⟨hfits, hties⟩
    obtain ⟨s, hs, h⟩ := kind.laws.pull_join kind.scanLaws kind.bounds ha hb hwb hcb hnb hfits h₁ henv₁
    have hsize : (mb.join Entry.stamp (ma.join Entry.stamp mb)).size = (ma.join Entry.stamp mb).size := by
      refine Map.size_congr fun k => ?_
      simp only [Map.join_eq_none]
      tauto
    obtain ⟨p, hp, h'⟩ := kind.laws.pull_join kind.scanLaws kind.bounds hb h (hwa.join hwb) (hca.join hcb)
      (Map.join_ne_empty hna) (hsize ▸ hfits) h₂ henv₂
    refine ⟨_, _, mutual_eq hs hp, (agree_iff (by simpa using h) (by simpa using h')).mpr (funext fun k => ?_)⟩
    exact (Map.join_join fun e e' he he' ht => hties k e e' he he' (UInt64.toNat_inj.mp ht)).symm

/-- A `SET` of the key `k` at each server in the same millisecond, then mutual pulls. -/
def tiedWrites : List (Site × Action) :=
  [(.a, .set (.calm 5) (.ofBytes (ascii "k")) (.ofBytes (ascii "v"))),
    (.b, .set (.calm 5) (.ofBytes (ascii "k")) (.ofBytes (ascii "w")))]

def mutualPulls : List (Site × Action) :=
  [(.a, .sync (.calm 0) (fun _ => .calm 0) fun _ => 0), (.b, .sync (.calm 0) (fun _ => .calm 0) fun _ => 0)]

theorem mutual_pulls_tiedWrites : ∃ stores replies stores', Run.runs (step .array) (start .array) tiedWrites =
      some (stores, replies) ∧
    Run.runs (step .array) stores mutualPulls = some (stores', [ascii "SUCCESS", ascii "SUCCESS"]) ∧
    ¬Agree .array stores' := by
  refine ⟨_, _, _, rfl, rfl, fun hagree => ?_⟩
  have hget := hagree (.ofBytes (ascii "k")) trivial
  revert hget
  decide +kernel

theorem mutual_pulls_agree_iff_tiedWrites : ∃ stores : Stores .array, ¬∃ stores' replies,
    Run.runs (step .array) stores mutualPulls = some (stores', replies) ∧ Agree .array stores' := by
  have henv := Env.calm_allocates 0
  have hroom : arrayAnswers.full (Map.empty : Map CString Entry).size = none :=
    if_neg (by rw [arrayCreate_holds.size]; decide)
  obtain ⟨s, -, hs⟩ := arrayLaws.set_absent (k := .ofBytes (ascii "k")) (v := .ofBytes (ascii "v")) (t := 5)
    arrayCreate_holds trivial trivial henv hroom rfl
  obtain ⟨p, -, hp⟩ := arrayLaws.set_absent (k := .ofBytes (ascii "k")) (v := .ofBytes (ascii "w")) (t := 5)
    arrayCreate_holds trivial trivial henv hroom rfl
  have hempty : ∀ {e}, (Map.empty.insert (.ofBytes (ascii "k")) e : Map CString Entry) ≠ Map.empty := by
    intro e h
    have hk := congrFun h (.ofBytes (ascii "k"))
    simp at hk
  have hwords := mapOf_empty Word
  have hk : Word (.ofBytes (ascii "k")) := ⟨by decide, by decide⟩
  obtain ⟨stores, ha, hb⟩ : ∃ stores : Stores .array, EngineKind.Holds .array (stores .a) _ ∧
      EngineKind.Holds .array (stores .b) _ := ⟨fun site => if site = .a then s else p, hs, hp⟩
  refine ⟨stores, ?_⟩
  have hcopy : ∀ m : Map CString Entry, MapOf EngineKind.array.Copyable m := fun _ _ _ _ => ⟨trivial, trivial⟩
  rw [mutualPulls, mutual_pulls_agree_iff ha hb (hwords.insert hk ⟨by decide, by decide⟩)
    (hwords.insert hk ⟨by decide, by decide⟩) (hcopy _) (hcopy _) hempty hempty henv henv (fun _ => henv) fun _ => henv]
  rintro ⟨-, hties⟩
  have hvalue := hties _ _ _ Map.insert_self Map.insert_self rfl
  revert hvalue
  decide

end Mutual

/-! ### A copy that only pulls -/

section Copy
variable {ma mb : Map CString Entry} {t : UInt64} {k v : CString} {env : Env}

/-- `a` takes `SET` and `MOD`, `b` pulls. -/
def Role : Site × Action → Prop
  | (.a, .set ..) => True
  | (.a, .mod ..) => True
  | (.b, .sync ..) => True
  | _ => False

/-- What `a` writes is told from what `b` has: a `MOD` does not give another value the time of the entry that `b` holds,
    and `b` does not pull before there is something to pull, nor when `a` has an entry that it cannot copy. -/
def Discernible (kind : EngineKind) (stores : Stores kind) : Site × Action → Prop
  | (_, .mod env k v) => ∀ u, kind.engine.get (stores .b) k = some (.str u) →
      kind.engine.getTimestamp (stores .b) k = some env.now → u = v
  | (_, .sync ..) => kind.engine.count (stores .a) ≠ some 0 ∧ ∀ k, kind.CopiesKey (stores .a) k
  | _ => True

/-- The readings of the clock at `a`, in order. -/
def readings (events : List (Site × Action)) : List UInt64 := events.filterMap fun e => e.2.reading

/-- `b` holds a copy of `a` that lags behind, and no entry of `a` is from after `t`. -/
structure Follows (kind : EngineKind) (t : UInt64) (stores : Stores kind) (ma mb : Map CString Entry) : Prop where
  leader : kind.Holds (stores .a) ma
  follower : kind.Holds (stores .b) mb
  words : Words ma
  past : ∀ k e, ma k = some e → e.timestamp ≤ t
  behind : mb.Behind Entry.stamp Entry.value ma

theorem start_follows : Follows kind 0 (start kind) Map.empty Map.empty where
  leader := kind.created_holds
  follower := kind.created_holds
  words := mapOf_empty Word
  past := by simp
  behind := Map.Behind.empty

/-- An entry that `a` writes at `t` or later leaves `b` behind, if it is told from the one that `b` has. -/
theorem Follows.write (h : Follows kind t stores ma mb) {s : kind.Store} (hs : kind.Holds s (ma.insert k ⟨v, env.now⟩))
    (hk : Word k) (hv : Word v) (ht : t ≤ env.now)
    (hdisc : ∀ e, mb k = some e → e.timestamp = env.now → e.value = v) :
    Follows kind env.now (Function.update stores .a s) (ma.insert k ⟨v, env.now⟩) mb where
  leader := by simpa using hs
  follower := h.follower
  words := h.words.insert hk hv
  past := by
    intro j e he
    by_cases hj : j = k
    · subst hj
      rw [Map.insert_self] at he
      obtain rfl := Option.some.inj he
      exact UInt64.le_refl _
    · rw [Map.insert_of_ne hj] at he
      exact UInt64.le_trans (h.past j e he) ht
  behind := by
    refine h.behind.insert fun e he => ⟨?_, fun hstamp => hdisc e he (UInt64.toNat_inj.mp hstamp)⟩
    obtain ⟨e', he', hle, -⟩ := h.behind k e he
    exact hle.trans ((h.past k e' he').trans ht)

theorem Follows.later (h : Follows kind t stores ma mb) {t' : UInt64} (ht : t ≤ t') : Follows kind t' stores ma mb :=
  { h with past := fun k e he => UInt64.le_trans (h.past k e he) ht }

theorem Follows.set (h : Follows kind t stores ma mb) (henv : env.Allocates) (hk : kind.Key k) (hv : kind.Val v)
    (hwk : Word k) (hwv : Word v) (ht : t ≤ env.now) : ∃ stores' r ma',
      step kind stores (.a, .set env k v) = some (stores', r) ∧ Follows kind env.now stores' ma' mb := by
  obtain ⟨s, n, m', hs, hm', hcases⟩ := kind.laws.set_cases kind.bounds h.leader hk hv henv
  refine ⟨Function.update stores .a s, setReply n, m', by simp [step, hs], ?_⟩
  rcases hcases with ⟨-, hnone, rfl⟩ | ⟨-, rfl⟩
  · refine h.write hm' hwk hwv ht fun e he => ?_
    have hne := h.behind.ne_none (k := k) (by simp [he])
    exact absurd hnone hne
  · exact { h.later ht with leader := by simpa using hm' }

theorem Follows.mod (h : Follows kind t stores ma mb) (henv : env.Allocates) (hk : kind.Key k) (hv : kind.Val v)
    (hwk : Word k) (hwv : Word v) (ht : t ≤ env.now) (hdisc : Discernible kind stores (.a, .mod env k v)) : ∃ stores' r ma',
      step kind stores (.a, .mod env k v) = some (stores', r) ∧ Follows kind env.now stores' ma' mb := by
  obtain ⟨s, n, m', hs, hm', hcases⟩ := kind.laws.modify_cases h.leader hk hv henv
  refine ⟨Function.update stores .a s, changeReply n, m', by simp [step, hs], ?_⟩
  rcases hcases with ⟨-, rfl⟩ | ⟨-, rfl⟩
  · refine h.write hm' hwk hwv ht fun e he hnow => ?_
    have hget := kind.laws.get_present h.follower hk he
    have htime := kind.laws.getTimestamp h.follower hk he
    exact hdisc e.value hget (hnow ▸ htime)
  · exact { h.later ht with leader := by simpa using hm' }

/-- A pull brings `b` up to date. -/
theorem Follows.sync (h : Follows kind t stores ma mb) {peerEnv : Env} {env : Nat → Env} {junk : Nat → UInt64}
    (hpeer : peerEnv.Allocates) (henv : ∀ n, (env n).Allocates)
    (hdisc : Discernible kind stores (.b, .sync peerEnv env junk)) : ∃ stores',
      step kind stores (.b, .sync peerEnv env junk) = some (stores', ascii "SUCCESS") ∧
        Follows kind t stores' ma (mb.join Entry.stamp ma) := by
  have hne : ma ≠ Map.empty := by
    rintro rfl
    have hcount := kind.laws.count h.leader
    refine hdisc.1 (hcount.trans ?_)
    rw [Lists.nil.size]
    rfl
  have hcopy : MapOf kind.Copyable ma := h.leader.mapOf_copyable hdisc.2
  have hfits : kind.Fits (mb.join Entry.stamp ma).size :=
    Map.size_congr (fun k => h.behind.join_eq_none (k := k)) ▸ kind.bounds.fits h.leader
  obtain ⟨s, hs, hm⟩ := kind.laws.pull_join kind.scanLaws kind.bounds h.follower h.leader h.words hcopy hne hfits
    hpeer henv
  exact ⟨_, step_sync hs, { h with follower := by simpa using hm, behind := h.behind.join }⟩

theorem Follows.event (h : Follows kind t stores ma mb) {event : Site × Action} (hrole : Role event)
    (hok : event.2.Ok kind) (ht : ∀ u, event.2.reading = some u → t ≤ u) (hdisc : Discernible kind stores event) :
    ∃ stores' r t' ma' mb', step kind stores event = some (stores', r) ∧ Follows kind t' stores' ma' mb' ∧
      event.2.reading.getD t = t' := by
  obtain ⟨site, action⟩ := event
  cases action with
  | set env k v =>
    cases site with
    | a =>
      obtain ⟨henv, hk, hv, hwk, hwv⟩ := hok
      obtain ⟨stores', r, ma', hs, h'⟩ := h.set henv hk hv hwk hwv (ht _ rfl)
      exact ⟨stores', r, _, ma', mb, hs, h', rfl⟩
    | b => cases hrole
  | mod env k v =>
    cases site with
    | a =>
      obtain ⟨henv, hk, hv, hwk, hwv⟩ := hok
      obtain ⟨stores', r, ma', hs, h'⟩ := h.mod henv hk hv hwk hwv (ht _ rfl) hdisc
      exact ⟨stores', r, _, ma', mb, hs, h', rfl⟩
    | b => cases hrole
  | del k => cases site <;> cases hrole
  | sync peerEnv env junk =>
    cases site with
    | a => cases hrole
    | b =>
      obtain ⟨stores', hs, h'⟩ := h.sync hok.1 hok.2 hdisc
      exact ⟨stores', _, t, ma, _, hs, h', rfl⟩

theorem Follows.run {events : List (Site × Action)} (h : Follows kind t stores ma mb)
    (hrole : ∀ e ∈ events, Role e) (hok : ∀ e ∈ events, e.2.Ok kind)
    (hclock : (t :: readings events).Pairwise (· ≤ ·))
    (hdisc : Run.Guarded (step kind) (Discernible kind) stores events) : ∃ stores' replies t' ma' mb',
      Run.runs (step kind) stores events = some (stores', replies) ∧ Follows kind t' stores' ma' mb' := by
  induction events generalizing stores t ma mb with
  | nil => exact ⟨stores, [], t, ma, mb, rfl, h⟩
  | cons event events ih =>
    have hread : readings (event :: events) = event.2.reading.toList ++ readings events := by
      rw [readings, List.filterMap_cons]
      cases event.2.reading <;> rfl
    rw [hread] at hclock
    have htime : ∀ u, event.2.reading = some u → t ≤ u := by
      intro u hu
      rw [hu] at hclock
      exact (List.pairwise_cons.mp hclock).1 u List.mem_cons_self
    have hrest : (event.2.reading.getD t :: readings events).Pairwise (· ≤ ·) := by
      cases hu : event.2.reading with
      | none =>
        rw [hu] at hclock
        exact hclock
      | some u =>
        rw [hu] at hclock
        exact (List.pairwise_cons.mp hclock).2
    obtain ⟨stores₁, r, t', ma', mb', hs, h', rfl⟩ :=
      h.event (hrole event List.mem_cons_self) (hok event List.mem_cons_self) htime hdisc.1
    obtain ⟨stores', replies, t', ma', mb', hrun, hlast⟩ := ih h' (fun e he => hrole e (List.mem_cons_of_mem event he))
      (fun e he => hok e (List.mem_cons_of_mem event he)) hrest (hdisc.2 stores₁ r hs)
    exact ⟨stores', r :: replies, t', ma', mb', Run.runs_cons hs hrun, hlast⟩

/-- `b` has the values that `a` has. -/
def CaughtUp (kind : EngineKind) (stores : Stores kind) : Prop :=
  ∀ k v, kind.Key k → kind.engine.get (stores .a) k = some (.str v) → kind.engine.get (stores .b) k = some (.str v)

/-- In every run in which what `a` writes is told from what `b` has, `b` has caught up after each of its pulls. -/
theorem copy_catches_up {events : List (Site × Action)} {peerEnv : Env} {env : Nat → Env} {junk : Nat → UInt64}
    (hrole : ∀ e ∈ events, Role e) (hok : ∀ e ∈ events ++ [(.b, .sync peerEnv env junk)], e.2.Ok kind)
    (hclock : (readings events).Pairwise (· ≤ ·))
    (hdisc : Run.Guarded (step kind) (Discernible kind) (start kind) (events ++ [(.b, .sync peerEnv env junk)])) :
    ∃ stores replies, Run.runs (step kind) (start kind) (events ++ [(.b, .sync peerEnv env junk)]) =
      some (stores, replies ++ [ascii "SUCCESS"]) ∧ CaughtUp kind stores := by
  obtain ⟨hguard, hlast⟩ := hdisc.append_inv
  have hsync := hok _ (List.mem_append_right events (List.mem_singleton_self _))
  have hstart : (0 :: readings events).Pairwise (· ≤ ·) :=
    List.pairwise_cons.mpr ⟨fun u _ => UInt64.zero_le, hclock⟩
  obtain ⟨stores, replies, t, ma, mb, hrun, h⟩ :=
    start_follows.run hrole (fun e he => hok e (List.mem_append_left _ he)) hstart hguard
  obtain ⟨stores', hs, h'⟩ := h.sync hsync.1 hsync.2 (hlast _ _ hrun).1
  refine ⟨stores', replies, Run.runs_append hrun (Run.runs_cons hs rfl), fun k v hk hget => ?_⟩
  rw [kind.laws.get_eq h'.leader hk] at hget
  cases hm : ma k with
  | none =>
    rw [hm] at hget
    cases hget
  | some e =>
    rw [hm] at hget
    obtain rfl : e.value = v := CharPtr.str.inj (Option.some.inj hget)
    obtain ⟨e', he', -, hvalue⟩ := h.behind.join_apply hm
    rw [kind.laws.get_present h'.follower hk he', hvalue]

/-- A `SET` of a key, a pull, and a `MOD` of the key at the time `t`. -/
def twoWrites (t : UInt64) : List (Site × Action) :=
  [(.a, .set (.calm 5) (.ofBytes (ascii "k")) (.ofBytes (ascii "v"))),
    (.b, .sync (.calm 0) (fun _ => .calm 0) fun _ => 0),
    (.a, .mod (.calm t) (.ofBytes (ascii "k")) (.ofBytes (ascii "w")))]

def lastPull : Site × Action := (.b, .sync (.calm 0) (fun _ => .calm 0) fun _ => 0)

theorem twoWrites_role (t : UInt64) : ∀ e ∈ twoWrites t, Role e := by
  simp [twoWrites, Role]

theorem twoWrites_ok (t : UInt64) : ∀ e ∈ twoWrites t ++ [lastPull], e.2.Ok .array := by
  have hk : Word (.ofBytes (ascii "k")) := ⟨by decide, by decide⟩
  have hv : Word (.ofBytes (ascii "v")) := ⟨by decide, by decide⟩
  have hw : Word (.ofBytes (ascii "w")) := ⟨by decide, by decide⟩
  have henv := Env.calm_allocates
  simp only [twoWrites, lastPull, List.cons_append, List.nil_append, List.forall_mem_cons, List.not_mem_nil,
    false_implies, implies_true, and_true]
  exact ⟨⟨henv 5, trivial, trivial, hk, hv⟩, ⟨henv 0, fun _ => henv 0⟩, ⟨henv t, trivial, trivial, hk, hw⟩,
    henv 0, fun _ => henv 0⟩

/-- Two writes in one millisecond with a pull in between: the next pull leaves the first value. -/
theorem copy_sameMillisecond : (∀ e ∈ twoWrites 5, Role e) ∧ (∀ e ∈ twoWrites 5 ++ [lastPull], e.2.Ok .array) ∧
    (readings (twoWrites 5)).Pairwise (· ≤ ·) ∧
    ∃ stores, Run.runs (step .array) (start .array) (twoWrites 5 ++ [lastPull]) =
        some (stores, [ascii "SUCCESS", ascii "SUCCESS", ascii "SUCCESS", ascii "SUCCESS"]) ∧
      ¬CaughtUp .array stores := by
  refine ⟨twoWrites_role 5, twoWrites_ok 5, by decide, _, rfl, fun h => ?_⟩
  have hget := h (.ofBytes (ascii "k")) (.ofBytes (ascii "w")) trivial rfl
  revert hget
  decide +kernel

theorem copy_catches_up_twoWrites : ∃ stores replies, Run.runs (step .array) (start .array)
    (twoWrites 6 ++ [lastPull]) = some (stores, replies ++ [ascii "SUCCESS"]) ∧ CaughtUp .array stores := by
  refine copy_catches_up (twoWrites_role 6) (twoWrites_ok 6) (by decide) ?_
  have hone : ((1 : Nat) : Int) ≠ 0 := by decide
  have htime : (5 : UInt64) ≠ 6 := by decide
  refine ⟨trivial, fun s₁ r₁ h₁ => ?_⟩
  cases h₁
  refine ⟨⟨fun hcount => hone (Option.some.inj hcount), fun _ _ _ _ => ⟨trivial, trivial⟩⟩, fun s₂ r₂ h₂ => ?_⟩
  cases h₂
  refine ⟨fun u _ ht => absurd (Option.some.inj ht) htime, fun s₃ r₃ h₃ => ?_⟩
  cases h₃
  exact ⟨⟨fun hcount => hone (Option.some.inj hcount), fun _ _ _ _ => ⟨trivial, trivial⟩⟩, fun _ _ _ => trivial⟩

end Copy

end Replica

end KvStore
