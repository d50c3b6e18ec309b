import KvStore.Theorems.Replica

/-! Which deletions last when two servers pull from each other. A store keeps nothing of a key that it deleted, so a
    pull takes the key from a peer that still has it; a key that neither server has comes back only by a `SET`. -/

namespace KvStore
open FiniteMap

/-- The store holds entries of keys that satisfy `P`, and no white space. -/
def Within (kind : EngineKind) (P : CString → Prop) (s : kind.Store) : Prop :=
  ∃ m, kind.Holds s m ∧ ∀ k e, m k = some e → P k ∧ Word k ∧ NoSpace e.value.bytes

section Within
variable {kind : EngineKind} {P : CString → Prop} {s p : kind.Store} {m : Map CString Entry} {k v : CString}
  {env : Env} {es : List (CString × Entry)} {data : List SyncData}

theorem created_within : Within kind P kind.created := ⟨Map.empty, kind.created_holds, by simp⟩

theorem EngineKind.val_of_length (kind : EngineKind) (hv : v.strlen ≤ 255) : kind.Val v := by
  cases kind with
  | array => exact trivial
  | rbtree => exact trivial
  | hash => exact trivial
  | skiptable => exact hv

theorem length_decimal_timestamp (t : UInt64) : (Decimal.decimal t.toNat).length ≤ 255 :=
  (Decimal.length_decimal_le (k := 20) (by decide) (t.toNat_lt.trans (by decide))).trans (by decide)

theorem word_emptyKey : Word emptyKey := ⟨by decide, by decide⟩

theorem noSpace_nil : NoSpace (CString.ofBytes []).bytes := by decide

/-- What a server gets from one with such a store: records for its keys, or for the key `EMPTY`. -/
theorem parse_within (hp : kind.Holds p m) (hm : ∀ k e, m k = some e → P k ∧ Word k ∧ NoSpace e.value.bytes)
    (hempty : P emptyKey) (hl : Lists es m) {junk : Nat → UInt64} {item : SyncData}
    (hi : item ∈ parseRemoteDataStr junk (dumpText (es.map wire) ++ [newline])) :
    kind.Key item.record.1 ∧ kind.Val item.record.2.value ∧ P item.record.1 ∧ Word item.record.1 ∧
      NoSpace item.record.2.value.bytes := by
  by_cases hne : es = []
  · subst hne
    have hparse := @parse_empty junk
    rw [List.map_nil, hparse] at hi
    obtain rfl := List.mem_singleton.mp hi
    exact ⟨kind.key_emptyKey, kind.val_empty, hempty, word_emptyKey, noSpace_nil⟩
  · have hmap : es.map wire ≠ [] := by simpa using hne
    have hword : ∀ data ∈ es.map wire, NoSpace data.key ∧ data.key ≠ [] ∧ NoSpace data.value := by
      intro data hd
      obtain ⟨e, he, rfl⟩ := List.mem_map.mp hd
      obtain ⟨-, ⟨hkne, hks⟩, hvs⟩ := hm e.1 e.2 ((hl.mem e.1 e.2).mp he)
      exact ⟨hks, hkne, hvs⟩
    obtain ⟨data, hd, hkey, hvalue⟩ := mem_parse_dumpText hmap hword hi
    obtain ⟨e, he, rfl⟩ := List.mem_map.mp hd
    have hme := (hl.mem e.1 e.2).mp he
    obtain ⟨hP, hk, hv⟩ := hm e.1 e.2 hme
    obtain ⟨hKey, hVal⟩ := kind.bounds.stored hp hme
    have hrec : item.record.1 = e.1 := by rw [SyncData.record, hkey, wire, CString.ofBytes_bytes]
    rw [hrec]
    refine ⟨hKey, ?_, hP, hk, ?_⟩
    · rcases hvalue with hvalue | hvalue
      · rw [SyncData.record, hvalue, wire, CString.ofBytes_bytes]
        exact hVal
      · refine kind.val_of_length ?_
        rw [SyncData.record, hvalue]
        exact (List.takeWhile_prefix _).length_le.trans (length_decimal_timestamp _)
    · rcases hvalue with hvalue | hvalue
      · rw [SyncData.record, hvalue, wire, CString.ofBytes_bytes]
        exact hv
      · rw [SyncData.record, hvalue]
        exact (noSpace_decimal _).mono (List.takeWhile_prefix _)

theorem Within.pull (hs : Within kind P s) (hp : Within kind P p) (hempty : P emptyKey) {peerEnv : Env}
    {env : Nat → Env} {junk : Nat → UInt64} {s' : kind.Store} {r : Bytes} (hpeer : peerEnv.Allocates)
    (henv : ∀ n, (env n).Allocates) (hpull : pullFrom kind.engine kind.scan peerEnv env junk s p = some (s', r)) :
    Within kind P s' := by
  obtain ⟨m, hm, hall⟩ := hs
  obtain ⟨mp, hmp, hallp⟩ := hp
  have hcopy : MapOf kind.Copyable mp := by
    by_contra hcopy
    rw [kind.scanLaws.pullFrom_none hmp hpeer hcopy] at hpull
    cases hpull
  obtain ⟨es, hl, hlocal⟩ := kind.scanLaws.localData hmp hpeer hcopy
  set data := parseRemoteDataStr junk (dumpText (es.map wire) ++ [newline]) with hdata
  have hitems : ∀ item ∈ data, _ := fun item hi => parse_within hmp hallp hempty hl hi
  rw [pullFrom, hlocal] at hpull
  by_cases hne : data = []
  · obtain ⟨rfl, -⟩ := Prod.mk.inj (Option.some.inj ((pullResponse_unparsed hne).symm.trans hpull))
    exact ⟨m, hm, hall⟩
  · obtain ⟨s₁, n, pre, ⟨post, hpre⟩, hs₁, h'⟩ := kind.laws.sync_some kind.bounds.refuses hm
      (fun item hi => ⟨(hitems item hi).1, (hitems item hi).2.1⟩) henv
    have hpull := (pullResponse_eq (by simp) hne).symm.trans hpull
    rw [← hdata, hs₁, Option.map_some] at hpull
    obtain ⟨rfl, -⟩ := Prod.mk.inj (Option.some.inj hpull)
    refine ⟨_, h', fun k e he => ?_⟩
    rcases Map.merge_apply_eq he with he | he
    · exact hall k e he
    · obtain ⟨item, hi, heq⟩ := List.mem_map.mp he
      obtain ⟨-, -, h⟩ := hitems item (hpre ▸ List.mem_append_left post hi)
      rwa [heq] at h

theorem Within.set (hs : Within kind P s) (henv : env.Allocates) (hk : kind.Key k) (hv : kind.Val v) (hwk : Word k)
    (hwv : Word v) : ∃ s' n, kind.engine.set env s k v = some (s', n) ∧ ((n = 0 → P k) → Within kind P s') := by
  obtain ⟨m, hm, hall⟩ := hs
  obtain ⟨s', n, m', hs', hm', hcases⟩ := kind.laws.set_cases kind.bounds hm hk hv henv
  refine ⟨s', n, hs', fun hP => ⟨m', hm', fun j e he => ?_⟩⟩
  rcases hcases with ⟨hn, -, rfl⟩ | ⟨-, rfl⟩
  · by_cases hj : j = k
    · subst hj
      rw [Map.insert_self] at he
      obtain rfl := Option.some.inj he
      exact ⟨hP hn, hwk, hwv.2⟩
    · rw [Map.insert_of_ne hj] at he
      exact hall j e he
  · exact hall j e he

theorem Within.mod (hs : Within kind P s) (henv : env.Allocates) (hk : kind.Key k) (hv : kind.Val v) (hwv : Word v) :
    ∃ s' n, kind.engine.modify env s k v = some (s', n) ∧ Within kind P s' := by
  obtain ⟨m, hm, hall⟩ := hs
  obtain ⟨s', n, m', hs', hm', hcases⟩ := kind.laws.modify_cases hm hk hv henv
  refine ⟨s', n, hs', m', hm', fun j e he => ?_⟩
  rcases hcases with ⟨hne, rfl⟩ | ⟨-, rfl⟩
  · by_cases hj : j = k
    · subst hj
      obtain ⟨e₀, he₀⟩ := Option.ne_none_iff_exists'.mp hne
      obtain ⟨hP, hw, -⟩ := hall j e₀ he₀
      rw [Map.insert_self] at he
      obtain rfl := Option.some.inj he
      exact ⟨hP, hw, hwv.2⟩
    · rw [Map.insert_of_ne hj] at he
      exact hall j e he
  · exact hall j e he

theorem Within.del (hs : Within kind P s) (hk : kind.Key k) : ∃ s' n, kind.engine.delete s k = some (s', n) ∧
    Within kind (fun j => P j ∧ j ≠ k) s' := by
  obtain ⟨m, hm, hall⟩ := hs
  obtain ⟨s', n, m', hs', hm', -, heq⟩ := kind.erases hm hk
  refine ⟨s', n, hs', m', hm', fun j e he => ?_⟩
  have hvalue := congrFun heq j
  rw [Map.mapVal_apply, he] at hvalue
  by_cases hj : j = k
  · subst hj
    rw [Map.erase_self] at hvalue
    cases hvalue
  · rw [Map.erase_of_ne hj] at hvalue
    obtain ⟨e₀, he₀, hval⟩ := Option.map_eq_some_iff.mp hvalue.symm
    obtain ⟨hP, hw, hv⟩ := hall j e₀ he₀
    exact ⟨⟨hP, hj⟩, hw, hval ▸ hv⟩

theorem Within.mono {Q : CString → Prop} (hs : Within kind P s) (h : ∀ k, P k → Q k) : Within kind Q s := by
  obtain ⟨m, hm, hall⟩ := hs
  exact ⟨m, hm, fun k e he => ⟨h k (hall k e he).1, (hall k e he).2⟩⟩

/-- A store has a key that it was to keep out only if it shows it. -/
theorem Within.without (hs : Within kind P s) (hk : kind.Key k) (hget : kind.engine.get s k = some .null) :
    Within kind (· ≠ k) s := by
  obtain ⟨m, hm, hall⟩ := hs
  refine ⟨m, hm, fun j e he => ⟨?_, (hall j e he).2⟩⟩
  rintro rfl
  rw [kind.laws.get_present hm hk he] at hget
  cases hget

theorem Within.get (hs : Within kind (· ≠ k) s) (hk : kind.Key k) : kind.engine.get s k = some .null := by
  obtain ⟨m, hm, hall⟩ := hs
  refine kind.laws.get_absent hm hk ?_
  by_contra hne
  obtain ⟨e, he⟩ := Option.ne_none_iff_exists'.mp hne
  exact (hall k e he).1 rfl

end Within

namespace Replica

section Runs
variable {kind : EngineKind} {P : CString → Prop} {stores stores' : Stores kind} {k : CString} {r : Bytes}
  {replies : List Bytes}

/-- The action stores an entry for the key. -/
def Writes (k : CString) : Action → Prop
  | .set _ key _ => key = k
  | .mod _ key _ => key = k
  | _ => False

theorem step_within {event : Site × Action} (hstep : step kind stores event = some (stores', r)) (hok : event.2.Ok kind)
    (hs : ∀ site, Within kind P (stores site)) (hempty : P emptyKey)
    (hset : ∀ key, Writes key event.2 → r = ascii "SUCCESS" → P key) (site : Site) : Within kind P (stores' site) := by
  obtain ⟨at', action⟩ := event
  have update : ∀ {s : kind.Store}, Within kind P s → Within kind P (Function.update stores at' s site) := by
    intro s h
    by_cases hsite : site = at'
    · subst hsite
      rwa [Function.update_self]
    · rw [Function.update_of_ne hsite]
      exact hs site
  cases action with
  | set env key value =>
    obtain ⟨henv, hk, hv, hwk, hwv⟩ := hok
    obtain ⟨s, n, heq, hw⟩ := (hs at').set henv hk hv hwk hwv
    simp only [step] at hstep
    rw [heq] at hstep
    obtain ⟨rfl, rfl⟩ := Prod.mk.inj (Option.some.inj hstep)
    exact update (hw fun hn => hset key rfl (setReply_success.mpr hn))
  | mod env key value =>
    obtain ⟨henv, hk, hv, -, hwv⟩ := hok
    obtain ⟨s, n, heq, hw⟩ := (hs at').mod henv hk hv hwv
    simp only [step] at hstep
    rw [heq] at hstep
    obtain ⟨rfl, -⟩ := Prod.mk.inj (Option.some.inj hstep)
    exact update hw
  | del key =>
    obtain ⟨s, n, heq, hw⟩ := (hs at').del hok
    simp only [step] at hstep
    rw [heq] at hstep
    obtain ⟨rfl, -⟩ := Prod.mk.inj (Option.some.inj hstep)
    exact update (hw.mono fun _ h => h.1)
  | sync peerEnv env junk =>
    simp only [step, Option.bind_eq_bind, Option.bind_eq_some_iff, Prod.exists] at hstep
    obtain ⟨s, response, hpull, hstep⟩ := hstep
    obtain ⟨rfl, -⟩ := Prod.mk.inj (Option.some.inj hstep)
    exact update ((hs at').pull (hs at'.peer) hempty hok.1 hok.2 hpull)

theorem runs_within {events : List (Site × Action)} (hrun : Run.runs (step kind) stores events = some (stores', replies))
    (hok : ∀ e ∈ events, e.2.Ok kind) (hs : ∀ site, Within kind P (stores site)) (hempty : P emptyKey)
    (hset : ∀ e r key, (e, r) ∈ events.zip replies → Writes key e.2 → r = ascii "SUCCESS" → P key) (site : Site) :
    Within kind P (stores' site) := by
  induction events generalizing stores replies with
  | nil =>
    cases hrun
    exact hs site
  | cons event events ih =>
    obtain ⟨stores₁, r, replies₁, hstep, hrest, rfl⟩ := Run.runs_cons_inv hrun
    refine ih hrest (fun e he => hok e (List.mem_cons_of_mem event he)) (fun site => ?_) fun e r key hmem =>
      hset e r key (List.mem_cons_of_mem _ hmem)
    exact step_within hstep (hok event List.mem_cons_self) hs hempty (fun key => hset event r key List.mem_cons_self) site

/-- A key that `a` deleted while `b` does not hold it stays absent at `a`, whatever is pulled, until a client writes it
    again. -/
theorem deletion_lasts {pre post : List (Site × Action)} {stores₁ stores₂ stores₃ : Stores kind}
    {replies₁ replies₃ : List Bytes} (hk : kind.Key k) (hne : k ≠ emptyKey) (hpre : ∀ e ∈ pre, e.2.Ok kind)
    (hpost : ∀ e ∈ post, e.2.Ok kind) (hrun : Run.runs (step kind) (start kind) pre = some (stores₁, replies₁))
    (hb : kind.engine.get (stores₁ .b) k = some .null)
    (hdel : step kind stores₁ (.a, .del k) = some (stores₂, ascii "SUCCESS"))
    (hrun' : Run.runs (step kind) stores₂ post = some (stores₃, replies₃))
    (hlatest : ∀ e r, (e, r) ∈ post.zip replies₃ → Writes k e.2 → r ≠ ascii "SUCCESS") :
    kind.engine.get (stores₃ .a) k = some .null := by
  have hstart : ∀ site, Within kind (fun _ => True) (start kind site) := fun _ => created_within
  have h₁ := runs_within hrun hpre hstart trivial fun _ _ _ _ _ _ => trivial
  have h₂ : ∀ site, Within kind (· ≠ k) (stores₂ site) := by
    obtain ⟨s, n, heq, hw⟩ := (h₁ .a).del hk
    simp only [step] at hdel
    rw [heq] at hdel
    obtain ⟨rfl, -⟩ := Prod.mk.inj (Option.some.inj hdel)
    intro site
    cases site with
    | a =>
      rw [Function.update_self]
      exact hw.mono fun _ h => h.2
    | b =>
      rw [Function.update_of_ne (by decide)]
      exact (h₁ .b).without hk hb
  refine (runs_within hrun' hpost h₂ hne.symm (fun e r key hmem hwrites hr => ?_) .a).get hk
  rintro rfl
  exact hlatest e r hmem hwrites hr

/-- A key is set and copied, then deleted, and the copy is pulled back. -/
def copiedKey : List (Site × Action) :=
  [(.a, .set (.calm 5) (.ofBytes (ascii "k")) (.ofBytes (ascii "v"))), lastPull]

def pullBack : Site × Action := (.a, .sync (.calm 0) (fun _ => .calm 0) fun _ => 0)

theorem deletion_undone : ∃ stores, Run.runs (step .array) (start .array)
      (copiedKey ++ [(.a, .del (.ofBytes (ascii "k"))), pullBack]) =
        some (stores, [ascii "SUCCESS", ascii "SUCCESS", ascii "SUCCESS", ascii "SUCCESS"]) ∧
      arrayEngine.get (stores .a) (.ofBytes (ascii "k")) = some (.str (.ofBytes (ascii "v"))) :=
  ⟨_, rfl, rfl⟩

/-- The other server sets another key, and its store is pulled. -/
def otherKey : List (Site × Action) :=
  [(.b, .set (.calm 6) (.ofBytes (ascii "j")) (.ofBytes (ascii "v"))), pullBack]

theorem deletion_lasts_otherKey : ∃ stores₁ stores₂ stores₃,
    Run.runs (step .array) (start .array) [(.a, .set (.calm 5) (.ofBytes (ascii "k")) (.ofBytes (ascii "v")))] =
      some (stores₁, [ascii "SUCCESS"]) ∧
    step .array stores₁ (.a, .del (.ofBytes (ascii "k"))) = some (stores₂, ascii "SUCCESS") ∧
    Run.runs (step .array) stores₂ otherKey = some (stores₃, [ascii "SUCCESS", ascii "SUCCESS"]) ∧
    EngineKind.array.engine.get (stores₃ .a) (.ofBytes (ascii "k")) = some .null := by
  obtain ⟨stores₁, stores₂, stores₃, h₁, hb, h₂, h₃⟩ : ∃ stores₁ stores₂ stores₃,
      Run.runs (step .array) (start .array) [(.a, .set (.calm 5) (.ofBytes (ascii "k")) (.ofBytes (ascii "v")))] =
        some (stores₁, [ascii "SUCCESS"]) ∧
      EngineKind.array.engine.get (stores₁ .b) (.ofBytes (ascii "k")) = some .null ∧
      step .array stores₁ (.a, .del (.ofBytes (ascii "k"))) = some (stores₂, ascii "SUCCESS") ∧
      Run.runs (step .array) stores₂ otherKey = some (stores₃, [ascii "SUCCESS", ascii "SUCCESS"]) :=
    ⟨_, _, _, rfl, rfl, rfl, rfl⟩
  have henv := Env.calm_allocates
  have hk : Word (.ofBytes (ascii "k")) := ⟨by decide, by decide⟩
  have hj : Word (.ofBytes (ascii "j")) := ⟨by decide, by decide⟩
  have hv : Word (.ofBytes (ascii "v")) := ⟨by decide, by decide⟩
  have hother : (.ofBytes (ascii "j") : CString) ≠ .ofBytes (ascii "k") := by decide
  refine ⟨stores₁, stores₂, stores₃, h₁, h₂, h₃, deletion_lasts trivial (by decide) ?_ ?_ h₁ hb h₂ h₃ ?_⟩
  · intro e he
    rw [List.mem_singleton.mp he]
    exact ⟨henv 5, trivial, trivial, hk, hv⟩
  · simp only [otherKey, pullBack, List.forall_mem_cons, List.not_mem_nil, false_implies, implies_true, and_true]
    exact ⟨⟨henv 6, trivial, trivial, hj, hv⟩, henv 0, fun _ => henv 0⟩
  · intro e r hmem hwrites
    simp only [otherKey, List.zip_cons_cons, List.zip_nil_right, List.mem_cons, List.not_mem_nil, or_false,
      Prod.mk.injEq] at hmem
    rcases hmem with ⟨rfl, -⟩ | ⟨rfl, -⟩
    · exact absurd hwrites hother
    · cases hwrites

end Runs

end Replica

end KvStore
