import KvStore.Fleet
import KvStore.Lib.Gossip
import KvStore.Theorems.Linear
import KvStore.Theorems.Replica

/-! # Eventual consistency of any number of servers

What a server holds is the newest of the writes that it has seen, its own and those that reached it through pulls. When
each has heard from all, directly or through others, all hold the same. -/

namespace KvStore.Fleet
open FiniteMap

variable {ι : Type} [DecidableEq ι] {kind : EngineKind}

/-- The events of a fleet of two that an action of one of two servers is. -/
def events (site : Site) : Action → List (Event Site)
  | .set env key value => [.set site env key value]
  | .mod env key value => [.mod site env key value]
  | .del key => [.del site key]
  | .sync peerEnv env junk => [.sync site site.peer, .answer site site.peer peerEnv env junk]

/-- Two servers are a fleet of two, in which each pull is answered at once. -/
theorem runs_replica {stores stores' : Replica.Stores kind} {site : Site} {action : Action} {r : Bytes}
    (hs : Replica.step kind stores (site, action) = some (stores', r)) : ∃ replies,
      Run.runs (step kind) (.idle stores) (events site action) = some (.idle stores', replies ++ [some r]) := by
  have hidle : ∀ {w : Site → Option Site} (s : kind.Store), (∀ i, i ≠ site → w i = none) →
      (⟨stores, w⟩ : State Site kind).setStore site s = .idle (Function.update stores site s) := by
    intro w s hw
    refine congrArg (State.mk _) (funext fun i => ?_)
    by_cases hi : i = site
    · rw [hi, Function.update_self]
    · rw [Function.update_of_ne hi]
      exact hw i hi
  have hone : ∀ {e : Event Site} {s : kind.Store}, Possible (State.idle stores : State Site kind) e →
      effect kind (.idle stores) e = some ((State.idle stores).setStore site s, some r) →
      Run.runs (step kind) (.idle stores) [e] = some (.idle (Function.update stores site s), [some r]) := by
    intro e s hp he
    refine Run.runs_cons ?_ rfl
    rw [step, if_pos hp, he]
    exact congrArg (fun x => some (x, some r)) (hidle s fun _ _ => rfl)
  cases action with
  | set env k v =>
    simp only [Replica.step, Option.bind_eq_bind, Option.bind_eq_some_iff, Prod.exists] at hs
    obtain ⟨s, n, hset, heq⟩ := hs
    obtain ⟨rfl, rfl⟩ := Prod.mk.inj (Option.some.inj heq)
    exact ⟨[], hone rfl (by simp only [effect, State.idle, hset, Option.bind_eq_bind, Option.bind_some])⟩
  | mod env k v =>
    simp only [Replica.step, Option.bind_eq_bind, Option.bind_eq_some_iff, Prod.exists] at hs
    obtain ⟨s, n, hmod, heq⟩ := hs
    obtain ⟨rfl, rfl⟩ := Prod.mk.inj (Option.some.inj heq)
    exact ⟨[], hone rfl (by simp only [effect, State.idle, hmod, Option.bind_eq_bind, Option.bind_some])⟩
  | del k =>
    simp only [Replica.step, Option.bind_eq_bind, Option.bind_eq_some_iff, Prod.exists] at hs
    obtain ⟨s, n, hdel, heq⟩ := hs
    obtain ⟨rfl, rfl⟩ := Prod.mk.inj (Option.some.inj heq)
    exact ⟨[], hone rfl (by simp only [effect, State.idle, hdel, Option.bind_eq_bind, Option.bind_some])⟩
  | sync peerEnv env junk =>
    simp only [Replica.step, Option.bind_eq_bind, Option.bind_eq_some_iff, Prod.exists] at hs
    obtain ⟨s, response, hpull, heq⟩ := hs
    obtain ⟨rfl, rfl⟩ := Prod.mk.inj (Option.some.inj heq)
    have hpeer : site.peer ≠ site := by cases site <;> decide
    refine ⟨[none], Run.runs_cons (if_pos rfl) (Run.runs_cons ?_ rfl)⟩
    rw [step, if_pos ⟨Function.update_self .., Function.update_of_ne hpeer ..⟩]
    simp only [effect, State.idle, hpull, Option.bind_eq_bind, Option.bind_some]
    exact congrArg (fun x => some (x, some response)) (hidle s fun i hi => Function.update_of_ne hi ..)

/-! ### What a server has seen -/

/-- The acknowledged writes that each server has seen. -/
abbrev Seen (ι : Type) := ι → Set (CString × Entry)

/-- A write that is answered `SUCCESS` is acknowledged, and an answered pull brings all that the peer has seen. -/
def see (S : Seen ι) : Event ι × Option Bytes → Seen ι
  | (.set i env k v, r) =>
    if r = some (ascii "SUCCESS") then Function.update S i (insert (k, ⟨v, env.now⟩) (S i)) else S
  | (.mod i env k v, r) =>
    if r = some (ascii "SUCCESS") then Function.update S i (insert (k, ⟨v, env.now⟩) (S i)) else S
  | (.del .., _) => S
  | (.sync .., _) => S
  | (.answer i peer .., _) => learn S (i, peer)

/-- What the servers have seen after events with these replies, when none had seen anything. -/
def seen (events : List (Event ι)) (replies : List (Option Bytes)) : Seen ι := (events.zip replies).foldl see fun _ => ∅

/-- The two servers of a pull that is answered. -/
def Event.pull : Event ι → Option (ι × ι)
  | .answer i peer .. => some (i, peer)
  | _ => none

/-- The event is part of a pull. -/
def Event.Pulls : Event ι → Prop
  | .sync .. => True
  | .answer .. => True
  | _ => False

/-- The event can happen, and a pull is from a server that has something. -/
def Goes (kind : EngineKind) (s : State ι kind) (e : Event ι) : Prop :=
  Possible s e ∧ ∀ i peer, e.pull = some (i, peer) → kind.engine.count (s.stores peer) ≠ some 0

instance (kind : EngineKind) (s : State ι kind) (e : Event ι) : Decidable (Goes kind s e) :=
  match h : e.pull with
  | none => decidable_of_iff (Possible s e) ⟨fun hp => ⟨hp, fun _ _ heq => by simp [h] at heq⟩, And.left⟩
  | some (i, peer) => decidable_of_iff (Possible s e ∧ kind.engine.count (s.stores peer) ≠ some 0)
      ⟨fun hc => ⟨hc.1, fun _ _ heq => by cases h.symm.trans heq; exact hc.2⟩, fun hs => ⟨hs.1, hs.2 i peer h⟩⟩

/-- The strings of the command are words that the engine takes and can copy, its allocations succeed, and a key that it
    may add is one of the list. -/
def Event.Ok (kind : EngineKind) (ks : List CString) : Event ι → Prop
  | .set _ env k v => env.Allocates ∧ kind.Key k ∧ kind.Val v ∧ Word k ∧ Word v ∧ kind.Copyable k ∧ kind.Copyable v ∧ k ∈ ks
  | .mod _ env k v => env.Allocates ∧ kind.Key k ∧ kind.Val v ∧ Word k ∧ Word v ∧ kind.Copyable k ∧ kind.Copyable v
  | .del .. => False
  | .sync .. => True
  | .answer _ _ peerEnv env _ => peerEnv.Allocates ∧ ∀ n, (env n).Allocates

/-- The readings of the clock, in order. -/
def readings (events : List (Event ι)) : List UInt64 := events.filterMap Event.reading

/-- Each server holds the newest of what it has seen, of words that can be copied; the writes are told apart by their
    times, and all are from before `t`. -/
structure Holds (kind : EngineKind) (ks : List CString) (t : Nat) (stores : ι → kind.Store) (S : Seen ι) : Prop where
  newest : ∀ i, ∃ m, kind.Holds (stores i) m ∧ Words m ∧ MapOf kind.Copyable m ∧ m.Newest Entry.stamp (S i)
  keys : ∀ i k e, (k, e) ∈ S i → k ∈ ks
  past : ∀ i k e, (k, e) ∈ S i → e.stamp < t
  apart : ∀ i j k e e', (k, e) ∈ S i → (k, e') ∈ S j → e.stamp = e'.stamp → e = e'

section Steps
variable {ks : List CString} {t : Nat} {stores : ι → kind.Store} {s : State ι kind} {S : Seen ι} {i peer : ι} {env : Env}
  {k v : CString}

theorem step_possible {e : Event ι} (h : Possible s e) : step kind s e = effect kind s e := if_pos h

omit [DecidableEq ι] in
theorem start_holds (kind : EngineKind) (ks : List CString) :
    Holds kind ks 0 (start kind : State ι kind).stores fun _ => ∅ where
  newest _ := ⟨Map.empty, kind.created_holds, mapOf_empty _, mapOf_empty _, Map.Newest.empty⟩
  keys _ _ _ h := absurd h (Set.notMem_empty _)
  past _ _ _ h := absurd h (Set.notMem_empty _)
  apart _ _ _ _ _ h := absurd h (Set.notMem_empty _)

/-- A successful write at a later time. -/
theorem Holds.write (h : Holds kind ks t stores S) {m : Map CString Entry} {s : kind.Store} (hw : Words m)
    (hc : MapOf kind.Copyable m) (hm : m.Newest Entry.stamp (S i)) (hs : kind.Holds s (m.insert k ⟨v, env.now⟩))
    (hwk : Word k) (hwv : Word v) (hck : kind.Copyable k) (hcv : kind.Copyable v) (hk : k ∈ ks)
    (ht : t ≤ env.now.toNat) : Holds kind ks (env.now.toNat + 1) (Function.update stores i s)
      (Function.update S i (insert (k, ⟨v, env.now⟩) (S i))) := by
  have hold : ∀ {j k' e'}, (k', e') ∈ Function.update S i (insert (k, ⟨v, env.now⟩) (S i)) j →
      (k' = k ∧ e' = ⟨v, env.now⟩) ∨ (k', e') ∈ S j := by
    intro j k' e' hmem
    by_cases hj : j = i
    · subst hj
      rw [Function.update_self] at hmem
      exact (Set.mem_insert_iff.mp hmem).imp_left Prod.mk.inj
    · rw [Function.update_of_ne hj] at hmem
      exact Or.inr hmem
  have hlt : ∀ {j k' e'}, (k', e') ∈ S j → e'.stamp < env.now.toNat := fun hmem => (h.past _ _ _ hmem).trans_le ht
  constructor
  · intro j
    by_cases hj : j = i
    · subst hj
      rw [Function.update_self, Function.update_self]
      exact ⟨_, hs, hw.insert hwk hwv, hc.insert hck hcv, hm.insert fun e he => (hlt he).le⟩
    · rw [Function.update_of_ne hj, Function.update_of_ne hj]
      exact h.newest j
  · intro j k' e' hmem
    rcases hold hmem with ⟨rfl, -⟩ | hmem
    · exact hk
    · exact h.keys j k' e' hmem
  · intro j k' e' hmem
    rcases hold hmem with ⟨-, rfl⟩ | hmem
    · exact Nat.lt_succ_self _
    · exact (hlt hmem).trans (Nat.lt_succ_self _)
  · intro j j' k' e e' hmem hmem' htime
    rcases hold hmem with ⟨rfl, rfl⟩ | hmem <;> rcases hold hmem' with ⟨hk', rfl⟩ | hmem'
    · rfl
    · exact absurd htime.symm (hlt hmem').ne
    · exact absurd htime (hlt hmem).ne
    · exact h.apart j j' k' e e' hmem hmem' htime

omit [DecidableEq ι] in
theorem Holds.later (h : Holds kind ks t stores S) {t' : Nat} (ht : t ≤ t') : Holds kind ks t' stores S :=
  { h with past := fun i k e he => (h.past i k e he).trans_le ht }

/-- A command that changes no entry. -/
theorem Holds.same (h : Holds kind ks t stores S) {m : Map CString Entry} {s : kind.Store} (hw : Words m)
    (hc : MapOf kind.Copyable m) (hm : m.Newest Entry.stamp (S i)) (hs : kind.Holds s m) :
    Holds kind ks t (Function.update stores i s) S :=
  { h with
    newest := fun j => by
      by_cases hj : j = i
      · subst hj
        rw [Function.update_self]
        exact ⟨m, hs, hw, hc, hm⟩
      · rw [Function.update_of_ne hj]
        exact h.newest j }

omit [DecidableEq ι] in
/-- There is room for all keys of the list. -/
theorem Holds.size_lt (h : Holds kind ks t stores S) (hroom : ks.dedup.length < kvsArraySize)
    {m : Map CString Entry} {R : Set (CString × Entry)} (hm : m.Newest Entry.stamp R) (hR : ∀ r ∈ R, ∃ j, r ∈ S j) :
    m.size < kvsArraySize := by
  have hkeys : ∀ k, m.mapVal Entry.value k ≠ none → k ∈ ks := by
    intro k hk
    rw [Map.mapVal_apply, ne_eq, Option.map_eq_none_iff] at hk
    obtain ⟨e, he⟩ := Option.ne_none_iff_exists'.mp hk
    obtain ⟨j, hj⟩ := hR _ (hm.mem he)
    exact h.keys j k e hj
  rw [← Map.size_mapVal Entry.value]
  exact (Dispatch.size_le_of_keys hkeys).trans_lt hroom

theorem fits_of_lt {n : Nat} (h : n < kvsArraySize) : kind.Fits n := by
  cases kind with
  | array => exact h.le
  | rbtree => trivial
  | hash => trivial
  | skiptable => trivial

theorem Holds.set (h : Holds kind ks t s.stores S) (hroom : ks.dedup.length < kvsArraySize)
    (hok : Event.Ok kind ks (.set i env k v)) (ht : t ≤ env.now.toNat) : ∃ s' r,
      effect kind s (.set i env k v) = some (s', r) ∧
        Holds kind ks (env.now.toNat + 1) s'.stores (see S (.set i env k v, r)) := by
  obtain ⟨henv, hk, hv, hwk, hwv, hck, hcv, hks⟩ := hok
  obtain ⟨m, hs, hw, hc, hm⟩ := h.newest i
  have hfull : kind.answers.full m.size = none := full_eq_none (h.size_lt hroom hm fun r hr => ⟨i, hr⟩)
  have hset : kind.backend.set env (s.stores i) k v = kind.engine.setWithTimestamp env (s.stores i) k v env.now :=
    kind.laws.set_eq ..
  simp only [effect, hset]
  cases hmk : m k with
  | none =>
    obtain ⟨s', hs', hm'⟩ := kind.laws.set_absent (t := env.now) hs hk hv henv hfull hmk
    rw [hs']
    refine ⟨_, _, rfl, ?_⟩
    rw [see, if_pos (congrArg some (setReply_success.mpr rfl))]
    exact h.write hw hc hm hm' hwk hwv hck hcv hks ht
  | some e =>
    rw [kind.laws.set_present hs hk hv hfull hmk]
    refine ⟨_, _, rfl, ?_⟩
    rw [see, if_neg fun hr => one_ne_zero (setReply_success.mp (Option.some.inj hr))]
    exact (h.later (ht.trans (Nat.le_succ _))).same hw hc hm hs

theorem changeReply_zero : changeReply 0 = ascii "SUCCESS" := rfl

theorem changeReply_neg {n : Int} (hn : n < 0) : changeReply n ≠ ascii "SUCCESS" := by
  rw [changeReply, if_pos hn]
  decide

theorem Holds.mod (h : Holds kind ks t s.stores S) (hok : Event.Ok kind ks (.mod i env k v)) (ht : t ≤ env.now.toNat) :
    ∃ s' r, effect kind s (.mod i env k v) = some (s', r) ∧
      Holds kind ks (env.now.toNat + 1) s'.stores (see S (.mod i env k v, r)) := by
  obtain ⟨henv, hk, hv, hwk, hwv, hck, hcv⟩ := hok
  obtain ⟨m, hs, hw, hc, hm⟩ := h.newest i
  have hmod : kind.backend.modify env (s.stores i) k v = kind.engine.modifyWithTimestamp env (s.stores i) k v env.now :=
    kind.laws.modify_eq ..
  simp only [effect, hmod]
  cases hmk : m k with
  | none =>
    rw [kind.laws.modify_absent hs hk hv hmk]
    refine ⟨_, _, rfl, ?_⟩
    rw [see, if_neg fun hr => changeReply_neg (modifyAbsent_neg kind m.size) (Option.some.inj hr)]
    exact (h.later (ht.trans (Nat.le_succ _))).same hw hc hm hs
  | some e =>
    obtain ⟨s', hs', hm'⟩ := kind.laws.modify_present (t := env.now) hs hk hv henv hmk
    rw [hs']
    refine ⟨_, _, rfl, ?_⟩
    rw [see, if_pos (congrArg some changeReply_zero)]
    exact h.write hw hc hm hm' hwk hwv hck hcv (h.keys i k e (hm.mem hmk)) ht

/-- An answered pull leaves the newest of what the two servers have seen. -/
theorem Holds.answer (h : Holds kind ks t s.stores S) (hroom : ks.dedup.length < kvsArraySize) {peerEnv : Env}
    {env : Nat → Env} {junk : Nat → UInt64} (hok : Event.Ok kind ks (.answer i peer peerEnv env junk))
    (hstock : kind.engine.count (s.stores peer) ≠ some 0) :
    ∃ s', effect kind s (.answer i peer peerEnv env junk) = some (s', some (ascii "SUCCESS")) ∧
      Holds kind ks t s'.stores (learn S (i, peer)) := by
  obtain ⟨m, hs, hw, hc, hm⟩ := h.newest i
  obtain ⟨mp, hp, hwp, hcp, hmp⟩ := h.newest peer
  have hne : mp ≠ Map.empty := by
    rintro rfl
    refine hstock ((kind.laws.count hp).trans ?_)
    rw [Lists.nil.size]
    rfl
  have hjoin := hm.join hmp
  have hfits : kind.Fits (m.join Entry.stamp mp).size :=
    fits_of_lt (h.size_lt hroom hjoin fun r hr => hr.elim (fun hr => ⟨i, hr⟩) fun hr => ⟨peer, hr⟩)
  obtain ⟨store, hs', hm'⟩ : ∃ store, pullFrom kind.engine kind.scan peerEnv env junk (s.stores i) (s.stores peer) =
      some (store, ascii "SUCCESS") ∧ _ :=
    kind.laws.pull_join kind.scanLaws kind.bounds hs hp hwp hcp hne hfits hok.1 hok.2
  have heffect : effect kind s (.answer i peer peerEnv env junk) = some (s.setStore i store, some (ascii "SUCCESS")) := by
    simp only [effect]
    rw [hs']
    rfl
  have hold : ∀ {j k e}, (k, e) ∈ learn S (i, peer) j → ∃ j', (k, e) ∈ S j' := fun hmem =>
    (mem_learn.mp hmem).elim (fun hmem => ⟨_, hmem⟩) fun hmem => ⟨peer, hmem.2⟩
  refine ⟨_, heffect, fun j => ?_, fun j k e hmem => ?_, fun j k e hmem => ?_, fun j j' k e e' hmem hmem' htime => ?_⟩
  · dsimp only [State.setStore, learn]
    by_cases hj : j = i
    · subst hj
      rw [Function.update_self, Function.update_self]
      exact ⟨_, hm', hw.join hwp, hc.join hcp, hjoin⟩
    · rw [Function.update_of_ne hj, Function.update_of_ne hj]
      exact h.newest j
  · obtain ⟨j', hmem⟩ := hold hmem
    exact h.keys j' k e hmem
  · obtain ⟨j', hmem⟩ := hold hmem
    exact h.past j' k e hmem
  · obtain ⟨i₁, hmem⟩ := hold hmem
    obtain ⟨i₂, hmem'⟩ := hold hmem'
    exact h.apart i₁ i₂ k e e' hmem hmem' htime

/-- One event, at a time that is not before the others. -/
theorem Holds.event {e : Event ι} (h : Holds kind ks t s.stores S) (hroom : ks.dedup.length < kvsArraySize)
    (hok : e.Ok kind ks) (ht : ∀ u, e.reading = some u → t ≤ u.toNat) (hgoes : Goes kind s e) :
    ∃ s' r, step kind s e = some (s', r) ∧
      Holds kind ks (e.reading.elim t fun u => u.toNat + 1) s'.stores (see S (e, r)) := by
  rw [step_possible hgoes.1]
  cases e with
  | set i env k v => exact h.set hroom hok (ht env.now rfl)
  | mod i env k v => exact h.mod hok (ht env.now rfl)
  | del i k => exact absurd hok id
  | sync i peer => exact ⟨_, none, rfl, h⟩
  | answer i peer peerEnv env junk =>
    obtain ⟨s', hs, h'⟩ := h.answer hroom hok (hgoes.2 i peer rfl)
    exact ⟨s', _, hs, h'⟩

theorem Holds.run {events : List (Event ι)} (h : Holds kind ks t s.stores S) (hroom : ks.dedup.length < kvsArraySize)
    (hok : ∀ e ∈ events, e.Ok kind ks) (ht : ∀ u ∈ readings events, t ≤ u.toNat)
    (hclock : (readings events).Pairwise (· < ·)) (hgoes : Run.Guarded (step kind) (Goes kind) s events) :
    ∃ s' replies t', Run.runs (step kind) s events = some (s', replies) ∧
      Holds kind ks t' s'.stores ((events.zip replies).foldl see S) := by
  induction events generalizing s t S with
  | nil => exact ⟨s, [], t, rfl, h⟩
  | cons e events ih =>
    have hread : readings (e :: events) = e.reading.toList ++ readings events := by
      rw [readings, List.filterMap_cons]
      cases e.reading <;> rfl
    rw [hread] at ht hclock
    obtain ⟨s₁, r, hs, h'⟩ := h.event hroom (hok e List.mem_cons_self) (fun u hu => ht u (by simp [hu])) hgoes.1
    have hlater : ∀ u ∈ readings events, (e.reading.elim t fun u => u.toNat + 1) ≤ u.toNat := by
      intro u hu
      cases he : e.reading with
      | none => exact ht u (List.mem_append_right _ hu)
      | some u' =>
        rw [he] at hclock
        exact UInt64.lt_iff_toNat_lt.mp ((List.pairwise_cons.mp hclock).1 u hu)
    obtain ⟨s', replies, t', hrun, hlast⟩ := ih h' (fun e' he' => hok e' (List.mem_cons_of_mem e he'))
      hlater (List.pairwise_append.mp hclock).2.1 (hgoes.2 s₁ r hs)
    exact ⟨s', r :: replies, t', Run.runs_cons hs hrun, hlast⟩

end Steps

/-! ### What all servers come to -/

/-- Pulls only spread what was seen. -/
theorem foldl_see_pulls {pulls : List (Event ι)} : ∀ {replies : List (Option Bytes)} {S : Seen ι},
    (∀ e ∈ pulls, e.Pulls) → pulls.length = replies.length →
    (pulls.zip replies).foldl see S = spread S (pulls.filterMap Event.pull) := by
  induction pulls with
  | nil => exact fun _ _ => rfl
  | cons e pulls ih =>
    intro replies S hpulls hlen
    cases replies with
    | nil => cases hlen
    | cons r replies =>
      have he := hpulls e List.mem_cons_self
      have hrest := @ih replies (see S (e, r)) (fun e' he' => hpulls e' (List.mem_cons_of_mem _ he')) (Nat.succ.inj hlen)
      cases e with
      | sync i peer => exact hrest
      | answer i peer peerEnv env junk => exact hrest
      | _ => exact he.elim

omit [DecidableEq ι] in
theorem readings_pulls {pulls : List (Event ι)} (h : ∀ e ∈ pulls, e.Pulls) : readings pulls = [] := by
  refine List.filterMap_eq_nil_iff.mpr fun e he => ?_
  cases e with
  | sync i peer => rfl
  | answer i peer peerEnv env junk => rfl
  | _ => exact (h _ he).elim

/-! ### Pulls that are never answered -/

/-- The server where the event happens. -/
def Event.site : Event ι → ι
  | .set i .. => i
  | .mod i .. => i
  | .del i _ => i
  | .sync i _ => i
  | .answer i .. => i

section Crossed
variable {s s' : State ι kind} {e : Event ι} {r : Option Bytes} {i j : ι}

/-- An event changes only what its server waits for. -/
theorem effect_waits (hs : effect kind s e = some (s', r)) : ∃ w, s'.waits = Function.update s.waits e.site w := by
  cases e <;> simp only [effect, Option.bind_eq_bind, Option.bind_eq_some_iff, Prod.exists, Option.some.injEq,
    Prod.mk.injEq] at hs
  case sync =>
    obtain ⟨rfl, -⟩ := hs
    exact ⟨_, rfl⟩
  all_goals
    obtain ⟨store, n, -, rfl, -⟩ := hs
    exact ⟨none, rfl⟩

omit [DecidableEq ι] in
/-- The server of an event that can happen waits for nothing, or for a peer that waits for nothing. -/
theorem Possible.site (h : Possible s e) : ∀ peer, s.waits e.site = some peer → s.waits peer = none := by
  intro peer hw
  cases e with
  | answer i p peerEnv env junk =>
    obtain rfl := Option.some.inj (h.1.symm.trans hw)
    exact h.2
  | _ => cases h.symm.trans hw

theorem step_crossed (hs : step kind s e = some (s', r)) (h : s.waits i = some j ∧ s.waits j = some i) :
    s'.waits i = some j ∧ s'.waits j = some i := by
  rw [step, Option.ite_none_right_eq_some] at hs
  obtain ⟨hpossible, heffect⟩ := hs
  obtain ⟨w, hw⟩ := effect_waits heffect
  have hne : ∀ {a b}, s.waits a = some b → s.waits b = some a → a ≠ e.site := by
    rintro a b ha hb rfl
    cases (hpossible.site b ha).symm.trans hb
  rw [hw, Function.update_of_ne (hne h.1 h.2), Function.update_of_ne (hne h.2 h.1)]
  exact h

/-- Two servers that wait for each other, or one that waits for itself, are never answered. -/
theorem runs_crossed {events : List (Event ι)} {replies : List (Option Bytes)}
    (hrun : Run.runs (step kind) s events = some (s', replies)) (h : s.waits i = some j ∧ s.waits j = some i) :
    s'.waits i = some j ∧ s'.waits j = some i := by
  have hstep : ∀ s (e : Event ι) s' r, s.waits i = some j ∧ s.waits j = some i → (fun _ => True) e →
      step kind s e = some (s', r) → s'.waits i = some j ∧ s'.waits j = some i :=
    fun _ _ _ _ h _ hs => step_crossed hs h
  exact Run.runs_inv (I := fun s => s.waits i = some j ∧ s.waits j = some i) hstep hrun (fun _ _ => trivial) h

end Crossed

section Values
variable {ks : List CString} {t : Nat} {stores : ι → kind.Store} {S : Seen ι} {i : ι} {k : CString} {e : Entry}

omit [DecidableEq ι] in
/-- A server answers with the newest write that it has seen. -/
theorem Holds.get_newest (h : Holds kind ks t stores S) (hk : kind.Key k) (he : (k, e) ∈ S i)
    (hle : ∀ e', (k, e') ∈ S i → e'.timestamp ≤ e.timestamp) : kind.engine.get (stores i) k = some (.str e.value) := by
  obtain ⟨m, hs, -, -, hm⟩ := h.newest i
  refine kind.laws.get_present hs hk (hm.eq_some he (fun e' he' => ?_) fun e' he' => h.apart i i k e' e he' he)
  exact UInt64.le_iff_toNat_le.mp (hle e' he')

omit [DecidableEq ι] in
theorem Holds.get_unseen (h : Holds kind ks t stores S) (hk : kind.Key k) (hne : ∀ e, (k, e) ∉ S i) :
    kind.engine.get (stores i) k = some .null := by
  obtain ⟨m, hs, -, -, hm⟩ := h.newest i
  exact kind.laws.get_absent hs hk (hm.eq_none_iff.mpr hne)

omit [DecidableEq ι] in
/-- Servers that have seen the same hold the same. -/
theorem Holds.get_congr (h : Holds kind ks t stores S) {j : ι} (hk : kind.Key k) (heq : S i = S j) :
    kind.engine.get (stores i) k = kind.engine.get (stores j) k := by
  obtain ⟨m, hs, -, -, hm⟩ := h.newest i
  obtain ⟨m', hs', -, -, hm'⟩ := h.newest j
  have hmm : m = m' := hm.unique (heq ▸ hm') fun k e e' he he' htime => h.apart i i k e e' he he' htime
  rw [kind.laws.get_eq hs hk, kind.laws.get_eq hs' hk, hmm]

end Values

section Fleet
variable {ks : List CString} {events pulls : List (Event ι)}

/-- In every run of writes and pulls at any of the servers, each server answers a `GET` with the newest acknowledged
    write of the key among its own and those that pulls have brought to it. -/
theorem get_seen (hroom : ks.dedup.length < kvsArraySize) (hok : ∀ e ∈ events, e.Ok kind ks)
    (hclock : (readings events).Pairwise (· < ·)) (hgoes : Run.Guarded (step kind) (Goes kind) (start kind) events) :
    ∃ s replies, Run.runs (step kind) (start kind) events = some (s, replies) ∧ ∀ i k, kind.Key k →
      ((∀ e, (k, e) ∉ seen events replies i) → kind.engine.get (s.stores i) k = some .null) ∧
      ∀ e, (k, e) ∈ seen events replies i → (∀ e', (k, e') ∈ seen events replies i → e'.timestamp ≤ e.timestamp) →
        kind.engine.get (s.stores i) k = some (.str e.value) := by
  obtain ⟨s, replies, t, hrun, h⟩ := (start_holds kind ks).run hroom hok (fun _ _ => Nat.zero_le _) hclock hgoes
  exact ⟨s, replies, hrun, fun i k hk => ⟨h.get_unseen hk, fun e he hle => h.get_newest hk he hle⟩⟩

/-- Three servers, two of which are written to, one millisecond apart. -/
def twoWriters : List (Event (Fin 3)) :=
  [.set 0 (.calm 1) (.ofBytes (ascii "the-key")) (.ofBytes (ascii "value-0")),
    .set 2 (.calm 2) (.ofBytes (ascii "the-key")) (.ofBytes (ascii "value-2"))]

/-- Pulls down the line of the servers and back, each answered before the next. -/
def threePulls : List (Event (Fin 3)) :=
  (sweep [0, 1, 2]).flatMap fun p => [.sync p.1 p.2, .answer p.1 p.2 (.calm 0) (fun _ => .calm 0) fun _ => 0]

theorem twoWriters_ok : ∀ e ∈ twoWriters ++ threePulls, e.Ok .rbtree [.ofBytes (ascii "the-key")] := by
  have henv (n : UInt64) := Env.calm_allocates n
  have hword {s : CString} (hs : s.bytes ≠ []) (hno : NoSpace s.bytes) : Word s := ⟨hs, hno⟩
  have hkey : Word (.ofBytes (ascii "the-key")) := hword (by decide) (by decide)
  have hlong {s : CString} (hs : 7 ≤ s.strlen) : EngineKind.rbtree.Copyable s := hs
  intro e he
  rcases List.mem_append.mp he with he | he
  · simp only [twoWriters, List.mem_cons, List.not_mem_nil, or_false] at he
    rcases he with rfl | rfl
    · exact ⟨henv 1, trivial, trivial, hkey, hword (by decide) (by decide), hlong (by decide), hlong (by decide), by simp⟩
    · exact ⟨henv 2, trivial, trivial, hkey, hword (by decide) (by decide), hlong (by decide), hlong (by decide), by simp⟩
  · obtain ⟨p, -, he⟩ := List.mem_flatMap.mp he
    simp only [List.mem_cons, List.not_mem_nil, or_false] at he
    rcases he with rfl | rfl
    · exact trivial
    · exact ⟨henv 0, fun _ => henv 0⟩

theorem twoWriters_goes : Run.Guarded (step .rbtree) (Goes .rbtree) (start .rbtree) (twoWriters ++ threePulls) := by
  decide +kernel

theorem get_seen_twoWriters : ∃ s replies,
    Run.runs (step .rbtree) (start .rbtree) (twoWriters ++ threePulls) = some (s, replies) ∧
      ∀ i k, EngineKind.Key .rbtree k →
        ((∀ e, (k, e) ∉ seen (twoWriters ++ threePulls) replies i) →
          (EngineKind.engine .rbtree).get (s.stores i) k = some .null) ∧
        ∀ e, (k, e) ∈ seen (twoWriters ++ threePulls) replies i →
          (∀ e', (k, e') ∈ seen (twoWriters ++ threePulls) replies i → e'.timestamp ≤ e.timestamp) →
          (EngineKind.engine .rbtree).get (s.stores i) k = some (.str e.value) :=
  get_seen (by decide) twoWriters_ok (by decide) twoWriters_goes

/-- After pulls by which each server has heard from all, directly or through others, all servers answer alike: with the
    last acknowledged write of the key at any of them. -/
theorem eventually_consistent (hroom : ks.dedup.length < kvsArraySize) (hok : ∀ e ∈ events ++ pulls, e.Ok kind ks)
    (hclock : (readings events).Pairwise (· < ·))
    (hgoes : Run.Guarded (step kind) (Goes kind) (start kind) (events ++ pulls))
    (hpulls : ∀ e ∈ pulls, e.Pulls) (hheard : ∀ i j, j ∈ heard (pulls.filterMap Event.pull) i) :
    ∃ s replies s' replies', Run.runs (step kind) (start kind) events = some (s, replies) ∧
      Run.runs (step kind) s pulls = some (s', replies') ∧ ∀ k, kind.Key k →
        (∀ i j, kind.engine.get (s'.stores i) k = kind.engine.get (s'.stores j) k) ∧
        ((∀ j e, (k, e) ∉ seen events replies j) → ∀ i, kind.engine.get (s'.stores i) k = some .null) ∧
        ∀ j e, (k, e) ∈ seen events replies j →
          (∀ j' e', (k, e') ∈ seen events replies j' → e'.timestamp ≤ e.timestamp) →
          ∀ i, kind.engine.get (s'.stores i) k = some (.str e.value) := by
  obtain ⟨hgoes₁, hgoes₂⟩ := hgoes.append_inv
  obtain ⟨s, replies, t, hrun, h⟩ := (start_holds kind ks).run hroom
    (fun e he => hok e (List.mem_append_left _ he)) (fun _ _ => Nat.zero_le _) hclock hgoes₁
  have hnil := readings_pulls hpulls
  obtain ⟨s', replies', t', hrun', h'⟩ := h.run hroom (fun e he => hok e (List.mem_append_right _ he))
    (by simp [hnil]) (by simp [hnil]) (hgoes₂ s replies hrun)
  rw [foldl_see_pulls hpulls (Run.length_runs hrun')] at h'
  have hspread : ∀ {i r}, r ∈ spread (seen events replies) (pulls.filterMap Event.pull) i ↔
      ∃ j, r ∈ seen events replies j := fun {i r} =>
    mem_spread.trans ⟨fun ⟨j, _, hr⟩ => ⟨j, hr⟩, fun ⟨j, hr⟩ => ⟨j, hheard i j, hr⟩⟩
  refine ⟨s, replies, s', replies', hrun, hrun', fun k hk => ⟨fun i j => ?_, fun hne i => ?_, ?_⟩⟩
  · exact h'.get_congr hk (Set.ext fun r => hspread.trans hspread.symm)
  · refine h'.get_unseen hk fun e he => ?_
    obtain ⟨j, hj⟩ := hspread.mp he
    exact hne j e hj
  · intro j e he hle i
    refine h'.get_newest hk (hspread.mpr ⟨j, he⟩) fun e' he' => ?_
    obtain ⟨j', hj'⟩ := hspread.mp he'
    exact hle j' e' hj'

theorem eventually_consistent_twoWriters : ∃ s replies s' replies',
    Run.runs (step .rbtree) (start .rbtree) twoWriters = some (s, replies) ∧
      Run.runs (step .rbtree) s threePulls = some (s', replies') ∧ ∀ k, EngineKind.Key .rbtree k →
        (∀ i j, (EngineKind.engine .rbtree).get (s'.stores i) k = (EngineKind.engine .rbtree).get (s'.stores j) k) ∧
        ((∀ j e, (k, e) ∉ seen twoWriters replies j) →
          ∀ i, (EngineKind.engine .rbtree).get (s'.stores i) k = some .null) ∧
        ∀ j e, (k, e) ∈ seen twoWriters replies j →
          (∀ j' e', (k, e') ∈ seen twoWriters replies j' → e'.timestamp ≤ e.timestamp) →
          ∀ i, (EngineKind.engine .rbtree).get (s'.stores i) k = some (.str e.value) := by
  have hall : ∀ i : Fin 3, i ∈ [0, 1, 2] := by decide
  have hpulls : threePulls.filterMap Event.pull = sweep [0, 1, 2] := rfl
  refine eventually_consistent (by decide) twoWriters_ok (by decide) twoWriters_goes ?_ fun i j => ?_
  · intro e he
    obtain ⟨p, -, he⟩ := List.mem_flatMap.mp he
    simp only [List.mem_cons, List.not_mem_nil, or_false] at he
    rcases he with rfl | rfl <;> trivial
  · exact hpulls ▸ heard_sweep (hall i) (hall j)

end Fleet

end KvStore.Fleet
