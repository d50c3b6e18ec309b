import KvStore.Theorems.EventLoop
import KvStore.Theorems.Interchange

/-! # Clients that share four maps

When the lines of all clients are requests to the engines, the server answers every one of them, as four maps would that
take one request at a time. -/

namespace KvStore
open FiniteMap Framing

/-- A `RANGE` is for one of the engines with ranges; these are given only keys and values that they can copy. -/
def Request.InRanged (ranged : EngineKind → Prop) (kind : EngineKind) : Request → Prop
  | .set k v => ranged kind → kind.Copyable k ∧ kind.Copyable v
  | .mod k v => ranged kind → kind.Copyable k ∧ kind.Copyable v
  | .range _ _ => ranged kind
  | _ => True

namespace Dispatch

/-! ### Requests to four engines -/

/-- What the engines hold, each for itself. -/
abbrev Maps := EngineKind → Map CString CString

/-- The request changes the map of its engine. -/
def Maps.apply (M : Maps) (kind : EngineKind) (r : Request) : Maps := Function.update M kind (r.apply (M kind))

/-- The replies of engines that hold the maps at first. -/
inductive Answered : Maps → List (EngineKind × Request) → List Bytes → Prop
  | nil {M : Maps} : Answered M [] []
  | cons {M : Maps} {kind : EngineKind} {r : Request} {rs : List (EngineKind × Request)} {x : Bytes} {xs : List Bytes} :
    Replies kind (M kind) r x → Answered (M.apply kind r) rs xs → Answered M ((kind, r) :: rs) (x :: xs)

/-- The engines hold the values of the maps. -/
def Show (g : Globals) (M : Maps) : Prop := ∀ kind : EngineKind, kind.Shows (g.store kind) (M kind)

theorem initial_show (files : Files) : Show (Globals.initial files) fun _ => Map.empty := fun kind =>
  ⟨Map.empty, kind.created_holds, rfl⟩

section Step
variable {g g' : Globals} {M : Maps} {kind : EngineKind} {r : Request} {i : Input} {x : Bytes} {ks : List CString}

/-- A line for one engine leaves the stores of the others. -/
theorem step_other {kind' : EngineKind} (hp : commandOf i.2.2 = some (kind, op)) (hs : step g i = some (g', x))
    (hne : kind' ≠ kind) : g'.store kind' = g.store kind' := by
  rw [step, processCommand_known hp, Option.map_eq_some_iff] at hs
  obtain ⟨out, -, heq⟩ := hs
  obtain rfl : (afterCase g kind out).1 = g' := congrArg Prod.fst heq
  exact afterCase_store_ne hne out

theorem tokens_head (kind : EngineKind) (r : Request) : ∃ op rest, r.tokens kind = kind.commandName op :: rest := by
  cases r <;> exact ⟨_, _, rfl⟩

theorem step_show (h : Show g M) (hr : r.Ok) (hroom : ∀ k, r.newKey = some k → (M kind).size < kvsArraySize)
    (hc : r.CopiedBy kind (M kind)) (hi : Sends kind r i) :
    ∃ g' x, step g i = some (g', x) ∧ Show g' (M.apply kind r) ∧ Replies kind (M kind) r x := by
  obtain ⟨g', x, hs, hown, hx⟩ := step_shows (h kind) hr hroom hc hi
  obtain ⟨op, rest, htokens⟩ := tokens_head kind r
  have hcmd : commandOf i.2.2 = some (kind, op) := commandOf_name (hi.1.trans htokens)
  refine ⟨g', x, hs, fun kind' => ?_, hx⟩
  by_cases hkind : kind' = kind
  · subst hkind
    rw [Maps.apply, Function.update_self]
    exact hown
  · rw [Maps.apply, Function.update_of_ne hkind, step_other hcmd hs hkind]
    exact h kind'

/-- The keys of all maps are in the list. -/
def Keys (M : Maps) (ks : List CString) : Prop := ∀ kind k, M kind k ≠ none → k ∈ ks

theorem Keys.apply (h : Keys M ks) (hr : ∀ k, r.newKey = some k → k ∈ ks) : Keys (M.apply kind r) ks := by
  intro kind' k hk
  by_cases hkind : kind' = kind
  · subst hkind
    rw [Maps.apply, Function.update_self] at hk
    exact keys_apply (h kind') hr k hk
  · rw [Maps.apply, Function.update_of_ne hkind] at hk
    exact h kind' k hk

/-- An engine with ranges can copy all that its map has. -/
def Ranged (ranged : EngineKind → Prop) (M : Maps) : Prop :=
  ∀ kind, ranged kind → ∀ k v, M kind k = some v → kind.Copyable k ∧ kind.Copyable v

variable {ranged : EngineKind → Prop}

theorem Ranged.copiedBy (h : Ranged ranged M) (hr : r.InRanged ranged kind) : r.CopiedBy kind (M kind) := by
  cases r with
  | range a b => exact fun k v _ _ => h kind hr k v
  | _ => trivial

theorem Ranged.apply (h : Ranged ranged M) (hr : r.InRanged ranged kind) : Ranged ranged (M.apply kind r) := by
  intro kind' hranged
  by_cases hkind : kind' = kind
  · subst hkind
    rw [Maps.apply, Function.update_self]
    refine apply_forall (h kind' hranged) fun k v hput => ?_
    rcases hput with rfl | ⟨rfl, -⟩
    · exact hr hranged
    · exact hr hranged
  · rw [Maps.apply, Function.update_of_ne hkind]
    exact h kind' hranged

end Step

/-- Requests whose new keys have room, and whose ranges can be copied, are answered by the maps. -/
theorem runs_answered {ks : List CString} {ranged : EngineKind → Prop} {rs : List (EngineKind × Request)}
    {is : List Input} (hroom : ks.dedup.length < kvsArraySize)
    (hsend : List.Forall₂ (fun r => Sends r.1 r.2) rs is) :
    ∀ {g : Globals} {M : Maps}, Show g M → Keys M ks → Ranged ranged M →
    (∀ r ∈ rs, r.2.Ok ∧ r.2.InRanged ranged r.1) → (∀ r ∈ rs, ∀ k, r.2.newKey = some k → k ∈ ks) →
    ∃ g' xs, Run.runs step g is = some (g', xs) ∧ Answered M rs xs := by
  induction hsend with
  | nil => exact fun _ _ _ _ _ => ⟨_, [], rfl, .nil⟩
  | @cons r i rs is hi _ ih =>
    intro g M h hkeys hranged hok hnew
    obtain ⟨hr, hin⟩ := hok r List.mem_cons_self
    obtain ⟨g₁, x, hs, h₁, hx⟩ := step_show h hr (fun _ _ => (size_le_of_keys (hkeys r.1)).trans_lt hroom)
      (hranged.copiedBy hin) hi
    obtain ⟨g', xs, hrun, hanswered⟩ := ih h₁ (hkeys.apply (hnew r List.mem_cons_self)) (hranged.apply hin)
      (fun r' hr' => hok r' (List.mem_cons_of_mem r hr')) (fun r' hr' => hnew r' (List.mem_cons_of_mem r hr'))
    exact ⟨g', x :: xs, Run.runs_cons hs hrun, .cons hx hanswered⟩

end Dispatch

/-! ### Lines that are requests -/

/-- The line has the tokens of a request, a key that it may add is one of the list, and a `RANGE` is for an engine with
    ranges. -/
def Plain (ks : List CString) (ranged : EngineKind → Prop) (line : Bytes) : Prop :=
  ∃ (kind : EngineKind) (r : Request), r.Ok ∧ r.InRanged ranged kind ∧ Dispatch.pieces line = r.tokens kind ∧
    ∀ k, r.newKey = some k → k ∈ ks

/-- The line has the tokens of the request. -/
def Asks (x : Exchange) (r : EngineKind × Request) : Prop := r.2.Ok ∧ Dispatch.pieces x.command = r.2.tokens r.1

namespace Shared
variable {world : World} {files : Files} {n : Nat} {s s' : Shared} {ks : List CString} {log : List Exchange}
  {ranged : EngineKind → Prop} {requests : List (EngineKind × Request)} {command : Bytes}

theorem exists_requests (h : ∀ x ∈ log, Plain ks ranged x.command) : ∃ requests, List.Forall₂ Asks log requests ∧
    ∀ r ∈ requests, (r.2.Ok ∧ r.2.InRanged ranged r.1) ∧ ∀ k, r.2.newKey = some k → k ∈ ks := by
  induction log with
  | nil => exact ⟨[], .nil, by simp⟩
  | cons x log ih =>
    obtain ⟨requests, hasks, hnew⟩ := ih fun y hy => h y (List.mem_cons_of_mem x hy)
    obtain ⟨kind, r, hok, hin, hp, hk⟩ := h x List.mem_cons_self
    refine ⟨(kind, r) :: requests, .cons ⟨hok, hp⟩ hasks, fun r' hr' => ?_⟩
    rcases List.mem_cons.mp hr' with rfl | hr'
    · exact ⟨⟨hok, hin⟩, hk⟩
    · exact hnew r' hr'

theorem inputs_sends (henv : ∀ i, ((world i).1.env 0).Allocates) (h : List.Forall₂ Asks log requests) :
    List.Forall₂ (fun r => Dispatch.Sends r.1 r.2) requests (inputs world log) := by
  have hall : ∀ {log : List Exchange} {requests : List (EngineKind × Request)}, List.Forall₂ Asks log requests →
      ∀ k, List.Forall₂ (fun r => Dispatch.Sends r.1 r.2) requests
        (log.mapIdx fun i x => ((world (i + k)).1, (world (i + k)).2, x.command)) := by
    intro log requests h
    induction h with
    | nil => exact fun _ => .nil
    | cons hx _ ih =>
      intro k
      rw [List.mapIdx_cons]
      refine .cons ⟨hx.2, henv _⟩ ?_
      simpa only [Nat.add_assoc, Nat.add_comm 1 k] using ih (k + 1)
  exact hall h 0

/-- The sequential execution of lines that are requests. -/
theorem runs_requests (files : Files) (henv : ∀ i, ((world i).1.env 0).Allocates) (hroom : ks.dedup.length < kvsArraySize)
    (h : ∀ x ∈ log, Plain ks ranged x.command) : ∃ requests g replies, List.Forall₂ Asks log requests ∧
      Run.runs Dispatch.step (Globals.initial files) (inputs world log) = some (g, replies) ∧
      Dispatch.Answered (fun _ => Map.empty) requests replies := by
  obtain ⟨requests, hasks, hnew⟩ := exists_requests h
  have hkeys : Dispatch.Keys (fun _ => Map.empty) ks := fun _ _ hk => absurd rfl hk
  have hranged : Dispatch.Ranged ranged fun _ => Map.empty := fun _ _ _ _ h => by cases h
  obtain ⟨g, replies, hrun, hanswered⟩ := Dispatch.runs_answered hroom (inputs_sends henv hasks)
    (Dispatch.initial_show files) hkeys hranged (fun r hr => (hnew r hr).1) fun r hr => (hnew r hr).2
  exact ⟨requests, g, replies, hasks, hrun, hanswered⟩

/-- A request does not end the process. -/
theorem Serial.plain_some (hs : s.Serial world files) (henv : ∀ i, ((world i).1.env 0).Allocates)
    (hroom : ks.dedup.length < kvsArraySize) (hlog : ∀ x ∈ s.log, Plain ks ranged x.command) (h : Plain ks ranged command) :
    ∃ s' reply, Shared.processCommand world n (some s) command = (some s', reply) := by
  have hall : ∀ x ∈ s.log ++ [⟨n, command, []⟩], Plain ks ranged x.command := by
    intro x hx
    rcases List.mem_append.mp hx with hx | hx
    · exact hlog x hx
    · rw [List.mem_singleton.mp hx]
      exact h
  obtain ⟨-, g, replies, -, hrun, -⟩ := runs_requests files henv hroom hall
  rw [inputs, List.mapIdx_concat] at hrun
  obtain ⟨g₁, os₁, os₂, h₁, h₂, -⟩ := Run.runs_append_inv hrun
  rw [Serial, inputs, h₁] at hs
  obtain ⟨rfl, -⟩ := Prod.mk.inj (Option.some.inj hs)
  obtain ⟨g₂, reply, -, hline, -, -⟩ := Run.runs_cons_inv h₂
  have hline : Dispatch.processCommand (world s.log.length).1 s.globals (world s.log.length).2 command =
      some (g₂, reply) := hline
  exact ⟨⟨g₂, s.log ++ [⟨n, command, reply⟩]⟩, reply, by simp only [Shared.processCommand, hline]⟩

theorem Serial.execs_some {commands : List Bytes} (henv : ∀ i, ((world i).1.env 0).Allocates)
    (hroom : ks.dedup.length < kvsArraySize) (h : ∀ command ∈ commands, Plain ks ranged command) :
    ∀ {s : Shared}, s.Serial world files → (∀ x ∈ s.log, Plain ks ranged x.command) →
    ∃ s' replies, Run.execs (Shared.processCommand world n) (some s) commands = (some s', replies) ∧
      ∀ x ∈ s'.log, Plain ks ranged x.command := by
  induction commands with
  | nil => exact fun _ hlog => ⟨_, [], rfl, hlog⟩
  | cons command commands ih =>
    intro s hs hlog
    have hcommand := h command List.mem_cons_self
    obtain ⟨s₁, reply, hone⟩ := hs.plain_some (n := n) henv hroom hlog hcommand
    obtain ⟨hlog₁, -⟩ := processCommand_some hone
    have hall : ∀ x ∈ s₁.log, Plain ks ranged x.command := by
      intro x hx
      rw [hlog₁] at hx
      rcases List.mem_append.mp hx with hx | hx
      · exact hlog x hx
      · rw [List.mem_singleton.mp hx]
        exact hcommand
    obtain ⟨s', replies, hrest, hlog'⟩ :=
      ih (fun c hc => h c (List.mem_cons_of_mem command hc)) (hs.processCommand hone) hall
    exact ⟨s', reply :: replies, by simp only [Run.execs, hone, hrest], hlog'⟩

end Shared

/-! ### Runs -/

namespace EventLoop

/-- The bytes that the events bring on a connection. -/
def received (n : Nat) : List Event → Bytes
  | [] => []
  | .accept :: events => received n events
  | .event m d :: events => (if m = n ∧ d.Has epollIn then d.chunks.flatten else []) ++ received n events

/-- The bytes that a connection has received. -/
def got (l : EventLoop) (n : Nat) : Bytes := (l.clients[n]?.map Client.received).getD []

/-- The event is of a connection that is registered, and uses no object that it destroys. -/
def Possible (l : EventLoop) : Event → Prop
  | .accept => True
  | .event n d => ∃ c : Client, l.clients[n]? = some c ∧ c.conn.registered = true ∧ d.Clean

variable {world : World} {files : Files} {l l' : EventLoop} {e : Event} {events : List Event} {o : Unit}
  {ks : List CString} {ranged : EngineKind → Prop}

theorem got_append {n : Nat} (hs : step world l e = some (l', o)) :
    l'.got n ++ received n events = l.got n ++ received n (e :: events) := by
  cases e with
  | accept =>
    cases hs
    have hgot : (l.clients ++ [Client.fresh])[n]?.map Client.received = l.clients[n]?.map Client.received ∨
        l.clients[n]? = none ∧ (l.clients ++ [Client.fresh])[n]?.map Client.received = some [] ∨
        l.clients[n]? = none ∧ (l.clients ++ [Client.fresh])[n]?.map Client.received = none := by
      rw [List.getElem?_append]
      split
      · exact Or.inl rfl
      · next hle =>
        have hnone : l.clients[n]? = none := List.getElem?_eq_none (Nat.le_of_not_lt hle)
        cases hk : [Client.fresh][n - l.clients.length]? with
        | none => exact Or.inr (Or.inr ⟨hnone, rfl⟩)
        | some c =>
          obtain rfl : c = .fresh := by simpa using List.mem_of_getElem? hk
          exact Or.inr (Or.inl ⟨hnone, rfl⟩)
    rcases hgot with hgot | ⟨hnone, hgot⟩ | ⟨hnone, hgot⟩
    · rw [got, hgot, got, received]
    · rw [got, hgot, got, hnone, received]
      rfl
    · rw [got, hgot, got, hnone, received]
      rfl
  | event m d =>
    simp only [step, Option.bind_eq_bind, Option.bind_eq_some_iff, Option.ite_none_right_eq_some, Prod.exists,
      Option.some.injEq, Prod.mk.injEq] at hs
    obtain ⟨c, hc, -, shared, c', hevent, s', rfl, rfl, -⟩ := hs
    have hm : m < l.clients.length := (List.getElem?_eq_some_iff.mp hc).1
    rw [got, received, ← List.append_assoc]
    congr 1
    rcases eq_or_ne m n with rfl | hne
    · simp [got, List.getElem?_set_self hm, hc, Client.handleEvent_received hevent]
    · simp [got, List.getElem?_set_ne hne, hne]

/-- Requests are served, and the server goes on. -/
theorem step_plain (h : l.Inv world files) (henv : ∀ i, ((world i).1.env 0).Allocates)
    (hroom : ks.dedup.length < kvsArraySize) (hlog : ∀ x ∈ l.shared.log, Plain ks ranged x.command) (hp : l.Possible e)
    (hlines : ∀ n, ∀ line ∈ (frames newline (l.got n ++ received n [e])).1, Plain ks ranged line) :
    ∃ l', step world l e = some (l', ()) ∧ ∀ x ∈ l'.shared.log, Plain ks ranged x.command := by
  cases e with
  | accept => exact ⟨_, rfl, hlog⟩
  | event n d =>
    obtain ⟨c, hc, hreg, hclean⟩ := hp
    have hgot : l.got n = c.received := by rw [got, hc]; rfl
    obtain ⟨s', c₁, hread, hlog'⟩ : ∃ s' c₁, c.afterRead (Shared.processCommand world n) d (some l.shared) =
        (some s', c₁) ∧ ∀ x ∈ s'.log, Plain ks ranged x.command := by
      rw [Client.afterRead]
      split
      · next hin =>
        have hlines := hlines n
        simp only [received, hin, and_self, if_true, List.append_nil, hgot] at hlines
        rw [frames_append, ← (h.tracks n c hc).rest] at hlines
        have hrest : newline ∉ c.conn.rBuf := (h.tracks n c hc).rest ▸ sep_not_mem_frames _
        obtain ⟨registered, hread⟩ : ∃ registered,
            c.handleRead (Shared.processCommand world n) d (some l.shared) = _ := Client.handleRead_eq hrest
        obtain ⟨s', replies, hexecs, hlog'⟩ := h.serial.execs_some (n := n) henv hroom
          (fun line hline => hlines line (List.mem_append_right _ hline)) hlog
        refine ⟨s', _, hread.trans (Prod.ext ?_ rfl), hlog'⟩
        simp only [answered, hexecs]
      · exact ⟨l.shared, c, rfl, hlog⟩
    have hsome : (c.handleEvent (Shared.processCommand world n) d (some l.shared)).isSome = true :=
      (Client.handleEvent_isSome_iff hreg).mpr hclean
    obtain ⟨⟨s₁, c'⟩, hevent⟩ := Option.isSome_iff_exists.mp hsome
    obtain ⟨c₁', c₂, hread', -, -⟩ := Client.handleEvent_cases hevent
    obtain ⟨rfl, rfl⟩ := Prod.mk.inj (hread.symm.trans hread')
    refine ⟨⟨s', l.clients.set n c'⟩, ?_, hlog'⟩
    simp only [step, hc, Option.bind_eq_bind, Option.bind_some, hreg, if_true, hevent]

theorem received_append (n : Nat) (e : Event) (events : List Event) :
    received n (e :: events) = received n [e] ++ received n events := by
  cases e <;> simp [received]

theorem runs_requests (henv : ∀ i, ((world i).1.env 0).Allocates) (hroom : ks.dedup.length < kvsArraySize) :
    ∀ {l : EventLoop}, l.Inv world files → (∀ x ∈ l.shared.log, Plain ks ranged x.command) →
    Run.Guarded (step world) Possible l events →
    (∀ n, ∀ line ∈ (frames newline (l.got n ++ received n events)).1, Plain ks ranged line) →
    ∃ l' outs, Run.runs (step world) l events = some (l', outs) ∧ (∀ x ∈ l'.shared.log, Plain ks ranged x.command) ∧
      ∀ n, l'.got n = l.got n ++ received n events := by
  induction events with
  | nil => exact fun _ hlog _ _ => ⟨_, [], rfl, hlog, fun n => (List.append_nil _).symm⟩
  | cons e events ih =>
    intro l h hlog hpossible hlines
    have hfirst : ∀ n, ∀ line ∈ (frames newline (l.got n ++ received n [e])).1, Plain ks ranged line := by
      intro n line hline
      refine hlines n line ?_
      rw [received_append, ← List.append_assoc, frames_append]
      exact List.mem_append_left _ hline
    obtain ⟨l₁, hs, hlog₁⟩ := step_plain h henv hroom hlog hpossible.1 hfirst
    have hgot : ∀ n, l₁.got n ++ received n events = l.got n ++ received n (e :: events) := fun n => got_append hs
    obtain ⟨l', outs, hrun, hlog', hgot'⟩ := ih (step_inv h hs).1 hlog₁ (hpossible.2 l₁ () hs)
      fun n => hgot n ▸ hlines n
    exact ⟨l', () :: outs, Run.runs_cons hs hrun, hlog', fun n => (hgot' n).trans (hgot n)⟩

end EventLoop

end KvStore
