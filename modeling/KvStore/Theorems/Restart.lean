import KvStore.Restart
import KvStore.Theorems.Linear
import KvStore.Theorems.SaveLoad

/-! # Four maps that can be put into files

What a server does that is ended and started again any number of times: the array, the red-black tree and the hash
engine save their maps to files, and each of the three loads what any of them saved. -/

namespace KvStore
open FiniteMap Dispatch

/-! ### The maps and the files -/

/-- What a user asks of a server. `opens` tells that the file can be opened which the path leads to. -/
inductive Order where
  | request (kind : EngineKind) (r : Request)
  | save (kind : EngineKind) (filename : CString) (opens : Bool)
  | load (kind : EngineKind) (filename : CString) (opens : Bool)
  | restart

/-- Four maps, and the maps that were put into files. -/
structure Durable where
  maps : Maps
  files : Map Nat (Map CString CString)

namespace Durable
variable (resolve : CString → Nat)

def start : Durable := ⟨fun _ => Map.empty, Map.empty⟩

/-- A load adds the keys that are not there yet. A new start leaves the files. -/
def apply (D : Durable) : Order → Durable
  | .request kind r => { D with maps := D.maps.apply kind r }
  | .save kind filename opens =>
    if opens then { D with files := D.files.insert (resolve filename) (D.maps kind) } else D
  | .load kind filename opens =>
    match D.files (resolve filename) with
    | some m => if opens then { D with maps := Function.update D.maps kind ((D.maps kind).orElse m) } else D
    | none => D
  | .restart => { D with maps := fun _ => Map.empty }

/-- What is replied. -/
def Replies (D : Durable) : Order → Option Bytes → Prop
  | .request kind r, x => ∃ reply, x = some reply ∧ Dispatch.Replies kind (D.maps kind) r reply
  | .save _ _ opens, x => x = some (if opens then ascii "SUCCESS" else ascii "ERROR")
  | .load _ filename opens, x =>
    x = some (if opens ∧ (D.files (resolve filename)).isSome then ascii "SUCCESS" else ascii "ERROR")
  | .restart, x => x = none

def Serves (D : Durable) (o : Order) (x : Option Bytes) (D' : Durable) : Prop :=
  D.Replies resolve o x ∧ D' = D.apply resolve o

/-- The engine can copy what a `RANGE` finds. -/
def Copies (D : Durable) : Order → Prop
  | .request kind r => r.CopiedBy kind (D.maps kind)
  | _ => True

end Durable

/-- The incident is that order: its line has the tokens, the allocations succeed, and so does every `fwrite`. -/
def Order.Is : Order → Incident → Prop
  | .request kind r, .line w tokens command => Sends kind r (w, tokens, command)
  | .save kind filename opens, .line w _ command =>
    pieces command = [kind.commandName .save, filename.bytes] ∧ w.opens = opens ∧ w.disk = .good
  | .load kind filename opens, .line w _ command =>
    pieces command = [kind.commandName .load, filename.bytes] ∧ w.opens = opens ∧ ∀ n, (w.env n).Allocates
  | .restart, .restart => True
  | _, _ => False

/-- The requests are `Ok` and add only keys of the list; the skip list, which loads nothing, does not save either. -/
def Order.Ok (ks : List CString) : Order → Prop
  | .request _ r => r.Ok ∧ ∀ k, r.newKey = some k → k ∈ ks
  | .save kind _ _ => kind ≠ .skiptable
  | .load kind _ _ => kind ≠ .skiptable
  | .restart => True

/-! ### Entries that requests can make -/

/-- The keys are of the list, and they and the values are arguments of requests. -/
def Requested (ks : List CString) (m : Map CString CString) : Prop :=
  ∀ k v, m k = some v → Request.Argument k ∧ Request.Argument v ∧ k ∈ ks

section Requested
variable {ks : List CString} {m m' : Map CString CString} {k v : CString}

theorem requested_empty (ks : List CString) : Requested ks Map.empty := fun _ _ h => by cases h

theorem Requested.orElse (h : Requested ks m) (h' : Requested ks m') : Requested ks (m.orElse m') := by
  intro k v hk
  rcases Option.or_eq_some_iff.mp hk with hk | ⟨-, hk⟩
  · exact h k v hk
  · exact h' k v hk

theorem Requested.apply {r : Request} (h : Requested ks m) (hr : r.Ok)
    (hnew : ∀ k, r.newKey = some k → k ∈ ks) : Requested ks (r.apply m) := by
  refine apply_forall h fun k v hput => ?_
  rcases hput with rfl | ⟨rfl, hm⟩
  · exact ⟨hr.1, hr.2, hnew k rfl⟩
  · obtain ⟨w, hw⟩ := Option.ne_none_iff_exists'.mp hm
    exact ⟨hr.1, hr.2, (h k w hw).2.2⟩

theorem Requested.size (h : Requested ks m) : m.size ≤ ks.dedup.length := by
  refine size_le_of_keys fun k hk => ?_
  obtain ⟨v, hv⟩ := Option.ne_none_iff_exists'.mp hk
  exact (h k v hv).2.2

end Requested

/-! ### Saving and loading -/

/-- The bytes are the file of the entries of the map. -/
def FileOf (m : Map CString CString) (file : List UInt8) : Prop :=
  ∃ es, Lists es m ∧ file = fileBytes (es.map (storedRecord 1))

theorem storable_of_argument {e : CString × CString} (hk : Request.Argument e.1) (hv : Request.Argument e.2) :
    Storable 1 e := by
  have hkey := hk.2
  have hvalue := hv.2
  exact storable_iff.mpr ⟨by omega, by omega⟩

theorem EngineKind.load_engine (kind : EngineKind) (hkind : kind ≠ .skiptable) :
    kind.backend.load = KvStore.load kind.engine.setBuffers := by
  cases kind with
  | skiptable => exact absurd rfl hkind
  | _ => rfl

namespace EngineKind.Shows
variable {kind : EngineKind} {s : kind.Store} {m m' : Map CString CString} {ks : List CString} {env : Nat → Env}

/-- What an engine writes is the same for the three. -/
theorem save (h : kind.Shows s m) (hkind : kind ≠ .skiptable) (hm : Requested ks m) :
    ∃ file, kind.backend.save .good s = some (file, 0) ∧ FileOf m file := by
  obtain ⟨m₁, h, rfl⟩ := h
  obtain ⟨bs, hbs, hsave⟩ : ∃ bs, Lists bs (m₁.mapVal Entry.stored) ∧ ((∀ e ∈ bs, EntryStorable e) →
      kind.backend.save .good s = some (fileBytes (bs.map entryRecord), 0)) := by
    cases kind with
    | array =>
      obtain ⟨bs, hbs, -, -, hsave⟩ := arraySavesEntries h
      exact ⟨bs, hbs, hsave⟩
    | rbtree =>
      obtain ⟨bs, hbs, -, -, hsave⟩ := rbtreeSavesEntries h
      exact ⟨bs, hbs, hsave⟩
    | hash =>
      obtain ⟨bs, hbs, -, -, hsave⟩ := hashSavesEntries h
      exact ⟨bs, hbs, hsave⟩
    | skiptable => exact absurd rfl hkind
  obtain ⟨es, rfl, hes⟩ := hbs.exists_of_mapVal
  have hrecords : (es.map fun e => (e.1, e.2.stored)).map entryRecord =
      (es.map fun e => (e.1, e.2.value)).map (storedRecord 1) := by
    rw [List.map_map, List.map_map]
    rfl
  refine ⟨_, hsave fun b hb => ?_, es.map fun e => (e.1, e.2.value), hes.mapVal Entry.value,
    congrArg fileBytes hrecords⟩
  obtain ⟨⟨k, e⟩, he, rfl⟩ := List.mem_map.mp hb
  have hv : m₁.mapVal Entry.value k = some e.value := by rw [Map.mapVal_apply, (hes.mem _ _).mp he]; rfl
  obtain ⟨hkey, hvalue, -⟩ := hm _ _ hv
  exact ⟨e.value, rfl, storable_of_argument hkey hvalue⟩

/-- The records are set one after the other. -/
theorem loadLoop {es : List (CString × CString)} (hroom : ks.dedup.length < kvsArraySize) :
    ∀ {s : kind.Store} {m : Map CString CString} {env : Nat → Env}, kind.Shows s m → Requested ks m →
    (∀ e ∈ es, Request.Argument e.1 ∧ Request.Argument e.2 ∧ e.1 ∈ ks) → (∀ n, (env n).Allocates) →
    ∃ s', KvStore.loadLoop kind.engine.setBuffers env es.length s
        (es.flatMap fun e => recordBytes (storedRecord 1 e)) = some (s', 0) ∧
      kind.Shows s' (es.foldl (fun m e => if m e.1 = none then m.insert e.1 e.2 else m) m) := by
  induction es with
  | nil => exact fun h _ _ _ => ⟨_, rfl, h⟩
  | cons e es ih =>
    intro s m env h hm hes henv
    rw [List.forall_mem_cons] at hes
    obtain ⟨⟨hk, hv, hmem⟩, hes⟩ := hes
    obtain ⟨hkw, hvw⟩ := storable_of_argument hk hv
    obtain ⟨s₁, n, hset, h₁, -⟩ := h.set hk hv ((henv 0).after 2) (hm.size.trans_lt hroom)
    have hnew : ∀ k, (Request.set e.1 e.2).newKey = some k → k ∈ ks := fun k hk => by cases hk; exact hmem
    have hm₁ : Requested ks ((Request.set e.1 e.2).apply m) := hm.apply ⟨hk, hv⟩ hnew
    obtain ⟨s', hloop, h'⟩ := ih h₁ hm₁ hes fun n => henv (n + 1)
    have hbuffers : kind.engine.setBuffers ((env 0).after 2) s (storedRecord 1 e).1 (storedRecord 1 e).2 =
        some (s₁, n) := by
      simp only [Engine.setBuffers, storedRecord, CString.object_one, readString_buf, Option.bind_eq_bind,
        Option.bind_some]
      exact hset
    refine ⟨s', ?_, h'⟩
    rw [List.length_cons, List.flatMap_cons, loadLoop_cons (henv 0) hkw hvw, hbuffers]
    exact hloop

/-- A load of a file that any engine saved adds the keys that are new. -/
theorem load {file : List UInt8} (h : kind.Shows s m) (hkind : kind ≠ .skiptable) (hm : Requested ks m)
    (hm' : Requested ks m') (hfile : FileOf m' file) (hroom : ks.dedup.length < kvsArraySize)
    (henv : ∀ n, (env n).Allocates) :
    ∃ s', kind.backend.load env s file = some (s', 0) ∧ kind.Shows s' (m.orElse m') := by
  obtain ⟨es, hes, rfl⟩ := hfile
  have hargs : ∀ e ∈ es, Request.Argument e.1 ∧ Request.Argument e.2 ∧ e.1 ∈ ks := fun e he =>
    hm' _ _ ((hes.mem _ _).mp he)
  obtain ⟨s', hloop, h'⟩ := loadLoop hroom h hm hargs henv
  have hsize : es.length ≤ ks.dedup.length := hes.size ▸ hm'.size
  have hint : IntCodec.IsInt32 es.length := by
    have harray : kvsArraySize ≤ 2147483647 := by decide
    exact ⟨by omega, by omega⟩
  have hcount : ((es.length : Int).bmod UInt32.size).toNat = es.length := by
    rw [IntCodec.bmod_of_isInt32 hint, Int.toNat_natCast]
  refine ⟨s', ?_, hes.foldl_add m ▸ h'⟩
  rw [kind.load_engine hkind, fileBytes, load_int32, List.length_map, hcount, List.flatMap_map]
  exact hloop

end EngineKind.Shows

/-! ### The lines -/

section Lines
variable {kind : EngineKind} {w : Surroundings} {g : Globals} {tokens : Tokens} {line : Bytes} {filename : CString}

theorem afterCase_same (g : Globals) (kind : EngineKind) (x : Bytes) :
    afterCase g kind (g.store kind, g.files, x) = (g, x) := by
  rw [afterCase, Function.update_eq_self]

theorem processCommand_save (hp : pieces line = [kind.commandName .save, filename.bytes]) (hopens : w.opens = true) :
    Dispatch.processCommand w g tokens line = (kind.backend.save w.disk (g.store kind)).map fun r =>
      afterCase g kind (g.store kind, g.files.write filename r.1, fileReply r.2) := by
  obtain ⟨slots, h₁, hline⟩ : ∃ slots : Tokens, _ ∧ Dispatch.processCommand w g tokens line = _ := processCommand_key hp
  rw [hline, runCase]
  simp only [h₁, hopens, Bool.true_eq_false, if_false, Option.bind_eq_bind, Option.bind_some]
  cases kind.backend.save w.disk (g.store kind) <;> rfl

theorem processCommand_load {file : List UInt8} (hp : pieces line = [kind.commandName .load, filename.bytes])
    (hopens : w.opens = true) (hfile : g.files.read filename = some file) :
    Dispatch.processCommand w g tokens line = (kind.backend.load w.env (g.store kind) file).map fun r =>
      afterCase g kind (r.1, g.files, fileReply r.2) := by
  obtain ⟨slots, h₁, hline⟩ : ∃ slots : Tokens, _ ∧ Dispatch.processCommand w g tokens line = _ := processCommand_key hp
  rw [hline, runCase]
  simp only [h₁, hopens, hfile, Bool.true_eq_false, if_false, Option.bind_eq_bind, Option.bind_some]
  cases kind.backend.load w.env (g.store kind) file <;> rfl

/-- A file that cannot be opened, or that is not there. -/
theorem processCommand_noFile {op : Op} (hp : pieces line = [kind.commandName op, filename.bytes])
    (hop : op = .save ∧ w.opens = false ∨ op = .load ∧ (w.opens = false ∨ g.files.read filename = none)) :
    Dispatch.processCommand w g tokens line = some (g, ascii "ERROR") := by
  obtain ⟨slots, h₁, hline⟩ : ∃ slots : Tokens, _ ∧ Dispatch.processCommand w g tokens line = _ := processCommand_key hp
  rw [hline]
  have hcase : runCase kind.backend kind w slots 2 (g.store kind) g.files op =
      some (g.store kind, g.files, ascii "ERROR") := by
    rcases hop with ⟨rfl, hopens⟩ | ⟨rfl, hopens | hfile⟩
    · simp only [runCase, h₁, hopens, if_true, Option.bind_eq_bind, Option.bind_some]
      rfl
    · simp only [runCase, h₁, hopens, if_true, Option.bind_eq_bind, Option.bind_some]
      cases g.files.read filename <;> rfl
    · simp only [runCase, h₁, hfile, Option.bind_eq_bind, Option.bind_some]
      rfl
  rw [hcase, Option.map_some, afterCase_same]

end Lines

/-! ### Runs -/

/-- The engines hold the values of the maps, and the files those of the maps that were put into them. -/
structure Keeps (ks : List CString) (resolve : CString → Nat) (g : Globals) (D : Durable) : Prop where
  maps : Dispatch.Show g D.maps
  requested : ∀ kind, Requested ks (D.maps kind)
  resolve : g.files.resolve = resolve
  absent : ∀ n, D.files n = none → g.files.contents n = none
  present : ∀ n m, D.files n = some m → Requested ks m ∧ ∃ file, g.files.contents n = some file ∧ FileOf m file

section Runs
variable {ks : List CString} {resolve : CString → Nat} {g : Globals} {D : Durable} {o : Order} {c : Incident}

theorem start_keeps (ks : List CString) (resolve : CString → Nat) :
    Keeps ks resolve (Globals.initial (.empty resolve)) Durable.start :=
  ⟨initial_show _, fun _ => requested_empty ks, rfl, fun _ _ => rfl, fun _ _ h => by cases h⟩

theorem Keeps.read (h : Keeps ks resolve g D) (filename : CString) :
    g.files.read filename = g.files.contents (resolve filename) := by
  rw [Files.read, h.resolve]

/-- A line on which an engine changes its map and the files stay. -/
theorem Keeps.update (h : Keeps ks resolve g D) {kind : EngineKind} {m : Map CString CString} {g' : Globals}
    (hshow : kind.Shows (g'.store kind) m) (hother : ∀ kind', kind' ≠ kind → g'.store kind' = g.store kind')
    (hfiles : g'.files = g.files) (hm : Requested ks m) :
    Keeps ks resolve g' { D with maps := Function.update D.maps kind m } := by
  refine ⟨fun kind' => ?_, fun kind' => ?_, hfiles ▸ h.resolve, hfiles ▸ h.absent, hfiles ▸ h.present⟩
  · dsimp only
    by_cases hkind : kind' = kind
    · subst hkind
      rw [Function.update_self]
      exact hshow
    · rw [Function.update_of_ne hkind, hother kind' hkind]
      exact h.maps kind'
  · dsimp only
    by_cases hkind : kind' = kind
    · subst hkind
      rw [Function.update_self]
      exact hm
    · rw [Function.update_of_ne hkind]
      exact h.requested kind'

/-- A line that puts the map of an engine into a file. -/
theorem Keeps.save (h : Keeps ks resolve g D) {kind : EngineKind} {filename : CString} {file : List UInt8}
    (hfile : FileOf (D.maps kind) file) : Keeps ks resolve { g with files := g.files.write filename file }
      { D with files := D.files.insert (resolve filename) (D.maps kind) } := by
  refine ⟨h.maps, h.requested, h.resolve, fun n hn => ?_, fun n m hn => ?_⟩
  · dsimp only [Files.write] at hn ⊢
    rw [h.resolve]
    by_cases heq : n = resolve filename
    · subst heq
      rw [Map.insert_self] at hn
      cases hn
    · rw [Map.insert_of_ne heq] at hn
      rw [Function.update_of_ne heq]
      exact h.absent n hn
  · dsimp only [Files.write] at hn ⊢
    rw [h.resolve]
    by_cases heq : n = resolve filename
    · subst heq
      rw [Map.insert_self] at hn
      obtain rfl := Option.some.inj hn
      exact ⟨h.requested kind, file, Function.update_self .., hfile⟩
    · rw [Map.insert_of_ne heq] at hn
      rw [Function.update_of_ne heq]
      exact h.present n m hn

theorem Keeps.restart (h : Keeps ks resolve g D) :
    Keeps ks resolve (Globals.initial g.files) (D.apply resolve .restart) :=
  ⟨initial_show _, fun _ => requested_empty ks, h.resolve, h.absent, h.present⟩

/-- A request leaves the files. -/
theorem request_files {kind : EngineKind} {r : Request} {i : Input} {g' : Globals} {x : Bytes}
    (hp : pieces i.2.2 = r.tokens kind) (hs : Dispatch.step g i = some (g', x)) : g'.files = g.files := by
  obtain ⟨op, rest, htokens, hsave⟩ : ∃ op rest, r.tokens kind = kind.commandName op :: rest ∧ op ≠ .save := by
    cases r <;> exact ⟨_, _, rfl, by decide⟩
  rw [Dispatch.step, processCommand_known (commandOf_name (hp.trans htokens)), Option.map_eq_some_iff] at hs
  obtain ⟨⟨s, files, y⟩, hcase, heq⟩ := hs
  obtain rfl : (afterCase g kind (s, files, y)).1 = g' := congrArg Prod.fst heq
  show files = g.files
  cases runCase_runs hcase <;> first | rfl | exact absurd rfl hsave

theorem step_line {w : Surroundings} {tokens : Tokens} {command : Bytes} {g' : Globals} {x : Bytes}
    (hs : Dispatch.processCommand w g tokens command = some (g', x)) :
    Incident.step g (.line w tokens command) = some (g', some x) := by
  rw [Incident.step, hs, Option.map_some]

/-- A load that finds no file that it can open. -/
theorem Durable.load_noFile {kind : EngineKind} {filename : CString} {opens : Bool}
    (h : opens = false ∨ D.files (resolve filename) = none) :
    D.Serves resolve (.load kind filename opens) (some (ascii "ERROR"))
        (D.apply resolve (.load kind filename opens)) ∧ D.apply resolve (.load kind filename opens) = D := by
  refine ⟨⟨?_, rfl⟩, ?_⟩
  · rcases h with rfl | h
    · simp [Durable.Replies]
    · simp [Durable.Replies, h]
  · rcases h with rfl | h
    · simp only [Durable.apply, Bool.false_eq_true, if_false]
      split <;> rfl
    · simp only [Durable.apply, h]

/-- Every order is obeyed. -/
theorem Keeps.step (h : Keeps ks resolve g D) (hroom : ks.dedup.length < kvsArraySize) (ho : o.Ok ks)
    (hcopy : D.Copies o) (hc : o.Is c) : ∃ g' x, Incident.step g c = some (g', x) ∧
      D.Serves resolve o x (D.apply resolve o) ∧ Keeps ks resolve g' (D.apply resolve o) := by
  cases c with
  | restart =>
    cases o with
    | restart => exact ⟨_, none, rfl, ⟨rfl, rfl⟩, h.restart⟩
    | _ => exact hc.elim
  | line w tokens command =>
    cases o with
    | request kind r =>
      obtain ⟨g', x, hs, hshow, hx⟩ := step_shows (h.maps kind) ho.1
        (fun _ _ => (h.requested kind).size.trans_lt hroom) hcopy hc
      obtain ⟨op, rest, htokens⟩ := tokens_head kind r
      have hcmd : commandOf command = some (kind, op) := commandOf_name (hc.1.trans htokens)
      exact ⟨g', some x, step_line hs, ⟨⟨x, rfl, hx⟩, rfl⟩,
        h.update hshow (fun kind' hne => step_other hcmd hs hne) (request_files hc.1 hs)
          ((h.requested kind).apply ho.1 ho.2)⟩
    | save kind filename opens =>
      obtain ⟨hp, hopens, hdisk⟩ := hc
      cases opens with
      | false =>
        exact ⟨g, some (ascii "ERROR"), step_line (processCommand_noFile hp (Or.inl ⟨rfl, hopens⟩)), ⟨rfl, rfl⟩, h⟩
      | true =>
        obtain ⟨file, hsave, hfile⟩ := (h.maps kind).save ho (h.requested kind)
        refine ⟨_, some (ascii "SUCCESS"), step_line ?_, ⟨rfl, rfl⟩, h.save hfile⟩
        rw [processCommand_save hp hopens, hdisk, hsave, Option.map_some, afterCase, Function.update_eq_self]
        rfl
    | load kind filename opens =>
      obtain ⟨hp, hopens, henv⟩ := hc
      by_cases hnone : opens = false ∨ D.files (resolve filename) = none
      · have hserved : _ ∧ D.apply resolve (.load kind filename opens) = D := Durable.load_noFile hnone
        obtain ⟨hserves, hsame⟩ := hserved
        have hline : Dispatch.processCommand w g tokens command = some (g, ascii "ERROR") :=
          processCommand_noFile hp (Or.inr ⟨rfl, hnone.imp hopens.trans fun hfile => (h.read filename).trans (h.absent _ hfile)⟩)
        exact ⟨g, _, step_line hline, hserves, hsame.symm ▸ h⟩
      · obtain ⟨hopen, hsome⟩ := not_or.mp hnone
        obtain rfl : opens = true := Bool.eq_true_of_not_eq_false hopen
        obtain ⟨m, hm⟩ := Option.ne_none_iff_exists'.mp hsome
        obtain ⟨hrequested, file, hfile, hof⟩ := h.present _ m hm
        obtain ⟨s, hload, hshow⟩ := (h.maps kind).load ho (h.requested kind) hrequested hof hroom henv
        have happly : D.apply resolve (.load kind filename true) =
            { D with maps := Function.update D.maps kind ((D.maps kind).orElse m) } := by
          simp only [Durable.apply, hm, if_true]
        have hline : Dispatch.processCommand w g tokens command =
            some (afterCase g kind (s, g.files, ascii "SUCCESS")) := by
          rw [processCommand_load hp hopens ((h.read filename).trans hfile), hload, Option.map_some]
          rfl
        refine ⟨_, _, step_line hline, ⟨?_, rfl⟩, happly ▸ h.update ?_ (fun kind' hne => afterCase_store_ne hne _) rfl
          ((h.requested kind).orElse hrequested)⟩
        · simp [Durable.Replies, hm]
        · dsimp only
          rw [Function.update_self]
          exact hshow
    | restart => exact hc.elim

/-- A server obeys its orders, however often it is started again. -/
theorem Keeps.runs {orders : List Order} {incidents : List Incident} (hroom : ks.dedup.length < kvsArraySize)
    (hare : List.Forall₂ Order.Is orders incidents) : ∀ {g : Globals} {D : Durable}, Keeps ks resolve g D →
    (∀ o ∈ orders, o.Ok ks) → Run.Along (Durable.apply resolve) Durable.Copies D orders →
    ∃ g' replies D', Run.runs Incident.step g incidents = some (g', replies) ∧
      Run.Allowed (Durable.Serves resolve) D orders replies D' ∧ Keeps ks resolve g' D' := by
  induction hare with
  | nil => exact fun h _ _ => ⟨_, [], _, rfl, .nil, h⟩
  | cons hc _ ih =>
    intro g D h hok hcopies
    rw [List.forall_mem_cons] at hok
    obtain ⟨g₁, x, hs, hserves, h₁⟩ := h.step hroom hok.1 hcopies.1 hc
    obtain ⟨g', replies, D', hrun, hallowed, h'⟩ := ih h₁ hok.2 hcopies.2
    exact ⟨g', x :: replies, D', Run.runs_cons hs hrun, .cons hserves hallowed, h'⟩

end Runs

/-- Requests, saves, loads and restarts in any order, on files that are not there at first: where the engines can copy
    what the ranges find, the server ends none of its processes by itself, and replies what four maps and the maps in the
    files give. A file that one engine saved is loaded by each of the three, under every path that leads to it, and what is
    in no file is lost with the process. -/
theorem restarts_serve {ks : List CString} {resolve : CString → Nat} {orders : List Order} {incidents : List Incident}
    (hroom : ks.dedup.length < kvsArraySize) (hok : ∀ o ∈ orders, o.Ok ks)
    (hcopies : Run.Along (Durable.apply resolve) Durable.Copies Durable.start orders)
    (hare : List.Forall₂ Order.Is orders incidents) :
    ∃ g replies D, Run.runs Incident.step (Globals.initial (.empty resolve)) incidents = some (g, replies) ∧
      Run.Allowed (Durable.Serves resolve) Durable.start orders replies D ∧ Keeps ks resolve g D :=
  Keeps.runs hroom hare (start_keeps ks resolve) hok hcopies

/-- The paths `f` and `./f` lead to the same file. -/
def twoPaths (path : CString) : Nat := if path.bytes = ascii "f" ∨ path.bytes = ascii "./f" then 0 else 1

/-- A key is set in the array and saved; after the end of the process it is loaded into the tree, by the other path to
    the file, and found by a range. -/
def setSaveRestart : List Order :=
  [.request .array (.set (.ofBytes (ascii "the-key")) (.ofBytes (ascii "a-value"))),
    .save .array (.ofBytes (ascii "f")) true, .restart, .load .rbtree (.ofBytes (ascii "./f")) true,
    .request .rbtree (.range (.ofBytes (ascii "a")) (.ofBytes (ascii "z")))]

def setSaveRestartLines : List Incident :=
  [.line .calm (fun _ => none) (ascii "SET the-key a-value"), .line .calm (fun _ => none) (ascii "SAVE f"), .restart,
    .line .calm (fun _ => none) (ascii "RLOAD ./f"), .line .calm (fun _ => none) (ascii "RRANGE a z")]

theorem setSaveRestart_ok : ∀ o ∈ setSaveRestart, o.Ok [.ofBytes (ascii "the-key")] := by
  have hset : (Request.set (.ofBytes (ascii "the-key")) (.ofBytes (ascii "a-value"))).Ok := ⟨by decide, by decide⟩
  have hrange : (Request.range (.ofBytes (ascii "a")) (.ofBytes (ascii "z"))).Ok := ⟨by decide, by decide⟩
  simp only [setSaveRestart, List.forall_mem_cons, Order.Ok]
  exact ⟨⟨hset, by decide⟩, by decide, trivial, by decide, ⟨hrange, by decide⟩, by simp⟩

theorem setSaveRestart_copies :
    Run.Along (Durable.apply twoPaths) Durable.Copies Durable.start setSaveRestart := by
  refine ⟨trivial, trivial, trivial, trivial, fun k v _ _ hv => ?_, trivial⟩
  have hv : (Map.empty.insert (.ofBytes (ascii "the-key")) (.ofBytes (ascii "a-value")) : Map CString CString) k =
      some v := hv
  by_cases hk : k = .ofBytes (ascii "the-key")
  · subst hk
    rw [Map.insert_self] at hv
    exact Option.some.inj hv ▸ ⟨by decide, by decide⟩
  · rw [Map.insert_of_ne hk] at hv
    cases hv

theorem setSaveRestart_is : List.Forall₂ Order.Is setSaveRestart setSaveRestartLines :=
  .cons ⟨by decide +kernel, Env.calm_allocates 0⟩ <| .cons ⟨by decide +kernel, rfl, rfl⟩ <| .cons trivial <|
    .cons ⟨by decide +kernel, rfl, fun _ => Env.calm_allocates 0⟩ <|
    .cons ⟨by decide +kernel, Env.calm_allocates 0⟩ .nil

theorem restarts_serve_setSaveRestart : ∃ g replies D,
    Run.runs Incident.step (Globals.initial (.empty twoPaths)) setSaveRestartLines = some (g, replies) ∧
      Run.Allowed (Durable.Serves twoPaths) Durable.start setSaveRestart replies D ∧
      Keeps [.ofBytes (ascii "the-key")] twoPaths g D :=
  restarts_serve (by decide) setSaveRestart_ok setSaveRestart_copies setSaveRestart_is

end KvStore
