import KvStore.Theorems.Backend

/-! What a line has to do with the lines before it: the slots of the member array that it does not write. A case
    depends on them when it passes on a token that it has not counted. -/

namespace KvStore

/-- The number of tokens that the case of a command takes without a look at the count. -/
def Op.unchecked : Op → Nat
  | .set => 1
  | .get => 2
  | .del => 2
  | .mod => 3
  | .exist => 2
  | .save => 2
  | .load => 2
  | .range => 3
  | .sync => 1
  | .getAll => 1

section Case
variable {σ : Type} {B : Backend σ} {kind : EngineKind} {w : Surroundings} {tokens tokens' : Tokens} {count : Nat}
  {s : σ} {files : Files} {op : Op}

/-- A case that is given the tokens that it takes sees no others. -/
theorem runCase_congr (hcount : op.unchecked ≤ count) (h : ∀ i < count, tokens i = tokens' i) :
    runCase B kind w tokens count s files op = runCase B kind w tokens' count s files op := by
  have htwo : 2 ≤ count → tokens 1 = tokens' 1 := fun hc => h 1 hc
  have hthree : 3 ≤ count → tokens 1 = tokens' 1 ∧ tokens 2 = tokens' 2 := fun hc =>
    ⟨h 1 (Nat.lt_of_succ_lt hc), h 2 hc⟩
  cases op with
  | set =>
    by_cases hc : count < 3
    · simp only [runCase, if_pos hc]
    · obtain ⟨h₁, h₂⟩ := hthree (Nat.le_of_not_lt hc)
      simp only [runCase, h₁, h₂]
  | get => simp only [runCase, htwo hcount]
  | del => simp only [runCase, htwo hcount]
  | mod => simp only [runCase, hthree hcount]
  | exist => simp only [runCase, htwo hcount]
  | save => simp only [runCase, htwo hcount]
  | load => simp only [runCase, htwo hcount]
  | range => simp only [runCase, hthree hcount]
  | sync =>
    by_cases hc : count < 3
    · simp only [runCase, if_pos hc]
    · obtain ⟨h₁, h₂⟩ := hthree (Nat.le_of_not_lt hc)
      simp only [runCase, h₁, h₂]
  | getAll => rfl

/-- A case that is not given the tokens that it takes passes on a slot that nothing was written to. -/
theorem runCase_unwritten (hpos : 0 < count) (hcount : count < op.unchecked) (h : ∀ i, count ≤ i → tokens i = none) :
    runCase B kind w tokens count s files op = none := by
  have hone : op.unchecked ≤ 2 → tokens 1 = none := fun hop => h 1 (Nat.le_of_lt_succ (hcount.trans_le hop))
  have htwo : op.unchecked ≤ 3 → tokens 2 = none := fun hop => h 2 (Nat.le_of_lt_succ (hcount.trans_le hop))
  cases op with
  | set => exact absurd hcount (Nat.not_lt.mpr hpos)
  | get => simp [runCase, hone le_rfl]
  | del => simp [runCase, hone le_rfl]
  | mod => cases h₁ : tokens 1 <;> simp [runCase, h₁, htwo le_rfl]
  | exist => simp [runCase, hone le_rfl]
  | save => simp [runCase, hone le_rfl]
  | load => simp [runCase, hone le_rfl]
  | range => cases h₁ : tokens 1 <;> simp [runCase, h₁, htwo le_rfl]
  | sync => exact absurd hcount (Nat.not_lt.mpr hpos)
  | getAll => exact absurd hcount (Nat.not_lt.mpr hpos)

/-- What a case calls on each way through it, and what it comes to there. -/
inductive CaseRuns (B : Backend σ) (kind : EngineKind) (w : Surroundings) (tokens : Tokens) (count : Nat) (s : σ)
    (files : Files) : Op → σ → Files → Bytes → Prop
  | setShort (hcount : count < 3) : CaseRuns B kind w tokens count s files .set s files kind.setFailed
  | set {key value s' res} (hcount : 3 ≤ count) (hkey : tokens 1 = some key) (hvalue : tokens 2 = some value)
      (hcall : B.set (w.env 0) s key value = some (s', res)) :
      CaseRuns B kind w tokens count s files .set s' files (setReply res)
  | get {key value response} (hkey : tokens 1 = some key) (hcall : B.get s key = some value)
      (hreply : getReply value = some response) : CaseRuns B kind w tokens count s files .get s files response
  | del {key s' res} (hkey : tokens 1 = some key) (hcall : B.delete s key = some (s', res)) :
      CaseRuns B kind w tokens count s files .del s' files (changeReply res)
  | mod {key value s' res} (hkey : tokens 1 = some key) (hvalue : tokens 2 = some value)
      (hcall : B.modify (w.env 0) s key value = some (s', res)) :
      CaseRuns B kind w tokens count s files .mod s' files (changeReply res)
  | exist {key res} (hkey : tokens 1 = some key) (hcall : B.exist s key = some res) :
      CaseRuns B kind w tokens count s files .exist s files (existReply res)
  | saveClosed {filename} (hname : tokens 1 = some filename) (hopens : w.opens = false) :
      CaseRuns B kind w tokens count s files .save s files (fileReply (-1))
  | save {filename file res} (hname : tokens 1 = some filename) (hopens : w.opens = true)
      (hcall : B.save w.disk s = some (file, res)) :
      CaseRuns B kind w tokens count s files .save s (files.write filename file) (fileReply res)
  | loadClosed {filename} (hname : tokens 1 = some filename) (hopens : files.read filename = none ∨ w.opens = false) :
      CaseRuns B kind w tokens count s files .load s files (fileReply (-1))
  | load {filename file s' res} (hname : tokens 1 = some filename) (hfile : files.read filename = some file)
      (hopens : w.opens = true) (hcall : B.load w.env s file = some (s', res)) :
      CaseRuns B kind w tokens count s files .load s' files (fileReply res)
  | range {startKey endKey res items} (hstart : tokens 1 = some startKey) (hend : tokens 2 = some endKey)
      (hcall : B.range (w.env 0) s startKey endKey = some (res, items)) :
      CaseRuns B kind w tokens count s files .range s files (rangeReply res items)
  | syncShort (hcount : count < 3) : CaseRuns B kind w tokens count s files .sync s files (ascii "FAILED")
  | syncFails {ip port} (hcount : 3 ≤ count) (hip : tokens 1 = some ip) (hport : tokens 2 = some port)
      (hpull : w.pull kind ip port = .fails) :
      CaseRuns B kind w tokens count s files .sync s files (ascii "FAILED")
  | sync {ip port text s' response} (hcount : 3 ≤ count) (hip : tokens 1 = some ip) (hport : tokens 2 = some port)
      (hpull : w.pull kind ip port = .reaches text)
      (hcall : pullResponse B.toEngine w.env w.junk s text = some (s', response)) :
      CaseRuns B kind w tokens count s files .sync s' files response
  | getAll {localData} (hcall : getLocalData B.toScan (w.env 0) s = some localData) :
      CaseRuns B kind w tokens count s files .getAll s files (dumpText localData)

variable {s' : σ} {files' : Files} {response : Bytes}

theorem CaseRuns.runCase (h : CaseRuns B kind w tokens count s files op s' files' response) :
    runCase B kind w tokens count s files op = some (s', files', response) := by
  cases h with
  | setShort hcount => simp [KvStore.runCase, hcount]
  | set hcount hkey hvalue hcall => simp [KvStore.runCase, Nat.not_lt.mpr hcount, hkey, hvalue, hcall]
  | get hkey hcall hreply => simp [KvStore.runCase, hkey, hcall, hreply]
  | del hkey hcall => simp [KvStore.runCase, hkey, hcall]
  | mod hkey hvalue hcall => simp [KvStore.runCase, hkey, hvalue, hcall]
  | exist hkey hcall => simp [KvStore.runCase, hkey, hcall]
  | saveClosed hname hopens => simp [KvStore.runCase, hname, hopens]
  | save hname hopens hcall => simp [KvStore.runCase, hname, hopens, hcall]
  | @loadClosed filename hname hopens =>
    cases hfile : files.read filename with
    | none => simp [KvStore.runCase, hname, hfile]
    | some file => simp [KvStore.runCase, hname, hfile, hopens.resolve_left (by simp [hfile])]
  | load hname hfile hopens hcall => simp [KvStore.runCase, hname, hfile, hopens, hcall]
  | range hstart hend hcall => simp [KvStore.runCase, hstart, hend, hcall]
  | syncShort hcount => simp [KvStore.runCase, hcount]
  | syncFails hcount hip hport hpull => simp [KvStore.runCase, Nat.not_lt.mpr hcount, hip, hport, hpull]
  | sync hcount hip hport hpull hcall => simp [KvStore.runCase, Nat.not_lt.mpr hcount, hip, hport, hpull, hcall]
  | getAll hcall => simp [KvStore.runCase, hcall]

theorem runCase_runs
    (hs : runCase B kind w tokens count s files op = some (s', files', response)) :
    CaseRuns B kind w tokens count s files op s' files' response := by
  cases op with
  | set =>
    rw [runCase] at hs
    split at hs
    · next hcount =>
      cases hs
      exact .setShort hcount
    · next hcount =>
      simp only [Option.bind_eq_bind, Option.bind_eq_some_iff] at hs
      obtain ⟨key, hkey, value, hvalue, r, hcall, hs⟩ := hs
      cases hs
      exact .set (Nat.le_of_not_lt hcount) hkey hvalue hcall
  | get =>
    simp only [runCase, Option.bind_eq_bind, Option.bind_eq_some_iff] at hs
    obtain ⟨key, hkey, value, hcall, r, hreply, hs⟩ := hs
    cases hs
    exact .get hkey hcall hreply
  | del =>
    simp only [runCase, Option.bind_eq_bind, Option.bind_eq_some_iff] at hs
    obtain ⟨key, hkey, r, hcall, hs⟩ := hs
    cases hs
    exact .del hkey hcall
  | mod =>
    simp only [runCase, Option.bind_eq_bind, Option.bind_eq_some_iff] at hs
    obtain ⟨key, hkey, value, hvalue, r, hcall, hs⟩ := hs
    cases hs
    exact .mod hkey hvalue hcall
  | exist =>
    simp only [runCase, Option.bind_eq_bind, Option.bind_eq_some_iff] at hs
    obtain ⟨key, hkey, res, hcall, hs⟩ := hs
    cases hs
    exact .exist hkey hcall
  | save =>
    simp only [runCase, Option.bind_eq_bind, Option.bind_eq_some_iff] at hs
    obtain ⟨filename, hname, hs⟩ := hs
    split at hs
    · next hopens =>
      cases hs
      exact .saveClosed hname hopens
    · next hopens =>
      obtain ⟨r, hcall, hs⟩ := Option.bind_eq_some_iff.mp hs
      cases hs
      exact .save hname (Bool.eq_true_of_not_eq_false hopens) hcall
  | load =>
    simp only [runCase, Option.bind_eq_bind, Option.bind_eq_some_iff] at hs
    obtain ⟨filename, hname, hs⟩ := hs
    split at hs
    · next hfile =>
      cases hs
      exact .loadClosed hname (Or.inl hfile)
    · next file hfile =>
      split at hs
      · next hopens =>
        cases hs
        exact .loadClosed hname (Or.inr hopens)
      · next hopens =>
        obtain ⟨r, hcall, hs⟩ := Option.bind_eq_some_iff.mp hs
        cases hs
        exact .load hname hfile (Bool.eq_true_of_not_eq_false hopens) hcall
  | range =>
    simp only [runCase, Option.bind_eq_bind, Option.bind_eq_some_iff] at hs
    obtain ⟨startKey, hstart, endKey, hend, r, hcall, hs⟩ := hs
    cases hs
    exact .range hstart hend hcall
  | sync =>
    rw [runCase] at hs
    split at hs
    · next hcount =>
      cases hs
      exact .syncShort hcount
    · next hcount =>
      simp only [Option.bind_eq_bind, Option.bind_eq_some_iff] at hs
      obtain ⟨ip, hip, port, hport, hs⟩ := hs
      split at hs
      · cases hs
      · next hpull =>
        cases hs
        exact .syncFails (Nat.le_of_not_lt hcount) hip hport hpull
      · next text hpull =>
        obtain ⟨r, hcall, hs⟩ := Option.bind_eq_some_iff.mp hs
        cases hs
        exact .sync (Nat.le_of_not_lt hcount) hip hport hpull hcall
  | getAll =>
    simp only [runCase, Option.bind_eq_bind, Option.bind_eq_some_iff] at hs
    obtain ⟨localData, hcall, hs⟩ := hs
    cases hs
    exact .getAll hcall

end Case

/-! ### A case that returns -/

/-- A new store; the hash has a table of one slot, so that every key has a slot in it. -/
def oneSlot : (kind : EngineKind) → kind.Store
  | .array => kvsArrayCreate
  | .rbtree => kvsRbtreeCreate
  | .hash => { kvsHashCreate with maxSlots := 1 }
  | .skiptable => kvsSkiptableCreate

theorem oneSlot_chain (k : CString) : (oneSlot .hash).chain (hash k (oneSlot .hash).maxSlots) = some [] := by
  have hslot : hash k (oneSlot .hash).maxSlots = 0 := Int.tmod_one _
  rw [hslot]
  rfl

section Returns
variable (kind : EngineKind) (k v : CString)

theorem get_returns : kind.engine.get (oneSlot kind) k = some .null := by
  cases kind with
  | array => rfl
  | rbtree => rfl
  | hash =>
    show kvsHashGet (oneSlot .hash) k = some .null
    simp only [kvsHashGet, oneSlot_chain, Option.bind_eq_bind, Option.bind_some]
    rfl
  | skiptable => rfl

theorem delete_returns : ∃ n, kind.engine.delete (oneSlot kind) k = some (oneSlot kind, n) := by
  cases kind with
  | array => exact ⟨_, rfl⟩
  | rbtree => exact ⟨_, rfl⟩
  | hash =>
    refine ⟨-2, show kvsHashDelete (oneSlot .hash) k = some (oneSlot .hash, -2) from ?_⟩
    simp only [kvsHashDelete, oneSlot_chain, Option.bind_eq_bind, Option.bind_some]
  | skiptable => exact ⟨_, rfl⟩

theorem modify_returns : ∃ n, kind.engine.modify (.calm 0) (oneSlot kind) k v = some (oneSlot kind, n) := by
  cases kind with
  | array => exact ⟨_, rfl⟩
  | rbtree => exact ⟨_, rfl⟩
  | hash =>
    refine ⟨-2, show kvsHashModify (.calm 0) (oneSlot .hash) k v = some (oneSlot .hash, -2) from ?_⟩
    simp only [kvsHashModify, kvsHashModifyWithTimestamp, oneSlot_chain, Option.bind_eq_bind, Option.bind_some]
    rfl
  | skiptable => exact ⟨_, rfl⟩

theorem exist_returns : ∃ n, kind.engine.exist (oneSlot kind) k = some n := by
  cases kind with
  | array => exact ⟨_, rfl⟩
  | rbtree => exact ⟨_, rfl⟩
  | hash =>
    refine ⟨-1, show kvsHashExist (oneSlot .hash) k = some (-1) from ?_⟩
    simp only [kvsHashExist, kvsHashGet, oneSlot_chain, Option.bind_eq_bind, Option.bind_some]
    rfl
  | skiptable => exact ⟨_, rfl⟩

theorem save_returns : (kind.backend.save .good kind.created).isSome = true := by
  cases kind with
  | array => rfl
  | rbtree => rfl
  | hash => decide +kernel
  | skiptable => rfl

theorem range_returns {a b : CString} : (kind.scan.range (.calm 0) kind.created a b).isSome = true := by
  rcases lt_or_ge b a with hlt | hle
  · rw [kind.scanLaws.reversed hlt]
    rfl
  · obtain ⟨es, n, -, -, -, hrange⟩ :=
      kind.scanLaws.range_of kind.created_holds (Env.calm_allocates 0) hle ((mapOf_empty _).between a b)
    rw [hrange]
    rfl

@[simp] theorem Files.read_empty (resolve : CString → Nat) (path : CString) : (empty resolve).read path = none := rfl

/-- Surroundings where files open, the disk takes everything, and no peer is there. -/
def Surroundings.calm : Surroundings where
  env _ := .calm 0
  opens := true
  disk := .good
  pull _ _ _ := .fails
  junk _ := 0

/-- No files; all paths lead to one. -/
def Files.calm : Files := .empty fun _ => 0

/-- With strings in the slots that it takes unchecked, the case of a command returns on some store. -/
theorem exists_returns {op : Op} (hop : 2 ≤ op.unchecked) :
    ∃ s : kind.Store, ∀ {tokens : Tokens} {count : Nat} {k v : CString},
    tokens 1 = some k → tokens 2 = some v →
    (runCase kind.backend kind .calm tokens count s .calm op).isSome = true := by
  cases op with
  | set => exact absurd hop (by decide)
  | get =>
    refine ⟨oneSlot kind, fun {tokens count k v} h₁ _ => ?_⟩
    simp only [runCase, h₁, Option.bind_eq_bind, Option.bind_some, get_returns kind k]
    rfl
  | del =>
    refine ⟨oneSlot kind, fun {tokens count k v} h₁ _ => ?_⟩
    obtain ⟨n, hdelete⟩ := delete_returns kind k
    simp only [runCase, h₁, Option.bind_eq_bind, Option.bind_some, hdelete, Option.isSome_some]
  | mod =>
    refine ⟨oneSlot kind, fun {tokens count k v} h₁ h₂ => ?_⟩
    obtain ⟨n, hmodify⟩ := modify_returns kind k v
    simp only [runCase, h₁, h₂, Option.bind_eq_bind, Option.bind_some, Surroundings.calm, hmodify,
      Option.isSome_some]
  | exist =>
    refine ⟨oneSlot kind, fun {tokens count k v} h₁ _ => ?_⟩
    obtain ⟨n, hexist⟩ := exist_returns kind k
    simp only [runCase, h₁, Option.bind_eq_bind, Option.bind_some, hexist, Option.isSome_some]
  | save =>
    refine ⟨kind.created, fun {tokens count k v} h₁ _ => ?_⟩
    obtain ⟨⟨file, n⟩, hsave⟩ := Option.isSome_iff_exists.mp (save_returns kind)
    simp [runCase, h₁, Surroundings.calm, hsave]
  | load =>
    refine ⟨kind.created, fun {tokens count k v} h₁ _ => ?_⟩
    simp only [runCase, h₁, Option.bind_eq_bind, Option.bind_some, Files.calm, Files.read_empty, Option.isSome_some]
  | range =>
    refine ⟨kind.created, fun {tokens count k v} h₁ h₂ => ?_⟩
    obtain ⟨⟨n, items⟩, hrange⟩ := Option.isSome_iff_exists.mp (range_returns kind (a := k) (b := v))
    simp only [runCase, h₁, h₂, Option.bind_eq_bind, Option.bind_some, Surroundings.calm, hrange,
      Option.isSome_some]
  | sync => exact absurd hop (by decide)
  | getAll => exact absurd hop (by decide)

end Returns

/-! ### From the line to its case -/

namespace Dispatch

/-- The tokens of a line. -/
def pieces (command : Bytes) : List Bytes := tokenize (commandBuf command)

/-- The command that a line is for. -/
def commandOf (command : Bytes) : Option (EngineKind × Op) :=
  (pieces command).head?.bind fun name => findCommand (CString.ofBytes name).bytes

/-- The number of tokens that the case of a line takes without a look at the count. -/
def unchecked (command : Bytes) : Nat := (commandOf command).elim 0 fun c => c.2.unchecked

/-- The slots of the member array when the case of a line begins. -/
def lineTokens (tokens : Tokens) (command : Bytes) : Tokens := writeTokens tokens (pieces command)

variable {w : Surroundings} {g : Globals} {tokens tokens' : Tokens} {command : Bytes} {kind : EngineKind} {op : Op}

theorem lineTokens_lt {i : Nat} (hi : i < (pieces command).length) :
    lineTokens tokens command i = some (CString.ofBytes (pieces command)[i]) := by
  simp only [lineTokens, writeTokens, List.getElem?_eq_getElem hi]

theorem lineTokens_ge {i : Nat} (hi : (pieces command).length ≤ i) : lineTokens tokens command i = tokens i := by
  simp only [lineTokens, writeTokens, List.getElem?_eq_none hi]

theorem pieces_pos (h : commandOf command = some (kind, op)) : 0 < (pieces command).length := by
  cases hp : pieces command with
  | nil => simp [commandOf, hp] at h
  | cons name rest => simp

/-- The first slot has the name that is looked up, when the line has a token. -/
theorem lineTokens_zero (hpos : 0 < (pieces command).length) :
    ∃ name, lineTokens tokens command 0 = some name ∧ findCommand name.bytes = commandOf command := by
  refine ⟨_, lineTokens_lt hpos, ?_⟩
  rw [commandOf, List.head?_eq_getElem?, List.getElem?_eq_getElem hpos, Option.bind_some]

/-- What the case of a command makes of the globals. -/
def afterCase (g : Globals) (kind : EngineKind) (out : kind.Store × Files × Bytes) : Globals × Bytes :=
  (⟨Function.update g.store kind out.1, out.2.1⟩, out.2.2)

@[simp] theorem afterCase_store (out : kind.Store × Files × Bytes) : (afterCase g kind out).1.store kind = out.1 :=
  Function.update_self ..

@[simp] theorem afterCase_reply (out : kind.Store × Files × Bytes) : (afterCase g kind out).2 = out.2.2 := rfl

theorem afterCase_store_ne {kind' : EngineKind} (h : kind' ≠ kind) (out : kind.Store × Files × Bytes) :
    (afterCase g kind out).1.store kind' = g.store kind' := Function.update_of_ne h ..

theorem processCommand_known (h : commandOf command = some (kind, op)) : processCommand w g tokens command =
    (runCase kind.backend kind w (lineTokens tokens command) (pieces command).length (g.store kind) g.files op).map
      (afterCase g kind) := by
  have hpos := pieces_pos h
  obtain ⟨name, hzero, hfind⟩ := @lineTokens_zero tokens command hpos
  show parseProtocolToString w g (lineTokens tokens command) (pieces command).length = _
  rw [parseProtocolToString, if_neg (Nat.not_lt.mpr hpos), hzero]
  simp only [Option.bind_eq_bind, Option.bind_some, hfind, h, Option.map_eq_bind]
  rfl

theorem processCommand_unknown (h : commandOf command = none) : processCommand w g tokens command = some (g, []) := by
  show parseProtocolToString w g (lineTokens tokens command) (pieces command).length = _
  by_cases hpos : 0 < (pieces command).length
  · obtain ⟨name, hzero, hfind⟩ := @lineTokens_zero tokens command hpos
    rw [parseProtocolToString, if_neg (Nat.not_lt.mpr hpos), hzero]
    simp only [Option.bind_eq_bind, Option.bind_some, hfind, h]
  · rw [parseProtocolToString, if_pos (Nat.lt_one_iff.mpr (Nat.eq_zero_of_not_pos hpos))]

/-- A line that is answered is no command, or its case has returned. -/
theorem processCommand_cases {g' : Globals} {response : Bytes}
    (hs : processCommand w g tokens command = some (g', response)) :
    commandOf command = none ∧ g' = g ∧ response = [] ∨
    ∃ kind op s' files', commandOf command = some (kind, op) ∧ g' = (afterCase g kind (s', files', response)).1 ∧
      runCase kind.backend kind w (lineTokens tokens command) (pieces command).length (g.store kind) g.files op =
        some (s', files', response) := by
  cases hcmd : commandOf command with
  | none =>
    rw [processCommand_unknown hcmd] at hs
    cases hs
    exact Or.inl ⟨rfl, rfl, rfl⟩
  | some c =>
    obtain ⟨kind, op⟩ := c
    rw [processCommand_known hcmd, Option.map_eq_some_iff] at hs
    obtain ⟨⟨s', files', r⟩, hrun, heq⟩ := hs
    cases heq
    exact Or.inr ⟨kind, op, s', files', rfl, rfl, hrun⟩

/-- Globals that hold a store of one engine. -/
def globalsWith (s : kind.Store) : Globals := ⟨Function.update EngineKind.created kind s, .calm⟩

theorem globalsWith_store (s : kind.Store) : (globalsWith s).store kind = s := Function.update_self ..

/-- A connection whose one earlier line has three tokens. -/
def threeTokens : Bytes := ascii "SET a b"

theorem tokensAfter_three (reads : Slot → Option CString) {i : Nat} (hi : i < 3) :
    tokensAfter reads [threeTokens] i = reads (.pointsInto threeTokens i) := by
  have hlen : (tokenize (commandBuf threeTokens)).length = 3 := by decide
  simp only [tokensAfter, slotsAfter, List.foldl_cons, List.foldl_nil, hlen, if_pos hi]

/-- Slots that can be read once they were written. -/
def readsWritten : Slot → Option CString
  | .unwritten => none
  | .pointsInto _ _ => some (CString.ofBytes [])

theorem readsWritten_some (command : Bytes) {i : Nat} (hi : i < 3) :
    ∃ k, lineTokens (tokensAfter readsWritten [threeTokens]) command i = some k := by
  rcases Nat.lt_or_ge i (pieces command).length with hlt | hge
  · exact ⟨_, lineTokens_lt hlt⟩
  · exact ⟨_, (lineTokens_ge hge).trans (tokensAfter_three readsWritten hi)⟩

/-- A line has the same effect after every history exactly when it has the tokens that its case takes. -/
theorem own_tokens_iff (command : Bytes) :
    (∀ w g reads history history', processCommand w g (tokensAfter reads history) command =
      processCommand w g (tokensAfter reads history') command) ↔
    unchecked command ≤ (tokenize (commandBuf command)).length := by
  show _ ↔ unchecked command ≤ (pieces command).length
  cases hcmd : commandOf command with
  | none =>
    have hzero : unchecked command = 0 := by rw [unchecked, hcmd, Option.elim_none]
    refine iff_of_true (fun w g reads history history' => ?_) (hzero ▸ Nat.zero_le _)
    rw [processCommand_unknown hcmd, processCommand_unknown hcmd]
  | some c =>
    obtain ⟨kind, op⟩ := c
    have hop : unchecked command = op.unchecked := by rw [unchecked, hcmd, Option.elim_some]
    rw [hop]
    constructor
    · intro h
      by_contra hlt
      have hlt : (pieces command).length < op.unchecked := Nat.lt_of_not_le hlt
      have hpos := pieces_pos hcmd
      obtain ⟨s, hs⟩ := exists_returns kind (Nat.lt_of_le_of_lt hpos hlt)
      obtain ⟨k, h₁⟩ := readsWritten_some command (show 1 < 3 by decide)
      obtain ⟨v, h₂⟩ := readsWritten_some command (show 2 < 3 by decide)
      have hreturns := @hs _ (pieces command).length _ _ h₁ h₂
      have heq := h .calm (globalsWith s) readsWritten [] [threeTokens]
      rw [processCommand_known hcmd, processCommand_known hcmd, globalsWith_store,
        runCase_unwritten hpos hlt fun i hi => lineTokens_ge hi, Option.map_none, eq_comm, Option.map_eq_none_iff] at heq
      have heq : runCase kind.backend kind .calm (lineTokens (tokensAfter readsWritten [threeTokens]) command)
        (pieces command).length s .calm op = none := heq
      rw [heq] at hreturns
      cases hreturns
    · intro hle w g reads history history'
      rw [processCommand_known hcmd, processCommand_known hcmd]
      refine congrArg _ (runCase_congr hle fun i hi => ?_)
      rw [lineTokens_lt hi, lineTokens_lt hi]

/-- What a slot gives when the buffers of all lines of the connection are in the same place, for lines whose tokens
    are one space apart. -/
def sameFrame (command : Bytes) : Slot → Option CString
  | .unwritten => none
  | .pointsInto earlier i =>
    let offset := (((pieces earlier).take i).map fun token => token.length + 1).sum
    some (CString.ofBytes (((commandBuf command).drop offset).takeWhile (· ≠ space)))

/-- An array with one key, of eight letters. -/
def eightLetters : CString := CString.ofBytes (ascii "kkkkkkkk")

def oneKey : KvArray :=
  ((kvsArraySet (.calm 0) kvsArrayCreate eightLetters (CString.ofBytes (ascii "v"))).map Prod.fst).getD kvsArrayCreate

/-- A `MOD` without a value for that array, after some lines. -/
def modWithoutValue (history : List Bytes) : Option (Globals × Bytes) :=
  let command := ascii "MOD kkkkkkkk"
  processCommand .calm (@globalsWith .array oneKey) (tokensAfter (sameFrame command) history) command

/-- What the array has under the key then. -/
def valueAfter (out : Option (Globals × Bytes)) : Option CharPtr :=
  out.bind fun (g, _) => kvsArrayGet (g.store .array) eightLetters

/-- The value that a `MOD` without one stores has a length that comes from the key of the line before. -/
theorem mod_missingToken :
    valueAfter (modWithoutValue [ascii "SET a b"]) = some (.str (CString.ofBytes (ascii "kkkkkk"))) ∧
      valueAfter (modWithoutValue [ascii "SET abcd b"]) = some (.str (CString.ofBytes (ascii "kkk"))) ∧
      modWithoutValue [ascii "SET a b"] ≠ modWithoutValue [ascii "SET abcd b"] := by
  have hone : valueAfter (modWithoutValue [ascii "SET a b"]) = some (.str (CString.ofBytes (ascii "kkkkkk"))) := by
    decide +kernel
  have htwo : valueAfter (modWithoutValue [ascii "SET abcd b"]) = some (.str (CString.ofBytes (ascii "kkk"))) := by
    decide +kernel
  refine ⟨hone, htwo, fun heq => ?_⟩
  rw [heq, htwo] at hone
  exact absurd hone (by decide +kernel)

end Dispatch

end KvStore
