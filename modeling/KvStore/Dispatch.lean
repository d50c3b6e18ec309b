import KvStore.Command
import KvStore.Range
import KvStore.Wire

/-! `process_command` and `parse_protocol_to_string` with all of their forty cases, for the four engines of one
    server. The cases of the engines are the same ten, with functions and names of their own. What a case takes from
    outside the server is in `Surroundings`; `none` stands for a fault, or an exception that nothing catches. -/

namespace KvStore

/-- The functions of one engine that its cases call. -/
structure Backend (σ : Type) extends Engine σ, Scan σ where
  save : Disk → σ → Option (List UInt8 × Int)
  load : (Nat → Env) → σ → List UInt8 → Option (σ × Int)

def arrayBackend : Backend KvArray := { arrayEngine, arrayScan with save := kvsArraySave, load := kvsArrayLoad }

def rbtreeBackend : Backend Rbtree := { rbtreeEngine, rbtreeScan with save := kvsRbtreeSave, load := kvsRbtreeLoad }

def hashBackend : Backend Hash := { hashEngine, hashScan with save := kvsHashSave, load := kvsHashLoad }

def skiptableBackend : Backend Skiptable :=
  { skiptableEngine, skiptableScan with save := kvsSkiptableSave, load := kvsSkiptableLoad }

abbrev EngineKind.Store : EngineKind → Type
  | .array => KvArray
  | .rbtree => Rbtree
  | .hash => Hash
  | .skiptable => Skiptable

def EngineKind.backend : (kind : EngineKind) → Backend kind.Store
  | .array => arrayBackend
  | .rbtree => rbtreeBackend
  | .hash => hashBackend
  | .skiptable => skiptableBackend

/-- The store that `kvs_*_create` makes. -/
def EngineKind.created : (kind : EngineKind) → kind.Store
  | .array => kvsArrayCreate
  | .rbtree => kvsRbtreeCreate
  | .hash => kvsHashCreate
  | .skiptable => kvsSkiptableCreate

/-! ### The table of commands -/

/-- The ten commands of an engine. -/
inductive Op where
  | set
  | get
  | del
  | mod
  | exist
  | save
  | load
  | range
  | sync
  | getAll
deriving DecidableEq

def Op.all : List Op := [.set, .get, .del, .mod, .exist, .save, .load, .range, .sync, .getAll]

/-- What the names of the commands of an engine begin with. -/
def EngineKind.letter : EngineKind → Bytes
  | .array => []
  | .rbtree => ascii "R"
  | .hash => ascii "H"
  | .skiptable => ascii "S"

/-- The entries of the table `commands`. -/
def EngineKind.commandName (kind : EngineKind) : Op → Bytes
  | .set => kind.letter ++ ascii "SET"
  | .get => kind.letter ++ ascii "GET"
  | .del => kind.letter ++ ascii "DEL"
  | .mod => kind.letter ++ ascii "MOD"
  | .exist => kind.letter ++ ascii "EXIST"
  | .save => kind.letter ++ ascii "SAVE"
  | .load => kind.letter ++ ascii "LOAD"
  | .range => kind.letter ++ ascii "RANGE"
  | .sync => kind.syncName
  | .getAll => kind.dumpName

def commands : List (EngineKind × Op) := EngineKind.all.flatMap fun kind => Op.all.map fun op => (kind, op)

/-- The loop over the table: the first command with the name. -/
def findCommand (name : Bytes) : Option (EngineKind × Op) := commands.find? fun c => c.1.commandName c.2 = name

/-! ### Replies -/

/-- `snprintf(response_buf, 1024, "%s", value)` -/
def responseBuf (value : CString) : Bytes := value.bytes.take 1023

def setReply (res : Int) : Bytes :=
  if res = 0 then ascii "SUCCESS" else if res < 0 then ascii "ERROR" else ascii "EXIST"

/-- A pointer to freed memory is read. -/
def getReply : CharPtr → Option Bytes
  | .str value => some (responseBuf value)
  | .null => some (ascii "NO EXIST")
  | .freed => none

/-- The reply of `DEL` and of `MOD`. -/
def changeReply (res : Int) : Bytes :=
  if res < 0 then ascii "ERROR" else if res = 0 then ascii "SUCCESS" else ascii "NO EXIST"

def existReply (res : Int) : Bytes := if res = 0 then ascii "EXIST" else ascii "NO EXIST"

/-- The reply of `SAVE` and of `LOAD`. -/
def fileReply (res : Int) : Bytes := if res = 0 then ascii "SUCCESS" else ascii "ERROR"

/-- The lines of `RANGE`, with a newline between two of them. -/
def rangeLines : List KvsItem → Bytes
  | [] => []
  | [item] => item.key.bytes ++ space :: item.value.bytes
  | item :: items => item.key.bytes ++ space :: (item.value.bytes ++ newline :: rangeLines items)

def rangeReply (res : Int) (items : List KvsItem) : Bytes :=
  if res = 0 then rangeLines items else if res > 0 then ascii "EMPTY" else ascii "ERROR"

/-! ### The cases -/

/-- `get_local_*_data`: no records when the engine fails, else one for each item. -/
def getLocalData {σ : Type} (S : Scan σ) (env : Env) (s : σ) : Option (List SyncData) := do
  let (res, items) ← S.getAll env s
  if res < 0 then some []
  else some (items.map fun item => ⟨item.key.bytes, item.value.bytes, item.timestamp⟩)

/-- A `SYNC` case from the response of `receive_response` on. -/
def pullResponse {σ : Type} (E : Engine σ) (env : Nat → Env) (junk : Nat → UInt64) (s : σ) (response : Bytes) :
    Option (σ × Bytes) :=
  if response = [] then some (s, ascii "FAILED")
  else
    let remoteData := parseRemoteDataStr junk response
    if remoteData = [] then some (s, ascii "FAILED")
    else do
      let (s, ret) ← syncDataToLocal E env s remoteData
      some (s, if ret ≠ 0 then ascii "FAILED" else ascii "SUCCESS")

/-- A `SYNC` whose request reaches a peer with the store `peer`, and which receives the peer's whole reply. -/
def pullFrom {σ : Type} (E : Engine σ) (S : Scan σ) (peerEnv : Env) (env : Nat → Env) (junk : Nat → UInt64)
    (s peer : σ) : Option (σ × Bytes) := do
  let localData ← getLocalData S peerEnv peer
  pullResponse E env junk s (dumpText localData ++ [newline])

/-- What a slot of the member array `tokens` holds: it is not initialised, or it points at the token with the number
    `i` in the buffer that `process_command` had for a line. -/
inductive Slot where
  | unwritten
  | pointsInto (command : Bytes) (i : Nat)
deriving DecidableEq

/-- The member array after the lines of a connection. -/
def slotsAfter (history : List Bytes) : Nat → Slot :=
  history.foldl
    (fun slots command i => if i < (tokenize (commandBuf command)).length then .pointsInto command i else slots i)
    fun _ => .unwritten

/-- What reading through `tokens[i]` finds, or nothing for a pointer that cannot be read. -/
abbrev Tokens := Nat → Option CString

/-- What the slots give that the current line has not written. The buffers of the earlier lines are gone with the
    calls that they were local to, so that `reads` is not determined by the program. -/
def tokensAfter (reads : Slot → Option CString) (history : List Bytes) : Tokens := fun i => reads (slotsAfter history i)

/-- The files that a server can reach. Several paths can lead to one file, such as `f` and `./f`: `resolve` gives the
    number of the file that a path leads to, and `contents` the bytes of the files that are there. -/
structure Files where
  resolve : CString → Nat
  contents : Nat → Option (List UInt8)

namespace Files

/-- No file is there. -/
def empty (resolve : CString → Nat) : Files := ⟨resolve, fun _ => none⟩

/-- What reading the file finds that the path leads to, if it is there. -/
def read (files : Files) (path : CString) : Option (List UInt8) := files.contents (files.resolve path)

/-- The bytes replace those of the file that the path leads to. -/
def write (files : Files) (path : CString) (bytes : List UInt8) : Files :=
  { files with contents := Function.update files.contents (files.resolve path) (some bytes) }

end Files

/-- What one command meets outside the server: the surroundings of the calls of the engine, whether `fopen` of an
    existing file succeeds, the disk, what a pull comes to with the response that it receives, and what the timestamp
    variable of the parser holds. -/
structure Surroundings where
  env : Nat → Env
  opens : Bool
  disk : Disk
  pull : EngineKind → CString → CString → Dial Bytes
  junk : Nat → UInt64

/-- What a case returns for a `SET` with too few tokens. -/
def EngineKind.setFailed : EngineKind → Bytes
  | .array => ascii "FAILED\n"
  | .rbtree => ascii "FAILED"
  | .hash => ascii "FAILED"
  | .skiptable => ascii "FAILED"

/-- The case of a command of the engine `kind`, with `count` tokens on the line. -/
def runCase {σ : Type} (B : Backend σ) (kind : EngineKind) (w : Surroundings) (tokens : Tokens) (count : Nat) (s : σ)
    (files : Files) : Op → Option (σ × Files × Bytes)
  | .set =>
    if count < 3 then some (s, files, kind.setFailed)
    else do
      let key ← tokens 1
      let value ← tokens 2
      let (s, res) ← B.set (w.env 0) s key value
      some (s, files, setReply res)
  | .get => do
    let key ← tokens 1
    let value ← B.get s key
    let response ← getReply value
    some (s, files, response)
  | .del => do
    let key ← tokens 1
    let (s, res) ← B.delete s key
    some (s, files, changeReply res)
  | .mod => do
    let key ← tokens 1
    let value ← tokens 2
    let (s, res) ← B.modify (w.env 0) s key value
    some (s, files, changeReply res)
  | .exist => do
    let key ← tokens 1
    let res ← B.exist s key
    some (s, files, existReply res)
  | .save => do
    let filename ← tokens 1
    if w.opens = false then some (s, files, fileReply (-1))
    else
      let (file, res) ← B.save w.disk s
      some (s, files.write filename file, fileReply res)
  | .load => do
    let filename ← tokens 1
    match files.read filename with
    | none => some (s, files, fileReply (-1))
    | some file =>
      if w.opens = false then some (s, files, fileReply (-1))
      else do
        let (s, res) ← B.load w.env s file
        some (s, files, fileReply res)
  | .range => do
    let startKey ← tokens 1
    let endKey ← tokens 2
    let (res, items) ← B.range (w.env 0) s startKey endKey
    some (s, files, rangeReply res items)
  | .sync =>
    if count < 3 then some (s, files, ascii "FAILED")
    else do
      let ip ← tokens 1
      let port ← tokens 2
      match w.pull kind ip port with
      | .throws => none
      | .fails => some (s, files, ascii "FAILED")
      | .reaches response => do
        let (s, response) ← pullResponse B.toEngine w.env w.junk s response
        some (s, files, response)
  | .getAll => do
    let localData ← getLocalData B.toScan (w.env 0) s
    some (s, files, dumpText localData)

/-- The global stores of a server, and the files that it can reach. -/
structure Globals where
  store : (kind : EngineKind) → kind.Store
  files : Files

def Globals.initial (files : Files) : Globals := ⟨EngineKind.created, files⟩

namespace Dispatch

/-- `parse_protocol_to_string(count)`; what the `default` case makes of `r_buf` is overwritten by the empty buffer. -/
def parseProtocolToString (w : Surroundings) (g : Globals) (tokens : Tokens) (count : Nat) : Option (Globals × Bytes) :=
  if count < 1 then some (g, [])
  else do
    let name ← tokens 0
    match findCommand name.bytes with
    | none => some (g, [])
    | some (kind, op) => do
      let (s, files, response) ← runCase kind.backend kind w tokens count (g.store kind) g.files op
      some (⟨Function.update g.store kind s, files⟩, response)

/-- The member array after the tokens of a line were written into its first slots. -/
def writeTokens (tokens : Tokens) (pieces : List Bytes) : Tokens := fun i =>
  match pieces[i]? with
  | some piece => some (CString.ofBytes piece)
  | none => tokens i

/-- `process_command` on a connection where earlier lines, or none, have left `tokens` in the member array. -/
def processCommand (w : Surroundings) (g : Globals) (tokens : Tokens) (command : Bytes) : Option (Globals × Bytes) :=
  let pieces := tokenize (commandBuf command)
  parseProtocolToString w g (writeTokens tokens pieces) pieces.length

end Dispatch

end KvStore
