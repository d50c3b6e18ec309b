import KvStore.Epoll

/-! `process_command` and the cases of `parse_protocol_to_string` that talk to a peer or answer one: the four
    `SYNC` commands and the four dumps. The other commands, the dump text and the merge touch only the server's
    own engines, and are parameters. -/

namespace KvStore

inductive EngineKind where
  | array
  | rbtree
  | hash
  | skiptable
deriving DecidableEq

def EngineKind.all : List EngineKind := [.array, .rbtree, .hash, .skiptable]

def ascii (text : String) : Bytes := text.toList.map fun c => UInt8.ofNat c.toNat

/-- The entries `SYNC`, `RSYNC`, `HSYNC` and `SSYNC` of the table `commands`. -/
def EngineKind.syncName : EngineKind → Bytes
  | .array => ascii "SYNC"
  | .rbtree => ascii "RSYNC"
  | .hash => ascii "HSYNC"
  | .skiptable => ascii "SSYNC"

/-- The entries `GETARRAY`, `GETRBTREE`, `GETHASH` and `GETSKIPTABLE`. -/
def EngineKind.dumpName : EngineKind → Bytes
  | .array => ascii "GETARRAY"
  | .rbtree => ascii "GETRBTREE"
  | .hash => ascii "GETHASH"
  | .skiptable => ascii "GETSKIPTABLE"

def maxTokens : Nat := 256

/-- `command_buf` after the `strncpy`, up to its first NUL. -/
def commandBuf (command : Bytes) : Bytes := (command.takeWhile (· ≠ 0)).take 1023

/-- The loop over `strtok(…, " ")`: the non-empty pieces between spaces. -/
def tokenize (buf : Bytes) : List Bytes :=
  let (pieces, last) := Framing.frames 32 buf
  ((pieces ++ [last]).filter (· ≠ [])).take maxTokens

/-- What `std::stoi` of the port and `SyncClient::connect` come to: an exception that nothing catches, a failed
    connection, or a connection to a server. -/
inductive Dial (ι : Type) where
  | throws
  | fails
  | reaches (peer : ι)

/-- The parts of the dispatch that are parameters. -/
structure Dispatcher (σ ι : Type) where
  connect : Bytes → Bytes → Dial ι
  getAll : EngineKind → σ → Bytes
  merge : EngineKind → σ → Bytes → σ × Bytes
  other : σ → List Bytes → σ × Bytes

/-- A command is answered, or it has sent its request to a peer and enters `receive_response`. -/
inductive Outcome (σ ι : Type) where
  | throws
  | answer (engines : σ) (response : Bytes)
  | pull (kind : EngineKind) (peer : ι)

section Dispatch
variable {σ ι : Type} (D : Dispatcher σ ι)

/-- The first half of a `SYNC` case, up to the call of `receive_response`. -/
def syncRequest (kind : EngineKind) (engines : σ) : List Bytes → Outcome σ ι
  | _ :: ip :: port :: _ =>
    match D.connect ip port with
    | .throws => .throws
    | .fails => .answer engines (ascii "FAILED")
    | .reaches peer => .pull kind peer
  | _ => .answer engines (ascii "FAILED")

/-- The second half of a `SYNC` case, from the response of `receive_response` on. -/
def syncResponse (kind : EngineKind) (engines : σ) (response : Bytes) : σ × Bytes :=
  if response = [] then (engines, ascii "FAILED") else D.merge kind engines response

def parseProtocolToString (engines : σ) (tokens : List Bytes) : Outcome σ ι :=
  match tokens with
  | [] => .answer engines []
  | name :: _ =>
    match EngineKind.all.find? (·.syncName = name) with
    | some kind => syncRequest D kind engines tokens
    | none =>
      match EngineKind.all.find? (·.dumpName = name) with
      | some kind => .answer engines (D.getAll kind engines)
      | none => .answer (D.other engines tokens).1 (D.other engines tokens).2

def processCommand (engines : σ) (command : Bytes) : Outcome σ ι :=
  parseProtocolToString D engines (tokenize (commandBuf command))

end Dispatch
end KvStore
