import KvStore.Dispatch

/-! Two servers and one of their engines: a client of either writes to it with `SET`, `MOD` and `DEL`, and either pulls
    from the other with the `SYNC` command of the engine, and receives the whole reply. -/

namespace KvStore

/-- The two servers. -/
inductive Site where
  | a
  | b
deriving DecidableEq

def Site.peer : Site → Site
  | .a => .b
  | .b => .a

/-- A command at one of the servers, with what it meets outside the stores. -/
inductive Action where
  | set (env : Env) (key value : CString)
  | mod (env : Env) (key value : CString)
  | del (key : CString)
  | sync (peerEnv : Env) (env : Nat → Env) (junk : Nat → UInt64)

/-- The reading of the clock that a command stores. -/
def Action.reading : Action → Option UInt64
  | .set env _ _ => some env.now
  | .mod env _ _ => some env.now
  | .del _ => none
  | .sync .. => none

namespace Replica

/-- The two stores. -/
abbrev Stores (kind : EngineKind) := Site → kind.Store

/-- A server takes a command: the stores after it, and its reply. -/
def step (kind : EngineKind) (stores : Stores kind) : Site × Action → Option (Stores kind × Bytes)
  | (site, .set env key value) => do
    let (s, res) ← kind.backend.set env (stores site) key value
    some (Function.update stores site s, setReply res)
  | (site, .mod env key value) => do
    let (s, res) ← kind.backend.modify env (stores site) key value
    some (Function.update stores site s, changeReply res)
  | (site, .del key) => do
    let (s, res) ← kind.backend.delete (stores site) key
    some (Function.update stores site s, changeReply res)
  | (site, .sync peerEnv env junk) => do
    let (s, response) ← pullFrom kind.backend.toEngine kind.backend.toScan peerEnv env junk (stores site) (stores site.peer)
    some (Function.update stores site s, response)

/-- Both servers have just started. -/
def start (kind : EngineKind) : Stores kind := fun _ => kind.created

end Replica

end KvStore
