import KvStore.Replica

/-! Any number of servers and one of their engines: clients write to any of them with `SET`, `MOD` and `DEL`, and each
    pulls from any with the `SYNC` command of the engine. A server that pulls stays in `receive_response` until the whole
    reply is there, and handles no other event; so a server that pulls from itself waits forever, and so do two that pull
    from each other at the same time. -/

namespace KvStore.Fleet

/-- What happens at one of the servers. `sync` is a `SYNC` command, whose request goes to a peer. With `answer` the peer
    takes the request, and the server the whole reply. -/
inductive Event (ι : Type) where
  | set (i : ι) (env : Env) (key value : CString)
  | mod (i : ι) (env : Env) (key value : CString)
  | del (i : ι) (key : CString)
  | sync (i peer : ι)
  | answer (i peer : ι) (peerEnv : Env) (env : Nat → Env) (junk : Nat → UInt64)

/-- The reading of the clock that a command stores. -/
def Event.reading {ι : Type} : Event ι → Option UInt64
  | .set _ env _ _ => some env.now
  | .mod _ env _ _ => some env.now
  | .del .. => none
  | .sync .. => none
  | .answer .. => none

/-- The stores, and the peers whose replies servers wait for. -/
structure State (ι : Type) (kind : EngineKind) where
  stores : ι → kind.Store
  waits : ι → Option ι

namespace State
variable {ι : Type} [DecidableEq ι] {kind : EngineKind}

/-- No server waits. -/
def idle (stores : ι → kind.Store) : State ι kind := ⟨stores, fun _ => none⟩

/-- The server `i` has a new store, and waits for no reply. -/
def setStore (s : State ι kind) (i : ι) (store : kind.Store) : State ι kind :=
  ⟨Function.update s.stores i store, Function.update s.waits i none⟩

end State

section Step
variable {ι : Type} [DecidableEq ι]

/-- The event can happen: the server takes a command when it waits for no reply, and so does the peer of a pull. -/
def Possible {kind : EngineKind} (s : State ι kind) : Event ι → Prop
  | .set i .. => s.waits i = none
  | .mod i .. => s.waits i = none
  | .del i _ => s.waits i = none
  | .sync i _ => s.waits i = none
  | .answer i peer .. => s.waits i = some peer ∧ s.waits peer = none

instance {kind : EngineKind} (s : State ι kind) : DecidablePred (Possible s)
  | .set i .. => inferInstanceAs (Decidable (s.waits i = none))
  | .mod i .. => inferInstanceAs (Decidable (s.waits i = none))
  | .del i _ => inferInstanceAs (Decidable (s.waits i = none))
  | .sync i _ => inferInstanceAs (Decidable (s.waits i = none))
  | .answer i peer .. => inferInstanceAs (Decidable (s.waits i = some peer ∧ s.waits peer = none))

/-- What the event makes of the servers, and the reply to a command that is done. -/
def effect (kind : EngineKind) (s : State ι kind) : Event ι → Option (State ι kind × Option Bytes)
  | .set i env key value => do
    let (store, res) ← kind.backend.set env (s.stores i) key value
    some (s.setStore i store, some (setReply res))
  | .mod i env key value => do
    let (store, res) ← kind.backend.modify env (s.stores i) key value
    some (s.setStore i store, some (changeReply res))
  | .del i key => do
    let (store, res) ← kind.backend.delete (s.stores i) key
    some (s.setStore i store, some (changeReply res))
  | .sync i peer => some ({ s with waits := Function.update s.waits i (some peer) }, none)
  | .answer i peer peerEnv env junk => do
    let (store, response) ←
      pullFrom kind.backend.toEngine kind.backend.toScan peerEnv env junk (s.stores i) (s.stores peer)
    some (s.setStore i store, some response)

/-- A step of the fleet, unless the event cannot happen or ends a server. -/
def step (kind : EngineKind) (s : State ι kind) (e : Event ι) : Option (State ι kind × Option Bytes) :=
  if Possible s e then effect kind s e else none

/-- All servers have just started. -/
def start (kind : EngineKind) : State ι kind := .idle fun _ => kind.created

end Step

end KvStore.Fleet
