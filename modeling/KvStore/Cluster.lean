import KvStore.Command
import KvStore.SyncClient
import Mathlib.Logic.Function.Basic

/-! Servers that pull from each other. Each server is the one thread of `Reactor::run`: it handles one event at a
    time, and a `SYNC` command keeps it inside `receive_response`, in the middle of a read event. The events below
    are chosen in any order; sockets do not fail and no side closes a connection. -/

namespace KvStore
open Framing

/-- A connection that a server accepted, with the bytes that wait in its socket and in the other end's. The other
    end is a client or the `SyncClient` of a server. -/
structure Link where
  connection : Connection
  inbound : Bytes
  outbound : Bytes
  client : Bool
deriving DecidableEq

/-- A `SyncClient` in `receive_response`: its connection is the `link`-th one that the peer accepted. -/
structure Pull (ι : Type) where
  kind : EngineKind
  peer : ι
  link : Nat
  response : Bytes
deriving DecidableEq

/-- Where the thread of a server is: in `epoll_wait`; at the `recv` of `handle_read` on a connection; in the loop
    of `process_received_data`, which has or has not found a line; in `receive_response`, called from that loop. -/
inductive Control (ι : Type) where
  | waiting
  | receiving (n : Nat)
  | processing (n : Nat) (found : Bool)
  | pulling (n : Nat) (pull : Pull ι)
deriving DecidableEq

structure Server (σ ι : Type) where
  engines : σ
  links : List Link
  control : Control ι

namespace Server
variable {σ ι : Type}

def updateLink (s : Server σ ι) (n : Nat) (f : Link → Link) : Server σ ι := { s with links := s.links.modify n f }

def addLink (s : Server σ ι) (l : Link) : Server σ ι := { s with links := s.links ++ [l] }

/-- The bytes sent on a connection that the other end has not received. -/
def outbound (s : Server σ ι) (n : Nat) : Bytes :=
  match s.links[n]? with
  | some l => l.outbound
  | none => []

/-- `std::find` of the newline in `r_buf`: the next line of a connection, and what follows it. -/
def nextLine (s : Server σ ι) (n : Nat) : Option (Bytes × Bytes) := do
  let l ← s.links[n]?
  first newline l.connection.rBuf

/-- A command is answered: the reply and a newline go to `send_queue_`. -/
def answer (s : Server σ ι) (n : Nat) (engines : σ) (response : Bytes) : Server σ ι :=
  { s.updateLink n fun l =>
      { l with connection := { l.connection with sendQueue := l.connection.sendQueue ++ [response ++ [newline]] } } with
    engines := engines, control := .processing n true }

end Server

abbrev Cluster (σ ι : Type) := ι → Server σ ι

namespace Cluster

/-- What happens next, and at which server. `recv` and `poll` say how many bytes a `recv` gives, `write` how many
    `send` takes. -/
inductive Event (ι : Type) where
  | connect (i : ι)
  | clientSend (i : ι) (n : Nat) (bytes : Bytes)
  | read (i : ι) (n : Nat)
  | recv (i : ι) (k : Nat)
  | again (i : ι)
  | line (i : ι)
  | write (i : ι) (n k : Nat)
  | poll (i : ι) (k : Nat)
  | timeout (i : ι)

def start {σ ι : Type} (engines : ι → σ) : Cluster σ ι := fun i => ⟨engines i, [], .waiting⟩

variable {σ ι : Type} [DecidableEq ι] (D : Dispatcher σ ι)

/-- One turn of the loop of `process_received_data`. -/
def processLine (c : Cluster σ ι) (i : ι) (n : Nat) (found : Bool) : Option (Cluster σ ι) :=
  match (c i).nextLine n with
  | none =>
    let s :=
      if found then (c i).updateLink n fun l => { l with connection := { l.connection with interest := .readWrite } }
      else c i
    some (Function.update c i { s with control := .receiving n })
  | some (command, rest) =>
    let s := (c i).updateLink n fun l => { l with connection := { l.connection with rBuf := rest } }
    match processCommand D s.engines command with
    | .throws => none
    | .answer engines response => some (Function.update c i (s.answer n engines response))
    | .pull kind peer =>
      -- The connection completes in the peer's backlog, and `send` takes the whole request.
      let c' := Function.update c i { s with control := .pulling n ⟨kind, peer, (c peer).links.length, []⟩ }
      some (Function.update c' peer
        ((c' peer).addLink ⟨Connection.fresh, kind.dumpName ++ [newline], [], false⟩))

/-- One turn of the loop of `receive_response`. -/
def pullTurn (c : Cluster σ ι) (i : ι) (n : Nat) (pull : Pull ι) (event : Poll) : Cluster σ ι :=
  match receiveTurn pull.response event with
  | .next response => Function.update c i { c i with control := .pulling n { pull with response := response } }
  | .done response =>
    let (engines, reply) := syncResponse D pull.kind (c i).engines response
    Function.update c i ((c i).answer n engines reply)

/-- The step that an event makes, unless it cannot happen or an exception ends the server. -/
def step (c : Cluster σ ι) : Event ι → Option (Cluster σ ι × Unit)
  | .connect i => some (Function.update c i ((c i).addLink ⟨Connection.fresh, [], [], true⟩), ())
  | .clientSend i n bytes => do
    let l ← (c i).links[n]?
    if l.client then
      some (Function.update c i ((c i).updateLink n fun l => { l with inbound := l.inbound ++ bytes }), ())
    else none
  | .read i n =>
    match (c i).control with
    | .waiting =>
      if n < (c i).links.length then some (Function.update c i { c i with control := .receiving n }, ()) else none
    | _ => none
  | .recv i k =>
    match (c i).control with
    | .receiving n => do
      let l ← (c i).links[n]?
      if 0 < k ∧ k ≤ l.inbound.length then
        let s := (c i).updateLink n fun l =>
          { l with
            connection := { l.connection with rBuf := l.connection.rBuf ++ l.inbound.take k }
            inbound := l.inbound.drop k }
        some (Function.update c i { s with control := .processing n false }, ())
      else none
    | _ => none
  | .again i =>
    match (c i).control with
    | .receiving n => do
      let l ← (c i).links[n]?
      if l.inbound = [] then some (Function.update c i { c i with control := .waiting }, ()) else none
    | _ => none
  | .line i =>
    match (c i).control with
    | .processing n found => (processLine D c i n found).map (·, ())
    | _ => none
  | .write i n k =>
    match (c i).control with
    | .waiting => do
      let l ← (c i).links[n]?
      if l.connection.interest = .readWrite ∧ 0 < k ∧ k ≤ (gather l.connection.sendQueue []).length then
        let s := (c i).updateLink n fun l =>
          { l with
            connection := (handleWrite (.sent k) l.connection).1
            outbound := l.outbound ++ (handleWrite (.sent k) l.connection).2 }
        some (Function.update c i s, ())
      else none
    | _ => none
  | .poll i k =>
    match (c i).control with
    | .pulling n pull =>
      let bytes := (c pull.peer).outbound pull.link
      if 0 < k ∧ k ≤ bytes.length then
        let c := Function.update c pull.peer
          ((c pull.peer).updateLink pull.link fun l => { l with outbound := l.outbound.drop k })
        some (pullTurn D c i n pull (.readable (.data (bytes.take k))), ())
      else none
    | _ => none
  | .timeout i =>
    match (c i).control with
    | .pulling n pull => some (pullTurn D c i n pull .timeout, ())
    | _ => none

end Cluster
end KvStore
