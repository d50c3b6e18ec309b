import KvStore.Dispatch
import KvStore.Reactor

/-! `Reactor::run` over the connections that the acceptor has registered, and the four engines that they share. The
    reactor hands out one event at a time, and the events come in any order. -/

namespace KvStore

/-- What the `n`-th line that the server processes meets, and what its slots give that it does not write. -/
abbrev World := Nat → Surroundings × Tokens

/-- A line that was processed: the connection that it came from, and the reply. -/
structure Exchange where
  client : Nat
  command : Bytes
  reply : Bytes
deriving DecidableEq

/-- What the connections share, with all lines processed so far. -/
structure Shared where
  globals : Globals
  log : List Exchange

/-- `process_command` on the connection `n`. Nothing is left when an exception or a fault has ended the process. -/
def Shared.processCommand (world : World) (n : Nat) : Option Shared → Bytes → Option Shared × Bytes
  | none, _ => (none, [])
  | some s, command =>
    match Dispatch.processCommand (world s.log.length).1 s.globals (world s.log.length).2 command with
    | none => (none, [])
    | some (globals, reply) => (some ⟨globals, s.log ++ [⟨n, command, reply⟩]⟩, reply)

/-- A connection with what went through its socket: the bytes that `recv` gave, and those that `send` took. -/
structure Client where
  conn : Connection
  received : Bytes
  taken : Bytes
deriving DecidableEq

namespace Client

def fresh : Client := ⟨.fresh, [], []⟩

section Handlers
variable {σ : Type} (processCommand : σ → Bytes → σ × Bytes)

def handleRead (d : Delivery) (s : σ) (c : Client) : σ × Client :=
  let (s, conn) := KvStore.handleRead processCommand (d.chunks.map .data ++ [d.readEnd.recv]) s c.conn
  (s, { c with conn := conn, received := c.received ++ d.chunks.flatten })

/-- After a `send` that takes nothing or fails, `close(fd_)` runs on the object that `unregister_handler` destroyed. -/
def handleWrite (d : Delivery) (c : Client) : Option Client :=
  let (conn, bytes) := KvStore.handleWrite d.result c.conn
  if conn.registered then some { c with conn := conn, taken := c.taken ++ bytes } else none

def handleError (c : Client) : Client := { c with conn := { c.conn with registered := false } }

def afterRead (d : Delivery) (s : σ) (c : Client) : σ × Client :=
  if d.Has epollIn then c.handleRead processCommand d s else (s, c)

def afterWrite (d : Delivery) (c : Client) : Option Client :=
  if d.Has epollOut then if c.conn.registered then c.handleWrite d else none
  else some c

def afterError (d : Delivery) (c : Client) : Option Client :=
  if d.Has epollErr then if c.conn.registered then some c.handleError else none
  else some c

/-- `handle_event`, or nothing when it uses an object that one of its handlers has destroyed. -/
def handleEvent (d : Delivery) (s : σ) (c : Client) : Option (σ × Client) := do
  let (s, c) := c.afterRead processCommand d s
  let c ← c.afterWrite d
  let c ← c.afterError d
  some (s, c)

end Handlers

end Client

/-- The connections are in the order in which they were accepted. -/
structure EventLoop where
  shared : Shared
  clients : List Client

namespace EventLoop

/-- The acceptor takes a connection from its backlog, or a connection has an event. -/
inductive Event where
  | accept
  | event (n : Nat) (d : Delivery)

def start (files : Files) : EventLoop := ⟨⟨Globals.initial files, []⟩, []⟩

/-- One event. `epoll_wait` reports none for a connection that is not registered. -/
def step (world : World) (l : EventLoop) : Event → Option (EventLoop × Unit)
  | .accept => some ({ l with clients := l.clients ++ [.fresh] }, ())
  | .event n d => do
    let c ← l.clients[n]?
    if c.conn.registered then
      let (shared, c) ← c.handleEvent (Shared.processCommand world n) d (some l.shared)
      let shared ← shared
      some (⟨shared, l.clients.set n c⟩, ())
    else none

end EventLoop

end KvStore
