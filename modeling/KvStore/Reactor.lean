import KvStore.Epoll

/-! `IConnection::handle_event` (`reactor.hpp`) on a client connection, with what is done with the connection object.
    `unregister_handler` drops the only owning reference that lasts, so that the destructor runs, which closes the
    descriptor; the handler that called it, and `handle_event`, go on from there. -/

namespace KvStore

/-- What is done with a connection object. `process` stands for `process_received_data`, `close` for a `close(fd_)` in a
    handler, and `destroy` for the destructor with its own `close(fd_)`. -/
inductive Act where
  | recv
  | process
  | modify
  | send
  | unregister
  | destroy
  | close
deriving DecidableEq

/-- The act closes the descriptor. -/
def Act.closes : Act → Bool
  | .destroy => true
  | .close => true
  | _ => false

/-- How the calls of `recv` in a read event end. -/
inductive ReadEnd where
  | closed
  | again
  | error
deriving DecidableEq

def ReadEnd.recv : ReadEnd → Recv
  | .closed => .closed
  | .again => .again
  | .error => .error

def epollIn : UInt32 := 0x1

def epollOut : UInt32 := 0x4

def epollErr : UInt32 := 0x8

/-- An event that the reactor delivers: its mask, and what the system calls of the handlers give. -/
structure Delivery where
  events : UInt32
  chunks : List Bytes
  readEnd : ReadEnd
  result : Send

/-- `events & bit` -/
def Delivery.Has (d : Delivery) (bit : UInt32) : Prop := d.events &&& bit ≠ 0

instance (d : Delivery) (bit : UInt32) : Decidable (d.Has bit) := inferInstanceAs (Decidable (_ ≠ _))

/-- `unregister_handler`. The destructor runs once. -/
def unregisterActs (registered : Bool) : List Act := if registered then [.unregister, .destroy] else [.unregister]

/-- What `handle_read` does with the object. -/
def readActs (registered : Bool) : List Recv → List Act
  | [] => []
  | .data _ :: results => .recv :: .process :: readActs registered results
  | .closed :: _ => .recv :: unregisterActs registered
  | .again :: _ => [.recv]
  | .error :: _ => .recv :: unregisterActs registered

/-- What `handle_write` does with the object. -/
def writeActs (registered : Bool) : Send → List Act
  | .sent n =>
    if 0 < n then [.modify, .send]
    else .modify :: .send :: (unregisterActs registered ++ [.close])
  | .again => [.modify, .send, .modify]
  | .error => .modify :: .send :: (unregisterActs registered ++ [.close])

/-- A connection object, with all that was done with it. -/
structure Handler (σ : Type) where
  engines : σ
  conn : Connection
  acts : List Act

namespace Handler
variable {σ : Type} (processCommand : σ → Bytes → σ × Bytes)

def start (s : σ) : Handler σ := ⟨s, .fresh, []⟩

def handleRead (results : List Recv) (h : Handler σ) : Handler σ :=
  let (s, c) := KvStore.handleRead processCommand results h.engines h.conn
  ⟨s, c, h.acts ++ readActs h.conn.registered results⟩

def handleWrite (result : Send) (h : Handler σ) : Handler σ :=
  let (c, _) := KvStore.handleWrite result h.conn
  ⟨h.engines, c, h.acts ++ writeActs h.conn.registered result⟩

def handleError (h : Handler σ) : Handler σ :=
  ⟨h.engines, { h.conn with registered := false }, h.acts ++ unregisterActs h.conn.registered⟩

/-- `handle_event`; the three bits are tested one after the other. -/
def handleEvent (d : Delivery) (h : Handler σ) : Handler σ :=
  let h := if d.Has epollIn then h.handleRead processCommand (d.chunks.map .data ++ [d.readEnd.recv]) else h
  let h := if d.Has epollOut then h.handleWrite d.result else h
  if d.Has epollErr then h.handleError else h

/-- `Reactor::run` calls `handle_event` of a handler that is registered. -/
def step (h : Handler σ) (d : Delivery) : Option (Handler σ × Unit) :=
  if h.conn.registered then some (h.handleEvent processCommand d, ()) else none

end Handler

end KvStore
