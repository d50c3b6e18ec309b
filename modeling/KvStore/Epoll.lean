import KvStore.Lib.Framing
import KvStore.Lib.Run

/-! A client connection, `KVStoreEpollConnection` in `kv_store_epoll.hpp`: the bytes received and not yet
    processed, the replies not yet sent, and the registration with the reactor. `process_command` is a
    parameter; it maps the engine state and a command to the next engine state and the reply. -/

namespace KvStore
open Framing

abbrev Bytes := List UInt8

/-- The event mask of the last `register_handler` or `modify_handler`; all are edge-triggered. -/
inductive Interest where
  | read
  | readWrite
deriving DecidableEq

/-- `registered` tells that the reactor still holds the handler, `fdOpen` that `close(fd_)` has not run. -/
structure Connection where
  rBuf : Bytes
  sendQueue : List Bytes
  interest : Interest
  registered : Bool
  fdOpen : Bool
deriving DecidableEq

/-- A connection that was just accepted. -/
def Connection.fresh : Connection := ⟨[], [], .read, true, true⟩

/-- `'\n'` -/
def newline : UInt8 := 10

/-- What a call of `recv` gives. -/
inductive Recv where
  | data (bytes : Bytes)
  | closed
  | again
  | error

/-- What a call of `send` gives: the number of bytes it took, or the error. -/
inductive Send where
  | sent (n : Nat)
  | again
  | error

section Connection
variable {σ : Type} (processCommand : σ → Bytes → σ × Bytes)

/-- The loop of `process_received_data`: one command and one reply for each complete line. -/
def processLoop (s : σ) (c : Connection) : σ × Connection :=
  match _h : first newline c.rBuf with
  | none => (s, c)
  | some (command, rest) =>
    let (s, response) := processCommand s command
    processLoop s { c with rBuf := rest, sendQueue := c.sendQueue ++ [response ++ [newline]] }
termination_by c.rBuf.length
decreasing_by exact first_length (by assumption)

/-- `process_received_data` -/
def processReceivedData (s : σ) (c : Connection) : σ × Connection :=
  match first newline c.rBuf with
  | none => (s, c)
  | some _ =>
    let (s, c) := processLoop processCommand s c
    (s, { c with interest := .readWrite })

/-- `handle_read`, for the results of its calls of `recv`. -/
def handleRead : List Recv → σ → Connection → σ × Connection
  | [], s, c => (s, c)
  | .data bytes :: results, s, c =>
    let (s, c) := processReceivedData processCommand s { c with rBuf := c.rBuf ++ bytes }
    handleRead results s c
  | .closed :: _, s, c => (s, { c with registered := false })
  | .again :: _, s, c => (s, c)
  | .error :: _, s, c => (s, { c with registered := false })

/-- The chunks of one or of many read events, each appended to `r_buf` and processed. -/
def receiveChunks : List Bytes → σ → Connection → σ × Connection
  | [], s, c => (s, c)
  | chunk :: chunks, s, c =>
    let (s, c) := processReceivedData processCommand s { c with rBuf := c.rBuf ++ chunk }
    receiveChunks chunks s c

end Connection

/-- The loop of `handle_write` that moves the whole queue into `response`. -/
def gather : List Bytes → Bytes → Bytes
  | [], response => response
  | front :: queue, response => gather queue (response ++ front)

/-- `handle_write`, for the result of its call of `send`: the connection, and the bytes the socket took. -/
def handleWrite (result : Send) (c : Connection) : Connection × Bytes :=
  let response := gather c.sendQueue []
  let c := { c with sendQueue := [], interest := .read }
  match result with
  | .sent n =>
    if 0 < n then (c, response.take n) else ({ c with registered := false, fdOpen := false }, [])
  | .again => ({ c with interest := .readWrite }, [])
  | .error => ({ c with registered := false, fdOpen := false }, [])

end KvStore
