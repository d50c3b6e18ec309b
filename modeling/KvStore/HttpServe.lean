import KvStore.Http
import KvStore.Lib.Decimal
import KvStore.Reactor

/-! What an `HttpConnection` of `reactor.hpp` sends: `handle_request` puts the bytes of a response into the buffer, and
    `handle_write` takes them out again as the socket takes them. -/

namespace KvStore
open FiniteMap Decimal

structure HttpResponse where
  version : Bytes
  statusCode : Nat
  statusText : Bytes
  headers : Map Bytes Bytes
  body : Bytes

/-- `"\r\n"` -/
def crlf : Bytes := [carriageReturn, newline]

namespace HttpResponse

/-- `HttpResponse response;` -/
def default : HttpResponse := ⟨ascii "HTTP/1.1", 200, ascii "OK", Map.empty, []⟩

/-- `to_string`, where the loop over the headers visits them in the order of the list. -/
def toBytes (visited : List (Bytes × Bytes)) (response : HttpResponse) : Bytes :=
  response.version ++ space :: (decimal response.statusCode ++ space :: (response.statusText ++ crlf)) ++
    visited.flatMap (fun header => header.1 ++ ascii ": " ++ header.2 ++ crlf) ++
    (if response.body = [] then []
      else ascii "Content-Length: " ++ decimal response.body.length ++ crlf) ++
    crlf ++ response.body

end HttpResponse

/-- The keys of the headers that `handle_request` sets. -/
def headerNames : List Bytes := [ascii "Server", ascii "Connection", ascii "Content-Type"]

/-- The document of the URI `/`, and the order in which a loop visits the headers of an `unordered_map`, which is not
    determined by the program. -/
structure HttpSite where
  page : Bytes
  visit : Map Bytes Bytes → List (Bytes × Bytes)
  page_size : page.length < UInt64.size
  visits : ∀ headers, (∀ key, headers key ≠ none → key ∈ headerNames) → Lists (visit headers) headers

/-- `default_headers_` -/
def defaultHeaders : Map Bytes Bytes :=
  (Map.empty.insert (ascii "Server") (ascii "Reactor-HTTP-Server")).insert (ascii "Connection") (ascii "keep-alive")

/-- The response that `handle_request` makes. -/
def HttpSite.response (site : HttpSite) (request : HttpRequest) : HttpResponse :=
  let response := { HttpResponse.default with headers := defaultHeaders }
  if request.uri = ascii "/" then
    { response with
      statusCode := 200
      body := site.page
      headers := response.headers.insert (ascii "Content-Type") (ascii "text/html") }
  else if request.uri = ascii "/hello" then
    { response with
      statusCode := 200
      body := ascii "Hello, World!"
      headers := response.headers.insert (ascii "Content-Type") (ascii "text/plain") }
  else if request.uri = ascii "/zzw" then
    { response with
      statusCode := 200
      body := ascii "Hello, i am zzw"
      headers := response.headers.insert (ascii "Content-Type") (ascii "text/plain") }
  else
    { response with
      statusCode := 404
      statusText := ascii "Not Found"
      body := ascii "404 Not Found"
      headers := response.headers.insert (ascii "Content-Type") (ascii "text/plain") }

/-- The bytes that answer a request. -/
def HttpSite.answer (site : HttpSite) (request : HttpRequest) : Bytes :=
  (site.response request).toBytes (site.visit (site.response request).headers)

/-- How the calls of `send` in a write event end when bytes are left. -/
inductive WriteEnd where
  | again
  | error
deriving DecidableEq

/-- An event that the reactor delivers: its mask, the chunks that `recv` gives, and the numbers of bytes that the
    calls of `send` take. -/
structure HttpDelivery where
  events : UInt32
  chunks : List Bytes
  readEnd : ReadEnd
  takes : List Nat
  writeEnd : WriteEnd

/-- `events & bit` -/
def HttpDelivery.Has (d : HttpDelivery) (bit : UInt32) : Prop := d.events &&& bit ≠ 0

instance (d : HttpDelivery) (bit : UInt32) : Decidable (d.Has bit) := inferInstanceAs (Decidable (_ ≠ _))

/-- The loop of `handle_write`: the bytes that are sent, and those that stay in the buffer. -/
def writeLoop : List Nat → Bytes → Bytes × Bytes
  | _, [] => ([], [])
  | [], buffer => ([], buffer)
  | n :: takes, buffer =>
    let (sent, left) := writeLoop takes (buffer.drop n)
    (buffer.take n ++ sent, left)

/-- An `HttpConnection` with its write buffer and its event mask, the requests that were handed to `handle_request`, and
    the bytes that the socket has taken. -/
structure HttpTraffic where
  conn : HttpConnection
  writeBuffer : Bytes
  interest : Interest
  handed : List HttpRequest
  wire : Bytes

namespace HttpTraffic

/-- A connection that was just accepted. -/
def start : HttpTraffic := ⟨.fresh, [], .read, [], []⟩

def handleRequest (site : HttpSite) (t : HttpTraffic) (request : HttpRequest) : HttpTraffic :=
  { t with
    writeBuffer := t.writeBuffer ++ site.answer request
    interest := .readWrite
    handed := t.handed ++ [request] }

/-- An exception of `parse` leaves `Reactor::run` as well. -/
def handleRead (site : HttpSite) (d : HttpDelivery) (t : HttpTraffic) : Option HttpTraffic :=
  let read := HttpConnection.handleRead (d.chunks.map .data ++ [d.readEnd.recv]) t.conn
  match read.ending with
  | .error _ => none
  | .ok conn => some { read.requests.foldl (handleRequest site) t with conn := conn }

/-- The mask is `EPOLLIN` afterwards, whatever is left. When `send` fails, `shared_from_this` runs on the object that
    `unregister_handler` has destroyed. -/
def handleWrite (d : HttpDelivery) (t : HttpTraffic) : Option HttpTraffic :=
  let (sent, left) := writeLoop d.takes t.writeBuffer
  if left ≠ [] ∧ d.writeEnd = .error then none
  else some { t with writeBuffer := left, interest := .read, wire := t.wire ++ sent }

def handleError (t : HttpTraffic) : HttpTraffic := { t with conn := { t.conn with registered := false } }

def afterRead (site : HttpSite) (d : HttpDelivery) (t : HttpTraffic) : Option HttpTraffic :=
  if d.Has epollIn then t.handleRead site d else some t

def afterWrite (d : HttpDelivery) (t : HttpTraffic) : Option HttpTraffic :=
  if d.Has epollOut then if t.conn.registered then t.handleWrite d else none
  else some t

def afterError (d : HttpDelivery) (t : HttpTraffic) : Option HttpTraffic :=
  if d.Has epollErr then if t.conn.registered then some t.handleError else none
  else some t

/-- `handle_event`, or nothing when it uses an object that one of its handlers has destroyed. -/
def handleEvent (site : HttpSite) (d : HttpDelivery) (t : HttpTraffic) : Option HttpTraffic := do
  let t ← t.afterRead site d
  let t ← t.afterWrite d
  t.afterError d

/-- `Reactor::run` calls `handle_event` of a handler that is registered. -/
def step (site : HttpSite) (t : HttpTraffic) (d : HttpDelivery) : Option (HttpTraffic × Unit) :=
  if t.conn.registered then (t.handleEvent site d).map fun t => (t, ()) else none

end HttpTraffic

end KvStore
