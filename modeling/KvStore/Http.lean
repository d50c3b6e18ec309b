import KvStore.Epoll
import KvStore.Exceptions
import KvStore.Lib.FiniteMap
import Mathlib.Data.List.DropRight

/-! The HTTP side of `reactor.hpp`: `HttpParser`, which takes the requests out of the bytes received so far, and
    `handle_read` of `HttpConnection`, which hands each of them to `handle_request`. -/

namespace KvStore
open Framing FiniteMap

structure HttpRequest where
  method : Bytes
  uri : Bytes
  version : Bytes
  headers : Map Bytes Bytes
  body : Bytes

/-- `HttpRequest req;` -/
def HttpRequest.empty : HttpRequest := ⟨[], [], [], Map.empty, []⟩

/-- `IHttpParser::State` -/
inductive HttpState where
  | start
  | headers
  | body
  | complete
deriving DecidableEq

structure HttpParser where
  state : HttpState
  contentLength : Nat
  buffer : Bytes
deriving DecidableEq

/-- `'\r'` -/
def carriageReturn : UInt8 := 13

/-- `':'` -/
def colon : UInt8 := 58

/-- The value of a header without the blanks around it; one that is all blanks stays as it is. -/
def trimBlanks (value : Bytes) : Bytes :=
  let value := if value.all (· = space) then value else value.dropWhile (· = space)
  if value.all (· = space) then value else value.rdropWhile (· = space)

/-- `std::stoul`: white space, an optional sign and digits, as an `unsigned long`. -/
def stoul (str : Bytes) : Except StdException Nat :=
  let (negative, bytes) := splitSign (str.dropWhile (IsSpace ·))
  let digits := bytes.takeWhile (Decimal.IsDigit ·)
  if digits = [] then .error .invalidArgument
  else if UInt64.size ≤ Decimal.value digits then .error .outOfRange
  else .ok (if negative then (UInt64.size - Decimal.value digits) % UInt64.size else Decimal.value digits)

namespace HttpParser

/-- `iss >> request.method >> request.uri >> request.version`, and whether the stream has not failed. -/
def readFields (requestLine : Bytes) (request : HttpRequest) : HttpRequest × Bool :=
  let (s, method) := IStream.readString ⟨requestLine, true⟩ request.method
  let (s, uri) := s.readString request.uri
  let (_, version) := s.readString request.version
  ({ request with method := method, uri := uri, version := version }, s.sentry.isSome)

/-- What `parse` does in the state `START`, and whether it goes on. A request line without three fields is gone from
    the buffer all the same. -/
def readRequestLine (p : HttpParser) (request : HttpRequest) : HttpParser × HttpRequest × Bool :=
  if p.state = .start then
    match firstPair carriageReturn newline p.buffer with
    | none => (p, request, false)
    | some (requestLine, rest) =>
      match readFields requestLine request with
      | (request, false) => ({ p with buffer := rest }, request, false)
      | (request, true) => ({ p with buffer := rest, state := .headers }, request, true)
  else (p, request, true)

/-- A header line. One without a colon is passed over. -/
def readHeader (headerLine : Bytes) (contentLength : Nat) (request : HttpRequest) :
    Except StdException (Nat × HttpRequest) :=
  match first colon headerLine with
  | none => .ok (contentLength, request)
  | some (key, value) =>
    let value := trimBlanks value
    let request := { request with headers := request.headers.insert key value }
    if key = ascii "Content-Length" then (stoul value).map fun length => (length, request)
    else .ok (contentLength, request)

/-- The loop over the header lines. An empty one ends them. -/
def headersLoop (p : HttpParser) (request : HttpRequest) : Except StdException (HttpParser × HttpRequest) :=
  match _h : firstPair carriageReturn newline p.buffer with
  | none => .ok (p, request)
  | some ([], rest) => .ok ({ p with buffer := rest, state := .body }, request)
  | some (headerLine, rest) =>
    match readHeader headerLine p.contentLength request with
    | .error e => .error e
    | .ok (length, request) => headersLoop { p with buffer := rest, contentLength := length } request
termination_by p.buffer.length
decreasing_by exact firstPair_length (by assumption)

/-- What `parse` does in the state `HEADERS`. -/
def readHeaders (p : HttpParser) (request : HttpRequest) : Except StdException (HttpParser × HttpRequest) :=
  if p.state = .headers then p.headersLoop request else .ok (p, request)

def reset (p : HttpParser) : HttpParser := { p with state := .start, contentLength := 0 }

/-- What `parse` does in the state `BODY`. -/
def readBody (p : HttpParser) (request : HttpRequest) : HttpParser × HttpRequest × Bool :=
  if 0 < p.contentLength then
    if p.contentLength ≤ p.buffer.length then
      (reset { p with buffer := p.buffer.drop p.contentLength, state := .complete },
        { request with body := p.buffer.take p.contentLength }, true)
    else (p, request, false)
  else (reset { p with state := .complete }, request, true)

/-- `parse`: the parser and the request that it leaves, and what it returns, unless an exception leaves it. -/
def parse (p : HttpParser) (request : HttpRequest) : Except StdException (HttpParser × HttpRequest × Bool) :=
  match p.readRequestLine request with
  | (p, request, false) => .ok (p, request, false)
  | (p, request, true) =>
    match p.readHeaders request with
    | .error e => .error e
    | .ok (p, request) => if p.state = .body then .ok (p.readBody request) else .ok (p, request, false)

def appendData (p : HttpParser) (data : Bytes) : HttpParser := { p with buffer := p.buffer ++ data }

/-! The loop of `handle_read` ends, since a call of `parse` that returns true has used bytes up or has left a state other
    than `START`. -/

theorem headersLoop_length {p p' : HttpParser} {request request' : HttpRequest}
    (h : p.headersLoop request = .ok (p', request')) : p'.buffer.length ≤ p.buffer.length := by
  fun_induction headersLoop p request with
  | case1 => cases h; exact le_rfl
  | case2 p _ rest hpair => cases h; exact (firstPair_length hpair).le
  | case3 => cases h
  | case4 p _ line rest _ hpair length request₁ _ ih => exact (ih h).trans (firstPair_length hpair).le

theorem readRequestLine_true {p p' : HttpParser} {request request' : HttpRequest}
    (h : p.readRequestLine request = (p', request', true)) :
    p.state ≠ .start ∧ p' = p ∧ request' = request ∨
    p.state = .start ∧ ∃ requestLine rest, firstPair carriageReturn newline p.buffer = some (requestLine, rest) ∧
      readFields requestLine request = (request', true) ∧ p' = { p with buffer := rest, state := .headers } := by
  rw [readRequestLine] at h
  split at h
  · next hstart =>
    split at h
    · cases h
    · next requestLine rest hpair =>
      split at h
      · cases h
      · next hfields =>
        cases h
        exact Or.inr ⟨hstart, requestLine, rest, hpair, hfields, rfl⟩
  · next hstart =>
    cases h
    exact Or.inl ⟨hstart, rfl, rfl⟩

theorem readBody_true {p p' : HttpParser} {request request' : HttpRequest}
    (h : p.readBody request = (p', request', true)) :
    p.contentLength ≤ p.buffer.length ∧ p' = ⟨.start, 0, p.buffer.drop p.contentLength⟩ ∧
      request' = if 0 < p.contentLength then { request with body := p.buffer.take p.contentLength } else request := by
  rw [readBody] at h
  split at h
  · next hpos =>
    split at h
    · next hle =>
      cases h
      exact ⟨hle, rfl, (if_pos hpos).symm⟩
    · cases h
  · next hpos =>
    have hzero : p.contentLength = 0 := Nat.eq_zero_of_not_pos hpos
    cases h
    refine ⟨by omega, ?_, (if_neg hpos).symm⟩
    rw [hzero, List.drop_zero]
    rfl

/-- A call of `parse` that returns true has gone through all three parts. -/
theorem parse_parts {p p' : HttpParser} {request request' : HttpRequest}
    (h : p.parse request = .ok (p', request', true)) :
    ∃ p₁ request₁ p₂ request₂, p.readRequestLine request = (p₁, request₁, true) ∧
      p₁.readHeaders request₁ = .ok (p₂, request₂) ∧ p₂.state = .body ∧ p₂.readBody request₂ = (p', request', true) := by
  rw [parse] at h
  split at h
  · cases h
  · next p₁ request₁ hline =>
    split at h
    · cases h
    · next p₂ request₂ hheaders =>
      split at h
      · next hbody => exact ⟨p₁, request₁, p₂, request₂, hline, hheaders, hbody, Except.ok.inj h⟩
      · cases h

theorem readHeaders_length {p p' : HttpParser} {request request' : HttpRequest}
    (h : p.readHeaders request = .ok (p', request')) : p'.buffer.length ≤ p.buffer.length := by
  rw [readHeaders] at h
  split at h
  · exact headersLoop_length h
  · cases h
    exact le_rfl

theorem parse_true {p p' : HttpParser} {request request' : HttpRequest}
    (h : p.parse request = .ok (p', request', true)) :
    p'.state = .start ∧ p'.buffer.length ≤ p.buffer.length ∧
      (p.state = .start → p'.buffer.length < p.buffer.length) := by
  obtain ⟨p₁, request₁, p₂, request₂, hline, hheaders, -, hbody⟩ := parse_parts h
  obtain ⟨-, rfl, -⟩ := readBody_true hbody
  have hdrop : (p₂.buffer.drop p₂.contentLength).length ≤ p₁.buffer.length :=
    (List.drop_sublist _ _).length_le.trans (readHeaders_length hheaders)
  rcases readRequestLine_true hline with ⟨hstart, rfl, -⟩ | ⟨hstart, requestLine, rest, hpair, -, rfl⟩
  · exact ⟨rfl, hdrop, fun h' => absurd h' hstart⟩
  · have hlt : (p₂.buffer.drop p₂.contentLength).length < p.buffer.length := hdrop.trans_lt (firstPair_length hpair)
    exact ⟨rfl, hlt.le, fun _ => hlt⟩

def size (p : HttpParser) : Nat := 2 * p.buffer.length + if p.state = .start then 0 else 1

theorem parse_size {p p' : HttpParser} {request request' : HttpRequest}
    (h : p.parse request = .ok (p', request', true)) : p'.size < p.size := by
  obtain ⟨hstate, hle, hlt⟩ := parse_true h
  rw [size, size, if_pos hstate]
  split
  · next hstart => have := hlt hstart; omega
  · omega

end HttpParser

/-- The requests that a call hands to `handle_request`, and how it ends: an exception leaves it, or it leaves this. -/
structure Handed (α : Type) where
  requests : List HttpRequest
  ending : Except StdException α

/-- The call, and what is done with what it leaves. -/
def Handed.andThen {α β : Type} (x : Handed α) (f : α → Handed β) : Handed β :=
  match x.ending with
  | .error e => ⟨x.requests, .error e⟩
  | .ok a => ⟨x.requests ++ (f a).requests, (f a).ending⟩

/-- The inner loop of `handle_read`: each call of `parse` fills a request of its own. -/
def HttpParser.parseLoop (p : HttpParser) : Handed HttpParser :=
  match _h : p.parse .empty with
  | .error e => ⟨[], .error e⟩
  | .ok (p, _, false) => ⟨[], .ok p⟩
  | .ok (p, request, true) => ⟨request :: p.parseLoop.requests, p.parseLoop.ending⟩
termination_by p.size
decreasing_by all_goals exact HttpParser.parse_size (by assumption)

/-- `HttpConnection`; `registered` tells that the reactor still holds the handler. -/
structure HttpConnection where
  parser : HttpParser
  registered : Bool

namespace HttpConnection

/-- A connection that was just accepted. -/
def fresh : HttpConnection := ⟨⟨.start, 0, []⟩, true⟩

/-- `handle_read`, for the results of its calls of `recv`. -/
def handleRead : List Recv → HttpConnection → Handed HttpConnection
  | [], c => ⟨[], .ok c⟩
  | .data bytes :: results, c =>
    (c.parser.appendData bytes).parseLoop.andThen fun p => handleRead results { c with parser := p }
  | .closed :: _, c => ⟨[], .ok { c with registered := false }⟩
  | .again :: _, c => ⟨[], .ok c⟩
  | .error :: _, c => ⟨[], .ok { c with registered := false }⟩

/-- One read event after the other, each with the chunks that arrive until the socket is empty. -/
def receive : List (List Bytes) → HttpConnection → Handed HttpConnection
  | [], c => ⟨[], .ok c⟩
  | chunks :: events, c => (handleRead (chunks.map .data ++ [.again]) c).andThen (receive events)

end HttpConnection

end KvStore
