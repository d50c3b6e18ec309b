import KvStore.Dispatch

/-! `process_command` once more, with what `Surroundings` leaves out of the `SYNC` cases: `std::stoi`, which throws for a
    port that is no number, and the loop that waits for the response of a peer. Nothing between `process_command` and
    `main` catches an exception. -/

namespace KvStore

/-- What `std::stoi` throws. -/
inductive StdException where
  | invalidArgument
  | outOfRange
deriving DecidableEq

/-- An optional sign, and what follows it. -/
def splitSign : Bytes → Bool × Bytes
  | 45 :: rest => (true, rest)
  | 43 :: rest => (false, rest)
  | rest => (false, rest)

/-- `std::stoi`: white space, an optional sign and digits. What follows the digits is not looked at. -/
def stoi (str : Bytes) : Except StdException Int :=
  let (negative, bytes) := splitSign (str.dropWhile (IsSpace ·))
  let digits := bytes.takeWhile (Decimal.IsDigit ·)
  if digits = [] then .error .invalidArgument
  else
    let n : Int := if negative then -Decimal.value digits else Decimal.value digits
    if n < -2147483648 ∨ 2147483648 ≤ n then .error .outOfRange else .ok n

/-- How a call ends: it returns, an exception leaves it, it still waits for a peer, or it reads memory that it must not
    read. -/
inductive Ending (α : Type) where
  | returns (a : α)
  | throws (e : StdException)
  | waits
  | faults

def Ending.map {α β : Type} (f : α → β) : Ending α → Ending β
  | .returns a => .returns (f a)
  | .throws e => .throws e
  | .waits => .waits
  | .faults => .faults

/-- How a call ends that throws nothing and waits for nobody. -/
def Ending.ofOption {α : Type} : Option α → Ending α
  | some a => .returns a
  | none => .faults

/-- The loop of `receive_response`, for the turns that it has taken so far; nothing while it goes on. -/
def receiveLoop : Bytes → List Poll → Option Bytes
  | _, [] => none
  | response, poll :: polls =>
    match receiveTurn response poll with
    | .next response => receiveLoop response polls
    | .done response => some response

/-- What `connect` and `send_command` come to for an address and a port: they fail, or a peer is there, with the turns
    of the loop that waits for its response. -/
abbrev Peers := EngineKind → CString → Int → Option (List Poll)

namespace Exceptions

/-- A `SYNC` case. -/
def syncCase {σ : Type} (E : Engine σ) (kind : EngineKind) (w : Surroundings) (peers : Peers) (tokens : Tokens)
    (count : Nat) (s : σ) (files : Files) : Ending (σ × Files × Bytes) :=
  if count < 3 then .returns (s, files, ascii "FAILED")
  else
    match tokens 1, tokens 2 with
    | some remoteIp, some port =>
      match stoi port.bytes with
      | .error e => .throws e
      | .ok remotePort =>
        match peers kind remoteIp remotePort with
        | none => .returns (s, files, ascii "FAILED")
        | some polls =>
          match receiveLoop [] polls with
          | none => .waits
          | some response =>
            .ofOption ((pullResponse E w.env w.junk s response).map fun (s, response) => (s, files, response))
    | _, _ => .faults

/-- The case of a command. The other cases call nothing that throws. -/
def runCase {σ : Type} (B : Backend σ) (kind : EngineKind) (w : Surroundings) (peers : Peers) (tokens : Tokens)
    (count : Nat) (s : σ) (files : Files) : Op → Ending (σ × Files × Bytes)
  | .sync => syncCase B.toEngine kind w peers tokens count s files
  | op => .ofOption (KvStore.runCase B kind w tokens count s files op)

def parseProtocolToString (w : Surroundings) (peers : Peers) (g : Globals) (tokens : Tokens) (count : Nat) :
    Ending (Globals × Bytes) :=
  if count < 1 then .returns (g, [])
  else
    match tokens 0 with
    | none => .faults
    | some name =>
      match findCommand name.bytes with
      | none => .returns (g, [])
      | some (kind, op) =>
        (runCase kind.backend kind w peers tokens count (g.store kind) g.files op).map fun (s, files, response) =>
          (⟨Function.update g.store kind s, files⟩, response)

def processCommand (w : Surroundings) (peers : Peers) (g : Globals) (tokens : Tokens) (command : Bytes) :
    Ending (Globals × Bytes) :=
  let pieces := tokenize (commandBuf command)
  parseProtocolToString w peers g (Dispatch.writeTokens tokens pieces) pieces.length

end Exceptions

end KvStore
