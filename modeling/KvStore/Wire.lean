import KvStore.Command
import KvStore.Lib.Decimal
import KvStore.SyncClient

/-! The text in which one server sends its entries to another: what the `GETARRAY`, `GETRBTREE`, `GETHASH` and
    `GETSKIPTABLE` cases print, and `parse_remote_data_str`, which reads it with a `std::stringstream`. -/

namespace KvStore

/-! ### Printing -/

/-- `' '` -/
def space : UInt8 := 32

/-- The line of a record, without its newline. -/
def dumpLine (data : SyncData) : Bytes :=
  data.key ++ space :: (data.value ++ space :: Decimal.decimal data.timestamp.toNat)

/-- The reply of a dump command for the entries of the local store. -/
def dumpText (localData : List SyncData) : Bytes :=
  if localData = [] then ascii "EMPTY" else localData.flatMap fun data => dumpLine data ++ [newline]

/-! ### Reading -/

/-- A `std::stringstream` that is read: the bytes to come, and whether no flag of it is set. -/
structure IStream where
  rest : Bytes
  good : Bool

/-- `std::isspace` -/
def IsSpace (b : UInt8) : Prop := b.toNat = 32 ∨ 9 ≤ b.toNat ∧ b.toNat ≤ 13

instance (b : UInt8) : Decidable (IsSpace b) := inferInstanceAs (Decidable (_ ∨ _))

namespace IStream

/-- The sentry of a formatted read: it skips white space, and fails when that uses up the stream. -/
def sentry (s : IStream) : Option Bytes :=
  if s.good then
    match s.rest.dropWhile (IsSpace ·) with
    | [] => none
    | b :: rest => some (b :: rest)
  else none

/-- `>> str`; a read that fails leaves `str` as it is. -/
def readString (s : IStream) (str : Bytes) : IStream × Bytes :=
  match s.sentry with
  | none => (⟨[], false⟩, str)
  | some bytes =>
    let rest := bytes.dropWhile (¬IsSpace ·)
    (⟨rest, rest ≠ []⟩, bytes.takeWhile (¬IsSpace ·))

/-- `>> n` for a `uint64_t`: an optional sign and digits. Without digits it stores 0, with too many the greatest
    number, and when the sentry fails nothing. -/
def readUInt64 (s : IStream) (n : UInt64) : UInt64 :=
  match s.sentry with
  | none => n
  | some bytes =>
    let (negative, bytes) := match bytes with
      | 45 :: rest => (true, rest)
      | 43 :: rest => (false, rest)
      | rest => (false, rest)
    let v := Decimal.value (bytes.takeWhile (Decimal.IsDigit ·))
    if UInt64.size ≤ v then UInt64.ofNat (UInt64.size - 1)
    else if negative then -UInt64.ofNat v else UInt64.ofNat v

end IStream

/-- `line_ss >> key >> value >> timestamp`; the timestamp is not initialised, and `junk` is what it holds. -/
def parseLine (junk : UInt64) (line : Bytes) : SyncData :=
  let (s, key) := IStream.readString ⟨line, true⟩ []
  let (s, value) := s.readString []
  ⟨key, value, s.readUInt64 junk⟩

/-- The loop over the lines, which skips the empty ones. -/
def parseLines : (Nat → UInt64) → List Bytes → List SyncData
  | _, [] => []
  | junk, line :: lines =>
    if line = [] then parseLines (fun n => junk (n + 1)) lines
    else parseLine (junk 0) line :: parseLines (fun n => junk (n + 1)) lines

/-- `parse_remote_data_str`; in the round of the `n`-th line the timestamp holds `junk n` before it is read. -/
def parseRemoteDataStr (junk : Nat → UInt64) (dataStr : Bytes) : List SyncData :=
  parseLines junk (Framing.pieces newline dataStr)

end KvStore
