import KvStore.Exceptions
import KvStore.Theorems.Lines
import KvStore.Theorems.Returns

/-! When an exception leaves `process_command`: exactly when `std::stoi` takes no number from the port of a `SYNC`. -/

namespace KvStore
open Decimal

/-! ### `std::stoi` -/

/-- White space, an optional sign, and then digits, all that there are, for a value of type `int`. -/
def IntText (str : Bytes) : Prop :=
  ∃ blanks sign digits rest, str = blanks ++ (sign ++ (digits ++ rest)) ∧ (∀ b ∈ blanks, IsSpace b) ∧
    (sign = [] ∨ sign = [43] ∨ sign = [45]) ∧ digits ≠ [] ∧ (∀ b ∈ digits, IsDigit b) ∧ (∀ b ∈ rest.head?, ¬IsDigit b) ∧
    if sign = [45] then value digits ≤ 2147483648 else value digits < 2147483648

section Stoi
variable {str bytes blanks sign digits rest : Bytes} {b : UInt8}

theorem not_isSpace_of_isDigit (h : IsDigit b) : ¬IsSpace b := by
  rw [IsDigit] at h
  rw [IsSpace]
  omega

/-- The sign that `splitSign` takes off. -/
theorem splitSign_cases (bytes : Bytes) : ∃ sign, bytes = sign ++ (splitSign bytes).2 ∧
    (sign = [] ∨ sign = [43] ∨ sign = [45]) ∧ ((splitSign bytes).1 = true ↔ sign = [45]) := by
  unfold splitSign
  split
  · next rest => exact ⟨[45], rfl, by simp, by simp⟩
  · next rest => exact ⟨[43], rfl, by simp, by simp⟩
  · next rest => exact ⟨[], rfl, by simp, by simp⟩

theorem splitSign_append (hsign : sign = [] ∨ sign = [43] ∨ sign = [45]) (hd : ∀ b ∈ bytes.head?, IsDigit b) :
    splitSign (sign ++ bytes) = (decide (sign = [45]), bytes) := by
  rcases hsign with rfl | rfl | rfl
  · -- a digit is no sign
    rw [List.nil_append]
    unfold splitSign
    split
    · next rest => exact absurd (hd 45 rfl) (by decide)
    · next rest => exact absurd (hd 43 rfl) (by decide)
    · next rest => rfl
  · rfl
  · rfl

theorem isDigit_head (hne : digits ≠ []) (hd : ∀ b ∈ digits, IsDigit b) : ∀ b ∈ (digits ++ rest).head?, IsDigit b := by
  obtain ⟨d, ds, rfl⟩ := List.exists_cons_of_ne_nil hne
  intro b hb
  obtain rfl : d = b := Option.some.inj hb
  exact hd d List.mem_cons_self

theorem stoi_blanks (hb : ∀ b ∈ blanks, IsSpace b) (hsign : sign = [] ∨ sign = [43] ∨ sign = [45]) (hne : digits ≠ [])
    (hd : ∀ b ∈ digits, IsDigit b) :
    (blanks ++ (sign ++ (digits ++ rest))).dropWhile (IsSpace ·) = sign ++ (digits ++ rest) := by
  have hhead : ∀ b ∈ (sign ++ (digits ++ rest)).head?, ¬IsSpace b := by
    rcases hsign with rfl | rfl | rfl
    · exact fun b hb => not_isSpace_of_isDigit (isDigit_head hne hd b hb)
    · simp [IsSpace]
    · simp [IsSpace]
  rw [List.dropWhile_append_of_pos fun b hm => by simpa using hb b hm]
  cases hs : sign ++ (digits ++ rest) with
  | nil => rfl
  | cons b bs =>
    have hspace : ¬IsSpace b := hhead b (by simp [hs])
    exact List.dropWhile_cons_of_neg (by simpa using hspace)

theorem takeWhile_digits (hd : ∀ b ∈ digits, IsDigit b) (hrest : ∀ b ∈ rest.head?, ¬IsDigit b) :
    (digits ++ rest).takeWhile (IsDigit ·) = digits := by
  rw [List.takeWhile_append_of_pos fun b hb => by simpa using hd b hb]
  cases rest with
  | nil => simp
  | cons b bs =>
    have hdigit : ¬IsDigit b := hrest b rfl
    rw [List.takeWhile_cons_of_neg (by simpa using hdigit), List.append_nil]

/-- The texts that `std::stoi` takes a number from. -/
theorem stoi_ok_iff : (∃ n, stoi str = .ok n) ↔ IntText str := by
  constructor
  · rintro ⟨n, hn⟩
    obtain ⟨sign, hsplit, hsign, hneg⟩ := splitSign_cases (str.dropWhile (IsSpace ·))
    simp only [stoi] at hn
    generalize hbytes : (splitSign (str.dropWhile (IsSpace ·))).2 = bytes at hn hsplit
    by_cases hne : bytes.takeWhile (IsDigit ·) = []
    · rw [if_pos hne] at hn
      cases hn
    rw [if_neg hne] at hn
    refine ⟨str.takeWhile (IsSpace ·), sign, bytes.takeWhile (IsDigit ·), bytes.dropWhile (IsDigit ·), ?_,
      fun b hb => by simpa using List.mem_takeWhile_imp hb, hsign, hne,
      fun b hb => by simpa using List.mem_takeWhile_imp hb, fun b hb => ?_, ?_⟩
    · rw [List.takeWhile_append_dropWhile, ← hsplit, List.takeWhile_append_dropWhile]
    · have hhead := List.head?_dropWhile_not (IsDigit ·) bytes
      rw [hb] at hhead
      simpa using hhead
    · -- the number is not out of range
      by_cases hs : sign = [45]
      · rw [if_pos hs]
        simp only [hneg.mpr hs, if_true] at hn
        by_contra hlt
        rw [if_pos (Or.inl (by omega))] at hn
        cases hn
      · rw [if_neg hs]
        simp only [Bool.eq_false_iff.mpr (mt hneg.mp hs), Bool.false_eq_true, if_false] at hn
        by_contra hlt
        rw [if_pos (Or.inr (by omega))] at hn
        cases hn
  · rintro ⟨blanks, sign, digits, rest, rfl, hb, hsign, hne, hd, hrest, hrange⟩
    simp only [stoi, stoi_blanks hb hsign hne hd, splitSign_append hsign (isDigit_head hne hd),
      takeWhile_digits hd hrest, if_neg hne, decide_eq_true_eq]
    refine ⟨_, if_neg ?_⟩
    by_cases hs : sign = [45]
    · rw [if_pos hs] at hrange
      rw [if_pos hs]
      omega
    · rw [if_neg hs] at hrange
      rw [if_neg hs]
      omega

end Stoi

/-! ### Endings -/

section Endings
variable {α β : Type} {f : α → β} {x : Ending α} {o : Option α} {b : β} {e : StdException}

theorem Ending.map_throws : x.map f = .throws e ↔ x = .throws e := by
  cases x <;> simp [Ending.map]

theorem Ending.map_returns : x.map f = .returns b ↔ ∃ a, x = .returns a ∧ f a = b := by
  cases x <;> simp [Ending.map]

theorem Ending.ofOption_returns {a : α} : Ending.ofOption o = .returns a ↔ o = some a := by
  cases o <;> simp [Ending.ofOption]

theorem Ending.ofOption_ne_throws : Ending.ofOption o ≠ .throws e := by
  cases o <;> simp [Ending.ofOption]

end Endings

/-- The surroundings in which a pull comes to what `std::stoi`, the peers and the loop that waits for one make of it. -/
def Surroundings.pulling (w : Surroundings) (peers : Peers) : Surroundings :=
  { w with
    pull := fun kind remoteIp port =>
      match stoi port.bytes with
      | .error _ => .throws
      | .ok remotePort =>
        match peers kind remoteIp remotePort with
        | none => .fails
        | some polls =>
          match receiveLoop [] polls with
          | none => .throws
          | some response => .reaches response }

/-- Every peer that is reached ends the loop that waits for its response. -/
def Peers.Answer (peers : Peers) : Prop :=
  ∀ kind ip port polls, peers kind ip port = some polls → receiveLoop [] polls ≠ none

namespace Exceptions
open Dispatch

section Case
variable {kind : EngineKind} {w : Surroundings} {peers : Peers} {tokens : Tokens} {count : Nat} {s : kind.Store}
  {files : Files} {op : Op} {out : kind.Store × Files × Bytes}

/-- A case that returns is the case of the dispatch that knows what the pull comes to. -/
theorem runCase_returns_iff : runCase kind.backend kind w peers tokens count s files op = .returns out ↔
    KvStore.runCase kind.backend kind (w.pulling peers) tokens count s files op = some out := by
  cases op with
  | sync =>
    simp only [runCase, syncCase, KvStore.runCase, Surroundings.pulling]
    by_cases hcount : count < 3
    · simp [hcount]
    · simp only [if_neg hcount]
      cases tokens 1 with
      | none => simp
      | some remoteIp =>
        cases tokens 2 with
        | none => simp
        | some port =>
          simp only [Option.bind_eq_bind, Option.bind_some]
          cases stoi port.bytes with
          | error e => simp
          | ok remotePort =>
            simp only
            cases peers kind remoteIp remotePort with
            | none => simp
            | some polls =>
              simp only
              cases receiveLoop [] polls with
              | none => simp
              | some response =>
                rw [Ending.ofOption_returns, Option.map_eq_bind]
                rfl
  | _ => exact Ending.ofOption_returns

/-- A case that throws is a `SYNC` whose port `std::stoi` does not take. -/
theorem runCase_throws_iff : (∃ e, runCase kind.backend kind w peers tokens count s files op = .throws e) ↔
    op = .sync ∧ 3 ≤ count ∧
      ∃ remoteIp port, tokens 1 = some remoteIp ∧ tokens 2 = some port ∧ ¬IntText port.bytes := by
  have hother : ∀ {o : Option (kind.Store × Files × Bytes)}, ¬∃ e, Ending.ofOption o = .throws e :=
    fun ⟨_, he⟩ => Ending.ofOption_ne_throws he
  cases op with
  | sync =>
    simp only [runCase, syncCase]
    by_cases hcount : count < 3
    · simp [hcount]
    · simp only [if_neg hcount, true_and, Nat.le_of_not_lt hcount]
      cases tokens 1 with
      | none => simp
      | some remoteIp =>
        cases tokens 2 with
        | none => simp
        | some port =>
          cases hport : stoi port.bytes with
          | error e =>
            refine iff_of_true ⟨e, by simp only [hport]⟩ ⟨remoteIp, port, rfl, rfl, fun htext => ?_⟩
            obtain ⟨n, hn⟩ := stoi_ok_iff.mpr htext
            rw [hport] at hn
            cases hn
          | ok remotePort =>
            have htext : IntText port.bytes := stoi_ok_iff.mp ⟨remotePort, hport⟩
            refine iff_of_false (fun he => ?_) fun ⟨_, _, _, hp, hnot⟩ => hnot (Option.some.inj hp ▸ htext)
            simp only [hport] at he
            cases hpeer : peers kind remoteIp remotePort with
            | none => simp [hpeer] at he
            | some polls =>
              cases hpolls : receiveLoop [] polls with
              | none => simp [hpeer, hpolls] at he
              | some response =>
                simp only [hpeer, hpolls] at he
                exact hother he
  | _ => exact iff_of_false hother (by simp)

end Case

section Lines
variable {w : Surroundings} {peers : Peers} {g : Globals} {tokens : Tokens} {line : Bytes} {kind : EngineKind} {op : Op}

theorem processCommand_known (h : commandOf line = some (kind, op)) : processCommand w peers g tokens line =
    (runCase kind.backend kind w peers (lineTokens tokens line) (pieces line).length (g.store kind) g.files op).map
      (afterCase g kind) := by
  have hpos := pieces_pos h
  obtain ⟨name, hzero, hfind⟩ := @lineTokens_zero tokens line hpos
  show parseProtocolToString w peers g (lineTokens tokens line) (pieces line).length = _
  rw [parseProtocolToString, if_neg (Nat.not_lt.mpr hpos), hzero]
  simp only [hfind, h]
  rfl

theorem processCommand_unknown (h : commandOf line = none) :
    processCommand w peers g tokens line = .returns (g, []) := by
  show parseProtocolToString w peers g (lineTokens tokens line) (pieces line).length = _
  by_cases hpos : 0 < (pieces line).length
  · obtain ⟨name, hzero, hfind⟩ := @lineTokens_zero tokens line hpos
    rw [parseProtocolToString, if_neg (Nat.not_lt.mpr hpos), hzero]
    simp only [hfind, h]
  · rw [parseProtocolToString, if_pos (Nat.lt_one_iff.mpr (Nat.eq_zero_of_not_pos hpos))]

/-- A line that is answered has the answer of the dispatch that knows what the pull comes to. -/
theorem processCommand_returns_iff {out : Globals × Bytes} : processCommand w peers g tokens line = .returns out ↔
    Dispatch.processCommand (w.pulling peers) g tokens line = some out := by
  cases hcmd : commandOf line with
  | none =>
    rw [processCommand_unknown hcmd, Dispatch.processCommand_unknown hcmd]
    simp
  | some c =>
    rw [processCommand_known hcmd, Dispatch.processCommand_known hcmd, Ending.map_returns, Option.map_eq_some_iff]
    exact exists_congr fun a => and_congr_left' runCase_returns_iff

/-- No `SYNC` of the line comes to a port that `std::stoi` takes no number from. -/
def PortReads (line : Bytes) : Prop :=
  ∀ kind name ip port rest, commandOf line = some (kind, .sync) → pieces line = name :: ip :: port :: rest →
    IntText port

/-- An exception leaves the call for a line exactly when its port is no number, whatever the server and the peers. -/
theorem processCommand_throws_iff : (∃ e, processCommand w peers g tokens line = .throws e) ↔ ¬PortReads line := by
  cases hcmd : commandOf line with
  | none =>
    refine iff_of_false (fun ⟨e, he⟩ => ?_) fun hport => hport fun kind name ip port rest hsync => ?_
    · rw [processCommand_unknown hcmd] at he
      cases he
    · rw [hcmd] at hsync
      cases hsync
  | some c =>
    obtain ⟨kind, op⟩ := c
    simp only [processCommand_known hcmd, Ending.map_throws]
    rw [runCase_throws_iff]
    constructor
    · rintro ⟨rfl, hcount, ip, port, hip, hport, htext⟩ hreads
      obtain ⟨name, a, b, rest, hp⟩ : ∃ name a b rest, pieces line = name :: a :: b :: rest := by
        match hp : pieces line with
        | [] => simp [hp] at hcount
        | [_] => simp [hp] at hcount
        | [_, _] => simp [hp] at hcount
        | name :: a :: b :: rest => exact ⟨name, a, b, rest, rfl⟩
      obtain rfl : CString.ofBytes b = port := by
        simpa [lineTokens, writeTokens, hp] using hport
      have hb : (0 : UInt8) ∉ b := (piece_subset (hp ▸ by simp : b ∈ pieces line)).2
      rw [ofBytes_of_not_nul hb] at htext
      exact htext (hreads kind name a b rest hcmd hp)
    · intro hnot
      simp only [PortReads, not_forall] at hnot
      obtain ⟨kind', name, ip, port, rest, hsync, hp, htext⟩ := hnot
      rw [hcmd, Option.some.injEq, Prod.mk.injEq] at hsync
      have hport : (0 : UInt8) ∉ port := (piece_subset (hp ▸ by simp : port ∈ pieces line)).2
      refine ⟨hsync.2, by simp [hp], .ofBytes ip, .ofBytes port, ?_, ?_, ?_⟩
      · simp [lineTokens, writeTokens, hp]
      · simp [lineTokens, writeTokens, hp]
      · rwa [ofBytes_of_not_nul hport]

/-- A pull with a port that is a number, from peers that answer. -/
theorem PortReads.pull_ne_throws (h : PortReads line) (hpeers : peers.Answer) {name ip port : Bytes} {rest : List Bytes}
    (hsync : commandOf line = some (kind, .sync)) (hp : pieces line = name :: ip :: port :: rest) :
    (w.pulling peers).pull kind (.ofBytes ip) (.ofBytes port) ≠ .throws := by
  have hnul : (0 : UInt8) ∉ port := (piece_subset (hp ▸ by simp : port ∈ pieces line)).2
  obtain ⟨n, hn⟩ := stoi_ok_iff.mpr (h kind name ip port rest hsync hp)
  simp only [Surroundings.pulling, ofBytes_of_not_nul hnul, hn]
  cases hpeer : peers kind (.ofBytes ip) n with
  | none => simp
  | some polls =>
    obtain ⟨response, hloop⟩ := Option.ne_none_iff_exists'.mp (hpeers kind _ n polls hpeer)
    simp [hloop]

/-- For a line with the tokens that its case takes: no exception leaves the call exactly when no `SYNC` has a port that
    is no number, and exactly then it replies, where the engine takes what it is given and the peers answer. -/
theorem replies_iff_portReads (hown : unchecked line ≤ (pieces line).length) (w : Surroundings) (peers : Peers)
    (g : Globals) (tokens : Tokens) :
    ((∀ e, processCommand w peers g tokens line ≠ .throws e) ↔ PortReads line) ∧
      (peers.Answer → Ready (w.pulling peers) g line →
        ((∃ out, processCommand w peers g tokens line = .returns out) ↔ PortReads line)) := by
  have hthrows : (∀ e, processCommand w peers g tokens line ≠ .throws e) ↔ PortReads line := by
    rw [← not_exists, processCommand_throws_iff, not_not]
  refine ⟨hthrows, fun hpeers hready => ⟨fun ⟨out, hout⟩ => hthrows.mp fun e he => ?_, fun hport => ?_⟩⟩
  · rw [hout] at he
    cases he
  · obtain ⟨out, hout⟩ := @Ready.returns _ _ tokens _ hready hown fun kind name ip port rest hsync hp =>
      hport.pull_ne_throws hpeers hsync hp
    exact ⟨out, processCommand_returns_iff.mpr hout⟩

end Lines

/-- A `SYNC` with a port that is a number. -/
def numberedSync : Bytes := ascii "SYNC 127.0.0.1 8080"

/-- No connection comes about. -/
def noPeers : Peers := fun _ _ _ => none

theorem replies_iff_portReads_numberedSync :
    ∃ out, processCommand .calm noPeers (Globals.initial .calm) (fun _ => none) numberedSync =
      .returns out := by
  have hcmd : commandOf numberedSync = some (.array, .sync) := by decide +kernel
  have hp : pieces numberedSync = [ascii "SYNC", ascii "127.0.0.1", ascii "8080"] := by decide +kernel
  have hown : unchecked numberedSync ≤ (pieces numberedSync).length := by
    rw [unchecked, hcmd, hp]
    decide
  have hreads : PortReads numberedSync := by
    intro kind name ip port rest _ hport
    rw [hp] at hport
    cases hport
    exact stoi_ok_iff.mp ⟨8080, by decide +kernel⟩
  have hready : Ready (Surroundings.calm.pulling noPeers) (Globals.initial .calm) numberedSync := by
    refine ⟨fun kind => ⟨_, kind.created_holds⟩, fun _ => Env.calm_allocates 0, fun kind op hop => ?_⟩
    rw [hcmd] at hop
    cases hop
    rw [hp]
    intro response hresponse
    have hok : stoi (CString.ofBytes (ascii "8080")).bytes = .ok 8080 := by decide +kernel
    simp [Surroundings.pulling, hok, noPeers] at hresponse
  have hanswer : noPeers.Answer := by simp [Peers.Answer, noPeers]
  exact ((replies_iff_portReads hown _ noPeers _ _).2 hanswer hready).mpr hreads

/-- A `SYNC` with a port that is a word, and one with a port that is too large. -/
theorem sync_throws :
    unchecked (ascii "SYNC 127.0.0.1 abc") ≤ (pieces (ascii "SYNC 127.0.0.1 abc")).length ∧
    (∀ w peers g tokens, processCommand w peers g tokens (ascii "SYNC 127.0.0.1 abc") = .throws .invalidArgument) ∧
    ∀ w peers g tokens, processCommand w peers g tokens (ascii "SYNC 127.0.0.1 99999999999") = .throws .outOfRange := by
  have hrun : ∀ {port : Bytes} {e}, commandOf (ascii "SYNC 127.0.0.1 " ++ port) = some (.array, .sync) →
      pieces (ascii "SYNC 127.0.0.1 " ++ port) = [ascii "SYNC", ascii "127.0.0.1", port] →
      stoi (CString.ofBytes port).bytes = .error e → ∀ w peers g tokens,
      processCommand w peers g tokens (ascii "SYNC 127.0.0.1 " ++ port) = .throws e := by
    intro port e hcmd hp hport w peers g tokens
    rw [processCommand_known hcmd, Ending.map_throws, hp]
    simp [runCase, syncCase, lineTokens, writeTokens, hp, hport]
  exact ⟨by decide +kernel, hrun (by decide +kernel) (by decide +kernel) (by decide +kernel),
    hrun (by decide +kernel) (by decide +kernel) (by decide +kernel)⟩

end Exceptions

end KvStore
