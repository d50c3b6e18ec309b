import KvStore.Http
import KvStore.Theorems.Exceptions
import KvStore.Theorems.Wire

/-! What `handle_read` of an `HttpConnection` hands to `handle_request` when a stream of well-formed requests arrives in
    chunks. Each call of `parse` fills a request of its own, while the parser goes on where it stopped: the request line
    of a request is lost when a chunk ends behind it and before the end of the request. -/

namespace KvStore
open Framing FiniteMap Decimal

/-! ### Well-formed requests -/

/-- The fields of a line: what stands between white space. -/
inductive LineFields : List Bytes → Bytes → Prop where
  | nil {line : Bytes} : (∀ b ∈ line, IsSpace b) → LineFields [] line
  | cons {gap field rest : Bytes} {fields : List Bytes} : (∀ b ∈ gap, IsSpace b) → field ≠ [] → NoSpace field →
      (∀ b ∈ rest.head?, IsSpace b) → LineFields fields rest → LineFields (field :: fields) (gap ++ (field ++ rest))

/-- A number in decimal digits that fits a `size_t`, with white space around it. -/
def Numeral (n : Nat) (str : Bytes) : Prop :=
  ∃ before digits after, str = before ++ (digits ++ after) ∧ (∀ b ∈ before, IsSpace b) ∧ digits ≠ [] ∧
    (∀ b ∈ digits, IsDigit b) ∧ (∀ b ∈ after, IsSpace b) ∧ value digits = n ∧ n < UInt64.size

/-- A line that holds no line end. -/
def NoLineEnd (line : Bytes) : Prop := firstPair carriageReturn newline line = none

instance (line : Bytes) : Decidable (NoLineEnd line) := inferInstanceAs (Decidable (_ = none))

structure HttpHeader where
  key : Bytes
  value : Bytes
  keyColon : colon ∉ key
  noLineEnd : NoLineEnd (key ++ colon :: value)

def HttpHeader.line (header : HttpHeader) : Bytes := header.key ++ colon :: header.value

def HttpHeader.IsLength (header : HttpHeader) : Prop := header.key = ascii "Content-Length"

instance (header : HttpHeader) : Decidable header.IsLength := inferInstanceAs (Decidable (_ = _))

/-- A well-formed request as it is sent: a request line with three fields, header lines, and a body whose length a header
    gives unless there is none. -/
structure HttpMessage where
  requestLine : Bytes
  method : Bytes
  uri : Bytes
  version : Bytes
  headers : List HttpHeader
  body : Bytes
  fields : LineFields [method, uri, version] requestLine
  noLineEnd : NoLineEnd requestLine
  numeric : ∀ header ∈ headers, header.IsLength → Numeral body.length header.value
  declared : body ≠ [] → ∃ header ∈ headers, header.IsLength

namespace HttpMessage

def lineEnd : Bytes := [carriageReturn, newline]

/-- What follows the request line. -/
def rest (m : HttpMessage) : Bytes := m.headers.flatMap (fun header => header.line ++ lineEnd) ++ (lineEnd ++ m.body)

def bytes (m : HttpMessage) : Bytes := m.requestLine ++ (lineEnd ++ m.rest)

/-- The headers as `headers[key] = value` leaves them: the last of those with one key counts. -/
def headerMap (headers : List HttpHeader) (known : Map Bytes Bytes) : Map Bytes Bytes :=
  headers.foldl (fun known header => known.insert header.key (trimBlanks header.value)) known

def request (m : HttpMessage) : HttpRequest := ⟨m.method, m.uri, m.version, headerMap m.headers Map.empty, m.body⟩

end HttpMessage

/-- A place in a stream that lies behind the request line of a request and before the end of that request. -/
def InsideRequest : List HttpMessage → Nat → Prop
  | [], _ => False
  | m :: ms, n =>
    m.requestLine.length + 2 ≤ n ∧ n < m.bytes.length ∨ m.bytes.length ≤ n ∧ InsideRequest ms (n - m.bytes.length)

/-! ### Header values -/

section Values
variable {n : Nat} {str : Bytes}

theorem stoul_numeral (h : Numeral n str) : stoul str = .ok n := by
  obtain ⟨before, digits, after, rfl, hbefore, hne, hd, hafter, rfl, hn⟩ := h
  have hblanks : (before ++ (digits ++ after)).dropWhile (IsSpace ·) = digits ++ after :=
    stoi_blanks hbefore (Or.inl rfl) hne hd
  have hsign : splitSign (digits ++ after) = (false, digits ++ after) :=
    splitSign_append (Or.inl rfl) (isDigit_head hne hd)
  have hend : ∀ b ∈ after.head?, ¬IsDigit b := fun b hb hdigit =>
    not_isSpace_of_isDigit hdigit (hafter b (List.mem_of_mem_head? hb))
  simp only [stoul, hblanks, hsign, takeWhile_digits hd hend, if_neg hne, if_neg (Nat.not_le.mpr hn)]
  rfl

theorem Numeral.not_all_blank (h : Numeral n str) : ¬str.all (· = space) = true := by
  obtain ⟨before, digits, after, rfl, -, hne, hd, -, -, -⟩ := h
  obtain ⟨d, ds, rfl⟩ := List.exists_cons_of_ne_nil hne
  intro hall
  have hspace : d = space := by simpa using List.all_eq_true.mp hall d (by simp)
  exact absurd (hspace ▸ hd d List.mem_cons_self) (by decide)

theorem Numeral.dropWhile (h : Numeral n str) : Numeral n (str.dropWhile (· = space)) := by
  obtain ⟨before, digits, after, rfl, hbefore, hne, hd, hafter, hvalue, hn⟩ := h
  refine ⟨before.dropWhile (· = space), digits, after, ?_, fun b hb => hbefore b ?_, hne, hd, hafter, hvalue, hn⟩
  · obtain ⟨d, ds, rfl⟩ := List.exists_cons_of_ne_nil hne
    have hspace : ¬d = space := fun h => absurd (h ▸ hd d List.mem_cons_self) (by decide)
    rw [List.dropWhile_append, List.cons_append, List.dropWhile_cons_of_neg (by simpa using hspace)]
    split
    · next hempty => rw [List.isEmpty_iff.mp hempty, List.nil_append]
    · rfl
  · exact (List.dropWhile_suffix _).subset hb

theorem rdropWhile_append {α : Type} {p : α → Bool} {l₁ : List α} (h : ∀ b ∈ l₁.getLast?, ¬p b) (l₂ : List α) :
    (l₁ ++ l₂).rdropWhile p = l₁ ++ l₂.rdropWhile p := by
  induction l₂ using List.reverseRecOn with
  | nil =>
    rw [List.append_nil, List.rdropWhile_nil, List.append_nil, List.rdropWhile_eq_self_iff]
    exact fun hl => h _ (List.getLast?_eq_some_getLast hl)
  | append_singleton l b ih =>
    rw [← List.append_assoc, List.rdropWhile_concat, List.rdropWhile_concat]
    split
    · exact ih
    · rw [List.append_assoc]

theorem Numeral.rdropWhile (h : Numeral n str) : Numeral n (str.rdropWhile (· = space)) := by
  obtain ⟨before, digits, after, rfl, hbefore, hne, hd, hafter, hvalue, hn⟩ := h
  refine ⟨before, digits, after.rdropWhile (· = space), ?_, hbefore, hne, hd, fun b hb => hafter b ?_, hvalue, hn⟩
  · have hlast : ∀ b ∈ (before ++ digits).getLast?, ¬decide (b = space) = true := by
      intro b hb
      rw [List.getLast?_append_of_ne_nil before hne] at hb
      have hdigit : IsDigit b := hd b (List.mem_of_mem_getLast? hb)
      rw [decide_eq_true_eq]
      rintro rfl
      exact absurd hdigit (by decide)
    have happend := rdropWhile_append hlast after
    rwa [List.append_assoc, List.append_assoc] at happend
  · exact (List.rdropWhile_prefix _ _).subset hb

/-- Taking blanks off leaves a number a number. -/
theorem Numeral.trimBlanks (h : Numeral n str) : Numeral n (trimBlanks str) := by
  rw [KvStore.trimBlanks]
  simp only [h.not_all_blank, h.dropWhile.not_all_blank, if_false, Bool.false_eq_true]
  exact h.dropWhile.rdropWhile

end Values

/-! ### One request -/

section Parse
variable {p p' p₁ : HttpParser} {request request' request₁ : HttpRequest} {line rest data : Bytes}

/-- A read takes the first field of what is left of a line. -/
theorem readString_field {field : Bytes} {fields : List Bytes} (h : LineFields (field :: fields) line) (str : Bytes) :
    ∃ rest, IStream.sentry ⟨line, true⟩ ≠ none ∧
      IStream.readString ⟨line, true⟩ str = (⟨rest, decide (rest ≠ [])⟩, field) ∧ LineFields fields rest := by
  cases h with
  | @cons gap _ rest _ hgap hne hfield hrest htail =>
    obtain ⟨c, cs, rfl⟩ := List.exists_cons_of_ne_nil hne
    have hc : ¬IsSpace c := hfield c List.mem_cons_self
    have hsentry : IStream.sentry ⟨gap ++ (c :: cs ++ rest), true⟩ = some (c :: cs ++ rest) := by
      have hdrop : (gap ++ (c :: cs ++ rest)).dropWhile (IsSpace ·) = c :: (cs ++ rest) := by
        rw [List.dropWhile_append_of_pos fun b hb => by simpa using hgap b hb]
        exact List.dropWhile_cons_of_neg (by simpa using hc)
      simp only [IStream.sentry, hdrop, if_true]
      rfl
    have hall : ∀ b ∈ c :: cs, decide (¬IsSpace b) = true := fun b hb => by simpa using hfield b hb
    refine ⟨rest, by rw [hsentry]; exact Option.some_ne_none _, ?_, htail⟩
    have htake : rest.takeWhile (¬IsSpace ·) = [] ∧ rest.dropWhile (¬IsSpace ·) = rest := by
      cases rest with
      | nil => exact ⟨rfl, rfl⟩
      | cons b bs =>
        have hb : IsSpace b := hrest b rfl
        exact ⟨List.takeWhile_cons_of_neg (by simpa using hb), List.dropWhile_cons_of_neg (by simpa using hb)⟩
    simp only [IStream.readString, hsentry]
    rw [List.dropWhile_append_of_pos hall, List.takeWhile_append_of_pos hall, htake.1, htake.2, List.append_nil]

theorem LineFields.ne_nil {field : Bytes} {fields : List Bytes} (h : LineFields (field :: fields) line) :
    field ≠ [] ∧ line ≠ [] := by
  cases h with
  | cons _ hne _ _ _ => exact ⟨hne, by simp [hne]⟩

/-- The three fields of a request line are the method, the URI and the version. -/
theorem readFields_eq {method uri version : Bytes} (h : LineFields [method, uri, version] line) :
    HttpParser.readFields line request = ({ request with method := method, uri := uri, version := version }, true) := by
  obtain ⟨rest₁, -, hmethod, h₁⟩ := readString_field h request.method
  obtain ⟨rest₂, -, huri, h₂⟩ := readString_field h₁ request.uri
  obtain ⟨rest₃, hsentry, hversion, -⟩ := readString_field h₂ request.version
  rw [HttpParser.readFields, hmethod]
  simp only [h₁.ne_nil.2, h₂.ne_nil.2, decide_true, ne_eq, not_false_eq_true, huri, hversion,
    Option.isSome_iff_ne_none.mpr hsentry]

theorem firstPair_lineEnd (h : NoLineEnd line) (rest : Bytes) :
    firstPair carriageReturn newline (line ++ (HttpMessage.lineEnd ++ rest)) = some (line, rest) :=
  firstPair_line (by decide) h rest

theorem readHeader_line (header : HttpHeader) {n length : Nat} (hn : header.IsLength → Numeral n header.value) :
    HttpParser.readHeader header.line length request = .ok (if header.IsLength then n else length,
      { request with headers := request.headers.insert header.key (trimBlanks header.value) }) := by
  rw [HttpParser.readHeader, HttpHeader.line, first_append header.keyColon]
  simp only
  split
  · next hlength =>
    have hif : (if header.IsLength then n else length) = n := if_pos hlength
    rw [stoul_numeral (hn hlength).trimBlanks, hif]
    rfl
  · next hlength =>
    have hif : (if header.IsLength then n else length) = length := if_neg hlength
    rw [hif]

theorem headersLoop_end (h : firstPair carriageReturn newline p.buffer = some ([], rest)) :
    p.headersLoop request = .ok ({ p with buffer := rest, state := .body }, request) := by
  rw [HttpParser.headersLoop]
  split
  · next hpair => rw [h] at hpair; cases hpair
  · next hpair => rw [h] at hpair; cases hpair; rfl
  · next hne hpair => rw [h] at hpair; cases hpair; exact absurd rfl hne

theorem headersLoop_line {length : Nat} (h : firstPair carriageReturn newline p.buffer = some (line, rest))
    (hne : line ≠ []) (hheader : HttpParser.readHeader line p.contentLength request = .ok (length, request')) :
    p.headersLoop request =
      HttpParser.headersLoop { p with buffer := rest, contentLength := length } request' := by
  rw [HttpParser.headersLoop]
  split
  · next hpair => rw [h] at hpair; cases hpair
  · next hpair => rw [h] at hpair; cases hpair; exact absurd rfl hne
  · next hpair => rw [h] at hpair; cases hpair; rw [hheader]

/-- The loop reads all header lines, up to the empty one. -/
theorem headersLoop_message {n : Nat} {state : HttpState} {rest : Bytes} : ∀ {headers : List HttpHeader} {length : Nat}
    {request : HttpRequest}, (∀ header ∈ headers, header.IsLength → Numeral n header.value) →
    HttpParser.headersLoop ⟨state, length, headers.flatMap (fun header => header.line ++ HttpMessage.lineEnd) ++
        (HttpMessage.lineEnd ++ rest)⟩ request =
      .ok (⟨.body, if ∃ header ∈ headers, header.IsLength then n else length, rest⟩,
        { request with headers := HttpMessage.headerMap headers request.headers })
  | [], length, request, _ => by
    have hempty : NoLineEnd [] := rfl
    rw [List.flatMap_nil, headersLoop_end (firstPair_lineEnd hempty rest)]
    simp [HttpMessage.headerMap]
  | header :: headers, length, request, hn => by
    rw [List.forall_mem_cons] at hn
    have hline : header.line ≠ [] := by simp [HttpHeader.line]
    rw [List.flatMap_cons, List.append_assoc, List.append_assoc,
      headersLoop_line (firstPair_lineEnd header.noLineEnd _) hline (readHeader_line header hn.1),
      headersLoop_message hn.2]
    simp only [List.exists_mem_cons_iff, HttpMessage.headerMap, List.foldl_cons]
    by_cases hlater : ∃ header ∈ headers, header.IsLength
    · simp only [hlater, or_true, if_true]
    · simp only [hlater, or_false, if_false]

theorem readRequestLine_of_fields (hstart : p.state = .start)
    (h : firstPair carriageReturn newline p.buffer = some (line, rest))
    (hfields : HttpParser.readFields line request = (request', true)) :
    p.readRequestLine request = ({ p with buffer := rest, state := .headers }, request', true) := by
  rw [HttpParser.readRequestLine, if_pos hstart, h]
  simp only
  rw [hfields]

theorem readBody_of_le (h : p.contentLength ≤ p.buffer.length) (request : HttpRequest) :
    p.readBody request = (⟨.start, 0, p.buffer.drop p.contentLength⟩,
      if 0 < p.contentLength then { request with body := p.buffer.take p.contentLength } else request, true) := by
  rw [HttpParser.readBody, if_pos h]
  split
  · rfl
  · next hpos =>
    have hzero : p.contentLength = 0 := Nat.eq_zero_of_not_pos hpos
    rw [hzero, List.drop_zero]
    rfl

/-- A call of `parse` whose three parts go through. -/
theorem parse_of_parts {p₂ : HttpParser} {request₂ : HttpRequest} {result : HttpParser × HttpRequest × Bool}
    (hline : p.readRequestLine request = (p₁, request₁, true)) (hheaders : p₁.readHeaders request₁ = .ok (p₂, request₂))
    (hstate : p₂.state = .body) (hbody : p₂.readBody request₂ = result) : p.parse request = .ok result := by
  rw [HttpParser.parse, hline]
  simp only
  rw [hheaders]
  simp only
  rw [if_pos hstate, hbody]

/-- From the start of a request `parse` gives that request and leaves what follows it. -/
theorem parse_message (m : HttpMessage) (rest : Bytes) :
    HttpParser.parse ⟨.start, 0, m.bytes ++ rest⟩ .empty = .ok (⟨.start, 0, rest⟩, m.request, true) := by
  have hbytes : m.bytes ++ rest = m.requestLine ++ (HttpMessage.lineEnd ++
      (m.headers.flatMap (fun header => header.line ++ HttpMessage.lineEnd) ++
        (HttpMessage.lineEnd ++ (m.body ++ rest)))) := by
    simp only [HttpMessage.bytes, HttpMessage.rest, List.append_assoc]
  have hlength : (if ∃ header ∈ m.headers, header.IsLength then m.body.length else 0) = m.body.length := by
    split
    · rfl
    · next hnone =>
      have hbody : m.body = [] := by_contra fun hne => hnone (m.declared hne)
      rw [hbody, List.length_nil]
  rw [hbytes]
  refine parse_of_parts (readRequestLine_of_fields rfl (firstPair_lineEnd m.noLineEnd _) (readFields_eq m.fields))
    (headersLoop_message m.numeric) rfl ?_
  rw [hlength, readBody_of_le (by simp)]
  simp only [List.drop_left, List.take_left]
  split
  · rfl
  · next hpos =>
    have hbody : m.body = [] := List.eq_nil_of_length_eq_zero (Nat.eq_zero_of_not_pos hpos)
    rw [HttpMessage.request, hbody]
    rfl

/-! ### More data -/

/-- A call that returns true does not see the data behind what it uses. -/
theorem readRequestLine_more (h : p.readRequestLine request = (p', request', true)) (data : Bytes) :
    (p.appendData data).readRequestLine request = (p'.appendData data, request', true) := by
  rcases HttpParser.readRequestLine_true h with ⟨hstart, rfl, rfl⟩ | ⟨hstart, line, rest, hpair, hfields, rfl⟩
  · exact if_neg hstart
  · exact readRequestLine_of_fields hstart (firstPair_append hpair data) hfields

theorem headersLoop_more (h : p.headersLoop request = .ok (p', request')) (hstate : p.state = .headers)
    (hbody : p'.state = .body) (data : Bytes) :
    (p.appendData data).headersLoop request = .ok (p'.appendData data, request') := by
  fun_induction HttpParser.headersLoop p request with
  | case1 p request hpair =>
    cases h
    rw [hstate] at hbody
    cases hbody
  | case2 p request rest hpair =>
    cases h
    exact headersLoop_end (firstPair_append hpair data)
  | case3 => cases h
  | case4 p request line rest hne hpair length request₁ hheader ih =>
    have hline := headersLoop_line (p := p.appendData data) (firstPair_append hpair data) hne hheader
    exact hline.trans (ih h hstate)

theorem readHeaders_more (h : p.readHeaders request = .ok (p', request')) (hbody : p'.state = .body) (data : Bytes) :
    (p.appendData data).readHeaders request = .ok (p'.appendData data, request') := by
  rw [HttpParser.readHeaders] at h ⊢
  split at h
  · next hstate =>
    rw [if_pos (show (p.appendData data).state = .headers from hstate)]
    exact headersLoop_more h hstate hbody data
  · next hstate =>
    cases h
    exact if_neg hstate

theorem readBody_more (h : p.readBody request = (p', request', true)) (data : Bytes) :
    (p.appendData data).readBody request = (p'.appendData data, request', true) := by
  obtain ⟨hle, rfl, rfl⟩ := HttpParser.readBody_true h
  have hlength : p.contentLength ≤ (p.appendData data).buffer.length := by
    rw [HttpParser.appendData, List.length_append]
    omega
  have hbody := readBody_of_le (p := p.appendData data) hlength request
  rw [hbody]
  simp only [HttpParser.appendData, List.drop_append_of_le_length hle, List.take_append_of_le_length hle]

theorem parse_more (h : p.parse request = .ok (p', request', true)) (data : Bytes) :
    (p.appendData data).parse request = .ok (p'.appendData data, request', true) := by
  obtain ⟨p₁, request₁, p₂, request₂, hline, hheaders, hstate, hbody⟩ := HttpParser.parse_parts h
  exact parse_of_parts (readRequestLine_more hline data) (readHeaders_more hheaders hstate data) hstate
    (readBody_more hbody data)

/-! ### A request without its request line -/

theorem readHeader_method {length length' : Nat}
    (h : HttpParser.readHeader line length request = .ok (length', request')) : request'.method = request.method := by
  rw [HttpParser.readHeader] at h
  split at h
  · cases h
    rfl
  · next key value _ =>
    simp only at h
    split at h
    · cases hn : stoul (trimBlanks value) with
      | error e => rw [hn] at h; cases h
      | ok n => rw [hn] at h; cases h; rfl
    · cases h
      rfl

theorem headersLoop_keeps (h : p.headersLoop request = .ok (p', request')) :
    request'.method = request.method ∧ (p'.state = p.state ∨ p'.state = .body) := by
  fun_induction HttpParser.headersLoop p request with
  | case1 => cases h; exact ⟨rfl, Or.inl rfl⟩
  | case2 => cases h; exact ⟨rfl, Or.inr rfl⟩
  | case3 => cases h
  | case4 p request line rest hne hpair length request₁ hheader ih =>
    obtain ⟨hmethod, hstate⟩ := ih h
    exact ⟨hmethod.trans (readHeader_method hheader), hstate⟩

theorem readHeaders_keeps (h : p.readHeaders request = .ok (p', request')) :
    request'.method = request.method ∧ (p'.state = p.state ∨ p'.state = .body) := by
  rw [HttpParser.readHeaders] at h
  split at h
  · exact headersLoop_keeps h
  · cases h
    exact ⟨rfl, Or.inl rfl⟩

theorem readBody_false (h : p.readBody request = (p', request', false)) : p' = p := by
  rw [HttpParser.readBody] at h
  split at h
  · split at h
    · cases h
    · cases h
      rfl
  · cases h

/-- A call of `parse` that has passed the request line and returns false stays behind it. -/
theorem parse_false (hline : p.readRequestLine request = (p₁, request₁, true)) (hstate : p₁.state ≠ .start)
    (h : p.parse request = .ok (p', request', false)) : p'.state ≠ .start := by
  rw [HttpParser.parse, hline] at h
  simp only at h
  split at h
  · cases h
  · next p₂ request₂ hheaders =>
    have hne : p₂.state ≠ .start := by
      rcases (readHeaders_keeps hheaders).2 with hkept | hbody
      · rwa [hkept]
      · rw [hbody]
        decide
    split at h
    · rwa [readBody_false (Except.ok.inj h)]
    · cases h
      exact hne

/-- Behind the request line a call of `parse` leaves the method of the request it is given. -/
theorem parse_method (hstate : p.state ≠ .start) (h : p.parse request = .ok (p', request', true)) :
    request'.method = request.method := by
  obtain ⟨p₁, request₁, p₂, request₂, hline, hheaders, -, hbody⟩ := HttpParser.parse_parts h
  rcases HttpParser.readRequestLine_true hline with ⟨-, rfl, rfl⟩ | ⟨hstart, -⟩
  · obtain ⟨-, -, rfl⟩ := HttpParser.readBody_true hbody
    rw [← (readHeaders_keeps hheaders).1]
    split <;> rfl
  · exact absurd hstart hstate

end Parse

/-! ### The loop over `parse` -/

section Loop
variable {α β : Type} {p p' : HttpParser} {request request' : HttpRequest}

theorem parseLoop_true (h : p.parse .empty = .ok (p', request, true)) :
    p.parseLoop = ⟨request :: p'.parseLoop.requests, p'.parseLoop.ending⟩ := by
  rw [HttpParser.parseLoop]
  split
  · next heq => rw [h] at heq; cases heq
  · next heq => rw [h] at heq; cases heq
  · next heq => rw [h] at heq; cases heq; rfl

theorem parseLoop_false (h : p.parse .empty = .ok (p', request, false)) : p.parseLoop = ⟨[], .ok p'⟩ := by
  rw [HttpParser.parseLoop]
  split
  · next heq => rw [h] at heq; cases heq
  · next heq => rw [h] at heq; cases heq; rfl
  · next heq => rw [h] at heq; cases heq

theorem parseLoop_error {e : StdException} (h : p.parse .empty = .error e) : p.parseLoop = ⟨[], .error e⟩ := by
  rw [HttpParser.parseLoop]
  split
  · next heq => rw [h] at heq; cases heq; rfl
  · next heq => rw [h] at heq; cases heq
  · next heq => rw [h] at heq; cases heq

/-- The first request that is handed has no method, or none is handed and what is left is of that kind. -/
def Handed.Headless (x : Handed α) (P : α → Prop) : Prop :=
  (∃ request requests, x.requests = request :: requests ∧ request.method = []) ∨
    x.requests = [] ∧ ∀ a, x.ending = .ok a → P a

theorem Handed.andThen_requests (x : Handed α) (f : α → Handed β) :
    ∃ more, (x.andThen f).requests = x.requests ++ more ∧ (∀ a, x.ending = .ok a → more = (f a).requests) ∧
      ∀ e, x.ending = .error e → more = [] := by
  obtain ⟨requests, ending⟩ := x
  cases ending with
  | error e => exact ⟨[], (List.append_nil requests).symm, fun _ ha => (by cases ha), fun _ _ => rfl⟩
  | ok a => exact ⟨(f a).requests, rfl, fun _ ha => (by cases ha; rfl), fun _ he => (by cases he)⟩

theorem Handed.Headless.andThen {x : Handed α} {f : α → Handed β} {P : α → Prop} {Q : β → Prop} (h : x.Headless P)
    (hf : ∀ a, P a → (f a).Headless Q) : (x.andThen f).Headless Q := by
  rw [Handed.andThen]
  rcases h with ⟨request, requests, hreq, hmethod⟩ | ⟨hnil, hP⟩
  · split
    · exact Or.inl ⟨request, requests, hreq, hmethod⟩
    · next a _ => exact Or.inl ⟨request, requests ++ (f a).requests, by simp [hreq], hmethod⟩
  · split
    · exact Or.inr ⟨hnil, fun b hb => by cases hb⟩
    · next a heq =>
      have ha := hf a (hP a heq)
      rw [Handed.Headless, hnil]
      exact ha

/-- From behind a request line the loop hands a request without a method first. -/
theorem parseLoop_headless (h : p.state ≠ .start) : p.parseLoop.Headless fun p => p.state ≠ .start := by
  cases hp : p.parse .empty with
  | error e =>
    rw [parseLoop_error hp]
    exact Or.inr ⟨rfl, fun a ha => by cases ha⟩
  | ok result =>
    obtain ⟨p', request, done⟩ := result
    cases done with
    | true =>
      rw [parseLoop_true hp]
      exact Or.inl ⟨request, _, rfl, parse_method h hp⟩
    | false =>
      rw [parseLoop_false hp]
      refine Or.inr ⟨rfl, fun a ha => ?_⟩
      cases ha
      exact parse_false (if_neg h) h hp

/-- The chunks one after the other, each appended and parsed. -/
def parseChunks : List Bytes → HttpParser → Handed HttpParser
  | [], p => ⟨[], .ok p⟩
  | chunk :: chunks, p => (p.appendData chunk).parseLoop.andThen (parseChunks chunks)

theorem parseChunks_headless : ∀ (chunks : List Bytes) {p : HttpParser}, p.state ≠ .start →
    (parseChunks chunks p).Headless fun p => p.state ≠ .start
  | [], _, h => Or.inr ⟨rfl, fun _ ha => (by cases ha; exact h)⟩
  | _ :: chunks, p, h => (parseLoop_headless (p := p.appendData _) h).andThen fun _ ha => parseChunks_headless chunks ha

theorem Handed.andThen_assoc {γ : Type} (x : Handed α) (f : α → Handed β) (g : β → Handed γ) :
    (x.andThen f).andThen g = x.andThen fun a => (f a).andThen g := by
  obtain ⟨requests, ending⟩ := x
  cases ending with
  | error e => rfl
  | ok a =>
    simp only [Handed.andThen]
    cases (f a).ending with
    | error e => rfl
    | ok b => simp only [List.append_assoc]

/-- The connection with the parser that the chunks leave. -/
def afterChunks (c : HttpConnection) (p : HttpParser) : Handed HttpConnection := ⟨[], .ok { c with parser := p }⟩

theorem HttpConnection.handleRead_chunks : ∀ (chunks : List Bytes) (c : HttpConnection),
    HttpConnection.handleRead (chunks.map .data ++ [.again]) c = (parseChunks chunks c.parser).andThen (afterChunks c)
  | [], _ => rfl
  | chunk :: chunks, c => by
    have ih : (fun p => HttpConnection.handleRead (chunks.map .data ++ [.again]) { c with parser := p }) =
        fun p => (parseChunks chunks p).andThen (afterChunks c) := funext fun p => HttpConnection.handleRead_chunks chunks _
    rw [List.map_cons, List.cons_append, HttpConnection.handleRead, ih, parseChunks, Handed.andThen_assoc]

theorem parseChunks_append : ∀ (chunks more : List Bytes) (p : HttpParser),
    parseChunks (chunks ++ more) p = (parseChunks chunks p).andThen (parseChunks more)
  | [], _, _ => rfl
  | chunk :: chunks, more, p => by
    have ih : parseChunks (chunks ++ more) = fun p => (parseChunks chunks p).andThen (parseChunks more) :=
      funext fun p => parseChunks_append chunks more p
    rw [List.cons_append, parseChunks, ih, parseChunks, Handed.andThen_assoc]

theorem receive_eq : ∀ (events : List (List Bytes)) (c : HttpConnection),
    HttpConnection.receive events c = (parseChunks events.flatten c.parser).andThen (afterChunks c)
  | [], _ => rfl
  | chunks :: events, c => by
    have ih : HttpConnection.receive events =
        fun c => (parseChunks events.flatten c.parser).andThen (afterChunks c) := funext (receive_eq events)
    rw [HttpConnection.receive, HttpConnection.handleRead_chunks, Handed.andThen_assoc, List.flatten_cons, parseChunks_append,
      Handed.andThen_assoc, ih]
    rfl

theorem receive_requests (events : List (List Bytes)) (c : HttpConnection) :
    (HttpConnection.receive events c).requests = (parseChunks events.flatten c.parser).requests := by
  rw [receive_eq, Handed.andThen]
  split
  · rfl
  · exact List.append_nil _

end Loop

/-! ### A stream of requests -/

section Stream
variable {m : HttpMessage} {ms : List HttpMessage} {buf rest more : Bytes} {p' : HttpParser} {request' : HttpRequest}
  {done : Bool}

/-- A part of a request that stops before the end of its request line is left in the buffer. -/
theorem parse_short (h : buf ++ more = m.bytes ++ rest) (hlen : buf.length < m.requestLine.length + 2) :
    HttpParser.parse ⟨.start, 0, buf⟩ .empty = .ok (⟨.start, 0, buf⟩, .empty, false) := by
  have hstream : m.bytes ++ rest = m.requestLine ++ carriageReturn :: newline :: (m.rest ++ rest) := by
    rw [HttpMessage.bytes, List.append_assoc]
    rfl
  have hpair : firstPair carriageReturn newline buf = none :=
    firstPair_short (by decide) m.noLineEnd (h.trans hstream) hlen
  rw [HttpParser.parse, HttpParser.readRequestLine]
  simp only [if_true, hpair]

/-- A part of a request that stops behind its request line leaves the parser there. -/
theorem parse_part (h : buf ++ more = m.bytes) (hmore : more ≠ []) (hlen : m.requestLine.length + 2 ≤ buf.length)
    (hparse : HttpParser.parse ⟨.start, 0, buf⟩ .empty = .ok (p', request', done)) :
    done = false ∧ p'.state ≠ .start := by
  cases done with
  | true =>
    -- the same call would end on the whole request, and leave bytes of it
    have hmessage := parse_message m []
    have hall := parse_more hparse more
    rw [HttpParser.appendData, h, ← List.append_nil m.bytes, hmessage] at hall
    have hbuffer := congrArg HttpParser.buffer (congrArg Prod.fst (Except.ok.inj hall))
    exact absurd (List.append_eq_nil_iff.mp hbuffer.symm).2 hmore
  | false =>
    have hline : m.requestLine ++ HttpMessage.lineEnd <+: m.bytes :=
      ⟨m.rest, by rw [HttpMessage.bytes, List.append_assoc]⟩
    have hprefix : m.requestLine ++ HttpMessage.lineEnd <+: buf := by
      refine List.prefix_of_prefix_length_le hline ⟨more, h⟩ ?_
      rw [List.length_append]
      exact hlen
    obtain ⟨tail, rfl⟩ := hprefix
    have hpair := firstPair_lineEnd m.noLineEnd tail
    rw [← List.append_assoc] at hpair
    exact ⟨rfl, parse_false (readRequestLine_of_fields rfl hpair (readFields_eq m.fields)) (by simp) hparse⟩

/-- What is in the buffer belongs to the first of the requests to come, and its request line has not ended. -/
def AtStart (ms : List HttpMessage) (buf : Bytes) : Prop := ∀ m ∈ ms.head?, buf.length < m.requestLine.length + 2

theorem HttpMessage.length_bytes (m : HttpMessage) : m.requestLine.length + 2 < m.bytes.length := by
  simp [HttpMessage.bytes, HttpMessage.rest, HttpMessage.lineEnd]

/-- The loop hands the requests that are there as a whole. What is left is the beginning of a request line, or the
    parser has passed one. -/
theorem parseLoop_messages : ∀ {ms : List HttpMessage} {buf rest : Bytes}, buf ++ rest = ms.flatMap HttpMessage.bytes →
    ∃ ms₁ ms₂ buf', ms = ms₁ ++ ms₂ ∧ buf = ms₁.flatMap HttpMessage.bytes ++ buf' ∧
      (HttpParser.parseLoop ⟨.start, 0, buf⟩).requests = ms₁.map HttpMessage.request ∧
      (AtStart ms₂ buf' ∧ (HttpParser.parseLoop ⟨.start, 0, buf⟩).ending = .ok ⟨.start, 0, buf'⟩ ∨
        ∃ m ms₃, ms₂ = m :: ms₃ ∧ m.requestLine.length + 2 ≤ buf'.length ∧ buf'.length < m.bytes.length ∧
          ∀ p, (HttpParser.parseLoop ⟨.start, 0, buf⟩).ending = .ok p → p.state ≠ .start)
  | [], buf, rest, h => by
    obtain ⟨rfl, -⟩ := List.append_eq_nil_iff.mp h
    have hparse : HttpParser.parse ⟨.start, 0, []⟩ .empty = .ok (⟨.start, 0, []⟩, .empty, false) := rfl
    rw [parseLoop_false hparse]
    exact ⟨[], [], [], rfl, rfl, rfl, Or.inl ⟨by simp [AtStart], rfl⟩⟩
  | m :: ms, buf, rest, h => by
    rw [List.flatMap_cons] at h
    by_cases hwhole : m.bytes.length ≤ buf.length
    · obtain ⟨buf₁, rfl⟩ : m.bytes <+: buf :=
        List.prefix_of_prefix_length_le ⟨_, h.symm⟩ (List.prefix_append buf rest) hwhole
      rw [List.append_assoc] at h
      obtain ⟨ms₁, ms₂, buf', rfl, hbuf, hreq, hend⟩ := parseLoop_messages (List.append_cancel_left h)
      rw [parseLoop_true (parse_message m buf₁)]
      refine ⟨m :: ms₁, ms₂, buf', rfl, ?_, ?_, hend⟩
      · rw [hbuf, List.flatMap_cons, List.append_assoc]
      · rw [hreq, List.map_cons]
    · by_cases hline : buf.length < m.requestLine.length + 2
      · rw [parseLoop_false (parse_short h hline)]
        refine ⟨[], m :: ms, buf, rfl, rfl, rfl, Or.inl ⟨?_, rfl⟩⟩
        simpa [AtStart] using hline
      · obtain ⟨more, hmore⟩ : buf <+: m.bytes :=
          List.prefix_of_prefix_length_le ⟨rest, h⟩ (List.prefix_append _ _) (by omega)
        have hne : more ≠ [] := by
          rintro rfl
          rw [← hmore, List.append_nil] at hwhole
          exact hwhole le_rfl
        cases hparse : HttpParser.parse ⟨.start, 0, buf⟩ .empty with
        | error e =>
          rw [parseLoop_error hparse]
          exact ⟨[], m :: ms, buf, rfl, rfl, rfl,
            Or.inr ⟨m, ms, rfl, by omega, by omega, fun p hp => by cases hp⟩⟩
        | ok result =>
          obtain ⟨p', request', done⟩ := result
          obtain ⟨rfl, hstate⟩ := parse_part hmore hne (by omega) hparse
          rw [parseLoop_false hparse]
          exact ⟨[], m :: ms, buf, rfl, rfl, rfl,
            Or.inr ⟨m, ms, rfl, by omega, by omega, fun p hp => by cases hp; exact hstate⟩⟩

theorem insideRequest_append : ∀ {ms₁ ms₂ : List HttpMessage} {n : Nat},
    InsideRequest (ms₁ ++ ms₂) ((ms₁.flatMap HttpMessage.bytes).length + n) ↔ InsideRequest ms₂ n
  | [], _, n => by simp
  | m :: ms₁, ms₂, n => by
    rw [List.cons_append, InsideRequest, List.flatMap_cons, List.length_append]
    have hsub : m.bytes.length + (ms₁.flatMap HttpMessage.bytes).length + n - m.bytes.length =
        (ms₁.flatMap HttpMessage.bytes).length + n := by omega
    rw [hsub, insideRequest_append]
    constructor
    · rintro (⟨-, hlt⟩ | ⟨-, h⟩)
      · omega
      · exact h
    · exact fun h => Or.inr ⟨by omega, h⟩

theorem not_insideRequest (h : AtStart ms buf) : ¬InsideRequest ms buf.length := by
  cases ms with
  | nil => exact not_false
  | cons m ms =>
    have hlt : buf.length < m.requestLine.length + 2 := h m rfl
    have hlen := m.length_bytes
    rintro (⟨hle, -⟩ | ⟨hle, -⟩) <;> omega

/-- The chunks hand the requests of the stream if and only if none of them ends inside a request. -/
theorem parseChunks_iff : ∀ {chunks : List Bytes} {ms : List HttpMessage} {buf : Bytes},
    buf ++ chunks.flatten = ms.flatMap HttpMessage.bytes → AtStart ms buf →
    ((parseChunks chunks ⟨.start, 0, buf⟩).requests = ms.map HttpMessage.request ↔
      ∀ i, ¬InsideRequest ms (buf.length + (chunks.take i).flatten.length))
  | [], ms, buf, h, hs => by
    cases ms with
    | nil => exact ⟨fun _ _ => not_false, fun _ => rfl⟩
    | cons m ms =>
      -- a request that is there as a whole has a request line
      have hlt : buf.length < m.requestLine.length + 2 := hs m rfl
      have hle := congrArg List.length h
      rw [List.flatten_nil, List.append_nil, List.flatMap_cons, List.length_append] at hle
      have hlen := m.length_bytes
      omega
  | chunk :: chunks, ms, buf, h, hs => by
    rw [List.flatten_cons, ← List.append_assoc] at h
    obtain ⟨ms₁, ms₂, buf', rfl, hbuf, hreq, hend⟩ := parseLoop_messages h
    obtain ⟨more, hmore, hok, herror⟩ := Handed.andThen_requests (HttpParser.parseLoop ⟨.start, 0, buf ++ chunk⟩)
      (parseChunks chunks)
    have hleft : buf' ++ chunks.flatten = ms₂.flatMap HttpMessage.bytes := by
      rw [hbuf, List.append_assoc, List.flatMap_append] at h
      exact List.append_cancel_left h
    have hplace : ∀ i, InsideRequest (ms₁ ++ ms₂) (buf.length + ((chunk :: chunks).take (i + 1)).flatten.length) ↔
        InsideRequest ms₂ (buf'.length + (chunks.take i).flatten.length) := by
      intro i
      have hlen := congrArg List.length hbuf
      rw [List.length_append, List.length_append] at hlen
      rw [List.take_succ_cons, List.flatten_cons, List.length_append, ← Nat.add_assoc, hlen, Nat.add_assoc]
      exact insideRequest_append
    have hall : (parseChunks (chunk :: chunks) ⟨.start, 0, buf⟩).requests =
        (ms₁ ++ ms₂).map HttpMessage.request ↔ more = ms₂.map HttpMessage.request := by
      have hchunks : (parseChunks (chunk :: chunks) ⟨.start, 0, buf⟩).requests = _ := hmore
      rw [hchunks, hreq, List.map_append, List.append_cancel_left_eq]
    rw [hall]
    rcases hend with ⟨hs', hend⟩ | ⟨m, ms₃, rfl, hbehind, hbefore, hstate⟩
    · rw [hok _ hend, parseChunks_iff hleft hs']
      constructor
      · rintro hno (_ | i)
        · simpa using not_insideRequest hs
        · exact fun hin => hno i ((hplace i).mp hin)
      · exact fun hno i hin => hno (i + 1) ((hplace i).mpr hin)
    · -- the next request that is handed has no method, but that of the stream has one
      have hmethod : ∀ request ∈ more.head?, request.method = [] := by
        cases hending : (HttpParser.parseLoop ⟨.start, 0, buf ++ chunk⟩).ending with
        | error e => simp [herror e hending]
        | ok p =>
          rw [hok p hending]
          rcases parseChunks_headless chunks (hstate p hending) with ⟨request, requests, hreq, hnil⟩ | ⟨hreq, -⟩
          · simpa [hreq] using hnil
          · simp [hreq]
      refine iff_of_false ?_ fun hno => hno 1 ((hplace 0).mpr (Or.inl ⟨by simpa using hbehind, by simpa using hbefore⟩))
      rintro rfl
      exact m.fields.ne_nil.1 (hmethod m.request rfl)

theorem atStart_nil : AtStart ms [] := fun _ _ => Nat.zero_lt_of_lt (Nat.lt_add_of_pos_right Nat.two_pos)

/-- In one chunk the stream gives its requests. -/
theorem parseChunks_whole (ms : List HttpMessage) :
    (parseChunks [ms.flatMap HttpMessage.bytes] ⟨.start, 0, []⟩).requests = ms.map HttpMessage.request := by
  refine (parseChunks_iff (by simp) atStart_nil).mpr ?_
  rintro (_ | i) hin
  · exact not_insideRequest atStart_nil hin
  · have hlen : ([] : Bytes).length + ([ms.flatMap HttpMessage.bytes].take (i + 1)).flatten.length =
        (ms.flatMap HttpMessage.bytes).length + 0 := by simp
    have hend := @insideRequest_append ms [] 0
    rw [List.append_nil] at hend
    rw [hlen] at hin
    exact hend.mp hin

end Stream

/-- The requests that are handed to `handle_request` are those that one chunk with the whole stream would give if and only
    if no chunk ends behind the request line of a request and before the end of that request. -/
theorem handed_eq_iff {ms : List HttpMessage} {events : List (List Bytes)}
    (h : events.flatten.flatten = ms.flatMap HttpMessage.bytes) :
    (HttpConnection.receive events .fresh).requests =
        (HttpConnection.receive [[ms.flatMap HttpMessage.bytes]] .fresh).requests ↔
      ∀ i, ¬InsideRequest ms (events.flatten.take i).flatten.length := by
  rw [receive_requests, receive_requests]
  have hwhole : (parseChunks [ms.flatMap HttpMessage.bytes] HttpConnection.fresh.parser).requests =
      ms.map HttpMessage.request := parseChunks_whole ms
  have hiff := parseChunks_iff h atStart_nil
  simp only [List.length_nil, Nat.zero_add] at hiff
  exact hwhole ▸ hiff

/-- The request `GET / HTTP/1.1`. -/
def getMessage : HttpMessage where
  requestLine := ascii "GET / HTTP/1.1"
  method := ascii "GET"
  uri := ascii "/"
  version := ascii "HTTP/1.1"
  headers := []
  body := []
  fields :=
    have hversion : LineFields [ascii "HTTP/1.1"] ([space] ++ (ascii "HTTP/1.1" ++ [])) :=
      .cons (by simp [isSpace_space]) (by decide) (by decide) (by simp) (.nil (by simp))
    have huri : LineFields [ascii "/", ascii "HTTP/1.1"] ([space] ++ (ascii "/" ++ ([space] ++ (ascii "HTTP/1.1" ++ [])))) :=
      .cons (by simp [isSpace_space]) (by decide) (by decide) (by simp [isSpace_space]) hversion
    have hmethod : LineFields [ascii "GET", ascii "/", ascii "HTTP/1.1"]
        ([] ++ (ascii "GET" ++ ([space] ++ (ascii "/" ++ ([space] ++ (ascii "HTTP/1.1" ++ [])))))) :=
      .cons (by simp) (by decide) (by decide) (by simp [isSpace_space]) huri
    hmethod
  noLineEnd := by decide
  numeric := by simp
  declared h := absurd rfl h

instance : (ms : List HttpMessage) → (n : Nat) → Decidable (InsideRequest ms n)
  | [], _ => inferInstanceAs (Decidable False)
  | m :: ms, n =>
    have : Decidable (InsideRequest ms (n - m.bytes.length)) := instDecidableInsideRequest ms (n - m.bytes.length)
    inferInstanceAs (Decidable (_ ∨ _))

/-- Two requests in one chunk for the first half of a request line, and one for all the rest. -/
theorem handed_eq_iff_inLine :
    let stream := [getMessage, getMessage].flatMap HttpMessage.bytes
    (HttpConnection.receive [[stream.take 10], [stream.drop 10]] .fresh).requests =
      (HttpConnection.receive [[stream]] .fresh).requests := by
  refine (handed_eq_iff (by decide)).mpr ?_
  rintro (_ | _ | i)
  · decide
  · decide
  · rw [List.take_of_length_le (by simp)]
    decide

/-- The request line is lost when a chunk ends with it. -/
theorem chunks_lose_requestLine :
    ¬∀ (ms : List HttpMessage) (events : List (List Bytes)), events.flatten.flatten = ms.flatMap HttpMessage.bytes →
      (HttpConnection.receive events .fresh).requests =
        (HttpConnection.receive [[ms.flatMap HttpMessage.bytes]] .fresh).requests := by
  intro hall
  have heq := hall [getMessage] [[getMessage.bytes.take 16, getMessage.bytes.drop 16]] (by decide)
  have hmethod := congrArg (List.map HttpRequest.method) heq
  revert hmethod
  decide +kernel

end KvStore
