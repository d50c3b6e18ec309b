import KvStore.HttpServe
import KvStore.Lib.Run
import KvStore.Theorems.Http
import Mathlib.Algebra.Order.Ring.Nat

/-! # What an HTTP connection answers

A response says where it ends, so that the bytes of responses one after the other are read back as they were made. The
bytes that a connection has sent, and those that are left in its buffer, are the responses to the requests that it was
handed. A write event that does not empty the buffer leaves the rest until the next request comes. -/

namespace KvStore
open Framing FiniteMap Decimal

/-! ### A response is read back -/

/-- A value that has no blank at its ends. -/
def Trimmed (value : Bytes) : Prop := value ≠ [] ∧ value.head? ≠ some space ∧ value.getLast? ≠ some space

instance (value : Bytes) : Decidable (Trimmed value) := inferInstanceAs (Decidable (_ ∧ _))

/-- A response with the order in which `to_string` visits its headers. The first word of the status text is the one that
    is read back. -/
structure HttpAnswer where
  response : HttpResponse
  visited : List (Bytes × Bytes)
  reason : Bytes
  visits : Lists visited response.headers
  version : response.version ≠ [] ∧ NoSpace response.version
  text : ∃ more, LineFields (reason :: more) response.statusText
  statusText : NoLineEnd response.statusText
  key : ∀ k v, response.headers k = some v → colon ∉ k ∧ k ≠ ascii "Content-Length"
  value : ∀ k v, response.headers k = some v → NoLineEnd (k ++ colon :: space :: v) ∧ Trimmed v
  size : response.body.length < UInt64.size

namespace HttpAnswer

def bytes (a : HttpAnswer) : Bytes := a.response.toBytes a.visited

/-- What `HttpParser` takes the response for. -/
def request (a : HttpAnswer) : HttpRequest where
  method := a.response.version
  uri := decimal a.response.statusCode
  version := a.reason
  headers := if a.response.body = [] then a.response.headers
    else a.response.headers.insert (ascii "Content-Length") (decimal a.response.body.length)
  body := a.response.body

/-- The headers that are written, the length of the body last. -/
def written (a : HttpAnswer) : List (Bytes × Bytes) :=
  a.visited ++ if a.response.body = [] then [] else [(ascii "Content-Length", decimal a.response.body.length)]

end HttpAnswer

section Values
variable {value : Bytes}

theorem trimBlanks_trimmed (h : Trimmed value) : trimBlanks (space :: value) = value := by
  obtain ⟨hne, hhead, hlast⟩ := h
  obtain ⟨b, bs, rfl⟩ := List.exists_cons_of_ne_nil hne
  have hb : ¬b = space := fun hb => hhead (congrArg some hb)
  have hall : ¬(b :: bs).all (· = space) = true := by simp [hb]
  have hblank : ¬(space :: b :: bs).all (· = space) = true := by simp [hb]
  have hdrop : (space :: b :: bs).dropWhile (· = space) = b :: bs := by simp [List.dropWhile, hb]
  rw [trimBlanks]
  simp only [hblank, hdrop, hall, if_false, Bool.false_eq_true]
  rw [List.rdropWhile_eq_self_iff]
  intro hne'
  rw [decide_eq_true_eq]
  exact fun hspace => hlast ((List.getLast?_eq_some_getLast hne').trans (congrArg some hspace))

theorem trimmed_decimal (n : Nat) : Trimmed (decimal n) := by
  have hdigit : ∀ b ∈ decimal n, b ≠ space := by
    rintro b hb rfl
    exact absurd (isDigit_of_mem_decimal n _ hb) (by decide)
  refine ⟨decimal_ne_nil n, fun h => ?_, fun h => ?_⟩
  · exact hdigit space (List.mem_of_mem_head? h) rfl
  · exact hdigit space (List.mem_of_mem_getLast? h) rfl

theorem numeral_decimal {n : Nat} (h : n < UInt64.size) : Numeral n (space :: decimal n) :=
  ⟨[space], decimal n, [], by simp, by simp [isSpace_space], decimal_ne_nil n, isDigit_of_mem_decimal n, by simp,
    value_decimal n, h⟩

theorem noLineEnd_of_not_mem (h : carriageReturn ∉ value) : NoLineEnd value := by
  have hnone : firstPair carriageReturn newline (value ++ []) = none := firstPair_append_none h rfl
  rwa [List.append_nil] at hnone

theorem noLineEnd_append {more : Bytes} (h : carriageReturn ∉ value) (hmore : NoLineEnd more) :
    NoLineEnd (value ++ more) := firstPair_append_none h hmore

end Values

theorem NoSpace.not_mem {word : Bytes} (h : NoSpace word) : carriageReturn ∉ word := fun hmem =>
  h carriageReturn hmem (by decide)

/-- A line with more fields: the first three are read. -/
theorem readFields_more {line method uri version : Bytes} {more : List Bytes} {request : HttpRequest}
    (h : LineFields (method :: uri :: version :: more) line) :
    HttpParser.readFields line request = ({ request with method := method, uri := uri, version := version }, true) := by
  obtain ⟨rest₁, -, hmethod, h₁⟩ := readString_field h request.method
  obtain ⟨rest₂, -, huri, h₂⟩ := readString_field h₁ request.uri
  obtain ⟨rest₃, hsentry, hversion, -⟩ := readString_field h₂ request.version
  rw [HttpParser.readFields, hmethod]
  simp only [h₁.ne_nil.2, h₂.ne_nil.2, decide_true, ne_eq, not_false_eq_true, huri, hversion,
    Option.isSome_iff_ne_none.mpr hsentry]

/-- Pairs that can be written as header lines. -/
theorem exists_headers {es : List (Bytes × Bytes)}
    (h : ∀ e ∈ es, colon ∉ e.1 ∧ NoLineEnd (e.1 ++ colon :: space :: e.2)) :
    ∃ headers : List HttpHeader, headers.map (fun header => (header.key, header.value)) =
      es.map fun e => (e.1, space :: e.2) := by
  induction es with
  | nil => exact ⟨[], rfl⟩
  | cons e es ih =>
    rw [List.forall_mem_cons] at h
    obtain ⟨headers, hheaders⟩ := ih h.2
    exact ⟨⟨e.1, space :: e.2, h.1.1, h.1.2⟩ :: headers, congrArg ((e.1, space :: e.2) :: ·) hheaders⟩

namespace HttpAnswer
variable (a : HttpAnswer)

theorem bytes_eq (rest : Bytes) : a.bytes ++ rest =
    a.response.version ++ space :: (decimal a.response.statusCode ++ space :: a.response.statusText) ++
      (HttpMessage.lineEnd ++ (a.written.flatMap (fun e => e.1 ++ colon :: space :: e.2 ++ HttpMessage.lineEnd) ++
        (HttpMessage.lineEnd ++ (a.response.body ++ rest)))) := by
  have hsep : ascii ": " = [colon, space] := by decide
  have hlength : ascii "Content-Length: " = ascii "Content-Length" ++ [colon, space] := by decide
  have hcrlf : crlf = HttpMessage.lineEnd := rfl
  rw [bytes, HttpResponse.toBytes, written, hsep, hlength, hcrlf]
  split <;> simp

theorem line_fields : ∃ more, LineFields (a.response.version :: decimal a.response.statusCode :: a.reason :: more)
    (a.response.version ++ space :: (decimal a.response.statusCode ++ space :: a.response.statusText)) := by
  obtain ⟨more, htext⟩ := a.text
  have hreason : ∀ {gap : Bytes}, (∀ b ∈ gap, IsSpace b) →
      LineFields (a.reason :: more) (gap ++ a.response.statusText) := by
    intro gap hgap
    generalize a.response.statusText = text at htext ⊢
    cases htext with
    | cons hgap' hne hfield hrest htail =>
      rw [← List.append_assoc]
      exact .cons (fun b hb => (List.mem_append.mp hb).elim (hgap b) (hgap' b)) hne hfield hrest htail
  have hcode : LineFields (decimal a.response.statusCode :: a.reason :: more)
      ([space] ++ (decimal a.response.statusCode ++ ([space] ++ a.response.statusText))) :=
    .cons (by simp [isSpace_space]) (decimal_ne_nil _) (noSpace_decimal _) (by simp [isSpace_space])
      (hreason (by simp [isSpace_space]))
  have hversion : LineFields (a.response.version :: decimal a.response.statusCode :: a.reason :: more)
      ([] ++ (a.response.version ++
        ([space] ++ (decimal a.response.statusCode ++ ([space] ++ a.response.statusText))))) :=
    .cons (by simp) a.version.1 a.version.2 (by simp [isSpace_space]) hcode
  exact ⟨more, hversion⟩

theorem line_noLineEnd :
    NoLineEnd (a.response.version ++ space :: (decimal a.response.statusCode ++ space :: a.response.statusText)) := by
  have hspace : carriageReturn ∉ [space] := by decide
  have htext : NoLineEnd ([space] ++ a.response.statusText) := noLineEnd_append hspace a.statusText
  have hcode : NoLineEnd ([space] ++ (decimal a.response.statusCode ++ ([space] ++ a.response.statusText))) :=
    noLineEnd_append hspace (noLineEnd_append (noSpace_decimal _).not_mem htext)
  exact noLineEnd_append a.version.2.not_mem hcode

/-- Every header that is written can be read. -/
theorem written_reads : ∀ e ∈ a.written, colon ∉ e.1 ∧ NoLineEnd (e.1 ++ colon :: space :: e.2) ∧ Trimmed e.2 ∧
    (e.1 = ascii "Content-Length" → e.2 = decimal a.response.body.length) := by
  intro e he
  rcases List.mem_append.mp he with he | he
  · have hheader : a.response.headers e.1 = some e.2 := (a.visits.mem _ _).mp he
    obtain ⟨hcolon, hlength⟩ := a.key _ _ hheader
    obtain ⟨hline, htrimmed⟩ := a.value _ _ hheader
    exact ⟨hcolon, hline, htrimmed, fun h => absurd h hlength⟩
  · split at he
    · cases he
    · obtain rfl := List.mem_singleton.mp he
      have hcolon : colon ∉ ascii "Content-Length" := by decide
      have hkey : carriageReturn ∉ ascii "Content-Length" ++ [colon, space] := by decide
      have hline := noLineEnd_append hkey (noLineEnd_of_not_mem (noSpace_decimal a.response.body.length).not_mem)
      rw [List.append_assoc] at hline
      exact ⟨hcolon, hline, trimmed_decimal _, fun _ => rfl⟩

theorem written_lists : Lists a.written a.request.headers := by
  rw [written, request]
  split
  · rw [List.append_nil]
    exact a.visits
  · have hnone : a.response.headers (ascii "Content-Length") = none := by
      cases hlength : a.response.headers (ascii "Content-Length") with
      | none => rfl
      | some v => exact absurd rfl (a.key _ _ hlength).2
    have hvisits : Lists (a.visited ++ []) a.response.headers := (List.append_nil a.visited).symm ▸ a.visits
    exact hvisits.insert hnone

/-- From the start of a response the parser gives the response and leaves what follows it. -/
theorem parse_bytes (rest : Bytes) :
    HttpParser.parse ⟨.start, 0, a.bytes ++ rest⟩ .empty = .ok (⟨.start, 0, rest⟩, a.request, true) := by
  obtain ⟨headers, hheaders⟩ := exists_headers fun e he => ⟨(a.written_reads e he).1, (a.written_reads e he).2.1⟩
  have hlines : a.written.flatMap (fun e => e.1 ++ colon :: space :: e.2 ++ HttpMessage.lineEnd) =
      headers.flatMap fun header => header.line ++ HttpMessage.lineEnd := by
    have hmap := congrArg (List.flatMap fun p => p.1 ++ colon :: p.2 ++ HttpMessage.lineEnd) hheaders
    rw [List.flatMap_map, List.flatMap_map] at hmap
    exact hmap.symm
  have hmap : HttpMessage.headerMap headers Map.empty = a.request.headers := by
    have hfold := congrArg (List.foldl (fun known p => known.insert p.1 (trimBlanks p.2)) Map.empty) hheaders
    rw [List.foldl_map, List.foldl_map] at hfold
    have hwritten : a.written.foldl (fun known e => known.insert e.1 (trimBlanks (space :: e.2))) Map.empty =
        a.written.foldl (fun known e => known.insert e.1 e.2) Map.empty :=
      List.foldl_ext _ _ _ fun known e he => by rw [trimBlanks_trimmed (a.written_reads e he).2.2.1]
    have horElse : a.request.headers.orElse Map.empty = a.request.headers := by
      funext k
      simp [Map.orElse]
    exact hfold.trans (hwritten.trans ((a.written_lists.foldl_insert Map.empty).trans horElse))
  have hmem : ∀ header ∈ headers, ∃ e ∈ a.written, header.key = e.1 ∧ header.value = space :: e.2 := by
    intro header hheader
    have hpair : (header.key, header.value) ∈ a.written.map fun e => (e.1, space :: e.2) :=
      hheaders ▸ List.mem_map_of_mem hheader
    obtain ⟨e, he, heq⟩ := List.mem_map.mp hpair
    obtain ⟨hkey, hvalue⟩ := Prod.mk.inj heq
    exact ⟨e, he, hkey.symm, hvalue.symm⟩
  have hnumeral : ∀ header ∈ headers, header.IsLength → Numeral a.response.body.length header.value := by
    intro header hheader hlength
    obtain ⟨e, he, hkey, hvalue⟩ := hmem header hheader
    rw [hvalue, (a.written_reads e he).2.2.2 (hkey.symm.trans hlength)]
    exact numeral_decimal a.size
  have hlength : (if ∃ header ∈ headers, header.IsLength then a.response.body.length else 0) =
      a.response.body.length := by
    split
    · rfl
    · next hnone =>
      by_contra hne
      have hbody : a.response.body ≠ [] := fun hbody => hne (by rw [hbody]; rfl)
      have hpair : (ascii "Content-Length", space :: decimal a.response.body.length) ∈
          headers.map fun header => (header.key, header.value) := by
        rw [hheaders, written, if_neg hbody]
        simp
      obtain ⟨header, hheader, heq⟩ := List.mem_map.mp hpair
      exact hnone ⟨header, hheader, congrArg Prod.fst heq⟩
  obtain ⟨more, hfields⟩ := a.line_fields
  rw [bytes_eq, hlines]
  refine parse_of_parts (readRequestLine_of_fields rfl (firstPair_lineEnd a.line_noLineEnd _) (readFields_more hfields))
    (headersLoop_message hnumeral) rfl ?_
  rw [hlength, readBody_of_le (by simp)]
  simp only [List.drop_left, List.take_left, HttpRequest.empty, hmap]
  split
  · rfl
  · next hpos =>
    have hbody : a.response.body = [] := List.eq_nil_of_length_eq_zero (Nat.eq_zero_of_not_pos hpos)
    rw [request, hbody]

end HttpAnswer

/-- Responses one after the other are read back one after the other, whatever their bodies are and whatever follows. -/
theorem parseLoop_answers (answers : List HttpAnswer) (more : Bytes) :
    HttpParser.parseLoop ⟨.start, 0, answers.flatMap HttpAnswer.bytes ++ more⟩ =
      ⟨answers.map HttpAnswer.request ++ (HttpParser.parseLoop ⟨.start, 0, more⟩).requests,
        (HttpParser.parseLoop ⟨.start, 0, more⟩).ending⟩ := by
  induction answers with
  | nil => rfl
  | cons a answers ih =>
    rw [List.flatMap_cons, List.append_assoc, parseLoop_true (a.parse_bytes _), ih]
    rfl

theorem parseLoop_empty : HttpParser.parseLoop ⟨.start, 0, []⟩ = ⟨[], .ok ⟨.start, 0, []⟩⟩ := by
  have hparse : HttpParser.parse ⟨.start, 0, []⟩ .empty = .ok (⟨.start, 0, []⟩, .empty, false) := rfl
  exact parseLoop_false hparse

theorem parseLoop_answers_only (answers : List HttpAnswer) :
    HttpParser.parseLoop ⟨.start, 0, answers.flatMap HttpAnswer.bytes⟩ =
      ⟨answers.map HttpAnswer.request, .ok ⟨.start, 0, []⟩⟩ := by
  have hread := parseLoop_answers answers []
  rwa [List.append_nil, parseLoop_empty, List.append_nil] at hread

/-- Responses are read back with nothing left over, and are told apart by their bytes: when the bytes of some responses
    begin those of others, these begin with the same responses. -/
theorem answers_delimited (answers others : List HttpAnswer) :
    HttpParser.parseLoop ⟨.start, 0, answers.flatMap HttpAnswer.bytes⟩ =
        ⟨answers.map HttpAnswer.request, .ok ⟨.start, 0, []⟩⟩ ∧
      (answers.flatMap HttpAnswer.bytes <+: others.flatMap HttpAnswer.bytes →
        answers.map HttpAnswer.request <+: others.map HttpAnswer.request) := by
  refine ⟨parseLoop_answers_only answers, ?_⟩
  rintro ⟨more, hmore⟩
  have hread := parseLoop_answers answers more
  rw [hmore, parseLoop_answers_only] at hread
  exact ⟨_, (congrArg Handed.requests hread).symm⟩

/-! ### The responses of a connection -/

/-- The headers that a connection sets. -/
def siteHeaders : List (Bytes × Bytes) :=
  [(ascii "Server", ascii "Reactor-HTTP-Server"), (ascii "Connection", ascii "keep-alive"),
    (ascii "Content-Type", ascii "text/html"), (ascii "Content-Type", ascii "text/plain")]

theorem siteHeaders_written : ∀ header ∈ siteHeaders, header.1 ∈ headerNames ∧ colon ∉ header.1 ∧
    header.1 ≠ ascii "Content-Length" ∧ NoLineEnd (header.1 ++ colon :: space :: header.2) ∧ Trimmed header.2 := by
  decide +kernel

namespace HttpSite
variable (site : HttpSite) (request : HttpRequest)

theorem response_cases : (site.response request).version = ascii "HTTP/1.1" ∧
    ((site.response request).statusText = ascii "OK" ∨ (site.response request).statusText = ascii "Not Found") ∧
    (∃ type, (type = ascii "text/html" ∨ type = ascii "text/plain") ∧
      (site.response request).headers = defaultHeaders.insert (ascii "Content-Type") type) ∧
    (site.response request).body.length < UInt64.size := by
  rw [response]
  split
  · exact ⟨rfl, Or.inl rfl, ⟨_, Or.inl rfl, rfl⟩, site.page_size⟩
  · split
    · exact ⟨rfl, Or.inl rfl, ⟨_, Or.inr rfl, rfl⟩, by decide⟩
    · split
      · exact ⟨rfl, Or.inl rfl, ⟨_, Or.inr rfl, rfl⟩, by decide⟩
      · exact ⟨rfl, Or.inr rfl, ⟨_, Or.inr rfl, rfl⟩, by decide⟩

theorem response_header {k v : Bytes} (h : (site.response request).headers k = some v) : (k, v) ∈ siteHeaders := by
  obtain ⟨-, -, ⟨type, htype, heq⟩, -⟩ := site.response_cases request
  rw [heq] at h
  simp only [defaultHeaders, Map.insert, Map.empty] at h
  split at h
  · next hk =>
    cases h
    rcases htype with rfl | rfl <;> simp [siteHeaders, hk]
  · split at h
    · next hk =>
      cases h
      simp [siteHeaders, hk]
    · split at h
      · next hk =>
        cases h
        simp [siteHeaders, hk]
      · cases h

theorem response_text : ∃ more, LineFields
    ((if (site.response request).statusText = ascii "OK" then ascii "OK" else ascii "Not") :: more)
    (site.response request).statusText := by
  obtain ⟨-, htext, -⟩ := site.response_cases request
  rcases htext with htext | htext
  · have hok : LineFields [ascii "OK"] ([] ++ (ascii "OK" ++ [])) :=
      .cons (by simp) (by decide) (by decide) (by simp) (.nil (by simp))
    rw [if_pos htext, htext]
    exact ⟨[], hok⟩
  · have hfound : LineFields [ascii "Found"] ([space] ++ (ascii "Found" ++ [])) :=
      .cons (by simp [isSpace_space]) (by decide) (by decide) (by simp) (.nil (by simp))
    have hnot : LineFields [ascii "Not", ascii "Found"] ([] ++ (ascii "Not" ++ ([space] ++ (ascii "Found" ++ [])))) :=
      .cons (by simp) (by decide) (by decide) (by simp [isSpace_space]) hfound
    rw [htext, if_neg (by decide)]
    exact ⟨[ascii "Found"], hnot⟩

/-- The response to a request as one that is read back. -/
def reply : HttpAnswer where
  response := site.response request
  visited := site.visit (site.response request).headers
  reason := if (site.response request).statusText = ascii "OK" then ascii "OK" else ascii "Not"
  visits := site.visits _ fun k hk =>
    have ⟨_, hv⟩ := Option.ne_none_iff_exists'.mp hk
    (siteHeaders_written _ (site.response_header request hv)).1
  version := by
    rw [(site.response_cases request).1]
    decide
  text := site.response_text request
  statusText := by
    rcases (site.response_cases request).2.1 with htext | htext <;> rw [htext] <;> decide
  key k v h :=
    have hwritten := siteHeaders_written _ (site.response_header request h)
    ⟨hwritten.2.1, hwritten.2.2.1⟩
  value k v h := (siteHeaders_written _ (site.response_header request h)).2.2.2
  size := (site.response_cases request).2.2.2

end HttpSite

/-- A short document; the headers are visited in the order in which they are set. -/
def HttpSite.short : HttpSite where
  page := ascii "<p>Hello</p>"
  visit headers := headers.pairs headerNames
  page_size := by decide
  visits _ h := Lists.pairs (by decide) h

theorem answers_delimited_two :
    let page := HttpSite.short.reply getMessage.request
    let missing := HttpSite.short.reply .empty
    HttpParser.parseLoop ⟨.start, 0, [page].flatMap HttpAnswer.bytes⟩ =
        ⟨[page].map HttpAnswer.request, .ok ⟨.start, 0, []⟩⟩ ∧
      [page].map HttpAnswer.request <+: [page, missing].map HttpAnswer.request := by
  intro page missing
  obtain ⟨hread, hprefix⟩ := answers_delimited [page] [page, missing]
  exact ⟨hread, hprefix ⟨missing.bytes, by simp⟩⟩

/-! ### One event -/

/-- The chunks that the event brings. -/
def HttpDelivery.arrived (d : HttpDelivery) : List Bytes := if d.Has epollIn then d.chunks else []

/-- The connection is open at the end of the reads. -/
def HttpDelivery.Open (d : HttpDelivery) : Prop := d.Has epollIn → d.readEnd = .again

instance (d : HttpDelivery) : Decidable d.Open := inferInstanceAs (Decidable (_ → _))

/-- What the calls of `send` leave is what is behind the bytes that they take. -/
theorem writeLoop_eq : ∀ (takes : List Nat) (buffer : Bytes),
    writeLoop takes buffer = (buffer.take takes.sum, buffer.drop takes.sum)
  | _, [] => by simp [writeLoop]
  | [], b :: bs => rfl
  | n :: takes, b :: bs => by
    rw [writeLoop, writeLoop_eq takes, List.sum_cons, List.take_add, List.drop_drop]
    simp

theorem HttpConnection.handleRead_end (e : ReadEnd) : ∀ (chunks : List Bytes) (c : HttpConnection),
    HttpConnection.handleRead (chunks.map .data ++ [e.recv]) c = (parseChunks chunks c.parser).andThen fun p =>
      ⟨[], .ok ⟨p, if e = .again then c.registered else false⟩⟩
  | [], c => by cases e <;> rfl
  | chunk :: chunks, c => by
    have ih : (fun p => HttpConnection.handleRead (chunks.map .data ++ [e.recv]) { c with parser := p }) =
        fun p => (parseChunks chunks p).andThen fun p => ⟨[], .ok ⟨p, if e = .again then c.registered else false⟩⟩ :=
      funext fun p => HttpConnection.handleRead_end e chunks _
    rw [List.map_cons, List.cons_append, HttpConnection.handleRead, ih, parseChunks, Handed.andThen_assoc]

namespace HttpTraffic
variable {site : HttpSite} {d : HttpDelivery} {t t' : HttpTraffic} {o : Unit}

/-- The requests of an event. -/
def asked (t : HttpTraffic) (d : HttpDelivery) : List HttpRequest := (parseChunks d.arrived t.conn.parser).requests

/-- What is in the buffer before the write. -/
def pending (site : HttpSite) (t : HttpTraffic) (d : HttpDelivery) : Bytes :=
  t.writeBuffer ++ (t.asked d).flatMap site.answer

/-- What the reads of an event leave, with the parser. -/
def readResult (site : HttpSite) (t : HttpTraffic) (d : HttpDelivery) (p : HttpParser) : HttpTraffic where
  conn := ⟨p, if d.Open then t.conn.registered else false⟩
  writeBuffer := t.pending site d
  interest := if t.asked d = [] then t.interest else .readWrite
  handed := t.handed ++ t.asked d
  wire := t.wire

theorem foldl_handleRequest (site : HttpSite) : ∀ (requests : List HttpRequest) (t : HttpTraffic),
    requests.foldl (handleRequest site) t =
      { t with
        writeBuffer := t.writeBuffer ++ requests.flatMap site.answer
        interest := if requests = [] then t.interest else .readWrite
        handed := t.handed ++ requests }
  | [], t => by simp
  | request :: requests, t => by
    rw [List.foldl_cons, foldl_handleRequest site requests, handleRequest, List.flatMap_cons]
    simp

theorem afterRead_eq : t.afterRead site d =
    match (parseChunks d.arrived t.conn.parser).ending with
    | .error _ => none
    | .ok p => some (t.readResult site d p) := by
  rw [afterRead]
  by_cases hin : d.Has epollIn
  · have harrived : d.arrived = d.chunks := if_pos hin
    have hasked : (parseChunks d.chunks t.conn.parser).requests = t.asked d := by rw [asked, harrived]
    have hopen : d.Open ↔ d.readEnd = .again := ⟨fun h => h hin, fun h _ => h⟩
    rw [if_pos hin, handleRead, HttpConnection.handleRead_end, harrived, Handed.andThen]
    cases hending : (parseChunks d.chunks t.conn.parser).ending with
    | error e => rfl
    | ok p =>
      simp only [List.append_nil, foldl_handleRequest, hasked, readResult, pending, hopen]
  · have harrived : d.arrived = [] := if_neg hin
    have hopen : d.Open := fun h => absurd h hin
    have hasked : t.asked d = [] := by rw [asked, harrived]; rfl
    rw [if_neg hin, harrived]
    simp only [parseChunks, readResult, pending, hasked, hopen, if_true, List.flatMap_nil, List.append_nil]

/-- What the write of an event leaves. -/
def writeResult (d : HttpDelivery) (t : HttpTraffic) : HttpTraffic :=
  if d.Has epollOut then
    { t with
      writeBuffer := t.writeBuffer.drop d.takes.sum
      interest := .read
      wire := t.wire ++ t.writeBuffer.take d.takes.sum }
  else t

theorem afterWrite_eq : t.afterWrite d =
    if d.Has epollOut → t.conn.registered = true ∧ (t.writeBuffer.drop d.takes.sum = [] ∨ d.writeEnd = .again) then
      some (t.writeResult d)
    else none := by
  rw [afterWrite, writeResult]
  by_cases hout : d.Has epollOut
  · by_cases hreg : t.conn.registered = true
    · rw [if_pos hout, if_pos hreg, if_pos hout, handleWrite, writeLoop_eq]
      have hfails : ¬(t.writeBuffer.drop d.takes.sum = [] ∨ d.writeEnd = .again) ↔
          t.writeBuffer.drop d.takes.sum ≠ [] ∧ d.writeEnd = .error := by
        rw [not_or]
        refine and_congr_right fun _ => ?_
        cases d.writeEnd <;> simp
      by_cases hgoes : t.writeBuffer.drop d.takes.sum = [] ∨ d.writeEnd = .again
      · rw [if_pos fun _ => ⟨hreg, hgoes⟩]
        exact if_neg fun hno => hfails.mpr hno hgoes
      · rw [if_neg fun h => hgoes (h hout).2]
        exact if_pos (hfails.mp hgoes)
    · rw [if_pos hout, if_neg hreg, if_neg fun h => hreg (h hout).1]
  · rw [if_neg hout, if_neg hout, if_pos fun h => absurd h hout]

/-- What an event leaves, with the parser. -/
def result (site : HttpSite) (t : HttpTraffic) (d : HttpDelivery) (p : HttpParser) : HttpTraffic :=
  if d.Has epollErr then ((t.readResult site d p).writeResult d).handleError else (t.readResult site d p).writeResult d

/-- A connection that the reads have closed gets no write and no error, and `send` does not fail. -/
def Clean (site : HttpSite) (t : HttpTraffic) (d : HttpDelivery) : Prop :=
  (d.Has epollOut ∨ d.Has epollErr → d.Open) ∧
    (d.Has epollOut → (t.pending site d).drop d.takes.sum = [] ∨ d.writeEnd = .again)

theorem writeResult_conn (d : HttpDelivery) (t : HttpTraffic) : (t.writeResult d).conn = t.conn := by
  rw [writeResult]
  split <;> rfl

/-- Exactly what an event can do. -/
theorem step_eq_some : step site t d = some (t', o) ↔ t.conn.registered = true ∧ t.Clean site d ∧
    ∃ p, (parseChunks d.arrived t.conn.parser).ending = .ok p ∧ t' = t.result site d p := by
  rw [step]
  by_cases hreg : t.conn.registered = true
  swap
  · simp [hreg]
  rw [if_pos hreg, handleEvent, afterRead_eq]
  cases (parseChunks d.arrived t.conn.parser).ending with
  | error e => simp
  | ok p =>
    have hread : (t.readResult site d p).conn.registered = true ↔ d.Open := by simp [readResult, hreg]
    have hwrite : ((t.readResult site d p).writeResult d).conn.registered = true ↔ d.Open := by
      rw [writeResult_conn, hread]
    have herror : ((t.readResult site d p).writeResult d).afterError d =
        if d.Has epollErr → d.Open then some (t.result site d p) else none := by
      rw [afterError, result]
      by_cases herr : d.Has epollErr <;> by_cases hopen : d.Open <;> simp [herr, hopen, hwrite]
    have hclean : t.Clean site d ↔ (d.Has epollOut → d.Open ∧ ((t.pending site d).drop d.takes.sum = [] ∨
        d.writeEnd = .again)) ∧ (d.Has epollErr → d.Open) := by
      rw [Clean]
      tauto
    have hpending : (t.readResult site d p).writeBuffer = t.pending site d := rfl
    simp only [Option.bind_eq_bind, Option.bind_some, hreg, true_and, Except.ok.injEq, exists_eq_left', afterWrite_eq,
      hread, hpending, hclean]
    split
    · next hwrites =>
      rw [Option.bind_some, herror]
      split
      · next herrs =>
        rw [Option.map_some, Option.some.injEq]
        exact ⟨fun h => ⟨⟨hwrites, herrs⟩, (congrArg Prod.fst h).symm⟩, fun h => h.2 ▸ rfl⟩
      · next herrs => exact iff_of_false (fun h => by cases h) fun h => herrs h.1.2
    · next hwrites => exact iff_of_false (fun h => by cases h) fun h => hwrites h.1.1

theorem result_handed (p : HttpParser) :
    (t.result site d p).handed = t.handed ++ t.asked d ∧ (t.result site d p).conn.parser = p := by
  rw [result, writeResult, readResult]
  split <;> split <;> exact ⟨rfl, rfl⟩

/-- A byte that leaves the buffer goes to the socket. -/
theorem result_bytes (p : HttpParser) :
    (t.result site d p).wire ++ (t.result site d p).writeBuffer = t.wire ++ t.pending site d := by
  have hwrite : ∀ t : HttpTraffic,
      (t.writeResult d).wire ++ (t.writeResult d).writeBuffer = t.wire ++ t.writeBuffer := by
    intro t
    rw [writeResult]
    split
    · rw [List.append_assoc, List.take_append_drop]
    · rfl
  rw [result]
  split
  · exact hwrite (t.readResult site d p)
  · exact hwrite (t.readResult site d p)

/-! ### Runs -/

/-- The bytes sent and the bytes left are the answers to the requests. -/
def Answers (site : HttpSite) (t : HttpTraffic) : Prop := t.wire ++ t.writeBuffer = t.handed.flatMap site.answer

theorem start_answers (site : HttpSite) : start.Answers site := rfl

theorem Answers.step (h : t.Answers site) (hs : step site t d = some (t', o)) : t'.Answers site := by
  obtain ⟨-, -, p, -, rfl⟩ := step_eq_some.mp hs
  rw [Answers, result_bytes, (result_handed p).1, pending, ← List.append_assoc, h, List.flatMap_append]

/-- The requests of a run are those of its chunks. -/
theorem runs_handed {ds : List HttpDelivery} : ∀ {t t' : HttpTraffic} {outs : List Unit},
    Run.runs (HttpTraffic.step site) t ds = some (t', outs) →
    ∃ new, parseChunks (ds.flatMap HttpDelivery.arrived) t.conn.parser = ⟨new, .ok t'.conn.parser⟩ ∧
      t'.handed = t.handed ++ new := by
  induction ds with
  | nil =>
    intro t t' outs h
    cases h
    exact ⟨[], rfl, (List.append_nil _).symm⟩
  | cons d ds ih =>
    intro t t' outs h
    obtain ⟨t₁, o, outs₁, hs, hrun, -⟩ := Run.runs_cons_inv h
    obtain ⟨-, -, p, hp, rfl⟩ := step_eq_some.mp hs
    obtain ⟨new, hnew, hhanded⟩ := ih hrun
    obtain ⟨hfirst, hparser⟩ := @result_handed site d t p
    rw [hparser] at hnew
    refine ⟨t.asked d ++ new, ?_, by rw [hhanded, hfirst, List.append_assoc]⟩
    rw [List.flatMap_cons, parseChunks_append, Handed.andThen, hp]
    simp only [hnew, asked]

/-- A run answers the requests of its chunks. -/
theorem runs_answers {ds : List HttpDelivery} {outs : List Unit}
    (h : Run.runs (step site) start ds = some (t, outs)) :
    parseChunks (ds.flatMap HttpDelivery.arrived) ⟨.start, 0, []⟩ = ⟨t.handed, .ok t.conn.parser⟩ ∧ t.Answers site := by
  have hkeep : ∀ (t : HttpTraffic) (d : HttpDelivery) (t' : HttpTraffic) (o : Unit), t.Answers site → True →
      step site t d = some (t', o) → t'.Answers site := fun _ _ _ _ h _ hs => h.step hs
  obtain ⟨new, hnew, hhanded⟩ := runs_handed h
  obtain rfl : t.handed = new := hhanded
  exact ⟨hnew, Run.runs_inv hkeep h (fun _ _ => trivial) (start_answers site)⟩

/-- The connection stays open, and there is no error. -/
def Steady (d : HttpDelivery) : Prop := d.Open ∧ (d.Has epollOut → d.writeEnd = .again) ∧ ¬d.Has epollErr

instance (d : HttpDelivery) : Decidable (Steady d) := inferInstanceAs (Decidable (_ ∧ _))

/-- Steady events go on as long as the parser does not throw. -/
theorem runs_steady {ds : List HttpDelivery} (hsteady : ∀ d ∈ ds, Steady d) : ∀ {t : HttpTraffic} {p : HttpParser},
    t.conn.registered = true → (parseChunks (ds.flatMap HttpDelivery.arrived) t.conn.parser).ending = .ok p →
    ∃ t' outs, Run.runs (step site) t ds = some (t', outs) ∧ t'.conn.parser = p := by
  induction ds with
  | nil => exact fun _ hp => ⟨_, [], rfl, Except.ok.inj hp⟩
  | cons d ds ih =>
    intro t p hreg hp
    rw [List.forall_mem_cons] at hsteady
    obtain ⟨hopen, hwrite, herr⟩ := hsteady.1
    rw [List.flatMap_cons, parseChunks_append, Handed.andThen] at hp
    cases hending : (parseChunks d.arrived t.conn.parser).ending with
    | error e =>
      rw [hending] at hp
      cases hp
    | ok p₁ =>
      rw [hending] at hp
      have hs : step site t d = some (t.result site d p₁, ()) :=
        step_eq_some.mpr ⟨hreg, ⟨fun _ => hopen, fun hout => Or.inr (hwrite hout)⟩, p₁, hending, rfl⟩
      have hreg₁ : (t.result site d p₁).conn.registered = true := by
        rw [result, if_neg herr, writeResult_conn, readResult, if_pos hopen, hreg]
      obtain ⟨t', outs, hrun, hparser⟩ := ih hsteady.2 hreg₁ ((result_handed p₁).2.symm ▸ hp)
      exact ⟨t', () :: outs, Run.runs_cons hs hrun, hparser⟩

end HttpTraffic

/-! ### A stream of requests is answered -/

/-- A stream that no chunk cuts inside a request is parsed to its end. -/
theorem parseChunks_messages : ∀ {chunks : List Bytes} {ms : List HttpMessage} {buf : Bytes},
    buf ++ chunks.flatten = ms.flatMap HttpMessage.bytes → AtStart ms buf →
    (∀ i, ¬InsideRequest ms (buf.length + (chunks.take i).flatten.length)) →
    parseChunks chunks ⟨.start, 0, buf⟩ = ⟨ms.map HttpMessage.request, .ok ⟨.start, 0, []⟩⟩
  | [], ms, buf, h, hs, _ => by
    rw [List.flatten_nil, List.append_nil] at h
    cases ms with
    | nil =>
      obtain rfl : buf = [] := h
      rfl
    | cons m ms =>
      -- the buffer has the first request, but it ends in the request line
      have hlt : buf.length < m.requestLine.length + 2 := hs m rfl
      have hle := congrArg List.length h
      have hlen := m.length_bytes
      rw [List.flatMap_cons, List.length_append] at hle
      omega
  | chunk :: chunks, ms, buf, h, hs, hcut => by
    rw [List.flatten_cons, ← List.append_assoc] at h
    obtain ⟨ms₁, ms₂, buf', rfl, hbuf, hreq, hend⟩ := parseLoop_messages h
    have hleft : buf' ++ chunks.flatten = ms₂.flatMap HttpMessage.bytes := by
      rw [hbuf, List.append_assoc, List.flatMap_append] at h
      exact List.append_cancel_left h
    have hplace : ∀ i, ¬InsideRequest ms₂ (buf'.length + (chunks.take i).flatten.length) := by
      intro i hin
      have hlen := congrArg List.length hbuf
      rw [List.length_append, List.length_append] at hlen
      refine hcut (i + 1) ?_
      rw [List.take_succ_cons, List.flatten_cons, List.length_append, ← Nat.add_assoc, hlen, Nat.add_assoc]
      exact insideRequest_append.mpr hin
    rcases hend with ⟨hs', hend⟩ | ⟨m, ms₃, rfl, hbehind, hbefore, -⟩
    · have hrest := parseChunks_messages hleft hs' hplace
      rw [parseChunks, HttpParser.appendData, Handed.andThen, hend]
      simp only [hrest, hreq, List.map_append]
    · exact absurd (Or.inl ⟨by simpa using hbehind, by simpa using hbefore⟩) (hplace 0)

namespace HttpTraffic
variable {site : HttpSite} {t t' : HttpTraffic} {d : HttpDelivery} {o : Unit}

/-- A request in two chunks, and a write that takes three bytes. -/
def getInTwo : List HttpDelivery :=
  [⟨epollIn, [getMessage.bytes.take 10, getMessage.bytes.drop 10], .again, [], .again⟩,
    ⟨epollOut, [], .again, [3], .again⟩]

theorem getInTwo_steady : ∀ d ∈ getInTwo, Steady d := by decide

theorem getInTwo_arrived :
    getInTwo.flatMap HttpDelivery.arrived = [getMessage.bytes.take 10, getMessage.bytes.drop 10] := by
  decide

theorem getInTwo_cut (i : Nat) :
    ¬InsideRequest [getMessage] ((getInTwo.flatMap HttpDelivery.arrived).take i).flatten.length := by
  rw [getInTwo_arrived]
  rcases i with _ | _ | i
  · decide
  · decide
  · rw [List.take_of_length_le (by simp)]
    decide

theorem getInTwo_runs : ∃ t outs, Run.runs (step HttpSite.short) start getInTwo = some (t, outs) := by
  have hparse : parseChunks (getInTwo.flatMap HttpDelivery.arrived) ⟨.start, 0, []⟩ =
      ⟨[getMessage].map HttpMessage.request, .ok ⟨.start, 0, []⟩⟩ :=
    parseChunks_messages (by decide) atStart_nil (by simpa using getInTwo_cut)
  obtain ⟨t, outs, hrun, -⟩ :=
    @runs_steady HttpSite.short getInTwo getInTwo_steady start ⟨.start, 0, []⟩ rfl (congrArg Handed.ending hparse)
  exact ⟨t, outs, hrun⟩

/-- In every run, whatever arrives: the bytes that were sent and those in the buffer are the answers to the requests
    that the parser has found in the chunks, and are read back as these. -/
theorem run_answers {ds : List HttpDelivery} {outs : List Unit}
    (h : Run.runs (step site) start ds = some (t, outs)) :
    t.handed = (parseChunks (ds.flatMap HttpDelivery.arrived) ⟨.start, 0, []⟩).requests ∧
      t.wire ++ t.writeBuffer = t.handed.flatMap site.answer ∧
      HttpParser.parseLoop ⟨.start, 0, t.wire ++ t.writeBuffer⟩ =
        ⟨t.handed.map fun request => (site.reply request).request, .ok ⟨.start, 0, []⟩⟩ := by
  obtain ⟨hparse, hanswers⟩ := runs_answers h
  refine ⟨(congrArg Handed.requests hparse).symm, hanswers, ?_⟩
  have hread := parseLoop_answers_only (t.handed.map site.reply)
  rw [List.flatMap_map, List.map_map] at hread
  rw [hanswers]
  exact hread

theorem run_answers_getInTwo : ∃ t outs, Run.runs (step HttpSite.short) start getInTwo = some (t, outs) ∧
    t.handed = (parseChunks (getInTwo.flatMap HttpDelivery.arrived) ⟨.start, 0, []⟩).requests ∧
      t.wire ++ t.writeBuffer = t.handed.flatMap HttpSite.short.answer ∧
      HttpParser.parseLoop ⟨.start, 0, t.wire ++ t.writeBuffer⟩ =
        ⟨t.handed.map fun request => (HttpSite.short.reply request).request, .ok ⟨.start, 0, []⟩⟩ := by
  obtain ⟨t, outs, hrun⟩ := getInTwo_runs
  exact ⟨t, outs, hrun, run_answers hrun⟩

/-- When well-formed requests arrive, cut anywhere but between the request line of a request and its end, and the
    connection stays open, all of them are answered in their order, however much the socket takes at a time. -/
theorem stream_answered {ms : List HttpMessage} {ds : List HttpDelivery} (hsteady : ∀ d ∈ ds, Steady d)
    (hstream : (ds.flatMap HttpDelivery.arrived).flatten = ms.flatMap HttpMessage.bytes)
    (hcut : ∀ i, ¬InsideRequest ms ((ds.flatMap HttpDelivery.arrived).take i).flatten.length) :
    ∃ t outs, Run.runs (step site) start ds = some (t, outs) ∧ t.handed = ms.map HttpMessage.request ∧
      t.wire ++ t.writeBuffer = ms.flatMap fun m => site.answer m.request := by
  have hparse : parseChunks (ds.flatMap HttpDelivery.arrived) ⟨.start, 0, []⟩ = _ :=
    parseChunks_messages hstream atStart_nil (by simpa using hcut)
  obtain ⟨t, outs, hrun, -⟩ := @runs_steady site ds hsteady start ⟨.start, 0, []⟩ rfl (congrArg Handed.ending hparse)
  obtain ⟨hfound, hbytes⟩ := runs_answers hrun
  have hhanded : t.handed = ms.map HttpMessage.request := congrArg Handed.requests (hfound.symm.trans hparse)
  refine ⟨t, outs, hrun, hhanded, ?_⟩
  rw [hbytes, hhanded, List.flatMap_map]

theorem stream_answered_getInTwo :
    ∃ t outs, Run.runs (step HttpSite.short) start getInTwo = some (t, outs) ∧
      t.handed = [getMessage].map HttpMessage.request ∧
      t.wire ++ t.writeBuffer = [getMessage].flatMap fun m => HttpSite.short.answer m.request :=
  stream_answered getInTwo_steady (by decide) getInTwo_cut

/-! ### Bytes that wait -/

/-- The reactor will report that the socket takes what is left. -/
def Flowing (t : HttpTraffic) : Prop := t.writeBuffer = [] ∨ t.interest = .readWrite

/-- The calls of `send` of a write event take all that is there. -/
def Drains (site : HttpSite) (t : HttpTraffic) (d : HttpDelivery) : Prop :=
  d.Has epollOut → (t.pending site d).length ≤ d.takes.sum

/-- `epoll_wait` reports `EPOLLOUT` only to a mask that has it. -/
def Reported (t : HttpTraffic) (d : HttpDelivery) : Prop := d.Has epollOut → t.interest = .readWrite

/-- What a write leaves, and what an event without one leaves. -/
theorem result_cases (p : HttpParser) :
    d.Has epollOut ∧ (t.result site d p).interest = .read ∧
      (t.result site d p).writeBuffer = (t.pending site d).drop d.takes.sum ∨
    ¬d.Has epollOut ∧ (t.result site d p).interest = (if t.asked d = [] then t.interest else .readWrite) ∧
      (t.result site d p).writeBuffer = t.pending site d ∧ (t.result site d p).wire = t.wire := by
  rw [result, writeResult]
  by_cases hout : d.Has epollOut
  · rw [if_pos hout]
    split <;> exact Or.inl ⟨hout, rfl, rfl⟩
  · rw [if_neg hout]
    split <;> exact Or.inr ⟨hout, rfl, rfl, rfl⟩

/-- A write event keeps the bytes flowing exactly when it empties the buffer. -/
theorem Flowing.step_iff (h : t.Flowing) (hs : step site t d = some (t', o)) : t'.Flowing ↔ t.Drains site d := by
  obtain ⟨-, -, p, -, rfl⟩ := step_eq_some.mp hs
  rcases @result_cases site t d p with ⟨hout, hinterest, hbuffer⟩ | ⟨hout, hinterest, hbuffer, -⟩
  · have hread : ¬Interest.read = .readWrite := by decide
    rw [Flowing, hinterest, hbuffer, or_iff_left hread, List.drop_eq_nil_iff]
    exact ⟨fun hlen _ => hlen, fun hdrains => hdrains hout⟩
  · refine iff_of_true ?_ fun hout' => absurd hout' hout
    rw [Flowing, hinterest, hbuffer, pending]
    by_cases hasked : t.asked d = []
    · rw [if_pos hasked, hasked, List.flatMap_nil, List.append_nil]
      exact h
    · exact Or.inr (if_neg hasked)

/-- Bytes are never left to a reactor that does not report when they can be sent if and only if every write event
    empties the buffer. -/
theorem flowing_iff (site : HttpSite) (ds : List HttpDelivery) :
    Run.Throughout (step site) Flowing start ds ↔ Run.Each (step site) (Drains site) start ds :=
  Run.throughout_iff_each (I := fun _ => True) (fun _ _ _ _ _ _ => trivial) (fun _ _ _ _ _ h hs => h.step_iff hs)
    trivial (Or.inl rfl)

/-- What a write event has left stays in the buffer until a request is answered, whatever else happens. -/
theorem left_until_request {ds : List HttpDelivery} : ∀ {t t' : HttpTraffic} {outs : List Unit}, t.interest = .read →
    Run.Each (step site) Reported t ds → Run.runs (step site) t ds = some (t', outs) → t'.handed = t.handed →
    t'.writeBuffer = t.writeBuffer ∧ t'.wire = t.wire ∧ t'.interest = .read := by
  induction ds with
  | nil =>
    intro t t' outs hread _ h _
    cases h
    exact ⟨rfl, rfl, hread⟩
  | cons d ds ih =>
    intro t t' outs hread heach h hhanded
    obtain ⟨t₁, o, outs₁, hs, hrun, -⟩ := Run.runs_cons_inv h
    obtain ⟨hreported, heach⟩ := heach t₁ o hs
    obtain ⟨-, -, p, -, rfl⟩ := step_eq_some.mp hs
    obtain ⟨new, -, hnew⟩ := runs_handed hrun
    rw [(result_handed p).1, hhanded, List.append_assoc, List.self_eq_append_right] at hnew
    obtain ⟨hasked, rfl⟩ := List.append_eq_nil_iff.mp hnew
    have hpending : t.pending site d = t.writeBuffer := by
      rw [pending, hasked, List.flatMap_nil, List.append_nil]
    rcases @result_cases site t d p with ⟨hout, -⟩ | ⟨-, hinterest, hbuffer, hwire⟩
    · rw [hreported hout] at hread
      cases hread
    · rw [hasked, if_pos rfl, hread] at hinterest
      rw [hpending] at hbuffer
      have hsame : t'.handed = (t.result site d p).handed := by
        rw [hhanded, (result_handed p).1, hasked, List.append_nil]
      obtain ⟨hbuffer', hwire', hinterest'⟩ := ih hinterest heach hrun hsame
      exact ⟨hbuffer'.trans hbuffer, hwire'.trans hwire, hinterest'⟩

/-- A part of a request comes after a write that has left some bytes. -/
def partOfRequest : HttpDelivery := ⟨epollIn, [ascii "GET"], .again, [], .again⟩

def withRest : HttpTraffic := { start with writeBuffer := ascii "rest" }

theorem left_until_request_partOfRequest :
    ∃ t' outs, Run.runs (step HttpSite.short) withRest [partOfRequest] = some (t', outs) ∧
      t'.writeBuffer = withRest.writeBuffer ∧ t'.wire = withRest.wire ∧ t'.interest = .read := by
  have hparse : HttpParser.parse ⟨.start, 0, ascii "GET"⟩ .empty = .ok (⟨.start, 0, ascii "GET"⟩, .empty, false) := rfl
  have hchunks : parseChunks ([partOfRequest].flatMap HttpDelivery.arrived) withRest.conn.parser =
      ⟨[], .ok ⟨.start, 0, ascii "GET"⟩⟩ := by
    have harrived : [partOfRequest].flatMap HttpDelivery.arrived = [ascii "GET"] := by decide
    have hloop : (HttpParser.appendData withRest.conn.parser (ascii "GET")).parseLoop = _ := parseLoop_false hparse
    rw [harrived, parseChunks, hloop]
    rfl
  have hsteady : ∀ d ∈ [partOfRequest], Steady d := by decide
  obtain ⟨t', outs, hrun, -⟩ :=
    @runs_steady HttpSite.short [partOfRequest] hsteady withRest _ rfl (congrArg Handed.ending hchunks)
  obtain ⟨new, hnew, hhanded⟩ := runs_handed hrun
  obtain rfl : new = [] := congrArg Handed.requests (hnew.symm.trans hchunks)
  have hreported : Run.Each (step HttpSite.short) Reported withRest [partOfRequest] := by
    have hin : ¬partOfRequest.Has epollOut := by decide
    exact fun _ _ _ => ⟨fun hout => absurd hout hin, trivial⟩
  exact ⟨t', outs, hrun, left_until_request rfl hreported hrun (by rw [hhanded, List.append_nil])⟩

end HttpTraffic

end KvStore
