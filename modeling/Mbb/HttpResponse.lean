import Mbb.Http
import Mbb.Net
import Mbb.XmlParser

/-!
# Responses over HTTP (`mbbd/http.c`, `mbbd/mbbthreadhttp.c`)

A response is a line with the status, headers, a blank line and the body. Who reads it as the server
reads a request finds the headers that were set, and behind the blank line the whole body, of the
length that `Content-Length` tells.
-/

namespace Mbb

/-! ## `http.c` -/

/-- `CRLF` -/
def crlf : List UInt8 := [13, 10]

/-- `struct http_response` -/
structure HttpResponse : Type where
  /-- `status`, for `%d` -/
  status : Int
  /-- `reason` -/
  reason : Option (List UInt8)
  /-- `body` -/
  body : Option (List UInt8)
  /-- `headers`: names and values -/
  headers : List (List UInt8 × List UInt8)

/-- `HTTP_STATUS_OK` -/
def httpStatusOk : Int := 200

/-- `http_response_new` -/
def httpResponseNew (status : Int) (reason : Option (List UInt8)) : HttpResponse where
  status := status
  reason := if status = httpStatusOk && reason.isNone then some (asciiBytes "OK") else reason
  body := none
  headers := []

/-- `http_response_add_header` -/
def httpResponseAddHeader (resp : HttpResponse) (name value : List UInt8) : HttpResponse :=
  { resp with headers := resp.headers ++ [(name, value)] }

/-- The first line, without its end. -/
def statusLine (resp : HttpResponse) : List UInt8 :=
  asciiBytes "HTTP/1.0" ++ (32 :: formatInt resp.status) ++
    (32 :: resp.reason.getD (formatInt resp.status))

/-- `"%s: %s"` -/
def headerLine (header : List UInt8 × List UInt8) : List UInt8 :=
  header.1 ++ (58 :: 32 :: header.2)

/-- `http_response_to_string` -/
def httpResponseToString (resp : HttpResponse) : List UInt8 :=
  statusLine resp ++ crlf ++ (resp.headers.flatMap fun header => headerLine header ++ crlf) ++
    crlf ++ cString (resp.body.getD [])

/-! ## `mbbthreadhttp.c` -/

/-- `add_std_headers` -/
def addStdHeaders (resp : HttpResponse) (type : List UInt8) : HttpResponse :=
  let clen :=
    match resp.body with
    | none => asciiBytes "0"
    | some body => decimalText (cString body).length
  let ctype := asciiBytes "application/" ++ type ++ asciiBytes "; charset=utf-8"
  let resp := httpResponseAddHeader resp (asciiBytes "Server") (asciiBytes "mbbd")
  let resp := httpResponseAddHeader resp (asciiBytes "Content-Type") ctype
  httpResponseAddHeader resp (asciiBytes "Content-Length") clen

/-- `push_http_response`: what is written to the socket -/
def pushHttpResponse (json : Bool) (resp : HttpResponse) : List UInt8 :=
  httpResponseToString (addStdHeaders resp (asciiBytes (if json then "json" else "xml")))

/-- The body for an answer; `utf8` gives the bytes of characters. -/
def httpBody [Glib] [HashOrder] (utf8 : List Char → List UInt8) (json : Bool)
    (tag : Option XmlTag) : List UInt8 :=
  let tag := tag.getD mbbXmlMsgOk
  utf8 (if json then xmlTagToJson tag else xmlTagToStringEscape tag)

/-- `push_http_xml_msg` -/
def pushHttpXmlMsg [Glib] [HashOrder] (utf8 : List Char → List UInt8) (json : Bool)
    (tag : Option XmlTag) : List UInt8 :=
  pushHttpResponse json
    { httpResponseNew httpStatusOk none with body := some (httpBody utf8 json tag) }

/-! ## Reading a response

The headers are read by the functions that read those of requests; that a header comes back needs
that its name has no colon and its value no end of line.
-/

theorem readLines_line {line : List UInt8} (h : 10 ∉ line) (rest : List UInt8) :
    readLines (line ++ 10 :: rest) = (line ++ [10], rest) :: readLines rest := by
  induction line with
  | nil => rw [List.nil_append, readLines, if_pos rfl, List.nil_append]
  | cons c cs ih =>
    have hc : c ≠ 10 := fun heq => h (heq ▸ List.mem_cons_self)
    rw [List.cons_append, readLines, if_neg hc, ih fun hmem => h (List.mem_cons_of_mem c hmem)]
    rfl

theorem lineRead_crlf {text : List UInt8} (h : text.length < 2 ^ 31 - 2) :
    lineRead (text ++ crlf) = some text := by
  have hlength : (text ++ crlf).length = text.length + 2 := by rw [List.length_append]; rfl
  have hmod : (text.length + 2) % 2 ^ 32 = text.length + 2 := Nat.mod_eq_of_lt (by omega)
  have hend : stripLast 10 (text ++ crlf) = text ++ [13] := by
    have hsplit : text ++ crlf = (text ++ [13]) ++ [10] := by simp [crlf]
    rw [hsplit, stripLast, List.getLast?_concat, if_pos rfl, List.dropLast_concat]
  rw [lineRead]
  simp only [hlength, hmod]
  rw [if_pos (by omega), ← hlength, List.take_length, hend, stripLast, List.getLast?_concat,
    if_pos rfl, List.dropLast_concat]

theorem splitHeader_headerLine {name : List UInt8} (h : 58 ∉ name) (value : List UInt8) :
    splitHeader (headerLine (name, value)) = some (name, value) := by
  induction name with
  | nil => rfl
  | cons c cs ih =>
    have hc : ¬ (58 : UInt8) = c := fun heq => h (heq ▸ List.mem_cons_self)
    have hpre : (asciiBytes ": ").isPrefixOf (c :: (cs ++ 58 :: 32 :: value)) = false := by
      change ((58 : UInt8) == c && _) = false
      rw [beq_false_of_ne hc, Bool.false_and]
    have hrest := ih fun hmem => h (List.mem_cons_of_mem c hmem)
    change splitHeader (c :: (cs ++ 58 :: 32 :: value)) = _
    rw [splitHeader, hpre, if_neg Bool.false_ne_true]
    change (splitHeader (headerLine (cs, value))).map _ = _
    rw [hrest]
    rfl

theorem cString_of_notMem {text : List UInt8} (h : 0 ∉ text) : cString text = text :=
  List.takeWhile_eq_self_iff.mpr fun c hc => by
    have hne : c ≠ 0 := fun heq => h (heq ▸ hc)
    simpa using hne

/-- A header that is read as it was set. -/
structure CleanHeader (header : List UInt8 × List UInt8) : Prop where
  /-- nothing ends the name too early -/
  name : 58 ∉ header.1
  /-- it is on one line -/
  line : 10 ∉ headerLine header
  /-- it is a string of C -/
  noNul : 0 ∉ headerLine header
  /-- `getline` returns an `int` -/
  length : (headerLine header).length < 2 ^ 31 - 2

/-- The headers are set, one after the other. -/
def setHeaders (req : HttpRequest) (headers : List (List UInt8 × List UInt8)) : HttpRequest :=
  headers.foldl (fun req p => { req with ht := p :: req.ht.filter fun q => !gStrcaseEqual p.1 q.1 })
    req

theorem addHeader_headerLine {header : List UInt8 × List UInt8} (h : CleanHeader header)
    (req : HttpRequest) : httpRequestAddHeader req (cString (headerLine header)) =
      some (setHeaders req [header]) := by
  rw [cString_of_notMem h.noNul, httpRequestAddHeader, splitHeader_headerLine h.name]
  rfl

/-- The headers and the blank line are read, and the body is left. -/
theorem reads_headers {headers : List (List UInt8 × List UInt8)}
    (h : ∀ header ∈ headers, CleanHeader header) (req : HttpRequest) (body : List UInt8) :
    Reads (readLines ((headers.flatMap fun header => headerLine header ++ crlf) ++ (crlf ++ body)))
      req (setHeaders req headers) body := by
  induction headers generalizing req with
  | nil =>
    have hline : (10 : UInt8) ∉ [13] := by decide
    have hlines : readLines (crlf ++ body) = (crlf, body) :: readLines body :=
      readLines_line hline body
    have hblank : lineRead crlf = some [] := by decide
    rw [List.flatMap_nil, List.nil_append, hlines]
    exact .blank hblank
  | cons header headers ih =>
    have hclean := h header List.mem_cons_self
    have hline : 10 ∉ headerLine header ++ [13] := by
      simpa [List.mem_append] using hclean.line
    rw [List.flatMap_cons]
    have hsplit : headerLine header ++ crlf ++
        (headers.flatMap fun header => headerLine header ++ crlf) ++ (crlf ++ body) =
        (headerLine header ++ [13]) ++ 10 ::
          ((headers.flatMap fun header => headerLine header ++ crlf) ++ (crlf ++ body)) := by
      simp [crlf]
    have hcrlf : headerLine header ++ [13] ++ [10] = headerLine header ++ crlf := by simp [crlf]
    have hne : headerLine header ≠ [] := by simp [headerLine]
    rw [hsplit, readLines_line hline, hcrlf]
    exact .header (lineRead_crlf hclean.length) hne (addHeader_headerLine hclean req)
      (ih (fun p hp => h p (List.mem_cons_of_mem _ hp)) _)

/-- A response is read as it was made. -/
theorem reads_response {resp : HttpResponse} (hstatus : 10 ∉ statusLine resp)
    (hlength : (statusLine resp).length < 2 ^ 31 - 2)
    (h : ∀ header ∈ resp.headers, CleanHeader header) (req : HttpRequest) :
    ∃ first behind lines, readLines (httpResponseToString resp) = (first, behind) :: lines ∧
      lineRead first = some (statusLine resp) ∧
      Reads lines req (setHeaders req resp.headers) (cString (resp.body.getD [])) := by
  have hline : 10 ∉ statusLine resp ++ [13] := by simpa [List.mem_append] using hstatus
  have hsplit : httpResponseToString resp = (statusLine resp ++ [13]) ++ 10 ::
      ((resp.headers.flatMap fun header => headerLine header ++ crlf) ++
        (crlf ++ cString (resp.body.getD []))) := by
    simp [httpResponseToString, crlf]
  refine ⟨_, _, _, hsplit ▸ readLines_line hline _, ?_, reads_headers h req _⟩
  have hcrlf : statusLine resp ++ [13] ++ [10] = statusLine resp ++ crlf := by simp [crlf]
  rw [hcrlf]
  exact lineRead_crlf hlength

/-! ## What the server sends

The headers that every response has, and the length of the body as the last one of them.
-/

theorem notMem_decimalText {c : UInt8} (h : isDigit c = false) (n : ℕ) : c ∉ decimalText n :=
  fun hmem => by
    rw [(digitRun_decimalText n).2 c hmem] at h
    cases h

theorem clean_contentLength {n : ℕ} (h : n < 2 ^ 64) :
    CleanHeader (asciiBytes "Content-Length", decimalText n) := by
  have hlength : (decimalText n).length ≤ 20 := length_decimalText (by decide) (by omega)
  have hnot : ∀ c, isDigit c = false → c ∉ asciiBytes "Content-Length: " →
      c ∉ headerLine (asciiBytes "Content-Length", decimalText n) := fun c hdigit hname hmem => by
    have hsplit : headerLine (asciiBytes "Content-Length", decimalText n) =
        asciiBytes "Content-Length: " ++ decimalText n := rfl
    rw [hsplit, List.mem_append] at hmem
    exact hmem.elim hname (notMem_decimalText hdigit n)
  have hname : 58 ∉ asciiBytes "Content-Length" := by decide
  refine ⟨hname, hnot 10 (by decide) (by decide), hnot 0 (by decide) (by decide), ?_⟩
  have hsplit : (headerLine (asciiBytes "Content-Length", decimalText n)).length =
      14 + ((decimalText n).length + 1 + 1) := by
    rw [headerLine, List.length_append, List.length_cons, List.length_cons]
    rfl
  omega

/-- What `Content-Type` is. -/
def contentType (json : Bool) : List UInt8 :=
  asciiBytes "application/" ++ asciiBytes (if json then "json" else "xml") ++
    asciiBytes "; charset=utf-8"

theorem clean_contentType (json : Bool) :
    CleanHeader (asciiBytes "Content-Type", contentType json) := by
  cases json
  · exact ⟨by decide, by decide, by decide, by decide⟩
  · exact ⟨by decide, by decide, by decide, by decide⟩

theorem statusLine_ok {resp : HttpResponse} (hstatus : resp.status = httpStatusOk)
    (hreason : resp.reason = some (asciiBytes "OK")) :
    statusLine resp = asciiBytes "HTTP/1.0 200 OK" := by
  rw [statusLine, hstatus, hreason]
  decide

/-- Who reads `out` as the server reads a request finds that all is well, what type the body has,
and behind the blank line the body, of the length that `Content-Length` tells. -/
def HttpFramed (out type body : List UInt8) : Prop :=
  ∀ req, ∃ first behind lines req', readLines out = (first, behind) :: lines ∧
    lineRead first = some (asciiBytes "HTTP/1.0 200 OK") ∧ Reads lines req req' body ∧
    ContentLength req' body.length ∧
    httpRequestGetHeader req' (asciiBytes "Content-Type") = some type

section

variable [Glib] [HashOrder]

theorem httpFramed_pushHttpXmlMsg (utf8 : List Char → List UInt8) (json : Bool)
    (tag : Option XmlTag) (h : (cString (httpBody utf8 json tag)).length < 2 ^ 64) :
    HttpFramed (pushHttpXmlMsg utf8 json tag) (contentType json)
      (cString (httpBody utf8 json tag)) := by
  intro req
  have hclean : ∀ header ∈ [(asciiBytes "Server", asciiBytes "mbbd"),
      (asciiBytes "Content-Type", contentType json),
      (asciiBytes "Content-Length", decimalText (cString (httpBody utf8 json tag)).length)],
      CleanHeader header := by
    simp only [List.forall_mem_cons]
    exact ⟨⟨by decide, by decide, by decide, by decide⟩, clean_contentType json,
      clean_contentLength h, by simp⟩
  have hstatus : 10 ∉ asciiBytes "HTTP/1.0 200 OK" := by decide
  have hlength : (asciiBytes "HTTP/1.0 200 OK").length < 2 ^ 31 - 2 := by decide
  have hline : statusLine (addStdHeaders { httpResponseNew httpStatusOk none with
      body := some (httpBody utf8 json tag) } (asciiBytes (if json then "json" else "xml"))) =
        asciiBytes "HTTP/1.0 200 OK" := statusLine_ok rfl rfl
  obtain ⟨first, behind, lines, hlines, hfirst, hreads⟩ :=
    reads_response (hline ▸ hstatus) (hline ▸ hlength) hclean req
  refine ⟨first, behind, lines, _, hlines, hline ▸ hfirst, hreads,
    ⟨_, ?_, ⟨digitRun_decimalText _, decimalValue_decimalText _⟩, h⟩, ?_⟩
  · rfl
  · rfl

/-! ## What a client gets

The type of the body is that of the request, if its first line was read and asked for JSON, also
when a header behind it is invalid. The response is one string; `write_all` sends it, and sends the
beginning of it again after a short write.
-/

variable {σ : Type} (host : HttpHost σ)

omit [HashOrder] in
theorem json_processHttp {req : HttpRequest} {json json' : Bool} {method : Option (List UInt8)}
    {s : σ} {tag : XmlTag} (h : (processHttp host req json method s).1 = .sent json' tag) :
    json' = json := by
  rw [processHttp] at h
  split at h
  · cases h
    rfl
  · split at h
    · cases h
    · cases h
      rfl
    · split at h
      · cases h
      · cases h
        rfl

omit [HashOrder] in
/-- The answer is of the type that the URL asks for. -/
theorem json_processReceived {req : HttpRequest} {json json' : Bool}
    {method : Option (List UInt8)} {rest : List UInt8} {s : σ} {tag : XmlTag}
    (h : (processReceived host req json method rest s).ending = .sent json' tag) :
    json' = json := by
  rw [processReceived] at h
  split at h
  · exact json_processHttp host h
  · split at h
    · cases h
      rfl
    · exact json_processHttp host h

/-- The type that the URL in the first line asks for: JSON behind the prefix of JSON, and XML where
there is no request with a URL that is served. -/
def asksJson (urlPrefix : Option (List UInt8)) (input : List UInt8) : Bool :=
  match readLines input with
  | [] => false
  | (first, _) :: _ =>
    match (lineRead first).bind fun text => httpRequestNew (cString text) with
    | none => false
    | some req =>
      match parseUrl urlPrefix req.url with
      | none => false
      | some (json, _) => json

omit [HashOrder] in
/-- The lines behind the first do not change the type, also when one of them is invalid. -/
theorem json_httpClientLoop {lines : List (List UInt8 × List UInt8)} {req : HttpRequest}
    {json json' : Bool} {method : Option (List UInt8)} {s : σ} {tag : XmlTag}
    (h : (httpClientLoop host lines (some (req, json, method)) s).ending = .sent json' tag) :
    json' = json := by
  induction lines generalizing req with
  | nil => cases h
  | cons line lines ih =>
    rw [httpClientLoop, httpClientLine] at h
    cases hline : lineRead line.1 with
    | none =>
      rw [hline] at h
      cases h
    | some text =>
      simp only [hline] at h
      by_cases htext : text = []
      · rw [if_neg (not_not_intro htext)] at h
        exact json_processReceived host h
      · rw [if_pos htext] at h
        cases hadd : httpRequestAddHeader req (cString text) with
        | none =>
          rw [hadd] at h
          cases h
          rfl
        | some req' =>
          rw [hadd] at h
          exact ih h

omit [HashOrder] in
/-- What is sent is of the type that the first line asks for. -/
theorem json_mbbThreadHttpClient {input : List UInt8} {json : Bool} {s : σ} {tag : XmlTag}
    (h : (mbbThreadHttpClient host input s).ending = .sent json tag) :
    json = asksJson host.urlPrefix input := by
  rw [mbbThreadHttpClient] at h
  rw [asksJson]
  cases hlines : readLines input with
  | nil =>
    rw [hlines] at h
    cases h
  | cons line lines =>
    rw [hlines, httpClientLoop, httpClientLine] at h
    simp only
    cases hline : lineRead line.1 with
    | none =>
      rw [hline] at h
      cases h
    | some text =>
      simp only [hline] at h
      rw [Option.bind_some]
      cases hreq : httpRequestNew (cString text) with
      | none =>
        rw [hreq] at h
        cases h
        rfl
      | some req =>
        simp only [hreq] at h
        simp only
        cases hurl : parseUrl host.urlPrefix req.url with
        | none =>
          rw [hurl] at h
          cases h
          rfl
        | some asked =>
          rw [hurl] at h
          exact json_httpClientLoop host h

/-- The string that a run of the client gives to `write_all`, if there is one. -/
def HttpRun.written (utf8 : List Char → List UInt8) (run : HttpRun σ) : Option (List UInt8) :=
  match run.ending with
  | .sent json tag => some (pushHttpXmlMsg utf8 json (some tag))
  | _ => none

/-- **Responses are framed**: whatever a client sends, it is answered by one response or none, of
the type that the first line asks for, and with the length of its body; and this is what the socket
has taken once as many bytes are written, unless `write_all` goes wrong. -/
theorem http_response_framed (utf8 : List Char → List UInt8) (input : List UInt8) (s : σ)
    (h : ∀ json tag, (mbbThreadHttpClient host input s).ending = .sent json tag →
      (cString (httpBody utf8 json (some tag))).length < 2 ^ 64) :
    ∀ out ∈ (mbbThreadHttpClient host input s).written utf8,
      ∃ tag, (mbbThreadHttpClient host input s).ending =
          .sent (asksJson host.urlPrefix input) tag ∧
        HttpFramed out (contentType (asksJson host.urlPrefix input))
          (cString (httpBody utf8 (asksJson host.urlPrefix input) (some tag))) ∧
        ∀ results, WriteResults out.length results → WriteOk out results →
          results.sum = out.length → (writeAll out results).1 = out := by
  intro out hout
  rw [HttpRun.written] at hout
  cases hend : (mbbThreadHttpClient host input s).ending with
  | sent json tag =>
    have hjson := json_mbbThreadHttpClient host hend
    rw [hend] at hout
    obtain rfl := Option.some.inj hout
    have hframed := httpFramed_pushHttpXmlMsg utf8 json (some tag) (h json tag hend)
    subst hjson
    exact ⟨tag, rfl, hframed, fun results hresults hok hsum =>
      ((writesAll_iff hresults).mpr hok).2.2 hsum⟩
  | _ =>
    rw [hend] at hout
    cases hout

end

/-- A client that is not let in, asks for JSON, and sends a header that is none. -/
theorem http_response_framed_json :
    letI := Glib.plain
    letI := HashOrder.plain
    let input := asciiBytes "GET /json/ HTTP/1.0\r\nnone\r\n\r\n"
    ∃ out tag, (mbbThreadHttpClient exampleHost input 0).written (fun cs => cs.map Char.toUInt8) =
        some out ∧
      HttpFramed out (contentType true)
        (cString (httpBody (fun cs => cs.map Char.toUInt8) true (some tag))) := by
  let _ := Glib.plain
  let _ := HashOrder.plain
  intro input
  have hend : (mbbThreadHttpClient exampleHost input 0).ending =
      .sent true (invalidHeader exampleHost (asciiBytes "none")) := rfl
  obtain ⟨out, hout⟩ : ∃ out, (mbbThreadHttpClient exampleHost input 0).written
      (fun cs => cs.map Char.toUInt8) = some out := ⟨_, by rw [HttpRun.written, hend]⟩
  obtain ⟨tag, -, hframed, -⟩ := http_response_framed exampleHost _ input 0 (fun json tag h => by
    rw [hend] at h
    cases h
    decide) out hout
  exact ⟨out, tag, hout, hframed⟩

end Mbb
