import Mbb.HttpBatch
import Mbb.VarConv

/-!
# Requests over HTTP (`mbbd/http.c`, `mbbd/mbbthreadhttp.c`)

A client of HTTP sends one request: a line with the method and the url, headers, a blank line and,
with `POST`, a body of the length that a header tells. A url without the name of a method asks for
a batch, which is in the body. Two requests go wrong. A batch without a body, or with a document
that is no `request`, leaves `root_tag` at `NULL`, and it is used all the same. And the buffer for
a body has one byte more than the body, but this number has 32 bits: for a length of `2 ^ 32 - 1`
it is 0.
-/

namespace Mbb

/-! ## Lines

A line ends with a newline, and may have a carriage return before it; what is read is cut at the
first zero byte.
-/

/-- The string of C that starts in a buffer: up to the first `'\0'`. -/
def cString (buf : List UInt8) : List UInt8 := buf.takeWhile (· ≠ 0)

/-- The lines that `getline` returns, call after call, and what is left of the stream behind each.
The last one may lack the end of a line. -/
def readLines : List UInt8 → List (List UInt8 × List UInt8)
  | [] => []
  | c :: cs =>
    if c = 10 then ([c], cs) :: readLines cs
    else
      match readLines cs with
      | [] => [([c], [])]
      | (line, rest) :: lines => (c :: line, rest) :: lines

/-- One character less, if it is the last one. -/
def stripLast (c : UInt8) (line : List UInt8) : List UInt8 :=
  if line.getLast? = some c then line.dropLast else line

/-- What `http_client_loop` has of a line, without its end. The length goes into a `gint`; one that
is negative there ends the loop. -/
def lineRead (line : List UInt8) : Option (List UInt8) :=
  let n := line.length % 2 ^ 32
  if n < 2 ^ 31 then some (stripLast 13 (stripLast 10 (line.take n))) else none

/-! ## `http.c` -/

/-- `http_method_t` -/
inductive HttpMethod : Type where
  /-- `HTTP_METHOD_GET` -/
  | get
  /-- `HTTP_METHOD_POST` -/
  | post
  deriving DecidableEq

/-- `struct http_request` -/
structure HttpRequest : Type where
  /-- `method` -/
  method : HttpMethod
  /-- `url` -/
  url : List UInt8
  /-- `body` -/
  body : Option (List UInt8)
  /-- `ht`: names and values of headers -/
  ht : List (List UInt8 × List UInt8)

/-- `g_ascii_tolower` -/
def gAsciiTolower (c : UInt8) : UInt8 := if 65 ≤ c.toNat ∧ c.toNat ≤ 90 then c + 32 else c

/-- `g_strcase_equal` -/
def gStrcaseEqual (v1 v2 : List UInt8) : Bool := v1.map gAsciiTolower == v2.map gAsciiTolower

/-- `g_strsplit` at blanks, without a limit -/
def gStrsplit (str : List UInt8) : List (List UInt8) := if str = [] then [] else str.splitOn 32

/-- `http_request_get_url`, with `meth` -/
def httpRequestGetUrl (request : List UInt8) : Option (HttpMethod × List UInt8) :=
  match gStrsplit request with
  | meth :: url :: _ =>
    if meth = asciiBytes "POST" then some (.post, url)
    else if meth = asciiBytes "GET" then some (.get, url)
    else none
  | _ => none

/-- `http_request_new` -/
def httpRequestNew (request : List UInt8) : Option HttpRequest :=
  (httpRequestGetUrl request).map fun r =>
    { method := r.1, url := r.2, body := none, ht := [] }

/-- `g_strsplit` at `": "` into two: what is before the first and what is behind it. -/
def splitHeader : List UInt8 → Option (List UInt8 × List UInt8)
  | [] => none
  | c :: cs =>
    if (asciiBytes ": ").isPrefixOf (c :: cs) then some ([], cs.drop 1)
    else (splitHeader cs).map fun p => (c :: p.1, p.2)

/-- `http_request_add_header` -/
def httpRequestAddHeader (req : HttpRequest) (line : List UInt8) : Option HttpRequest :=
  (splitHeader line).map fun p =>
    { req with ht := p :: req.ht.filter fun q => !gStrcaseEqual p.1 q.1 }

/-- `http_request_get_header` -/
def httpRequestGetHeader (req : HttpRequest) (name : List UInt8) : Option (List UInt8) :=
  (req.ht.find? fun p => gStrcaseEqual p.1 name).map Prod.snd

/-! ## Around the client -/

/-- What the client is run in. -/
structure HttpHost (σ : Type) : Type where
  /-- `http_url_prefix` -/
  urlPrefix : Option (List UInt8)
  /-- `http_auth_method` -/
  authMethod : Option (List UInt8)
  /-- `g_base64_decode` -/
  base64Decode : List UInt8 → List UInt8
  /-- `mbb_session_auth`: login, secret and type -/
  sessionAuth : List UInt8 → Option (List UInt8) → Option (List UInt8) → σ → Bool × σ
  /-- `mbb_func_call` -/
  funcCall : FuncCall σ
  /-- the characters of a string -/
  utf8 : List UInt8 → List Char
  /-- GMarkup has no error of its own for a text. -/
  wellFormed : List Char → Bool

/-- An `int`, as `%d` writes it. -/
def formatInt (n : Int) : List UInt8 :=
  if n < 0 then 45 :: decimalText n.natAbs else decimalText n.natAbs

/-- `parse_url`: `json` and `method` -/
def parseUrl (urlPrefix : Option (List UInt8)) (url : List UInt8) :
    Option (Bool × Option (List UInt8)) :=
  if url.head? ≠ some 47 then none
  else
    let url :=
      match urlPrefix with
      | none => some (url.drop 1)
      | some p => if p.isPrefixOf url then some (url.drop p.length) else none
    url.map fun url =>
      let json := (asciiBytes "json/").isPrefixOf url
      let url := if json then url.drop 5 else url
      (json, if url = [] then none else some url)

/-- How the client ends. -/
inductive HttpEnd : Type where
  /-- The stream ended, and nothing is sent. -/
  | closed
  /-- `push_http_xml_msg` -/
  | sent (json : Bool) (tag : XmlTag)
  /-- `root_tag` is `NULL` and is used. -/
  | rootMissing
  /-- `tag_list` of the parser is `NULL` and is used. -/
  | tagMissing

/-- The buffer for a body. -/
structure HttpBuffer : Type where
  /-- bytes allocated -/
  size : ℕ
  /-- where the end of the string is written, and how many bytes are read -/
  clen : ℕ

/-- A run of the client. -/
structure HttpRun (σ : Type) : Type where
  /-- the buffer, if a body is read -/
  buffer : Option HttpBuffer
  /-- the end -/
  ending : HttpEnd
  /-- the state at the end -/
  state : σ

section

variable {σ : Type} (host : HttpHost σ)

/-- `mbb_xml_msg_error` -/
def mbbXmlMsgError (text : List UInt8) : XmlTag :=
  mbbXmlMsgResponse (literal "error") (some (cstr (host.utf8 text)))

/-- `mbb_base64_decode` -/
def mbbBase64Decode (str : List UInt8) : Option (List UInt8) :=
  let data := host.base64Decode str
  if data.length = 0 then none else some (cString data)

/-- `get_base64_header`: `none` is the result `FALSE`, the inner option is `value`. -/
def getBase64Header (req : HttpRequest) (name : List UInt8) : Option (Option (List UInt8)) :=
  match httpRequestGetHeader req name with
  | none => some none
  | some header => (mbbBase64Decode host header).map some

/-- `process_http_auth` -/
def processHttpAuth (req : HttpRequest) (s : σ) : Bool × σ :=
  match getBase64Header host req (asciiBytes "MBB-Auth-Key") with
  | none => (false, s)
  | some (some login) => host.sessionAuth login none (some (asciiBytes "key")) s
  | some none =>
    match getBase64Header host req (asciiBytes "MBB-Auth-Login") with
    | none => (false, s)
    | some none => (false, s)
    | some (some login) =>
      match getBase64Header host req (asciiBytes "MBB-Auth-Secret") with
      | none => (false, s)
      | some secret => host.sessionAuth login secret host.authMethod s

/-- What comes of a body. -/
inductive BodyRead : Type where
  /-- It is not XML. -/
  | invalid
  /-- The parser uses a tag that is not there. -/
  | tagMissing
  /-- `root_tag` after it -/
  | root (rootTag : Option XmlTag)

/-- `xml_parser_parse` in `process_http`, if there is a body. -/
def parseBody [Glib] : Option (List UInt8) → BodyRead
  | none => .root none
  | some body =>
    let text := host.utf8 (cString body)
    match xmlParserParse xmlParserNew text with
    | .error .noTag => .tagMissing
    | .error (.unexpectedClosed _ _) => .invalid
    | .ok parser =>
      if host.wellFormed text then .root (parser.given.foldl processTag none) else .invalid

/-- `process_http` -/
def processHttp [Glib] (req : HttpRequest) (json : Bool) (method : Option (List UInt8)) (s : σ) :
    HttpEnd × σ :=
  match processHttpAuth host req s with
  | (false, s) => (.sent json (mbbXmlMsgError host (asciiBytes "unauthorized")), s)
  | (true, s) =>
    match parseBody host req.body with
    | .tagMissing => (.tagMissing, s)
    | .invalid => (.sent json (mbbXmlMsgError host (asciiBytes "invalid xml")), s)
    | .root rootTag =>
      match processRequest host.funcCall (method.map fun m => cstr (host.utf8 m)) rootTag s with
      | none => (.rootMissing, s)
      | some (ans, s) => (.sent json (ans.getD mbbXmlMsgOk), s)

/-- `http body incomplete: recv %d, must be %d` -/
def bodyIncomplete (n clen : ℕ) : XmlTag :=
  mbbXmlMsgError host (asciiBytes "http body incomplete: recv " ++ formatInt (toGint n) ++
    asciiBytes ", must be " ++ formatInt (toGint clen))

/-- `process_http_body`: the buffer, and the request with its body or what is sent instead. What is
read is what the stream has, though with a buffer that is too small it goes where it must not. -/
def processHttpBody (req : HttpRequest) (rest : List UInt8) :
    Option HttpBuffer × Except XmlTag HttpRequest :=
  match httpRequestGetHeader req (asciiBytes "Content-Length") with
  | none => (none, .error (mbbXmlMsgError host (asciiBytes "header Content-Length missed")))
  | some value =>
    match varConvUint value 0 with
    | (false, _) =>
      (none, .error (mbbXmlMsgError host
        (asciiBytes "invalid header 'Content-Length: " ++ value ++ asciiBytes "'")))
    | (true, clen) =>
      if clen = 0 then (none, .ok req)
      else
        -- `clen + 1` is a `guint`
        let buffer : HttpBuffer := ⟨(clen + 1) % 2 ^ 32, clen⟩
        let body := rest.take clen
        if body.length ≠ clen then
          (some buffer, .error (bodyIncomplete host body.length clen))
        else (some buffer, .ok { req with body := some body })

/-- The blank line of `http_client_loop`. -/
def processReceived [Glib] (req : HttpRequest) (json : Bool) (method : Option (List UInt8))
    (rest : List UInt8) (s : σ) : HttpRun σ :=
  match req.method with
  | .get =>
    let r := processHttp host req json method s
    ⟨none, r.1, r.2⟩
  | .post =>
    match processHttpBody host req rest with
    | (buffer, .error tag) => ⟨buffer, .sent json tag, s⟩
    | (buffer, .ok req) =>
      let r := processHttp host req json method s
      ⟨buffer, r.1, r.2⟩

/-- `mbb_xml_msg(MBB_MSG_INVALID_HEADER, line)` -/
def invalidHeader (line : List UInt8) : XmlTag :=
  mbbXmlMsgError host (asciiBytes "invalid header '" ++ line ++ asciiBytes "'")

/-- `invalid url %s` -/
def invalidUrl (url : List UInt8) : XmlTag :=
  mbbXmlMsgError host (asciiBytes "invalid url " ++ url)

/-- A line in `http_client_loop`: the run that ends with it, or the request, `json` and `method`
after it. They are there once the first line is read. -/
def httpClientLine [Glib] (cur : Option (HttpRequest × Bool × Option (List UInt8)))
    (line rest : List UInt8) (s : σ) : HttpRun σ ⊕ (HttpRequest × Bool × Option (List UInt8)) :=
  match lineRead line with
  | none => .inl ⟨none, .closed, s⟩
  | some line =>
    match cur with
    | none =>
      match httpRequestNew (cString line) with
      | none => .inl ⟨none, .sent false (invalidHeader host (cString line)), s⟩
      | some req =>
        match parseUrl host.urlPrefix req.url with
        | none => .inl ⟨none, .sent false (invalidUrl host req.url), s⟩
        | some (json, method) => .inr (req, json, method)
    | some (req, json, method) =>
      if line ≠ [] then
        match httpRequestAddHeader req (cString line) with
        | none => .inl ⟨none, .sent json (invalidHeader host (cString line)), s⟩
        | some req => .inr (req, json, method)
      else .inl (processReceived host req json method rest s)

/-- `http_client_loop` from the lines that are left -/
def httpClientLoop [Glib] : List (List UInt8 × List UInt8) →
    Option (HttpRequest × Bool × Option (List UInt8)) → σ → HttpRun σ
  | [], _, s => ⟨none, .closed, s⟩
  | (line, rest) :: lines, cur, s =>
    match httpClientLine host cur line rest s with
    | .inl run => run
    | .inr next => httpClientLoop lines (some next) s

/-- `mbb_thread_http_client` for the bytes of a connection -/
def mbbThreadHttpClient [Glib] (input : List UInt8) (s : σ) : HttpRun σ :=
  httpClientLoop host (readLines input) none s

end

/-! ## What is received

What the client has sent is stated of the bytes, with no look at the functions: a request line,
headers, a blank line, a body of the length that is told.
-/

/-- From the lines behind the first, headers are read up to a blank line; `rest` is behind it. -/
inductive Reads : List (List UInt8 × List UInt8) → HttpRequest → HttpRequest → List UInt8 → Prop
  /-- the blank line -/
  | blank {line rest : List UInt8} {lines : List (List UInt8 × List UInt8)} {req : HttpRequest}
      (hline : lineRead line = some []) : Reads ((line, rest) :: lines) req req rest
  /-- a header -/
  | header {line behind text rest : List UInt8} {lines : List (List UInt8 × List UInt8)}
      {req req' req'' : HttpRequest} (hline : lineRead line = some text) (htext : text ≠ [])
      (hadd : httpRequestAddHeader req (cString text) = some req')
      (hreads : Reads lines req' req'' rest) : Reads ((line, behind) :: lines) req req'' rest

/-- The bytes of a connection begin with the head of a request; `rest` is behind it. -/
def Received (urlPrefix : Option (List UInt8)) (input : List UInt8) (req : HttpRequest)
    (json : Bool) (method : Option (List UInt8)) (rest : List UInt8) : Prop :=
  ∃ first behind lines text start, readLines input = (first, behind) :: lines ∧
    lineRead first = some text ∧ httpRequestNew (cString text) = some start ∧
    parseUrl urlPrefix start.url = some (json, method) ∧ Reads lines start req rest

/-- The header `Content-Length` is a numeral of 64 bits. -/
def ContentLength (req : HttpRequest) (v : ℕ) : Prop :=
  ∃ value, httpRequestGetHeader req (asciiBytes "Content-Length") = some value ∧
    UintText value v ∧ v < 2 ^ 64

/-- Of a text that is XML, an outermost element is a `request`. -/
def HoldsRequest [Glib] {σ : Type} (host : HttpHost σ) (body : List UInt8) : Prop :=
  ∀ parser, xmlParserParse xmlParserNew (host.utf8 (cString body)) = .ok parser →
    host.wellFormed (host.utf8 (cString body)) = true →
    ∃ tag ∈ parser.given, tag.name = literal "request"

/-- A request that is served without harm. -/
structure Served [Glib] {σ : Type} (host : HttpHost σ) (req : HttpRequest)
    (method : Option (List UInt8)) (rest : List UInt8) (s : σ) : Prop where
  /-- Of the length of a body, the low 32 bits are not all set. -/
  length : req.method = .post → ∀ v, ContentLength req v → v % 2 ^ 32 ≠ 2 ^ 32 - 1
  /-- A batch is posted. -/
  posted : method = none → (processHttpAuth host req s).1 = true → req.method = .post
  /-- It has a body, and what is there of the document is a `request`. -/
  batch : method = none → (processHttpAuth host req s).1 = true → ∀ v, ContentLength req v →
    v % 2 ^ 32 ≠ 0 ∧ (v % 2 ^ 32 ≤ rest.length → HoldsRequest host (rest.take (v % 2 ^ 32)))

/-- No missing root tag is used, and the buffer for a body has more bytes than are read into it
and than the place of its end. -/
def HttpRun.Safe {σ : Type} (run : HttpRun σ) : Prop :=
  run.ending ≠ .rootMissing ∧ ∀ buffer, run.buffer = some buffer → buffer.clen < buffer.size

/-! ### Headers -/

/-- A request as it is before its body is read. -/
structure HttpRequest.Head (req : HttpRequest) : Prop where
  /-- no body -/
  body : req.body = none
  /-- values are strings -/
  noNul : ∀ p ∈ req.ht, 0 ∉ p.2

theorem notMem_cString (buf : List UInt8) : 0 ∉ cString buf := fun h => by
  simpa using List.mem_takeWhile_imp h

theorem sublist_splitHeader {line : List UInt8} {p : List UInt8 × List UInt8}
    (h : splitHeader line = some p) : p.2.Sublist line := by
  induction line generalizing p with
  | nil => cases h
  | cons c cs ih =>
    rw [splitHeader] at h
    split at h
    · obtain rfl := Option.some.inj h
      exact (List.drop_sublist 1 cs).cons c
    · obtain ⟨q, hq, rfl⟩ := Option.map_eq_some_iff.mp h
      exact (ih hq).cons c

theorem head_new {request : List UInt8} {req : HttpRequest}
    (h : httpRequestNew request = some req) : req.Head := by
  obtain ⟨r, -, rfl⟩ := Option.map_eq_some_iff.mp h
  exact ⟨rfl, List.forall_mem_nil _⟩

theorem head_addHeader {req req' : HttpRequest} {text : List UInt8} (h : req.Head)
    (hadd : httpRequestAddHeader req (cString text) = some req') : req'.Head := by
  obtain ⟨p, hp, rfl⟩ := Option.map_eq_some_iff.mp hadd
  refine ⟨h.body, List.forall_mem_cons.mpr ⟨fun h0 => ?_, fun q hq => ?_⟩⟩
  · exact notMem_cString text ((sublist_splitHeader hp).subset h0)
  · exact h.noNul q (List.mem_of_mem_filter hq)

theorem head_reads {lines : List (List UInt8 × List UInt8)} {req req' : HttpRequest}
    {rest : List UInt8} (hreads : Reads lines req req' rest) (h : req.Head) : req'.Head := by
  induction hreads with
  | blank hline => exact h
  | header hline htext hadd hreads ih => exact ih (head_addHeader h hadd)

theorem head_received {urlPrefix method : Option (List UInt8)} {input rest : List UInt8}
    {req : HttpRequest} {json : Bool} (h : Received urlPrefix input req json method rest) :
    req.Head := by
  obtain ⟨first, behind, lines, text, start, -, -, hnew, -, hreads⟩ := h
  exact head_reads hreads (head_new hnew)

theorem noNul_getHeader {req : HttpRequest} (h : req.Head) {name value : List UInt8}
    (hvalue : httpRequestGetHeader req name = some value) : 0 ∉ value := by
  obtain ⟨p, hp, rfl⟩ := Option.map_eq_some_iff.mp hvalue
  exact h.noNul p (List.mem_of_find?_eq_some hp)

/-! ### The length of a body -/

/-- `var_conv_uint` keeps of a numeral of 64 bits the low 32. -/
theorem varConvUint_eq_true {value : List UInt8} (h : 0 ∉ value) {p clen : ℕ} :
    varConvUint value p = (true, clen) ↔
      ∃ v, UintText value v ∧ v < 2 ^ 64 ∧ v % 2 ^ 32 = clen := by
  rw [varConvUint_eq]
  cases hconv : strConvToUint64 value with
  | error e =>
    refine iff_of_false nofun ?_
    rintro ⟨v, htext, hlt, -⟩
    have hok := (strConvToUint64_eq_ok h).mpr ⟨v, htext, hlt, rfl⟩
    rw [hconv] at hok
    cases hok
  | ok v =>
    obtain ⟨n, htext, hlt, rfl⟩ := (strConvToUint64_eq_ok h).mp hconv
    have hval : ((n : Int) % 2 ^ 32).toNat = n % 2 ^ 32 := by omega
    simp only [hval, Prod.mk.injEq, true_and]
    refine ⟨fun heq => ⟨n, htext, hlt, heq⟩, ?_⟩
    rintro ⟨v, htext', -, heq⟩
    rwa [htext.2.symm.trans htext'.2]

theorem contentLength_unique {req : HttpRequest} {v v' : ℕ} (h : ContentLength req v)
    (h' : ContentLength req v') : v = v' := by
  obtain ⟨value, hvalue, htext, -⟩ := h
  obtain ⟨value', hvalue', htext', -⟩ := h'
  obtain rfl := Option.some.inj (hvalue.symm.trans hvalue')
  exact htext.2.symm.trans htext'.2

section

variable {σ : Type} {host : HttpHost σ} {req : HttpRequest}

theorem processHttpBody_error (hhead : req.Head) (hno : ∀ v, ¬ ContentLength req v)
    (rest : List UInt8) : ∃ tag, processHttpBody host req rest = (none, .error tag) := by
  rw [processHttpBody]
  split
  · exact ⟨_, rfl⟩
  · rename_i value hvalue
    split
    · exact ⟨_, rfl⟩
    · rename_i clen hconv
      obtain ⟨v, htext, hlt, -⟩ := (varConvUint_eq_true (noNul_getHeader hhead hvalue)).mp hconv
      exact absurd ⟨value, hvalue, htext, hlt⟩ (hno v)

theorem processHttpBody_length (hhead : req.Head) {v : ℕ} (hv : ContentLength req v)
    (rest : List UInt8) :
    processHttpBody host req rest =
      if v % 2 ^ 32 = 0 then (none, .ok req)
      else (some ⟨(v % 2 ^ 32 + 1) % 2 ^ 32, v % 2 ^ 32⟩,
        if v % 2 ^ 32 ≤ rest.length then .ok { req with body := some (rest.take (v % 2 ^ 32)) }
        else .error (bodyIncomplete host rest.length (v % 2 ^ 32))) := by
  obtain ⟨value, hvalue, htext, hlt⟩ := hv
  have hconv : varConvUint value 0 = (true, v % 2 ^ 32) :=
    (varConvUint_eq_true (noNul_getHeader hhead hvalue)).mpr ⟨v, htext, hlt, rfl⟩
  simp only [processHttpBody, hvalue, hconv]
  generalize v % 2 ^ 32 = clen
  by_cases h0 : clen = 0
  · rw [if_pos h0, if_pos h0]
  · rw [if_neg h0, if_neg h0, List.length_take]
    by_cases hle : clen ≤ rest.length
    · rw [if_pos hle, Nat.min_eq_left hle, if_neg (not_not.mpr rfl)]
    · have hlen := Nat.min_eq_right (Nat.le_of_not_le hle)
      rw [if_neg hle, hlen, if_pos fun heq => hle heq.ge]

/-! ### The root tag -/

theorem foldl_processTag_some (root : XmlTag) (tags : List XmlTag) :
    tags.foldl processTag (some root) = some root := by
  induction tags with
  | nil => rfl
  | cons tag tags ih => exact ih

theorem foldl_processTag_eq_none (tags : List XmlTag) :
    tags.foldl processTag none = none ↔ ∀ tag ∈ tags, tag.name ≠ literal "request" := by
  induction tags with
  | nil => exact iff_of_true rfl (List.forall_mem_nil _)
  | cons tag tags ih =>
    rw [List.foldl_cons, processTag, List.forall_mem_cons]
    by_cases hname : tag.name = literal "request"
    · rw [if_pos hname, foldl_processTag_some]
      exact iff_of_false (Option.some_ne_none tag) fun h => h.1 hname
    · rw [if_neg hname, ih]
      exact (and_iff_right hname).symm

theorem processRequest_eq_none (call : FuncCall σ) (method : Option CStr) (rootTag : Option XmlTag)
    (s : σ) : processRequest call method rootTag s = none ↔ method = none ∧ rootTag = none := by
  cases method with
  | some method => exact iff_of_false nofun fun h => nomatch h.1
  | none =>
    cases rootTag with
    | none => exact iff_of_true rfl ⟨rfl, rfl⟩
    | some root => exact iff_of_false nofun fun h => nomatch h.2

variable [Glib]

theorem parseBody_eq_none (body : List UInt8) :
    parseBody host (some body) = .root none ↔ ¬ HoldsRequest host body := by
  rw [HoldsRequest, parseBody]
  cases hparse : xmlParserParse xmlParserNew (host.utf8 (cString body)) with
  | error e =>
    refine iff_of_false ?_ fun h => h nofun
    cases e
    · exact nofun
    · exact nofun
  | ok parser =>
    simp only [Except.ok.injEq, forall_eq']
    by_cases hwf : host.wellFormed (host.utf8 (cString body)) = true
    · rw [if_pos hwf, BodyRead.root.injEq, foldl_processTag_eq_none]
      simp [hwf]
    · rw [if_neg hwf]
      exact iff_of_false nofun fun h => h fun hwf' => absurd hwf' hwf

theorem processHttp_rootMissing (req : HttpRequest) (json : Bool) (method : Option (List UInt8))
    (s : σ) :
    (processHttp host req json method s).1 = .rootMissing ↔
      (processHttpAuth host req s).1 = true ∧ method = none ∧
        parseBody host req.body = .root none := by
  rw [processHttp]
  obtain ⟨auth, s'⟩ := processHttpAuth host req s
  cases auth with
  | false => exact iff_of_false nofun fun h => Bool.false_ne_true h.1
  | true =>
    simp only [true_and]
    cases parseBody host req.body with
    | invalid => exact iff_of_false nofun fun h => nomatch h.2
    | tagMissing => exact iff_of_false nofun fun h => nomatch h.2
    | root rootTag =>
      have hnone := processRequest_eq_none host.funcCall (method.map fun m => cstr (host.utf8 m))
        rootTag s'
      rw [Option.map_eq_none_iff] at hnone
      simp only [BodyRead.root.injEq]
      rw [← hnone]
      cases processRequest host.funcCall (method.map fun m => cstr (host.utf8 m)) rootTag s' with
      | none => exact iff_of_true rfl rfl
      | some r => exact iff_of_false nofun nofun

/-! ### The blank line -/

omit [Glib] in
theorem safe_none (ending : HttpEnd) (s : σ) :
    (⟨none, ending, s⟩ : HttpRun σ).Safe ↔ ending ≠ .rootMissing :=
  and_iff_left nofun

omit [Glib] in
/-- One byte more than a body of `clen` bytes, in 32 bits. -/
theorem safe_some {clen : ℕ} (hlt : clen < 2 ^ 32) (ending : HttpEnd) (s : σ) :
    (⟨some ⟨(clen + 1) % 2 ^ 32, clen⟩, ending, s⟩ : HttpRun σ).Safe ↔
      clen ≠ 2 ^ 32 - 1 ∧ ending ≠ .rootMissing := by
  have hsize : clen < (clen + 1) % 2 ^ 32 ↔ clen ≠ 2 ^ 32 - 1 := by omega
  rw [HttpRun.Safe, and_comm, ← hsize]
  simp only [Option.some.injEq, forall_eq']

/-- Without a body, a batch has no root tag. -/
theorem ending_empty (hbody : req.body = none) (json : Bool) (method : Option (List UInt8))
    (s : σ) :
    (processHttp host req json method s).1 ≠ .rootMissing ↔
      (method = none → ¬ (processHttpAuth host req s).1 = true) := by
  rw [ne_eq, processHttp_rootMissing, hbody, parseBody]
  exact ⟨fun h hm ha => h ⟨ha, hm, rfl⟩, fun h hmissing => h hmissing.2.1 hmissing.1⟩

theorem ending_body (body : List UInt8) (json : Bool) (method : Option (List UInt8)) (s : σ) :
    (processHttp host { req with body := some body } json method s).1 ≠ .rootMissing ↔
      (method = none → (processHttpAuth host req s).1 = true → HoldsRequest host body) := by
  have hauth : processHttpAuth host { req with body := some body } s = processHttpAuth host req s :=
    rfl
  rw [ne_eq, processHttp_rootMissing, hauth, parseBody_eq_none]
  constructor
  · intro h hm ha
    by_contra hno
    exact h ⟨ha, hm, hno⟩
  · rintro h ⟨ha, hm, hno⟩
    exact hno (h hm ha)

theorem safe_get (hmethod : req.method = .get) (hhead : req.Head) (json : Bool)
    (method : Option (List UInt8)) (rest : List UInt8) (s : σ) :
    (processReceived host req json method rest s).Safe ↔ Served host req method rest s := by
  have hpost : ¬ req.method = .post := by
    rw [hmethod]
    exact nofun
  rw [processReceived, hmethod]
  simp only
  rw [safe_none, ending_empty hhead.body]
  constructor
  · exact fun h => ⟨fun hm => absurd hm hpost, fun hm ha => absurd ha (h hm),
      fun hm ha => absurd ha (h hm)⟩
  · exact fun h hm ha => hpost (h.posted hm ha)

/-- A body is expected, but its length is not told. -/
theorem safe_post_error (hmethod : req.method = .post) (hhead : req.Head)
    (hno : ∀ v, ¬ ContentLength req v) (json : Bool) (method : Option (List UInt8))
    (rest : List UInt8) (s : σ) :
    (processReceived host req json method rest s).Safe ↔ Served host req method rest s := by
  obtain ⟨tag, htag⟩ : ∃ tag, processHttpBody host req rest = (none, .error tag) :=
    processHttpBody_error hhead hno rest
  rw [processReceived, hmethod]
  simp only [htag]
  rw [safe_none]
  exact iff_of_true nofun ⟨fun _ v hv => absurd hv (hno v), fun _ _ => hmethod,
    fun _ _ v hv => absurd hv (hno v)⟩

theorem safe_post (hmethod : req.method = .post) (hhead : req.Head) {v : ℕ}
    (hv : ContentLength req v) (json : Bool) (method : Option (List UInt8)) (rest : List UInt8)
    (s : σ) :
    (processReceived host req json method rest s).Safe ↔ Served host req method rest s := by
  -- there is one length, so what is asked of each is asked of this one
  have hserved : Served host req method rest s ↔ v % 2 ^ 32 ≠ 2 ^ 32 - 1 ∧
      (method = none → (processHttpAuth host req s).1 = true → v % 2 ^ 32 ≠ 0 ∧
        (v % 2 ^ 32 ≤ rest.length → HoldsRequest host (rest.take (v % 2 ^ 32)))) := by
    constructor
    · exact fun h => ⟨h.length hmethod v hv, fun hm ha => h.batch hm ha v hv⟩
    · rintro ⟨hlength, hbatch⟩
      refine ⟨fun _ w hw => ?_, fun _ _ => hmethod, fun hm ha w hw => ?_⟩
      · rwa [contentLength_unique hw hv]
      · rw [contentLength_unique hw hv]
        exact hbatch hm ha
  have hlt : v % 2 ^ 32 < 2 ^ 32 := Nat.mod_lt _ (by decide)
  rw [hserved, processReceived, hmethod]
  simp only [processHttpBody_length hhead hv rest]
  generalize v % 2 ^ 32 = clen at hlt
  by_cases h0 : clen = 0
  · simp only [if_pos h0]
    rw [safe_none, ending_empty hhead.body]
    have hne : clen ≠ 2 ^ 32 - 1 := by omega
    exact ⟨fun h => ⟨hne, fun hm ha => absurd ha (h hm)⟩, fun h hm ha => (h.2 hm ha).1 h0⟩
  · simp only [if_neg h0]
    by_cases hle : clen ≤ rest.length
    · simp only [if_pos hle]
      rw [safe_some hlt, ending_body]
      exact and_congr_right fun _ =>
        ⟨fun h hm ha => ⟨h0, fun _ => h hm ha⟩, fun h hm ha => (h hm ha).2 hle⟩
    · simp only [if_neg hle]
      rw [safe_some hlt]
      exact and_congr_right fun _ =>
        iff_of_true nofun fun _ _ => ⟨h0, fun h => absurd h hle⟩

theorem safe_processReceived (hhead : req.Head) (json : Bool) (method : Option (List UInt8))
    (rest : List UInt8) (s : σ) :
    (processReceived host req json method rest s).Safe ↔ Served host req method rest s := by
  cases hmethod : req.method with
  | get => exact safe_get hmethod hhead json method rest s
  | post =>
    by_cases hlength : ∃ v, ContentLength req v
    · obtain ⟨v, hv⟩ := hlength
      exact safe_post hmethod hhead hv json method rest s
    · exact safe_post_error hmethod hhead (not_exists.mp hlength) json method rest s

/-! ### The loop -/

omit [Glib] in
theorem safe_sent (json : Bool) (tag : XmlTag) (s : σ) :
    (⟨none, .sent json tag, s⟩ : HttpRun σ).Safe :=
  (safe_none _ _).mpr nofun

omit [Glib] in
theorem safe_closed (s : σ) : (⟨none, .closed, s⟩ : HttpRun σ).Safe := (safe_none _ _).mpr nofun

/-- The first line gives a request, or a run ends that does no harm. -/
theorem firstLine_cases (host : HttpHost σ) (line rest : List UInt8) (s : σ) :
    (∃ text start json method, lineRead line = some text ∧
      httpRequestNew (cString text) = some start ∧
      parseUrl host.urlPrefix start.url = some (json, method)) ∨
      ∃ run, httpClientLine host none line rest s = .inl run ∧ run.Safe := by
  rw [httpClientLine]
  cases lineRead line with
  | none => exact Or.inr ⟨_, rfl, safe_closed s⟩
  | some text =>
    cases hnew : httpRequestNew (cString text) with
    | none =>
      right
      simp only [hnew]
      exact ⟨_, rfl, safe_sent _ _ s⟩
    | some start =>
      cases hurl : parseUrl host.urlPrefix start.url with
      | none =>
        right
        simp only [hnew, hurl]
        exact ⟨_, rfl, safe_sent _ _ s⟩
      | some r => exact Or.inl ⟨text, start, r.1, r.2, rfl, hnew, hurl⟩

/-- A line behind it is blank, adds a header, or ends a run that does no harm. -/
theorem nextLine_cases (host : HttpHost σ) (req : HttpRequest) (json : Bool)
    (method : Option (List UInt8)) (line rest : List UInt8) (s : σ) :
    lineRead line = some [] ∨
      (∃ text req', lineRead line = some text ∧ text ≠ [] ∧
        httpRequestAddHeader req (cString text) = some req') ∨
      ∃ run, httpClientLine host (some (req, json, method)) line rest s = .inl run ∧ run.Safe := by
  rw [httpClientLine]
  cases lineRead line with
  | none => exact Or.inr (Or.inr ⟨_, rfl, safe_closed s⟩)
  | some text =>
    by_cases htext : text = []
    · exact Or.inl (congrArg some htext)
    · cases hadd : httpRequestAddHeader req (cString text) with
      | none =>
        right
        right
        simp only [if_pos htext, hadd]
        exact ⟨_, rfl, safe_sent _ _ s⟩
      | some req' => exact Or.inr (Or.inl ⟨text, req', rfl, htext, hadd⟩)

theorem loop_header {line rest text : List UInt8} {req req' : HttpRequest}
    (hline : lineRead line = some text) (htext : text ≠ [])
    (hadd : httpRequestAddHeader req (cString text) = some req')
    (lines : List (List UInt8 × List UInt8)) (json : Bool) (method : Option (List UInt8)) (s : σ) :
    httpClientLoop host ((line, rest) :: lines) (some (req, json, method)) s =
      httpClientLoop host lines (some (req', json, method)) s := by
  simp only [httpClientLoop, httpClientLine, hline, if_pos htext, hadd]

theorem loop_first {line rest text : List UInt8} {start : HttpRequest} {json : Bool}
    {method : Option (List UInt8)} (hline : lineRead line = some text)
    (hnew : httpRequestNew (cString text) = some start)
    (hurl : parseUrl host.urlPrefix start.url = some (json, method))
    (lines : List (List UInt8 × List UInt8)) (s : σ) :
    httpClientLoop host ((line, rest) :: lines) none s =
      httpClientLoop host lines (some (start, json, method)) s := by
  simp only [httpClientLoop, httpClientLine, hline, hnew, hurl]

theorem loop_of_reads {lines : List (List UInt8 × List UInt8)} {req req' : HttpRequest}
    {rest : List UInt8} (hreads : Reads lines req req' rest) (json : Bool)
    (method : Option (List UInt8)) (s : σ) :
    httpClientLoop host lines (some (req, json, method)) s =
      processReceived host req' json method rest s := by
  induction hreads with
  | blank hline => simp [httpClientLoop, httpClientLine, hline]
  | header hline htext hadd hreads ih => rw [loop_header hline htext hadd, ih]

/-- Headers are read up to the blank line, or a run ends that does no harm. -/
theorem reads_or_safe (host : HttpHost σ) (lines : List (List UInt8 × List UInt8))
    (req : HttpRequest) (json : Bool) (method : Option (List UInt8)) (s : σ) :
    (∃ req' rest, Reads lines req req' rest) ∨
      (httpClientLoop host lines (some (req, json, method)) s).Safe := by
  induction lines generalizing req with
  | nil => exact Or.inr (safe_closed s)
  | cons l lines ih =>
    obtain ⟨line, behind⟩ := l
    rcases nextLine_cases host req json method line behind s with
      hline | ⟨text, req', hline, htext, hadd⟩ | ⟨run, hrun, hsafe⟩
    · exact Or.inl ⟨req, behind, .blank hline⟩
    · rw [loop_header hline htext hadd]
      rcases ih req' with ⟨req'', rest, hreads⟩ | hsafe
      · exact Or.inl ⟨req'', rest, .header hline htext hadd hreads⟩
      · exact Or.inr hsafe
    · right
      simp only [httpClientLoop, hrun]
      exact hsafe

theorem client_of_received {json : Bool} {method : Option (List UInt8)} {input rest : List UInt8}
    (h : Received host.urlPrefix input req json method rest) (s : σ) :
    mbbThreadHttpClient host input s = processReceived host req json method rest s := by
  obtain ⟨first, behind, lines, text, start, hinput, hfirst, hnew, hurl, hreads⟩ := h
  rw [mbbThreadHttpClient, hinput, loop_first hfirst hnew hurl]
  exact loop_of_reads hreads json method s

theorem received_or_safe (host : HttpHost σ) (input : List UInt8) (s : σ) :
    (∃ req json method rest, Received host.urlPrefix input req json method rest) ∨
      (mbbThreadHttpClient host input s).Safe := by
  rw [mbbThreadHttpClient]
  cases hinput : readLines input with
  | nil => exact Or.inr (safe_closed s)
  | cons l lines =>
    obtain ⟨first, behind⟩ := l
    rcases firstLine_cases host first behind s with
      ⟨text, start, json, method, hfirst, hnew, hurl⟩ | ⟨run, hrun, hsafe⟩
    · rw [loop_first hfirst hnew hurl]
      rcases reads_or_safe host lines start json method s with ⟨req, rest, hreads⟩ | hsafe
      · exact Or.inl ⟨req, json, method, rest, first, behind, lines, text, start, hinput, hfirst,
          hnew, hurl, hreads⟩
      · exact Or.inr hsafe
    · right
      simp only [httpClientLoop, hrun]
      exact hsafe

/-- **Requests that do no harm.** For all bytes on a connection and every host: no missing root tag
is used and the buffer for a body is large enough, if and only if the request, when its head is
received, is one that `Served` describes. -/
theorem http_client_safe (host : HttpHost σ) (input : List UInt8) (s : σ) :
    (mbbThreadHttpClient host input s).Safe ↔ ∀ req json method rest,
      Received host.urlPrefix input req json method rest → Served host req method rest s := by
  constructor
  · intro hsafe req json method rest hreceived
    rw [client_of_received hreceived] at hsafe
    exact (safe_processReceived (head_received hreceived) json method rest s).mp hsafe
  · intro h
    rcases received_or_safe host input s with ⟨req, json, method, rest, hreceived⟩ | hsafe
    · rw [client_of_received hreceived]
      exact (safe_processReceived (head_received hreceived) json method rest s).mpr
        (h req json method rest hreceived)
    · exact hsafe

end

/-- One user, whose key is `key`. -/
def exampleHost : HttpHost ℕ where
  urlPrefix := none
  authMethod := none
  base64Decode str := if str = asciiBytes "a2V5" then asciiBytes "key" else []
  sessionAuth login _ _ n := (decide (login = asciiBytes "key"), n)
  funcCall := exampleCall
  utf8 bytes := bytes.map fun c => Char.ofNat c.toNat
  wellFormed _ := true

/-- A batch that is not posted, and a body of `2 ^ 32 - 1` bytes. -/
theorem not_safe_batch_length :
    letI := Glib.plain
    ¬ (mbbThreadHttpClient exampleHost
      (asciiBytes "GET / HTTP/1.0\r\nMBB-Auth-Key: a2V5\r\n\r\n") 0).Safe ∧
    ¬ (mbbThreadHttpClient exampleHost
      (asciiBytes "POST /show HTTP/1.0\r\nMBB-Auth-Key: a2V5\r\nContent-Length: 4294967295\r\n\r\n")
        0).Safe := by
  let _ := Glib.plain
  constructor
  · intro h
    exact h.1 rfl
  · intro h
    exact absurd (h.2 ⟨0, 4294967295⟩ rfl) (by decide)

end Mbb
