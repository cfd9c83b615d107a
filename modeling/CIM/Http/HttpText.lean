import CIM.Http.HttpConnection
import CIM.Http.HttpParser

/-!
# Texts of messages

The names of methods, and what `dump` writes of a request and of a response.
-/
namespace CIM.http

/-! ## Methods -/

/-- The token is accepted exactly where it is the name of a method, which is then the request's. -/
structure Recognises (s : HttpRequestParser) (token rest : Bytes) : Prop where
  accepted : (s.on_request_method (token ++ rest)).m_error = 0 ↔
    ∃ e ∈ HTTP_METHOD_MAP, token = chars e.2
  method : ∀ e ∈ HTTP_METHOD_MAP, token = chars e.2 →
    (s.on_request_method (token ++ rest)).m_data.m_method = e.1

/-- No name is the front of another one. -/
theorem names_prefixFree :
    ∀ e ∈ HTTP_METHOD_MAP, ∀ e' ∈ HTTP_METHOD_MAP, chars e.2 <+: chars e'.2 → e = e' := by
  decide

/-- The order of the table does not matter. -/
theorem CharsToHttpMethod_eq_some {m : Bytes} {k : HttpMethod} :
    CharsToHttpMethod m = some k ↔ ∃ e ∈ HTTP_METHOD_MAP, e.1 = k ∧ chars e.2 <+: m := by
  simp only [CharsToHttpMethod, Option.map_eq_some_iff]
  constructor
  · rintro ⟨e, hfind, rfl⟩
    have hpre := List.find?_some hfind
    exact ⟨e, List.mem_of_find?_eq_some hfind, rfl, List.isPrefixOf_iff_prefix.mp hpre⟩
  · rintro ⟨e, he, rfl, hpre⟩
    have hsome : (HTTP_METHOD_MAP.find? fun e => (chars e.2).isPrefixOf m).isSome :=
      List.find?_isSome.mpr ⟨e, he, List.isPrefixOf_iff_prefix.mpr hpre⟩
    obtain ⟨e', hfind⟩ := Option.isSome_iff_exists.mp hsome
    have he' := List.mem_of_find?_eq_some hfind
    have hpre' := List.find?_some hfind
    rw [List.isPrefixOf_iff_prefix] at hpre'
    have heq : e' = e := by
      rcases List.prefix_or_prefix_of_prefix hpre' hpre with h | h
      · exact names_prefixFree e' he' e he h
      · exact (names_prefixFree e he e' he' h).symm
    exact ⟨e', hfind, by rw [heq]⟩

theorem CharsToHttpMethod_eq_none {m : Bytes} :
    CharsToHttpMethod m = none ↔ ∀ e ∈ HTTP_METHOD_MAP, ¬ chars e.2 <+: m := by
  simp [CharsToHttpMethod]

/-- The length of the token is not looked at, so it is enough that a name is in front. -/
theorem recognises_iff {s : HttpRequestParser} (hs : s.m_error = 0) (token rest : Bytes) :
    Recognises s token rest ↔ (∃ e ∈ HTTP_METHOD_MAP, token = chars e.2) ∨
      ∀ e ∈ HTTP_METHOD_MAP, ¬ chars e.2 <+: token ++ rest := by
  have herr : (s.on_request_method (token ++ rest)).m_error = 0 ↔
      CharsToHttpMethod (token ++ rest) ≠ none := by
    unfold HttpRequestParser.on_request_method
    split
    · simp [*]
    · simp [*]
  constructor
  · intro h
    rcases hm : CharsToHttpMethod (token ++ rest) with _ | k
    · exact .inr (CharsToHttpMethod_eq_none.mp hm)
    · exact .inl (h.accepted.mp (herr.mpr (by simp [hm])))
  · intro h
    have hmethod : ∀ e ∈ HTTP_METHOD_MAP, token = chars e.2 →
        CharsToHttpMethod (token ++ rest) = some e.1 := fun e he ht =>
      CharsToHttpMethod_eq_some.mpr ⟨e, he, rfl, ht ▸ List.prefix_append _ _⟩
    refine ⟨?_, ?_⟩
    · rw [herr]
      constructor
      · intro hm
        exact h.resolve_right fun hnone => hm (CharsToHttpMethod_eq_none.mpr hnone)
      · rintro ⟨e, he, ht⟩
        simp [hmethod e he ht]
    · intro e he ht
      simp only [HttpRequestParser.on_request_method, hmethod e he ht]

/-- `GET` and a blank, and what is no method at all. -/
theorem recognises_get :
    Recognises (.create 0) (chars "GET") (chars " /") ∧ Recognises (.create 0) (chars "G") [] :=
  ⟨(recognises_iff rfl _ _).mpr (by decide),
    (recognises_iff rfl _ _).mpr (by decide)⟩

/-- `GETX` is accepted as `GET`. -/
theorem getx_is_get :
    ((HttpRequestParser.create 0).on_request_method (chars "GETX" ++ chars " /")).m_error = 0 ∧
      ¬ Recognises (.create 0) (chars "GETX") (chars " /") := by
  have herr :
      ((HttpRequestParser.create 0).on_request_method (chars "GETX" ++ chars " /")).m_error = 0 := by
    decide
  refine ⟨herr, ?_⟩
  intro h
  exact absurd (h.accepted.mp herr) (by decide)

/-- The table's name of this method has blanks in it, which no token has. -/
theorem msearch_rejected (s : HttpRequestParser) (rest : Bytes) :
    (s.on_request_method (chars "M-SEARCH" ++ rest)).m_error = 1000 := by
  have hnone : CharsToHttpMethod (chars "M-SEARCH" ++ rest) = none := by
    rfl
  simp only [HttpRequestParser.on_request_method, hnone]

/-! ## Dumps -/

/-- A header line. -/
abbrev Field : Type := Bytes × Bytes

def crlf : Bytes := [13, 10]

def Field.text (f : Field) : Bytes := f.1 ++ chars ": " ++ f.2 ++ crlf

/-- A number in decimal. -/
def printed (n : Nat) : Bytes := (Nat.toDigits 10 n).map fun c => c.toNat.toUInt8

/-- `HTTP/` and the two halves of the version. -/
def versionText (v : UInt8) : Bytes :=
  chars "HTTP/" ++ printed (v >>> 4).toNat ++ chars "." ++ printed (v &&& 0x0F).toNat

/-- `CaseInsensitiveLess`; `strcasecmp` ends at the null byte. -/
def keyLess (a b : Bytes) : Bool :=
  (a.takeWhile (· ≠ 0)).map toLower < (b.takeWhile (· ≠ 0)).map toLower

/-- A request with what only `dump` reads; the map's order is that of its keys. -/
structure SentRequest extends HttpRequest where
  m_close : Bool
  m_websocket : Bool
  sorted : m_headers.Pairwise fun a b => keyLess a.1 b.1 = true

structure SentResponse extends HttpResponse where
  m_close : Bool
  m_websocket : Bool
  m_cookies : List Bytes
  sorted : m_headers.Pairwise fun a b => keyLess a.1 b.1 = true

/-- `HttpMethodToString` -/
def HttpMethodToString (m : HttpMethod) : Bytes :=
  ((HTTP_METHOD_MAP.find? (·.1 = m)).map fun e => chars e.2).getD (chars "<unknown>")

/-- `HTTP_STATUS_MAP` -/
def HTTP_STATUS_MAP : List (Int × String) :=
  [(100, "Continue"), (101, "Switching Protocols"), (102, "Processing"), (200, "OK"),
    (201, "Created"), (202, "Accepted"), (203, "Non - Authoritative Information"),
    (204, "No Content"), (205, "Reset Content"), (206, "Partial Content"),
    (207, "Multi - Status"), (208, "Already Reported"), (226, "IM Used"),
    (300, "Multiple Choices"), (301, "Moved Permanently"), (302, "Found"), (303, "See Other"),
    (304, "Not Modified"), (305, "Use Proxy"), (307, "Temporary Redirect"),
    (308, "Permanent Redirect"), (400, "Bad Request"), (401, "Unauthorized"),
    (402, "Payment Required"), (403, "Forbidden"), (404, "Not Found"),
    (405, "Method Not Allowed"), (406, "Not Acceptable"), (407, "Proxy Authentication Required"),
    (408, "Request Timeout"), (409, "Conflict"), (410, "Gone"), (411, "Length Required"),
    (412, "Precondition Failed"), (413, "Payload Too Large"), (414, "URI Too Long"),
    (415, "Unsupported Media Type"), (416, "Range Not Satisfiable"), (417, "Expectation Failed"),
    (421, "Misdirected Request"), (422, "Unprocessable Entity"), (423, "Locked"),
    (424, "Failed Dependency"), (426, "Upgrade Required"), (428, "Precondition Required"),
    (429, "Too Many Requests"), (431, "Request Header Fields Too Large"),
    (451, "Unavailable For Legal Reasons"), (500, "Internal Server Error"),
    (501, "Not Implemented"), (502, "Bad Gateway"), (503, "Service Unavailable"),
    (504, "Gateway Timeout"), (505, "HTTP Version Not Supported"),
    (506, "Variant Also Negotiates"), (507, "Insufficient Storage"), (508, "Loop Detected"),
    (510, "Not Extended"), (511, "Network Authentication Required")]

def HttpStatusToString (s : Int) : Bytes :=
  ((HTTP_STATUS_MAP.find? (·.1 = s)).map fun e => chars e.2).getD (chars "<unknown>")

def connectionField (close : Bool) : Field :=
  (chars "connection", if close then chars "close" else chars "keep-alive")

/-- The connection line that both write themselves. -/
def ownConnection (m_close m_websocket : Bool) : List Field :=
  if m_websocket then [] else [connectionField m_close]

/-- The loop over the map. -/
def ownHeaders (m_headers : MapType) (m_websocket : Bool) : List Field :=
  m_headers.filter fun i => !(!m_websocket && sameKey i.1 (chars "connection"))

def ownLength (m_body : Bytes) : List Field :=
  if m_body ≠ [] then [(chars "content-length", printed m_body.length)] else []

namespace SentRequest

def fields (r : SentRequest) : List Field :=
  ownConnection r.m_close r.m_websocket ++ ownHeaders r.m_headers r.m_websocket ++
    ownLength r.m_body

def dump (r : SentRequest) : Bytes :=
  HttpMethodToString r.m_method ++ chars " " ++ r.m_path ++
    (if r.m_query = [] then [] else chars "?") ++ r.m_query ++
    (if r.m_fragment = [] then [] else chars "#") ++ r.m_fragment ++
    chars " " ++ versionText r.m_version ++ crlf ++
    r.fields.flatMap Field.text ++ crlf ++ r.m_body

end SentRequest

namespace SentResponse

def fields (r : SentResponse) : List Field :=
  ownHeaders r.m_headers r.m_websocket ++
    r.m_cookies.map (fun i => (chars "Set-Cookie", i)) ++
    ownConnection r.m_close r.m_websocket ++ ownLength r.m_body

def dump (r : SentResponse) : Bytes :=
  versionText r.m_version ++ chars " " ++ printed (r.m_status % 4294967296).toNat ++ chars " " ++
    (if r.m_reason = [] then HttpStatusToString r.m_status else r.m_reason) ++ crlf ++
    r.fields.flatMap Field.text ++ crlf ++ r.m_body

end SentResponse

/-- One line is for the header that the other names, in any letter case. -/
def sameHeader (a b : Bytes) : Bool := a.map toLower == b.map toLower

/-- The lines that are written for a header. -/
def linesFor (fields : List Field) (name : Bytes) : List Field :=
  fields.filter fun f => sameHeader f.1 name

/-- The length is announced once and is that of the body, the connection is announced once, and
every other header of the map and every cookie has its line. -/
structure Framed (fields : List Field) (headers : MapType) (cookies : List Bytes)
    (close websocket : Bool) (body : Bytes) : Prop where
  single : (linesFor fields (chars "content-length")).length ≤ 1
  length : body ≠ [] → (chars "content-length", printed body.length) ∈ fields
  connection : websocket = false →
    linesFor fields (chars "connection") = [connectionField close]
  others : ∀ e ∈ headers, sameHeader e.1 (chars "content-length") = false →
    sameHeader e.1 (chars "set-cookie") = false →
    (websocket = false → sameKey e.1 (chars "connection") = false) → linesFor fields e.1 = [e]
  cookies : (linesFor fields (chars "set-cookie")).Perm
    (linesFor headers (chars "set-cookie") ++ cookies.map fun i => (chars "Set-Cookie", i))

section

variable {fields headers : List Field} {cookies : List Bytes} {close websocket : Bool}
  {body n : Bytes}

end

def SentRequest.Framed (r : SentRequest) : Prop :=
  http.Framed r.fields r.m_headers [] r.m_close r.m_websocket r.m_body

def SentResponse.Framed (r : SentResponse) : Prop :=
  http.Framed r.fields r.m_headers r.m_cookies r.m_close r.m_websocket r.m_body

end CIM.http
