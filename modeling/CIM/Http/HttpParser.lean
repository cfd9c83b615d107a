import CIM.Http.HttpReceive

/-!
# Requests from a connection

The actions of the generated parser keep offsets into the buffer of the current read and hand
tokens of it to callbacks, which store them in the request.
-/
namespace CIM.http

open Scanner

/-- The actions of `http11_parser.rl`. -/
inductive Action
  | mark
  | start_field
  | write_field
  | start_value
  | write_value
  | request_method
  | request_uri
  | fragment
  | start_query
  | query_string
  | http_version
  | request_path
  | done
  | xml
  | json
  deriving DecidableEq

inductive HttpMethod
  | DELETE | GET | HEAD | POST | PUT | CONNECT | OPTIONS | TRACE | COPY | LOCK | MKCOL | MOVE
  | PROPFIND | PROPPATCH | SEARCH | UNLOCK | BIND | REBIND | UNBIND | ACL | REPORT | MKACTIVITY
  | CHECKOUT | MERGE | MSEARCH | NOTIFY | SUBSCRIBE | UNSUBSCRIBE | PATCH | PURGE | MKCALENDAR
  | LINK | UNLINK | SOURCE
  deriving DecidableEq

/-- `HTTP_METHOD_MAP`, in its order. -/
def HTTP_METHOD_MAP : List (HttpMethod × String) :=
  [(.DELETE, "DELETE"), (.GET, "GET"), (.HEAD, "HEAD"), (.POST, "POST"), (.PUT, "PUT"),
    (.CONNECT, "CONNECT"), (.OPTIONS, "OPTIONS"), (.TRACE, "TRACE"), (.COPY, "COPY"),
    (.LOCK, "LOCK"), (.MKCOL, "MKCOL"), (.MOVE, "MOVE"), (.PROPFIND, "PROPFIND"),
    (.PROPPATCH, "PROPPATCH"), (.SEARCH, "SEARCH"), (.UNLOCK, "UNLOCK"), (.BIND, "BIND"),
    (.REBIND, "REBIND"), (.UNBIND, "UNBIND"), (.ACL, "ACL"), (.REPORT, "REPORT"),
    (.MKACTIVITY, "MKACTIVITY"), (.CHECKOUT, "CHECKOUT"), (.MERGE, "MERGE"),
    (.MSEARCH, "M - SEARCH"), (.NOTIFY, "NOTIFY"), (.SUBSCRIBE, "SUBSCRIBE"),
    (.UNSUBSCRIBE, "UNSUBSCRIBE"), (.PATCH, "PATCH"), (.PURGE, "PURGE"),
    (.MKCALENDAR, "MKCALENDAR"), (.LINK, "LINK"), (.UNLINK, "UNLINK"), (.SOURCE, "SOURCE")]

/-- The first method whose name the bytes begin with; none is `INVALID_METHOD`. -/
def CharsToHttpMethod (m : List UInt8) : Option HttpMethod :=
  (HTTP_METHOD_MAP.find? fun e => (chars e.2).isPrefixOf m).map Prod.fst

structure HttpRequest where
  m_method : HttpMethod
  m_version : UInt8
  m_path : Bytes
  m_query : Bytes
  m_fragment : Bytes
  m_headers : MapType
  m_body : Bytes
  deriving DecidableEq

def HttpRequest.new : HttpRequest := ⟨.GET, 0x11, chars "/", [], [], [], []⟩

def HttpRequest.setHeader (r : HttpRequest) (key val : Bytes) : HttpRequest :=
  { r with m_headers := r.m_headers.set key val }

/-- `http_parser` without `cs`, `m_error` and the request. The offsets are those into the current
buffer; `query_start` is not reset with the others. -/
structure HttpRequestParser where
  mark : Nat
  field_start : Nat
  field_len : Nat
  query_start : Nat
  m_error : Nat
  m_data : HttpRequest
  deriving DecidableEq

namespace HttpRequestParser

def create (query_start : Nat) : HttpRequestParser := ⟨0, 0, 0, query_start, 0, .new⟩

/-! ## Callbacks -/

def on_request_method (s : HttpRequestParser) (at_ : Bytes) : HttpRequestParser :=
  match CharsToHttpMethod at_ with
  | none => { s with m_error := 1000 }
  | some m => { s with m_data := { s.m_data with m_method := m } }

def on_request_version (s : HttpRequestParser) (token : Bytes) : HttpRequestParser :=
  match httpVersion token with
  | none => { s with m_error := 1001 }
  | some v => { s with m_data := { s.m_data with m_version := v } }

def on_request_http_field (s : HttpRequestParser) (field value : Bytes) : HttpRequestParser :=
  if field.length = 0 then s else { s with m_data := s.m_data.setHeader field value }

/-! ## Actions -/

/-- An action at the byte `p`; none where `std::string` throws because the length has wrapped.
`CharsToHttpMethod` reads as far as a name agrees, which is not behind the byte after the token
where a request can go on. -/
def act (buf : Bytes) (p : Nat) (s : HttpRequestParser) : Action → Option HttpRequestParser
  | .mark => some { s with mark := p }
  | .start_value => some { s with mark := p }
  | .start_field => some { s with field_start := p }
  | .write_field => some { s with field_len := p - s.field_start }
  | .write_value =>
      some (s.on_request_http_field (slice buf s.field_start s.field_len)
        (slice buf s.mark (p - s.mark)))
  | .request_method => some (s.on_request_method (slice buf s.mark (p + 1 - s.mark)))
  | .request_uri => some s
  | .fragment =>
      some { s with m_data := { s.m_data with m_fragment := slice buf s.mark (p - s.mark) } }
  | .start_query => some { s with query_start := p }
  | .query_string =>
      if p < s.query_start then none
      else some { s with m_data :=
        { s.m_data with m_query := slice buf s.query_start (p - s.query_start) } }
  | .http_version => some (s.on_request_version (slice buf s.mark (p - s.mark)))
  | .request_path =>
      some { s with m_data := { s.m_data with m_path := slice buf s.mark (p - s.mark) } }
  | .done => some s
  | .xml => some s
  | .json => some s

def getContentLength (lexical_cast : Bytes → Option UInt64) (s : HttpRequestParser) : UInt64 :=
  s.m_data.m_headers.contentLength lexical_cast

end HttpRequestParser

/-- `HttpRequestParser` over the generated machine. -/
def requestParser (m : Machine Action .done) : Parser Action .done HttpRequestParser where
  toMachine := m
  act := HttpRequestParser.act
  reset s := { s with mark := 0, field_len := 0, field_start := 0 }
  failed s := s.m_error ≠ 0
  is_finished cs := m.first_final ≤ cs
  final_of_finished _ := of_decide_eq_true

/-- What the memory of a new parser held where `http_parser_init` stores nothing. -/
structure Memory where
  query_start : Nat
  uri_relaxed : Bool

/-- The machine takes some more bytes in a request line where `uri_relaxed` is set. -/
def recvRequest (m : Bool → Machine Action .done) (lexical_cast : Bytes → Option UInt64)
    (buff_size : Nat) (memory : Memory) (conn : Stream) : Outcome HttpRequest × Stream :=
  let m := m memory.uri_relaxed
  match recvHead (requestParser m) buff_size (conn.input.length + 1) m.start
      (.create memory.query_start) [] conn with
  | (.value (some (_, s, data)), conn) =>
      let length := int64 (s.getContentLength lexical_cast).toNat
      if 0 < length then
        match recvBody length data conn with
        | (some body, conn) => (.value (some { s.m_data with m_body := body }), conn)
        | (none, conn) => (.value none, conn)
      else (.value (some s.m_data), conn)
  | (.value none, conn) => (.value none, conn)
  | (.thrown, conn) => (.thrown, conn)

end CIM.http
