import CIM.Http.HttpReceive

/-!
# Responses from a connection

The same generated parser takes the head of a response and the size line of every chunk. For a
size line `execute` starts it anew on each call.
-/
namespace CIM.http

open Scanner

namespace client

/-- The actions of `httpclient_parser.rl`. -/
inductive Action
  | mark
  | start_field
  | write_field
  | start_value
  | write_content_len
  | write_connection_close
  | write_value
  | reason_phrase
  | status_code
  | http_version
  | chunk_size
  | trans_chunked
  | done
  deriving DecidableEq

end client

structure HttpResponse where
  m_status : Int
  m_version : UInt8
  m_reason : Bytes
  m_headers : MapType
  m_body : Bytes
  deriving DecidableEq

def HttpResponse.new : HttpResponse := ⟨200, 0x11, [], [], []⟩

/-- The digit for `strtol`; 36 and more is none. -/
def digit (c : UInt8) : Nat :=
  if 48 ≤ c ∧ c ≤ 57 then c.toNat - 48
  else if 97 ≤ toLower c ∧ toLower c ≤ 122 then (toLower c).toNat - 87
  else 36

/-- `strtol` on a number without sign or white space, as every token is that is handed to it. -/
def strtol (base : Nat) (s : Bytes) : Int :=
  let n := (s.takeWhile fun c => digit c < base).foldl (fun n c => base * n + digit c) 0
  min n 9223372036854775807

/-- `httpclient_parser` without `cs` and what is not read, `m_error` and the response. -/
structure HttpResponseParser where
  mark : Nat
  field_start : Nat
  field_len : Nat
  content_len : Int
  chunked : Bool
  chunks_done : Bool
  m_error : Nat
  m_data : HttpResponse
  deriving DecidableEq

namespace HttpResponseParser

def create : HttpResponseParser := ⟨0, 0, 0, -1, false, false, 0, .new⟩

/-- `httpclient_parser_init`, which leaves `m_error` and the response. -/
def init (s : HttpResponseParser) : HttpResponseParser :=
  { s with
    mark := 0, field_start := 0, field_len := 0
    content_len := -1, chunked := false, chunks_done := false }

def on_response_version (s : HttpResponseParser) (token : Bytes) : HttpResponseParser :=
  match httpVersion token with
  | none => { s with m_error := 1001 }
  | some v => { s with m_data := { s.m_data with m_version := v } }

def on_response_http_field (s : HttpResponseParser) (field value : Bytes) : HttpResponseParser :=
  if field.length = 0 then s
  else { s with m_data := { s.m_data with m_headers := s.m_data.m_headers.set field value } }

/-- An action at the byte `p`. A number ends in front of `p`, where `strtol` and `atoi` stop. -/
def act (buf : Bytes) (p : Nat) (s : HttpResponseParser) :
    client.Action → Option HttpResponseParser
  | .mark => some { s with mark := p }
  | .start_value => some { s with mark := p }
  | .start_field => some { s with field_start := p }
  | .write_field => some { s with field_len := p - s.field_start }
  | .write_value =>
      some (s.on_response_http_field (slice buf s.field_start s.field_len)
        (slice buf s.mark (p - s.mark)))
  | .write_content_len =>
      some { s with content_len := int32 (strtol 10 (slice buf s.mark (p - s.mark))) }
  | .write_connection_close => some s
  | .reason_phrase =>
      some { s with m_data := { s.m_data with m_reason := slice buf s.mark (p - s.mark) } }
  | .status_code =>
      some { s with m_data := { s.m_data with
        m_status := int32 (strtol 10 (slice buf s.mark (p - s.mark))) } }
  | .http_version => some (s.on_response_version (slice buf s.mark (p - s.mark)))
  | .chunk_size =>
      let content_len := int32 (strtol 16 (slice buf s.mark (p - s.mark)))
      some { s with chunked := true, content_len := content_len, chunks_done := content_len ≤ 0 }
  | .trans_chunked => some { s with chunked := true }
  | .done => some s

end HttpResponseParser

/-- `HttpResponseParser` over the generated machine. -/
def responseParser (m : Machine client.Action .done) :
    Parser client.Action .done HttpResponseParser where
  toMachine := m
  act := HttpResponseParser.act
  reset s := { s with mark := 0, field_len := 0, field_start := 0 }
  failed s := s.m_error ≠ 0
  is_finished cs := cs == m.first_final
  final_of_finished _ h := Nat.le_of_eq (beq_iff_eq.mp h).symm

/-- `if (!begin || len == 0)`: the buffer with what was read into it. -/
def fill (buff_size : Nat) (begin_ : Bool) (data : Bytes) (conn : Stream) :
    Option Bytes × Stream :=
  if !begin_ || data.isEmpty then
    let (rt, bs, conn) := conn.read (buff_size - data.length)
    if rt ≤ 0 then (none, conn.close) else (some (data ++ bs), conn)
  else (some data, conn)

/-- `while (left > 0)`: the rest of a chunk with its line end. -/
def readRest (buff_size : Nat) : Nat → Int → Bytes → Stream → Option Bytes × Stream
  | 0, _, _, conn => (none, conn)
  | turns+1, left, body, conn =>
      if 0 < left then
        let (rt, bs, conn) :=
          conn.read (if int32 buff_size < left then int32 buff_size else left).toNat
        if rt ≤ 0 then (none, conn.close) else readRest buff_size turns (left - rt) (body ++ bs) conn
      else (some body, conn)

/-- What is done to a body that is not empty; `gunzip` and `inflate` stand for zlib. -/
def decode (gunzip inflate : Bytes → Bytes) (s : HttpResponseParser) (body : Bytes) :
    HttpResponse :=
  let content_encoding := (s.m_data.m_headers.get (chars "content-encoding")).getD []
  if body.isEmpty then s.m_data
  else if sameKey content_encoding (chars "gzip") then { s.m_data with m_body := gunzip body }
  else if sameKey content_encoding (chars "deflate") then { s.m_data with m_body := inflate body }
  else { s.m_data with m_body := body }

end CIM.http
