import CIM.Http.HttpRequests
import CIM.Http.HttpText
import CIM.Http.ServletDispatch

/-!
# `HttpServer`

The loop that answers the requests of a connection. It goes on where the configuration keeps
connections alive and the flag of the request is not set. The constructor sets the flag, and
`HttpRequest::init`, which could read the header of the client, is empty.
-/
namespace CIM.http

open Scanner HttpRequestParser

/-- A request with its flag. -/
structure ServerRequest extends HttpRequest where
  m_close : Bool

/-- The parser makes the request with the default of the constructor. -/
def ServerRequest.received (r : HttpRequest) : ServerRequest := ⟨r, true⟩

/-- The response that `handleClient` makes, with the name of the server in it. -/
def SentResponse.served (version : UInt8) (close : Bool) (name : Bytes) : SentResponse where
  m_status := 200
  m_version := version
  m_reason := []
  m_headers := [(chars "Server", name)]
  m_body := []
  m_close := close
  m_websocket := false
  m_cookies := []
  sorted := List.pairwise_singleton _ _

/-- `handle` may change the request and the response; `σ` is what the program has besides. The
session that it is given is used by no servlet. -/
abbrev Servlet (σ : Type) : Type :=
  ServerRequest → SentResponse → σ → ServerRequest × SentResponse × σ

variable {σ : Type}

/-- `text` makes a string of the bytes of the path. -/
def ServletDispatch.handle (fnmatch : String → String → Bool) (text : Bytes → String)
    (d : ServletDispatch (Servlet σ)) : Servlet σ :=
  fun request => d.getMatchedServlet fnmatch (text request.m_path) request

/-- `HttpSession::sendResponse` -/
def sendResponse (rsp : SentResponse) (conn : Stream) : Int × Stream :=
  match (Stream.writeFixSize rsp.dump : EStateM Unit Stream Int) conn with
  | .ok rt conn => (rt, conn)
  | .error _ conn => (-1, conn)

structure HttpServer (σ : Type) where
  m_isKeepalive : Bool
  m_name : Bytes
  m_dispatch : Servlet σ

namespace HttpServer

def answer (s : HttpServer σ) (r : HttpRequest) (w : σ) : ServerRequest × SentResponse × σ :=
  let req := ServerRequest.received r
  s.m_dispatch req (.served req.m_version (req.m_close || !s.m_isKeepalive) s.m_name) w

/-- What a turn does once it has the request, and whether another one follows. The result of the
sending is dropped. -/
def turn (s : HttpServer σ) (r : HttpRequest) (conn : Stream) (w : σ) : Bool × Stream × σ :=
  let (req, rsp, w) := s.answer r w
  (!(!s.m_isKeepalive || req.m_close), (sendResponse rsp conn).2, w)

variable (m : Bool → Machine Action .done) (lexical_cast : Bytes → Option UInt64)
  (buff_size : Nat) (memory : Nat → Memory)

/-- The responses to requests in a row, to the last one that is answered. -/
def answered (s : HttpServer σ) : List HttpRequest → σ → List SentResponse × σ
  | [], w => ([], w)
  | r :: rs, w =>
      let (req, rsp, w) := s.answer r w
      if !s.m_isKeepalive || req.m_close then ([rsp], w)
      else
        let (rsps, w) := answered s rs w
        (rsp :: rsps, w)

/-- The turn of the next call, if that returns `r`. -/
def turnAt (s : HttpServer σ) (r : Request) (k : Nat) (conn : Stream) (w : σ) : Bool × Stream × σ :=
  s.turn r.value (recvRequest m lexical_cast buff_size (memory k) conn).2 w

/-- The client sends a request when it has the answer to the one before: no read takes bytes of the
next request. -/
def ReadsApart (s : HttpServer σ) : List Request → Nat → Stream → σ → Prop
  | [], _, _, _ => True
  | r :: rs, k, conn, w =>
      Separate m buff_size r (memory k) conn ∧
        ((turnAt m lexical_cast buff_size memory s r k conn w).1 = true →
          ReadsApart s rs (k + 1) (turnAt m lexical_cast buff_size memory s r k conn w).2.1
            (turnAt m lexical_cast buff_size memory s r k conn w).2.2)

instance decidableReadsApart (s : HttpServer σ) : ∀ rs k conn w,
    Decidable (ReadsApart m lexical_cast buff_size memory s rs k conn w)
  | [], _, _, _ => .isTrue trivial
  | r :: rs, k, conn, w =>
      have := decidableReadsApart s rs (k + 1)
        (turnAt m lexical_cast buff_size memory s r k conn w).2.1
        (turnAt m lexical_cast buff_size memory s r k conn w).2.2
      inferInstanceAs (Decidable (Separate m buff_size r (memory k) conn ∧
        ((turnAt m lexical_cast buff_size memory s r k conn w).1 = true →
          ReadsApart m lexical_cast buff_size memory s rs (k + 1)
            (turnAt m lexical_cast buff_size memory s r k conn w).2.1
            (turnAt m lexical_cast buff_size memory s r k conn w).2.2)))

end HttpServer

/-! ## Reading leaves the output alone -/

variable {mr : Bool → Machine Action .done} {lexical_cast : Bytes → Option UInt64}
  {buff_size : Nat}

namespace HttpServer

variable {memory : Nat → Memory} {s : HttpServer σ} {rs : List Request} {conn : Stream} {w : σ}

/-- A run of the loop over the requests: the responses are put out in the order of the requests,
what is behind the last request that is answered stays unread, and the connection is closed. -/
structure Serves (s : HttpServer σ) (rs : List Request) (conn : Stream) (w : σ)
    (out : Stream × σ) : Prop where
  output : out.1.output =
    conn.output ++ (s.answered (rs.map Request.value) w).1.flatMap SentResponse.dump
  input : out.1.input = wire (rs.drop (s.answered (rs.map Request.value) w).1.length)
  closed : out.1.connected = false
  behind : out.2 = (s.answered (rs.map Request.value) w).2

section

variable {r : HttpRequest} {req : ServerRequest} {rsp : SentResponse} {w' : σ}

end

/-- One that clears the flag. -/
def keep : Servlet Nat := fun request response n =>
  ({ request with m_close := false }, { response with m_body := request.m_body }, n + 1)

end HttpServer

end CIM.http
