import CIM.Http.HttpConnection
import CIM.Lib.Ragel

/-!
# URIs

The grammar of `uri.rl` with its actions, and `Uri::Create`. Actions share one mark.
-/
namespace CIM

open Ragel

namespace uri_machine

open http (Bytes chars)

def lit (c : Char) : Rx := .chr (UInt8.ofNat c.toNat)

def oneOf (s : String) (c : UInt8) : Bool := (chars s).contains c

def between (a b : Char) (c : UInt8) : Bool := a.toNat ≤ c.toNat && c.toNat ≤ b.toNat

def alpha (c : UInt8) : Bool := between 'a' 'z' c || between 'A' 'Z' c

def digit (c : UInt8) : Bool := between '0' '9' c

def xdigit (c : UInt8) : Bool := digit c || between 'a' 'f' c || between 'A' 'F' c

def sub_delims : Rx := .sym (oneOf "!$&'()*+,;=")

def unreserved : Rx := .sym fun c => alpha c || digit c || oneOf "-._~" c

def pct_encoded : Rx := .seq (lit '%') (.seq (.sym xdigit) (.sym xdigit))

def scheme : Rx := .seq (.sym alpha) (.star (.sym fun c => alpha c || digit c || oneOf "+-." c))

def userinfo : Rx := .star (.alt unreserved (.alt pct_encoded (.alt sub_delims (lit ':'))))

/-- The `2` that stands without quotes is the byte 2. -/
def dec_octet : Rx :=
  .alt (.sym digit) <| .alt (.seq (.sym (between '1' '9')) (.sym digit)) <|
    .alt (.seq (lit '1') (.times (.sym digit) 2)) <|
    .alt (.seq (.chr 2) (.seq (.sym (between '0' '4')) (.sym digit))) <|
    .seq (lit '2') (.seq (lit '5') (.sym (between '0' '5')))

def IPv4address : Rx :=
  .seq dec_octet <| .seq (lit '.') <| .seq dec_octet <| .seq (lit '.') <| .seq dec_octet <|
    .seq (lit '.') dec_octet

/-- `xdigit{1,4}` -/
def h16 : Rx := .seq (.sym xdigit) (.times (.opt (.sym xdigit)) 3)

def ls32 : Rx := .alt (.seq h16 (.seq (lit ':') h16)) IPv4address

/-- `(h16 ":"){n}` -/
def groups (n : Nat) : Rx := .times (.seq h16 (lit ':')) n

/-- `((h16 ":"){n} h16)? "::"` -/
def zeros (n : Nat) : Rx := .seq (.opt (.seq (groups n) h16)) (.seq (lit ':') (lit ':'))

def IPv6address : Rx :=
  .alt (.seq (groups 6) ls32) <|
    .alt (.seq (.seq (lit ':') (lit ':')) (.seq (groups 5) ls32)) <|
    .alt (.seq (zeros 0) (.seq (groups 4) ls32)) <|
    .alt (.seq (zeros 1) (.seq (groups 3) ls32)) <|
    .alt (.seq (zeros 2) (.seq (groups 2) ls32)) <|
    .alt (.seq (zeros 3) (.seq (groups 1) ls32)) <|
    .alt (.seq (zeros 4) ls32) <|
    .alt (.seq (zeros 5) h16) <|
    zeros 6

def IPvFuture : Rx :=
  .seq (lit 'v') <| .seq (.plus (.sym xdigit)) <| .seq (lit '.') <|
    .plus (.alt unreserved (.alt sub_delims (lit ':')))

def IP_literal : Rx := .seq (.seq (lit '[') (.alt IPv6address IPvFuture)) (lit ']')

def reg_name : Rx := .star (.alt unreserved (.alt pct_encoded sub_delims))

def host : Rx := .alt IP_literal (.alt IPv4address reg_name)

def port : Rx := .star (.sym digit)

/-- `(userinfo %save_userinfo "@")?` -/
def userinfoPart (n : Nat) : Rx := .seq (.leave n userinfo) (lit '@')

/-- `(":" port >markh %save_port)?` -/
def portPart (n : Nat) : Rx := .seq (lit ':') (.part n (n + 1) port)

/-- `n` is the first of the six actions. -/
def authority (n : Nat) : Rx :=
  .enter n <| .seq (.opt (userinfoPart (n + 1))) <|
    .seq (.part (n + 2) (n + 3) host) (.opt (portPart (n + 4)))

def pchar_nc : Rx :=
  .alt (.sym fun c => 128 ≤ c) (.alt unreserved (.alt pct_encoded (.alt sub_delims (lit '@'))))

def pchar : Rx := .alt pchar_nc (lit ':')

def segment : Rx := .star pchar

def segment_nz : Rx := .plus pchar

/-- `(pchar - ":")+` -/
def segment_nz_nc : Rx := .plus pchar_nc

def slashSegment : Rx := .seq (lit '/') segment

def path_abempty : Rx := .seq (.opt slashSegment) (.star slashSegment)

def path_absolute : Rx := .seq (lit '/') (.opt (.seq segment_nz (.star slashSegment)))

def path_noscheme : Rx := .seq segment_nz_nc (.star slashSegment)

def path_rootless : Rx := .seq segment_nz (.star slashSegment)

def path_empty : Rx := .eps

/-- `query` and `fragment` but for their actions. -/
def query : Rx := .star (.alt pchar (.alt (lit '/') (lit '?')))

/-- `("?" query)? ("#" fragment)?` with its four actions. -/
def tail (n : Nat) : Rx :=
  .seq (.opt (.seq (lit '?') (.part n (n + 1) query)))
    (.opt (.seq (lit '#') (.part (n + 2) (n + 3) query)))

def hier_part : Rx :=
  .alt (.seq (lit '/') (.seq (lit '/') (.seq (authority 2) (.part 8 9 path_abempty))))
    (.alt path_absolute (.alt path_rootless path_empty))

def relative_part : Rx :=
  .alt (.seq (lit '/') (.seq (lit '/') (.seq (authority 14) path_abempty)))
    (.alt path_absolute (.alt path_noscheme path_empty))

def relative_ref : Rx := .seq relative_part (tail 20)

def URI : Rx := .seq (.part 0 1 scheme) (.seq (lit ':') (.seq hier_part (tail 10)))

def main : Rx := .alt URI relative_ref

inductive Action
  | marku
  | markh
  | save_scheme
  | save_userinfo
  | save_host
  | save_port
  | save_path
  | save_query
  | save_fragment
  deriving DecidableEq

/-- The embeddings in the order in which they stand in `main`. -/
def embeddings : List Action :=
  [.marku, .save_scheme, .markh, .save_userinfo, .markh, .save_host, .markh, .save_port, .markh,
    .save_path, .marku, .save_query, .marku, .save_fragment, .markh, .save_userinfo, .markh,
    .save_host, .markh, .save_port, .marku, .save_query, .marku, .save_fragment]

end uri_machine

open http (Bytes)

structure Uri where
  m_scheme : Bytes
  m_userinfo : Bytes
  m_host : Bytes
  m_path : Bytes
  m_query : Bytes
  m_fragment : Bytes
  m_port : Int
  deriving DecidableEq

namespace Uri

def new : Uri := ⟨[], [], [], [], [], [], 0⟩

def setScheme (v : Bytes) (uri : Uri) : Uri := { uri with m_scheme := v }
def setUserinfo (v : Bytes) (uri : Uri) : Uri := { uri with m_userinfo := v }
def setHost (v : Bytes) (uri : Uri) : Uri := { uri with m_host := v }
def setPath (v : Bytes) (uri : Uri) : Uri := { uri with m_path := v }
def setQuery (v : Bytes) (uri : Uri) : Uri := { uri with m_query := v }
def setPort (v : Int) (uri : Uri) : Uri := { uri with m_port := v }

/-- `atoi` on a text that begins with a digit. -/
def atoi (s : Bytes) : Int := int32 (http.strtol 10 s)

structure Parse where
  mark : Option Nat
  uri : Uri
  deriving DecidableEq

/-- `if (mark && fpc > mark)`, and `mark = NULL` in any case. -/
def Parse.save (uristr : Bytes) (fpc : Nat) (set : Bytes → Uri → Uri) (s : Parse) : Parse :=
  match s.mark with
  | none => s
  | some m =>
      { mark := none
        uri := if m < fpc then set (Scanner.slice uristr m (fpc - m)) s.uri else s.uri }

/-- `save_port`, which tests `fpc != mark`. -/
def Parse.savePort (uristr : Bytes) (fpc : Nat) (s : Parse) : Parse :=
  match s.mark with
  | none => s
  | some m =>
      { mark := none
        uri := if fpc ≠ m then setPort (atoi (uristr.drop m)) s.uri else s.uri }

open uri_machine in
def perform (uristr : Bytes) (fpc : Nat) : Action → Parse → Parse
  | .marku, s => { s with mark := some fpc }
  | .markh, s => { s with mark := some fpc }
  | .save_scheme, s => s.save uristr fpc setScheme
  | .save_userinfo, s => s.save uristr fpc setUserinfo
  | .save_host, s => s.save uristr fpc setHost
  | .save_port, s => s.savePort uristr fpc
  | .save_path, s => s.save uristr fpc setPath
  | .save_query, s => s.save uristr fpc setQuery
  -- `setFragment` is called nowhere
  | .save_fragment, s => s.save uristr fpc setQuery

/-- The `n`th embedding. -/
def act (uristr : Bytes) (fpc n : Nat) (s : Parse) : Parse :=
  match uri_machine.embeddings[n]? with
  | none => s
  | some a => perform uristr fpc a s

/-- `Uri::Create`; none is the null pointer. -/
def Create (uristr : Bytes) : Option Uri :=
  (exec (act uristr) uri_machine.embeddings.length [uri_machine.main] 0 uristr ⟨none, new⟩).map
    Parse.uri

end Uri

end CIM
