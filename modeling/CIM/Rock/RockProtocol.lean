import CIM.Streams.ZlibStream

/-!
# The Rock protocol

Requests, responses and notifications with a body, and `RockMessageDecoder`, which frames them
with a header and compresses long ones. A message is serialised by its base class and then by
`RockBody`, and parsed in the same order.
-/
namespace CIM

open CIM.ByteArray Exec

structure Request where
  sn : UInt32
  cmd : UInt32
  deriving DecidableEq

structure Response where
  sn : UInt32
  cmd : UInt32
  result : UInt32
  resultStr : Str
  deriving DecidableEq

structure Notify where
  notify : UInt32
  deriving DecidableEq

structure RockBody where
  body : Str
  deriving DecidableEq

structure RockRequest extends Request, RockBody
  deriving DecidableEq

structure RockResponse extends Response, RockBody
  deriving DecidableEq

structure RockNotify extends Notify, RockBody
  deriving DecidableEq

inductive Message where
  | request (msg : RockRequest)
  | response (msg : RockResponse)
  | notify (msg : RockNotify)
  deriving DecidableEq

def Message.REQUEST : UInt8 := 1
def Message.RESPONSE : UInt8 := 2
def Message.NOTIFY : UInt8 := 3

namespace Message

end Message

namespace RockMessageDecoder

variable (env : RockEnv) (turns : Nat)

def rockMagic : List UInt8 := [0xab, 0xcd]

/-- A `RockMsgHeader` in memory: magic, version, flag and the length in network order. -/
def header (flag : UInt8) (length : Int) : List UInt8 :=
  rockMagic ++ [1, flag] ++ toNetwork 4 (uint32 length)

end RockMessageDecoder

end CIM
