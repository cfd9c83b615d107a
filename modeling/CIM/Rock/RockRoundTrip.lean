import CIM.Rock.RockProtocol

/-!
# Rock messages come back as they were sent

What a message serialises to, how `pack` sends it on, and what `parseFrom` makes of the bytes. A
body below the limit that is as long as an `int` can say comes back whole; any other is refused.
-/
namespace CIM

open CIM.ByteArray CIM.Stream Exec

namespace Message

def type : Message → UInt8
  | .request _ => REQUEST
  | .response _ => RESPONSE
  | .notify _ => NOTIFY

/-- The bytes behind the type. -/
def fields : Message → List UInt8
  | .request msg => vint 5 msg.sn.toNat ++ vint 5 msg.cmd.toNat ++ stringVint msg.body
  | .response msg =>
      vint 5 msg.sn.toNat ++ vint 5 msg.cmd.toNat ++ vint 5 msg.result.toNat ++
        stringVint msg.resultStr ++ stringVint msg.body
  | .notify msg => vint 5 msg.notify.toNat ++ stringVint msg.body

def bytes (msg : Message) : List UInt8 := msg.type :: msg.fields

end Message

namespace RockMessageDecoder

open ZlibStream

variable {env : RockEnv} {msg : Message} {s : Stream} {rest : List UInt8}

/-- A codec that hands on what it is given. -/
def stored : Codec where
  State := Unit
  init := ⟨⟩
  call _ _ next_in n := ⟨Z_OK, next_in.take n, next_in.drop n, ⟨⟩⟩

def ping : Message := .request ⟨⟨1, 300⟩, ⟨⟨[104, 105], by decide⟩⟩⟩
end RockMessageDecoder

end CIM
