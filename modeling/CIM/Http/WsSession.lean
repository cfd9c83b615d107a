import CIM.Lib.Exec
import CIM.Net.Stream

/-!
# WebSocket messages over a stream

`WSRecvMessage` and `WSSendMessage` frame by frame, as `ws_session.cpp` has them. The reader's
loop body is split at the payload read: `recvHead` is everything before it, `recvPayload` the
read and what follows. The host is little-endian, so `byteswap` reads and writes network order.
-/
namespace CIM.Http

/-- How a pass through the loop can end without a message: `break`, or bytes stored outside the
data buffer. `fuel` marks a bound on the passes that was too small. -/
inductive Halt where
  | brk
  | overrun
  | fuel
  deriving DecidableEq

abbrev WSM := EStateM Halt Stream

structure WSFrameHead where
  fin : Bool
  opcode : Nat
  mask : Bool
  payload : Nat
  deriving DecidableEq

namespace WSFrameHead

def CONTINUE : Nat := 0
def TEXT_FRAME : Nat := 1
def BIN_FRAME : Nat := 2
def CLOSE : Nat := 8
def PING : Nat := 9
def PONG : Nat := 10

def parse (b1 b2 : UInt8) : WSFrameHead where
  fin := b1 &&& 0x80 != 0
  opcode := (b1 &&& 0x0F).toNat
  mask := b2 &&& 0x80 != 0
  payload := (b2 &&& 0x7F).toNat

end WSFrameHead

open WSFrameHead

structure WSFrameMessage where
  opcode : Nat
  data : List UInt8
  deriving DecidableEq

/-- `data[i] ^= mask_key[i % 4]` for every `i`. -/
def applyMask (mask_key data : List UInt8) : List UInt8 :=
  data.mapIdx fun i b => b ^^^ mask_key.getD (i % 4) 0

/-- `if (stream->readFixSize(buffer, n) <= 0) break;` -/
def readFix (n : Nat) : WSM (List UInt8) := do
  let (rt, buffer) ← Stream.readFixSize n
  if rt ≤ 0 then throw .brk else return buffer

def readByte : WSM UInt8 := do
  return (← readFix 1).headD 0

def writeFix (buffer : List UInt8) : WSM PUnit := do
  let rt ← Stream.writeFixSize buffer
  if rt ≤ 0 then throw .brk else return ⟨⟩

/-- Runs the body of a `do … while (0)` and closes the stream when it breaks. -/
def orClose {α : Type} (body : WSM α) (failed : α) : WSM α := fun s =>
  match body s with
  | .error .brk s' => .ok failed s'.close
  | r => r

def WSPong : WSM Int :=
  orClose (do
    writeFix [0x80 ||| 0x0A]
    writeFix [0x00]
    return 2) (-1)

def WSPing : WSM Int :=
  orClose (do
    writeFix [0x80 ||| 0x09]
    writeFix [0x00]
    return 2) (-1)

/-- What the loop keeps between its passes. -/
structure RecvState where
  opcode : Nat
  data : List UInt8
  cur_len : Int
  deriving DecidableEq

def RecvState.start : RecvState := ⟨0, [], 0⟩

/-- The head of a data frame whose payload is about to be read. -/
structure DataHead where
  fin : Bool
  opcode : Nat
  mask : Bool
  length : Nat
  mask_key : List UInt8
  deriving DecidableEq

def recvLength (payload : Nat) : WSM Nat :=
  if payload = 126 then do return ofNetwork (← readFix 2)
  else if payload = 127 then do return ofNetwork (← readFix 8)
  else return payload

def recvMaskKey (mask : Bool) : WSM (List UInt8) :=
  if mask then readFix 4 else return [0, 0, 0, 0]

/-- From the top of the loop to the payload read; `none` is a `continue`. -/
def recvHead (client : Bool) (max_size : UInt32) (st : RecvState) : WSM (Option DataHead) := do
  let b1 ← readByte
  let b2 ← readByte
  let head := WSFrameHead.parse b1 b2
  if head.opcode = PING then
    let rt ← WSPong
    if rt ≤ 0 then throw .brk else return none
  else if head.opcode = PONG then return none
  else if head.opcode = CONTINUE ∨ head.opcode = TEXT_FRAME ∨ head.opcode = BIN_FRAME then
    if !client && !head.mask then throw .brk
    else
      let length ← recvLength head.payload
      if uint64 (st.cur_len + length) ≥ max_size.toNat then throw .brk
      else
        let mask_key ← recvMaskKey head.mask
        return some ⟨head.fin, head.opcode, head.mask, length, mask_key⟩
  else return none -- an invalid opcode is only logged

/-- `std::string::resize`. -/
def resize (data : List UInt8) (n : Nat) : List UInt8 :=
  data.take n ++ List.replicate (n - data.length) 0

/-- Stores bytes from `&data[offset]` on. -/
def store (data : List UInt8) (offset : Int) (bytes : List UInt8) : WSM (List UInt8) :=
  if bytes = [] then return data
  else if 0 ≤ offset ∧ offset + bytes.length ≤ data.length then
    return data.take offset.toNat ++ bytes ++ data.drop (offset.toNat + bytes.length)
  else throw .overrun

def nextOpcode (opcode op : Nat) : Nat := if opcode = 0 ∧ op ≠ CONTINUE then op else opcode

/-- The payload read and the rest of the pass: a state to continue with, or the message. -/
def recvPayload (st : RecvState) (head : DataHead) : WSM (RecvState ⊕ WSFrameMessage) := do
  let data := resize st.data (uint64 (st.cur_len + head.length))
  let (rt, buffer) ← Stream.readFixSize head.length
  let data ← store data st.cur_len (if head.mask then applyMask head.mask_key buffer else buffer)
  if rt ≤ 0 then throw .brk
  else
    let opcode := nextOpcode st.opcode head.opcode
    if head.fin then return .inr ⟨opcode, data⟩
    else return .inl ⟨opcode, data, int32 (st.cur_len + head.length)⟩

def recvPass (client : Bool) (max_size : UInt32) (st : RecvState) :
    WSM (RecvState ⊕ WSFrameMessage) := do
  match ← recvHead client max_size st with
  | none => return .inl st
  | some head => recvPayload st head

def recvLoop (client : Bool) (max_size : UInt32) : Nat → RecvState → WSM WSFrameMessage
  | 0, _ => throw .fuel
  | passes+1, st => do
      match ← recvPass client max_size st with
      | .inl st => recvLoop client max_size passes st
      | .inr msg => return msg

/-- A pass that continues has taken the two bytes of a frame head, so the input's length bounds
the passes. -/
def WSRecvMessage (client : Bool) (max_size : UInt32) : WSM (Option WSFrameMessage) := do
  orClose (do
    let s ← get
    return some (← recvLoop client max_size (s.input.length + 1) .start)) none

def lenIndicator (size : Nat) : Nat := if size < 126 then size else if size < 65536 then 126 else 127

def lenBytes (size : Nat) : List UInt8 :=
  if lenIndicator size = 126 then toNetwork 2 size
  else if lenIndicator size = 127 then toNetwork 8 size
  else []

def writeLength (size : Nat) : WSM PUnit :=
  if lenIndicator size = 126 then writeFix (toNetwork 2 size)
  else if lenIndicator size = 127 then writeFix (toNetwork 8 size)
  else return ⟨⟩

def finOpcode (fin : Bool) (opcode : Nat) : UInt8 :=
  (if fin then 0x80 else 0) ||| (UInt8.ofNat opcode &&& 0x0F)

def maskLength (mask : Bool) (size : Nat) : UInt8 :=
  (if mask then 0x80 else 0) ||| (UInt8.ofNat (lenIndicator size) &&& 0x7F)

/-- `WSSendMessage`; `mask` are the four bytes of `rand()`. -/
def WSSendMessage (msg : WSFrameMessage) (client fin : Bool) (mask : List UInt8) : WSM Int :=
  orClose (do
    let size := msg.data.length
    writeFix [finOpcode fin msg.opcode]
    writeFix [maskLength client size]
    writeLength size
    if client then
      writeFix mask
      writeFix (applyMask mask msg.data)
      return int32 (2 + (lenBytes size).length + 4 + size)
    else
      writeFix msg.data
      return int32 (2 + (lenBytes size).length + size)) (-1)

end CIM.Http
