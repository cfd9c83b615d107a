import CIM.Net.ByteArrayCodec
import CIM.Net.Stream

/-!
# Transfers between a `ByteArray` and a socket

`SocketStream::read` and `write` on a `ByteArray`, and the loops of `readFixSize` and
`writeFixSize` over them. The state is the stream; the byte array is passed along.
-/
namespace CIM

open CIM.ByteArray Exec Patch

abbrev SocketM := EStateM Fault Stream

/-- Runs an operation of a byte array; what it throws is thrown on. -/
def onBa {α : Type} (x : ByteArrayM α) (ba : ByteArray) : SocketM (α × ByteArray) := fun s =>
  match x ba with
  | .ok a ba' => .ok (a, ba') s
  | .error e _ => .error e s

namespace SocketStream

/-- `if (rt > 0) ba->setPosition(ba->getPosition() + rt);` -/
def moveOn (rt : Int) (ba : ByteArray) : SocketM (Int × ByteArray) :=
  if rt > 0 then do
    let (_, ba) ← onBa (setPosition (ba.position + rt.toNat)) ba
    return (rt, ba)
  else return (rt, ba)

def recv (iovs : List Iovec) (ba : ByteArray) : SocketM (Int × ByteArray) := fun s =>
  let (rt, bytes, s') := s.read (room iovs)
  .ok (rt, fill iovs bytes ba) s'

def send (iovs : List Iovec) (ba : ByteArray) : SocketM Int := fun s =>
  let (rt, s') := s.write (gather ba.nodes iovs)
  .ok rt s'

def read (ba : ByteArray) (length : Nat) : SocketM (Int × ByteArray) := do
  let s ← get
  if !s.connected then return (-1, ba)
  else
    let (iovs, ba) ← onBa (getWriteBuffers length) ba
    let (rt, ba) ← recv iovs ba
    moveOn rt ba

def write (ba : ByteArray) (length : Nat) : SocketM (Int × ByteArray) := do
  let s ← get
  if !s.connected then return (-1, ba)
  else
    let (iovs, ba) ← onBa (getReadBuffers length) ba
    let rt ← send iovs ba
    moveOn rt ba

/-- `while (left > 0)` around `read` or `write`. -/
def fixLoop (transfer : ByteArray → Nat → SocketM (Int × ByteArray)) :
    Nat → Int → ByteArray → SocketM (Option Int × ByteArray)
  | turns+1, left, ba =>
      if left > 0 then do
        let (len, ba) ← transfer ba left.toNat
        if len ≤ 0 then return (some len, ba) else fixLoop transfer turns (left - len) ba
      else return (none, ba)
  | 0, _, ba => return (none, ba)

/-- `readFixSize(ByteArray::ptr ba, size_t length)`; each turn that goes on takes a byte. -/
def readFixSize (ba : ByteArray) (length : Nat) : SocketM (Int × ByteArray) := do
  let s ← get
  let (early, ba) ← fixLoop read (s.input.length + 1) (int64 length) ba
  return (early.getD (int32 length), ba)

/-- Each turn that goes on sends one of the bytes that can be read. -/
def writeFixSize (ba : ByteArray) (length : Nat) : SocketM (Int × ByteArray) := do
  let (early, ba) ← fixLoop write (ba.getReadSize + 1) (int64 length) ba
  return (early.getD (int32 length), ba)

variable {base : Nat} {ba : ByteArray} {s : Stream} {pre bs rest : List UInt8}

open CIM.Stream

/-- A whole number of nodes holds the data; it ends at the capacity only if it fills them. -/
theorem dataSize_lt {ba : ByteArray} (h : Linked ba) (hend : ba.dataSize % ba.baseSize ≠ 0) :
    ba.dataSize < ba.capacity := by
  refine Nat.lt_of_le_of_ne h.dataSize_le fun he => hend ?_
  rw [he, h.capacity, Nat.mul_mod_right]

/-- One `send` puts some of the unread bytes on the wire. -/
theorem write_unread (h : Unread base ba bs) (hs : Healthy s) (hne : bs ≠ [])
    (hend : ba.dataSize % base ≠ 0) :
    ∃ cs ds ba' s', bs = cs ++ ds ∧ cs ≠ [] ∧ write ba bs.length s = .ok ((cs.length : Int), ba') s' ∧
      Unread base ba' ds ∧ ba'.dataSize = ba.dataSize ∧ Put s cs s' ∧ Healthy s' := by
  have hsize := h.dataSize
  have hread : ba.getReadSize = bs.length := by
    unfold getReadSize
    omega
  obtain ⟨iovs, hg, hgather⟩ := getReadBuffers_spec h.linked bs.length
  rw [hread, Nat.min_self, h.content] at hgather
  obtain ⟨k, s', hw, hpos, hle, hput, hs'⟩ := write_healthy hs hne
  have hcap := dataSize_lt h.linked (by rwa [h.base_eq])
  obtain ⟨ba', hset, hl, hk, -, hflat⟩ :=
    setPosition_spec h.linked (show ba.position + k < ba.capacity by omega)
  have hposition : ba'.position = ba.position + k := congrArg Flat.cursor hflat
  have hdata : ba'.dataSize = max ba.dataSize (ba.position + k) := congrArg Flat.size hflat
  have hstore : storage ba'.nodes = storage ba.nodes := congrArg Flat.storage hflat
  have htake : (bs.take k).length = k := by rw [List.length_take]; omega
  refine ⟨bs.take k, bs.drop k, ba', s', (List.take_append_drop k bs).symm,
    List.ne_nil_of_length_pos (by omega), ?_, ⟨hl, hk.base.trans h.base_eq, ?_, ?_⟩, by omega,
    hput, hs'⟩
  · have hconn : (!s.connected) = false := by rw [hs.connected]; rfl
    have hgt : (k : Int) > 0 := by omega
    simp only [write, bind_apply, get_apply, hconn, Bool.false_eq_true, if_false, onBa, hg, send,
      hgather, hw, moveOn, if_pos hgt, Int.toNat_natCast, hset, pure_apply, htake]
  · rw [hdata, hposition, List.length_drop]
    omega
  · have hcontent := h.content
    rw [hstore, hposition, List.length_drop, slice, ← List.drop_drop]
    rw [slice] at hcontent
    calc (((storage ba.nodes).drop ba.position).drop k).take (bs.length - k)
        = (((storage ba.nodes).drop ba.position).take bs.length).drop k := by
          rw [List.drop_take]
      _ = bs.drop k := by rw [hcontent]

end SocketStream

end CIM
