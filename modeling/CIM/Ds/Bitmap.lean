import Mathlib.Data.List.Basic
import Mathlib.Data.UInt
import CIM.Lib.System

/-!
# Bitmap

A word holds fourteen bits. In a compressed bitmap the two bits above them tell a literal word
from one that holds a digit of the length of a run, and the value of the run.
-/
namespace CIM.ds

/-- The exception of an unsupported operation, a failed assertion, an access outside the data or
a shift by the width of the integer or more. -/
inductive BitmapFailure
  | logic_error (what : String)
  | assertion
  | undefined
  deriving DecidableEq, Repr

/-- `m_dataSize` is the length of the data. -/
structure Bitmap where
  m_compress : Bool
  m_size : UInt32
  m_data : List UInt16
  deriving DecidableEq, Repr

namespace Bitmap

def VALUE_SIZE : Nat := 14
def COMPRESS_MASK : UInt16 := 0x8000
def VALUE_MASK : UInt16 := 0x4000
def COUNT_MASK : UInt16 := 0x3fff
def NOT_VALUE_MASK : UInt16 := ~~~VALUE_MASK

def POS (i : Nat) : UInt16 := 1 <<< UInt16.ofNat i
def NPOS (i : Nat) : UInt16 := ~~~POS i
def MASK (i : Nat) : UInt16 := POS i - 1

/-- `ceil(size * 1.0 / VALUE_SIZE)`, which is exact in a `double`. -/
def dataSize (size : UInt32) : Nat := (size.toNat + (VALUE_SIZE - 1)) / VALUE_SIZE

/-- `memset` repeats the byte in both halves of a word. -/
def create (size : UInt32) (dflt : UInt8) : Bitmap :=
  ⟨false, size, List.replicate (dataSize size) (dflt.toUInt16 <<< 8 ||| dflt.toUInt16)⟩

def modifyAt (data : List UInt16) (i : Nat) (f : UInt16 → UInt16) :
    Except BitmapFailure (List UInt16) :=
  if i < data.length then .ok (data.modify i f) else .error .undefined

def get (b : Bitmap) (idx : UInt32) : Except BitmapFailure Bool :=
  match b.m_data[idx.toNat / VALUE_SIZE]? with
  | some w => .ok (w &&& POS (idx.toNat % VALUE_SIZE) != 0)
  | none => .error .undefined

def set (b : Bitmap) (idx : UInt32) (v : Bool) : Except BitmapFailure Bitmap :=
  (modifyAt b.m_data (idx.toNat / VALUE_SIZE) fun w =>
    if v then w ||| POS (idx.toNat % VALUE_SIZE) else w &&& NPOS (idx.toNat % VALUE_SIZE)).map
      fun data => { b with m_data := data }

/-- The word of a run of fourteen bits. -/
def uniform (v : Bool) : UInt16 := if v then COUNT_MASK else 0

/-- `set(from, size, v)` on the data; the sum of its arguments wraps around. -/
def setRange (data : List UInt16) (start size : Nat) (v : Bool) :
    Except BitmapFailure (List UInt16) :=
  if size = 0 then .ok data
  else if start % VALUE_SIZE ≠ 0 ∨ (start + size) % 4294967296 % VALUE_SIZE ≠ 0 then
    .error .assertion
  else
    let cur_from := start / VALUE_SIZE
    let cur_to := (start + size) % 4294967296 / VALUE_SIZE
    (List.range' cur_from (cur_to - cur_from)).foldlM
      (fun d i => modifyAt d i fun _ => uniform v) data

/-! ## Compression -/

/-- `__builtin_popcount` of a word. -/
def count_bits (w : UInt16) : Nat := (List.range 16).countP fun i => w.toNat.testBit i

/-- The fourteen bits of the word all have the value. -/
def isUniform (v : Bool) (cur : UInt16) : Bool :=
  count_bits (cur &&& COUNT_MASK) == if v then VALUE_SIZE else 0

def runWord (v : Bool) (cur_count : Nat) : UInt16 :=
  if v then COMPRESS_MASK ||| VALUE_MASK ||| UInt16.ofNat (cur_count % 16384)
  else COMPRESS_MASK ||| UInt16.ofNat (cur_count % 16384)

/-- `while (cur_count)`: five digits hold every `uint64_t`. -/
def runWords (v : Bool) : Nat → Nat → List UInt16
  | 0, _ => []
  | fuel + 1, cur_count =>
      if cur_count = 0 then []
      else runWord v cur_count :: runWords v fuel (cur_count / 16384)

/-- A run of two words or more is counted; a single word is written as it is. -/
def flush (v : Bool) (cur_count : Nat) : List UInt16 :=
  if 1 < cur_count / VALUE_SIZE then runWords v 5 cur_count
  else if cur_count = 0 then [] else [uniform v]

/-- The loop over the words with `cur_value` and `cur_count`, a multiple of `VALUE_SIZE`. -/
def compressLoop (v : Bool) (cur_count : Nat) : List UInt16 → List UInt16
  | [] => flush v cur_count
  | cur :: rest =>
      if isUniform v cur then compressLoop v (cur_count + VALUE_SIZE) rest
      else if isUniform (!v) cur then flush v cur_count ++ compressLoop (!v) VALUE_SIZE rest
      else flush v cur_count ++ cur :: compressLoop v 0 rest

def compress (b : Bitmap) : Bitmap :=
  if b.m_compress then b else ⟨true, b.m_size, compressLoop false 0 b.m_data⟩

/-! ## Reading a compressed bitmap -/

/-- What the loops over compressed words read at once: a literal word, or the words of a run. -/
inductive Segment
  | literal (w : UInt16)
  | run (v : Bool) (cur : UInt16) (more : List UInt16)
  deriving DecidableEq, Repr

def isRun (w : UInt16) : Bool := w &&& COMPRESS_MASK != 0

def runValue (w : UInt16) : Bool := w &&& VALUE_MASK != 0

/-- The test of the inner loop: the word goes on with a run of the value. -/
def continues (v : Bool) (w : UInt16) : Bool := isRun w && v == runValue w

def segments : List UInt16 → List Segment
  | [] => []
  | cur :: rest =>
      if isRun cur then
        .run (runValue cur) cur (rest.takeWhile (continues (runValue cur))) ::
          segments (rest.dropWhile (continues (runValue cur)))
      else .literal (cur &&& COUNT_MASK) :: segments rest
  termination_by ws => ws.length
  decreasing_by
    · exact Nat.lt_succ_of_le (List.dropWhile_sublist _).length_le
    · exact Nat.lt_succ_self _

/-- The digits behind the first `n` of the length of a run, least digit first. -/
def runCount (n count : Nat) : List UInt16 → Except BitmapFailure Nat
  | [] => .ok count
  | w :: ws =>
      if 32 ≤ VALUE_SIZE * n then .error .undefined
      else runCount (n + 1)
        (((w &&& COUNT_MASK).toNat <<< (VALUE_SIZE * n)) % 4294967296 ||| count) ws

/-- One turn of a loop over compressed words, at `cur_pos`. The three loops differ in the runs
they write and in how a literal word is combined with the one that is there. -/
def replayStep (writes : Bool → Bool) (combine : UInt16 → UInt16 → UInt16)
    (at_ : Nat × List UInt16) : Segment → Except BitmapFailure (Nat × List UInt16)
  | .literal w => do
      let data ← modifyAt at_.2 (at_.1 / VALUE_SIZE) fun old => combine old w
      return ((at_.1 + VALUE_SIZE) % 4294967296, data)
  | .run v cur more => do
      let count ← runCount 1 (cur &&& COUNT_MASK).toNat more
      let data ← if writes v then setRange at_.2 at_.1 count v else .ok at_.2
      return ((at_.1 + count) % 4294967296, data)

def replay (writes : Bool → Bool) (combine : UInt16 → UInt16 → UInt16) (segs : List Segment)
    (at_ : Nat × List UInt16) : Except BitmapFailure (Nat × List UInt16) :=
  segs.foldlM (replayStep writes combine) at_

def uncompress (b : Bitmap) : Except BitmapFailure Bitmap :=
  if b.m_compress then
    (replay (fun _ => true) (fun _ w => w) (segments b.m_data) (0, (create b.m_size 0).m_data)).map
      fun r => ⟨false, b.m_size, r.2⟩
  else .ok b

/-! ## Operators -/

/-- `a &= b` and `a |= b`; the loops over eight bytes and the rest go through every word. -/
def combineWith (name : String) (writes : Bool → Bool) (op : UInt16 → UInt16 → UInt16)
    (a b : Bitmap) : Except BitmapFailure Bitmap :=
  if a.m_size ≠ b.m_size then .error (.logic_error "m_size != b.m_size")
  else if a.m_compress then
    if b.m_compress then .error (.logic_error ("compress " ++ name ++ " compress not support"))
    else .error (.logic_error ("compress " ++ name ++ " uncompress not support"))
  else if b.m_compress then
    (replay writes op (segments b.m_data) (0, a.m_data)).map fun r => { a with m_data := r.2 }
  else .ok { a with m_data := List.zipWith op a.m_data b.m_data }

def and_assign : Bitmap → Bitmap → Except BitmapFailure Bitmap :=
  combineWith "&=" (fun v => !v) fun w x => w &&& x

def or_assign : Bitmap → Bitmap → Except BitmapFailure Bitmap :=
  combineWith "|=" (fun v => v) fun w x => w ||| x

/-- Of an uncompressed bitmap every bit is turned, those above the fourteen as well. -/
def not (b : Bitmap) : Bitmap :=
  if b.m_compress then
    { b with
      m_data := b.m_data.map fun cur =>
        if isRun cur then
          if runValue cur then cur &&& NOT_VALUE_MASK else cur ||| VALUE_MASK
        else ~~~cur &&& COUNT_MASK }
  else { b with m_data := b.m_data.map fun w => ~~~w }

/-- The word before the new ones is at `m_dataSize - 1`, also where there is none. -/
def resize (b : Bitmap) (size : UInt32) (v : Bool) : Except BitmapFailure Bitmap :=
  if b.m_compress then .error (.logic_error "compress bitmap not support resize")
  else if b.m_data.length < dataSize size then
    if b.m_data.length = 0 then .error .undefined
    else
      (modifyAt (b.m_data ++ List.replicate (dataSize size - b.m_data.length)
          (if v then 0xffff else 0)) (b.m_data.length - 1) fun w =>
        if v then w ||| MASK (b.m_size.toNat % VALUE_SIZE)
        else w &&& MASK (b.m_size.toNat % VALUE_SIZE)).map
          fun data => ⟨false, size, data⟩
  else .ok ⟨false, size, b.m_data.take (dataSize size)⟩

end Bitmap

end CIM.ds
