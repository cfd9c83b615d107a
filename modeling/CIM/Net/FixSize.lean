import CIM.Net.Endian
import Mathlib.Tactic.Common

/-!
# The loops of `Stream`

`readFixSize` and `writeFixSize` over the virtual functions `read` and `write` of any stream. The
`k`-th call returns `results k`, but no more than it is asked for; a positive result is the number
of the next bytes that it moved. A `ByteArray` is its bytes and its position.
-/
namespace CIM.FixSize

/-- `while (left > 0)`, from an offset on, with the early return. -/
def fixLoop {σ : Type} (transfer : Nat → Int → σ → Int × σ) (offset : Nat) (left : Int) (s : σ) :
    Option Int × σ :=
  if left > 0 then
    let r := transfer offset left s
    if r.1 ≤ 0 then (some r.1, r.2)
    else fixLoop transfer (offset + r.1.toNat) (left - r.1) r.2
  else (none, s)
termination_by left.toNat
decreasing_by
  simp only [r] at *
  omega

/-- `return len;` or, behind the loop, `return length;`. -/
def returned {σ : Type} (length : Nat) (r : Option Int × σ) : Int × σ :=
  (int32 (r.1.getD length), r.2)

/-- The calls and the bytes that were moved. -/
structure Peer where
  calls : Nat
  moved : Nat

structure ByteArray where
  bytes : Nat → UInt8
  m_position : Nat

structure Reading (β : Type) where
  peer : Peer
  buffer : β

structure Writing (β : Type) where
  peer : Peer
  buffer : β
  output : List UInt8

section Calls

variable (results : Nat → Int32) (input : Nat → UInt8)

/-- The result of the next call. -/
def Peer.result (p : Peer) (left : Int) : Int := min (results p.calls).toInt left

def Peer.next (p : Peer) (left : Int) : Peer :=
  ⟨p.calls + 1, p.moved + (p.result results left).toNat⟩

/-- The next `len` bytes of the input are stored from the offset on. -/
def stored (moved offset : Nat) (len : Int) (bytes : Nat → UInt8) : Nat → UInt8 := fun i =>
  if offset ≤ i ∧ i < offset + len.toNat then input (moved + (i - offset)) else bytes i

/-- The `len` bytes from the offset on. -/
def taken (bytes : Nat → UInt8) (offset : Nat) (len : Int) : List UInt8 :=
  (List.range len.toNat).map fun i => bytes (offset + i)

/-- `read((char *)buffer + offset, left)`. -/
def read (offset : Nat) (left : Int) (s : Reading (Nat → UInt8)) : Int × Reading (Nat → UInt8) :=
  let len := s.peer.result results left
  (len, ⟨s.peer.next results left, stored input s.peer.moved offset len s.buffer⟩)

/-- `read(ba, left)`. -/
def readBa (_ : Nat) (left : Int) (s : Reading ByteArray) : Int × Reading ByteArray :=
  let len := s.peer.result results left
  (len, ⟨s.peer.next results left,
    ⟨stored input s.peer.moved s.buffer.m_position len s.buffer.bytes,
      s.buffer.m_position + len.toNat⟩⟩)

/-- `write((const char *)buffer + offset, left)`. -/
def write (offset : Nat) (left : Int) (s : Writing (Nat → UInt8)) : Int × Writing (Nat → UInt8) :=
  let len := s.peer.result results left
  (len, ⟨s.peer.next results left, s.buffer, s.output ++ taken s.buffer offset len⟩)

/-- `write(ba, left)`. -/
def writeBa (_ : Nat) (left : Int) (s : Writing ByteArray) : Int × Writing ByteArray :=
  let len := s.peer.result results left
  (len, ⟨s.peer.next results left, ⟨s.buffer.bytes, s.buffer.m_position + len.toNat⟩,
    s.output ++ taken s.buffer.bytes s.buffer.m_position len⟩)

def readFixSize (length : Nat) (s : Reading (Nat → UInt8)) : Int × Reading (Nat → UInt8) :=
  returned length (fixLoop (read results input) 0 (int64 length) s)

def readFixSizeBa (length : Nat) (s : Reading ByteArray) : Int × Reading ByteArray :=
  returned length (fixLoop (readBa results input) 0 (int64 length) s)

def writeFixSize (length : Nat) (s : Writing (Nat → UInt8)) : Int × Writing (Nat → UInt8) :=
  returned length (fixLoop (write results) 0 (int64 length) s)

def writeFixSizeBa (length : Nat) (s : Writing ByteArray) : Int × Writing ByteArray :=
  returned length (fixLoop (writeBa results) 0 (int64 length) s)

/-! ## What is wanted -/

/-- From the first state on, `n` bytes were moved in `k` calls. -/
def Counted (p₀ : Peer) (n k : Nat) (p : Peer) : Prop :=
  p.calls = p₀.calls + k ∧ p.moved = p₀.moved + n

/-- The first `n` bytes from the offset on are the next ones of the input, and the others are as
they were. -/
def Filled (moved offset n : Nat) (before bytes : Nat → UInt8) : Prop :=
  ∀ i, bytes i = if offset ≤ i ∧ i < offset + n then input (moved + (i - offset)) else before i

def ReadAt (s₀ : Reading (Nat → UInt8)) (n k : Nat) (s : Reading (Nat → UInt8)) : Prop :=
  Counted s₀.peer n k s.peer ∧ Filled input s₀.peer.moved 0 n s₀.buffer s.buffer

def ReadBaAt (s₀ : Reading ByteArray) (n k : Nat) (s : Reading ByteArray) : Prop :=
  Counted s₀.peer n k s.peer ∧ s.buffer.m_position = s₀.buffer.m_position + n ∧
    Filled input s₀.peer.moved s₀.buffer.m_position n s₀.buffer.bytes s.buffer.bytes

def WriteAt (s₀ : Writing (Nat → UInt8)) (n k : Nat) (s : Writing (Nat → UInt8)) : Prop :=
  Counted s₀.peer n k s.peer ∧ s.buffer = s₀.buffer ∧ s.output = s₀.output ++ taken s₀.buffer 0 n

def WriteBaAt (s₀ : Writing ByteArray) (n k : Nat) (s : Writing ByteArray) : Prop :=
  Counted s₀.peer n k s.peer ∧ s.buffer.bytes = s₀.buffer.bytes ∧
    s.buffer.m_position = s₀.buffer.m_position + n ∧
    s.output = s₀.output ++ taken s₀.buffer.bytes s₀.buffer.m_position n

/-- The length is returned with that many bytes moved, and every call gave some; or the result of
the first call that gave none is, with the bytes moved that the calls before it gave. -/
def Transfers {σ : Type} (first length : Nat) (At : Nat → Nat → σ → Prop) (r : Int × σ) : Prop :=
  (r.1 = length ∧ ∃ k, At length k r.2 ∧ ∀ j < k, 0 < (results (first + j)).toInt) ∨
    ∃ n k, n < length ∧ At n (k + 1) r.2 ∧ (∀ j < k, 0 < (results (first + j)).toInt) ∧
      (results (first + k)).toInt ≤ 0 ∧ r.1 = (results (first + k)).toInt

/-! ## One call -/

theorem result_of_counted {p₀ p : Peer} {n k : Nat} (h : Counted p₀ n k p) (left : Int) :
    p.result results left = min (results (p₀.calls + k)).toInt left := by
  rw [Peer.result, h.1]

theorem counted_next {p₀ p : Peer} {n k : Nat} (h : Counted p₀ n k p) (left : Int) :
    Counted p₀ (n + (p.result results left).toNat) (k + 1) (p.next results left) := by
  obtain ⟨hcalls, hmoved⟩ := h
  constructor
  · rw [Peer.next, hcalls, Nat.add_assoc]
  · rw [Peer.next, hmoved, Nat.add_assoc]

theorem filled_zero (moved offset : Nat) (bytes : Nat → UInt8) :
    Filled input moved offset 0 bytes bytes := by
  intro i
  rw [if_neg (by omega)]

theorem filled_stored {moved offset n : Nat} {before bytes : Nat → UInt8}
    (h : Filled input moved offset n before bytes) (len : Int) :
    Filled input moved offset (n + len.toNat) before
      (stored input (moved + n) (offset + n) len bytes) := by
  intro i
  simp only [stored, h i]
  by_cases hnew : offset + n ≤ i ∧ i < offset + n + len.toNat
  · have hall : offset ≤ i ∧ i < offset + (n + len.toNat) := by omega
    have hindex : moved + n + (i - (offset + n)) = moved + (i - offset) := by omega
    rw [if_pos hnew, if_pos hall, hindex]
  · rw [if_neg hnew]
    have hsame : (offset ≤ i ∧ i < offset + n) ↔ (offset ≤ i ∧ i < offset + (n + len.toNat)) := by
      omega
    simp only [hsame]

theorem taken_add (bytes : Nat → UInt8) (offset n : Nat) (len : Int) :
    taken bytes offset n ++ taken bytes (offset + n) len
      = taken bytes offset (n + len.toNat : Nat) := by
  simp only [taken, Int.toNat_natCast, List.range_add, List.map_append, List.map_map]
  congr 1
  refine List.map_congr_left fun i _ => ?_
  rw [Function.comp_apply, Nat.add_assoc]

end Calls

/-! ## The loop -/

section Loop

variable {σ : Type} {transfer : Nat → Int → σ → Int × σ}

theorem fixLoop_done {offset : Nat} {left : Int} {s : σ} (h : left ≤ 0) :
    fixLoop transfer offset left s = (none, s) := by
  rw [fixLoop.eq_def, if_neg (Int.not_lt.mpr h)]

theorem fixLoop_stop {offset : Nat} {left : Int} {s : σ} (h : 0 < left)
    (hr : (transfer offset left s).1 ≤ 0) :
    fixLoop transfer offset left s =
      (some (transfer offset left s).1, (transfer offset left s).2) := by
  rw [fixLoop.eq_def, if_pos h]
  simp only [if_pos hr]

theorem fixLoop_more {offset : Nat} {left : Int} {s : σ} (h : 0 < left)
    (hr : 0 < (transfer offset left s).1) :
    fixLoop transfer offset left s =
      fixLoop transfer (offset + (transfer offset left s).1.toNat)
        (left - (transfer offset left s).1) (transfer offset left s).2 := by
  rw [fixLoop.eq_def, if_pos h]
  simp only [if_neg (Int.not_le.mpr hr)]

end Loop

theorem int32_toInt (n : Int32) : int32 n.toInt = n.toInt := by
  have hlow := n.le_toInt
  have hhigh := n.toInt_lt
  simp only [int32, uint32]
  omega

section Loop

variable {results : Nat → Int32} {σ : Type} {transfer : Nat → Int → σ → Int × σ}
  {first : Nat} {At : Nat → Nat → σ → Prop}

/-- The call after `n` bytes and `k` calls has the `k`-th result, and moves that many bytes more. -/
structure Moves (results : Nat → Int32) (first : Nat) (At : Nat → Nat → σ → Prop)
    (transfer : Nat → Int → σ → Int × σ) : Prop where
  result : ∀ {n k s} left, At n k s →
    (transfer n left s).1 = min (results (first + k)).toInt left
  moved : ∀ {n k s} left, At n k s →
    At (n + (transfer n left s).1.toNat) (k + 1) (transfer n left s).2

theorem returned_done {length : Nat} (h : length < 2147483648) (s : σ) :
    returned length (none, s) = ((length : Int), s) := by
  rw [returned, Option.getD_none, int32_of_lt h]

theorem returned_stop (length : Nat) (n : Int32) (s : σ) :
    returned length (some n.toInt, s) = (n.toInt, s) := by
  rw [returned, Option.getD_some, int32_toInt]

/-- The call that gives nothing ends the transfer, with its own result. -/
theorem transfers_stop (hm : Moves results first At transfer) {length n k : Nat} {s : σ}
    (hs : At n k s) (hk : ∀ j < k, 0 < (results (first + j)).toInt) (hn : n < length)
    (hr : (transfer n ((length : Int) - n) s).1 ≤ 0) :
    Transfers results first length At
      (returned length (fixLoop transfer n ((length : Int) - n) s)) := by
  have hresult := hm.result ((length : Int) - n) hs
  have hnone : (results (first + k)).toInt ≤ 0 := by omega
  have hsame : (transfer n ((length : Int) - n) s).1 = (results (first + k)).toInt := by omega
  have hmoved := hm.moved ((length : Int) - n) hs
  rw [hsame, Int.toNat_of_nonpos hnone, Nat.add_zero] at hmoved
  rw [fixLoop_stop (by omega) hr, hsame, returned_stop]
  exact .inr ⟨n, k, hn, hmoved, hk, hnone, rfl⟩

/-- What is left and the offset always add up to the length. -/
theorem fixLoop_transfers (hm : Moves results first At transfer) {length n k : Nat} {s : σ}
    (h : length < 2147483648) (hs : At n k s) (hk : ∀ j < k, 0 < (results (first + j)).toInt)
    (hn : n ≤ length) :
    Transfers results first length At
      (returned length (fixLoop transfer n ((length : Int) - n) s)) := by
  rcases hn.lt_or_eq with hlt | rfl
  · by_cases hr : (transfer n ((length : Int) - n) s).1 ≤ 0
    · exact transfers_stop hm hs hk hlt hr
    · have hresult := hm.result ((length : Int) - n) hs
      have hmoved := hm.moved ((length : Int) - n) hs
      have hpos : ∀ j < k + 1, 0 < (results (first + j)).toInt := by
        intro j hj
        rcases Nat.lt_succ_iff_lt_or_eq.mp hj with hj | rfl
        · exact hk j hj
        · omega
      have hleft : (length : Int) - n - (transfer n ((length : Int) - n) s).1
          = length - (n + (transfer n ((length : Int) - n) s).1.toNat : Nat) := by omega
      rw [fixLoop_more (by omega) (by omega), hleft]
      exact fixLoop_transfers hm h hmoved hpos (by omega)
  · rw [fixLoop_done (by omega), returned_done h]
    exact .inl ⟨rfl, k, hs, hk⟩
termination_by length - n

/-- From the start on. -/
theorem transfers_of_moves (hm : Moves results first At transfer) {length : Nat} {s : σ}
    (h : length < 2147483648) (hs : At 0 0 s) :
    Transfers results first length At
      (returned length (fixLoop transfer 0 (int64 length) s)) := by
  have hlength : int64 length = (length : Int) - (0 : Nat) := by
    simp only [int64, uint64]
    omega
  rw [hlength]
  exact fixLoop_transfers hm h hs (fun j hj => absurd hj (Nat.not_lt_zero j)) (Nat.zero_le _)

end Loop

/-! ## The four forms -/

section Forms

variable (results : Nat → Int32) (input : Nat → UInt8)

theorem read_moves (s₀ : Reading (Nat → UInt8)) :
    Moves results s₀.peer.calls (ReadAt input s₀) (read results input) where
  result left h := result_of_counted results h.1 left
  moved {n k s} left h := by
    obtain ⟨hcount, hfill⟩ := h
    refine ⟨counted_next results hcount left, ?_⟩
    have hstored := filled_stored input hfill (s.peer.result results left)
    rw [Nat.zero_add, ← hcount.2] at hstored
    exact hstored

theorem readBa_moves (s₀ : Reading ByteArray) :
    Moves results s₀.peer.calls (ReadBaAt input s₀) (readBa results input) where
  result left h := result_of_counted results h.1 left
  moved {n k s} left h := by
    obtain ⟨hcount, hposition, hfill⟩ := h
    refine ⟨counted_next results hcount left, ?_, ?_⟩
    · simp only [readBa, hposition, Nat.add_assoc]
    · have hstored := filled_stored input hfill (s.peer.result results left)
      rw [← hposition, ← hcount.2] at hstored
      exact hstored

theorem write_moves (s₀ : Writing (Nat → UInt8)) :
    Moves results s₀.peer.calls (WriteAt s₀) (write results) where
  result left h := result_of_counted results h.1 left
  moved {n k s} left h := by
    obtain ⟨hcount, hbuffer, houtput⟩ := h
    refine ⟨counted_next results hcount left, hbuffer, ?_⟩
    have htaken := taken_add s₀.buffer 0 n (s.peer.result results left)
    rw [Nat.zero_add] at htaken
    simp only [write, hbuffer, houtput, List.append_assoc, htaken]

theorem writeBa_moves (s₀ : Writing ByteArray) :
    Moves results s₀.peer.calls (WriteBaAt s₀) (writeBa results) where
  result left h := result_of_counted results h.1 left
  moved {n k s} left h := by
    obtain ⟨hcount, hbytes, hposition, houtput⟩ := h
    refine ⟨counted_next results hcount left, hbytes, ?_, ?_⟩
    · simp only [writeBa, hposition, Nat.add_assoc]
    · simp only [writeBa, hbytes, hposition, houtput, List.append_assoc, taken_add]

theorem counted_zero (p : Peer) : Counted p 0 0 p := ⟨rfl, rfl⟩

/-- The four transfers, from any state and with any results of the calls under them. -/
theorem fixSize_transfers {length : Nat} (h : length < 2147483648) :
    (∀ s₀, Transfers results s₀.peer.calls length (ReadAt input s₀)
      (readFixSize results input length s₀)) ∧
    (∀ s₀, Transfers results s₀.peer.calls length (ReadBaAt input s₀)
      (readFixSizeBa results input length s₀)) ∧
    (∀ s₀, Transfers results s₀.peer.calls length (WriteAt s₀)
      (writeFixSize results length s₀)) ∧
    ∀ s₀, Transfers results s₀.peer.calls length (WriteBaAt s₀)
      (writeFixSizeBa results length s₀) := by
  refine ⟨fun s₀ => ?_, fun s₀ => ?_, fun s₀ => ?_, fun s₀ => ?_⟩
  · exact transfers_of_moves (read_moves results input s₀) h
      ⟨counted_zero s₀.peer, filled_zero input _ _ _⟩
  · exact transfers_of_moves (readBa_moves results input s₀) h
      ⟨counted_zero s₀.peer, rfl, filled_zero input _ _ _⟩
  · exact transfers_of_moves (write_moves results s₀) h
      ⟨counted_zero s₀.peer, rfl, (List.append_nil _).symm⟩
  · exact transfers_of_moves (writeBa_moves results s₀) h
      ⟨counted_zero s₀.peer, rfl, rfl, (List.append_nil _).symm⟩

theorem fixSize_transfers_closed :
    (∀ s₀, Transfers (fun _ => 0) s₀.peer.calls 3 (ReadAt (fun _ => 7) s₀)
      (readFixSize (fun _ => 0) (fun _ => 7) 3 s₀)) ∧
    (∀ s₀, Transfers (fun _ => 0) s₀.peer.calls 3 (ReadBaAt (fun _ => 7) s₀)
      (readFixSizeBa (fun _ => 0) (fun _ => 7) 3 s₀)) ∧
    (∀ s₀, Transfers (fun _ => 0) s₀.peer.calls 3 (WriteAt s₀)
      (writeFixSize (fun _ => 0) 3 s₀)) ∧
    ∀ s₀, Transfers (fun _ => 0) s₀.peer.calls 3 (WriteBaAt s₀)
      (writeFixSizeBa (fun _ => 0) 3 s₀) :=
  fixSize_transfers (fun _ => 0) (fun _ => 7) (by decide)

end Forms

end CIM.FixSize
