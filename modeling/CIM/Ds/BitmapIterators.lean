import CIM.Ds.BitmapTraverse

/-!
# Iterators

An iterator keeps its position and the size of the bitmap in an `int32_t`. It ends where its
position is not between zero and that size.
-/
namespace CIM.ds.Bitmap

variable {b : Bitmap} {v : Bool} {w : UInt16} {k n p q size : Nat} {ws data : List UInt16}

/-- A `uint32_t` as an `int32_t`. -/
def signed (size : UInt32) : Int :=
  if size.toNat < 2147483648 then size.toNat else size.toNat - 4294967296

/-- `operator!`, which is true at a position. -/
def valid (m_size m_pos : Int) : Bool := !(decide (m_size ≤ m_pos) || decide (m_pos < 0))

/-- `for (i = VALUE_SIZE - n; i < VALUE_SIZE && m_pos < m_size; ++i, ++m_pos)`, and whether it found
a bit. -/
def scanUp (m_size : Int) (v : UInt16) : Nat → Int → Bool × Int
  | 0, m_pos => (false, m_pos)
  | n + 1, m_pos =>
      if m_pos < m_size then
        if bitAt v (VALUE_SIZE - (n + 1)) then (true, m_pos) else scanUp m_size v n (m_pos + 1)
      else (false, m_pos)

/-- The words that are left; a position that is no `int32_t` is undefined. -/
def wordsUp (m_size : Int) : List UInt16 → Int → Except BitmapFailure Int
  | [], m_pos => .ok m_pos
  | v :: rest, m_pos =>
      if m_pos < m_size then
        if v = 0 then
          if m_pos + VALUE_SIZE < 2147483648 then wordsUp m_size rest (m_pos + VALUE_SIZE)
          else .error .undefined
        else if (scanUp m_size v VALUE_SIZE m_pos).1 then
          .ok (scanUp m_size v VALUE_SIZE m_pos).2
        else wordsUp m_size rest (scanUp m_size v VALUE_SIZE m_pos).2
      else .ok m_pos

/-- `iterator::next` -/
def next (b : Bitmap) (m_pos : Int) : Except BitmapFailure Int :=
  let pos := (m_pos + 1).toNat / VALUE_SIZE
  let left := (m_pos + 1).toNat % VALUE_SIZE
  if left = 0 then wordsUp (signed b.m_size) (b.m_data.drop pos) (m_pos + 1)
  else
    match b.m_data[pos]? with
    | none => .error .undefined
    | some v =>
        let r := scanUp (signed b.m_size) v (VALUE_SIZE - left) (m_pos + 1)
        if r.1 then .ok r.2
        else wordsUp (signed b.m_size) (b.m_data.drop (r.2.toNat / VALUE_SIZE)) r.2

/-- The list of what is left, from the position at which an iterator stands. -/
inductive Stands (stop : Int → Prop) : Int → List Nat → Prop
  | done {m_pos : Int} (h : stop m_pos) : Stands stop m_pos []
  | here {q : Nat} {l : List Nat} : Stands stop q (q :: l)

/-- The set positions from `k` on. -/
def positionsFrom (data : List UInt16) (size k : Nat) : List Nat :=
  (List.range' k (size - k)).filter (bit data)

theorem positionsFrom_end (h : size ≤ k) : positionsFrom data size k = [] := by
  unfold positionsFrom
  rw [Nat.sub_eq_zero_of_le h]
  rfl

theorem positionsFrom_step (h : k < size) : positionsFrom data size k =
    if bit data k = true then k :: positionsFrom data size (k + 1)
    else positionsFrom data size (k + 1) := by
  have hlen : size - k = size - (k + 1) + 1 := by omega
  unfold positionsFrom
  rw [hlen, List.range'_succ, List.filter_cons]

/-- What comes behind a set position. -/
theorem positionsFrom_cons {l : List Nat} (hk : k ≤ size)
    (h : positionsFrom data size k = q :: l) :
    q < size ∧ bit data q = true ∧ l = positionsFrom data size (q + 1) := by
  obtain ⟨d, hd⟩ := Nat.exists_eq_add_of_le hk
  induction d generalizing k with
  | zero =>
      rw [positionsFrom_end (k := k) (Nat.le_of_eq hd)] at h
      cases h
  | succ d ih =>
      rw [positionsFrom_step (by omega)] at h
      by_cases hbit : bit data k = true
      · rw [if_pos hbit] at h
        cases h
        exact ⟨by omega, hbit, rfl⟩
      · rw [if_neg hbit] at h
        exact ih (by omega) h (by omega)

/-- What is left for an iterator of a bitmap. -/
def LeftFrom (data : List UInt16) (size : Nat) (l : List Nat) : Prop :=
  ∃ k ≤ size, l = positionsFrom data size k

theorem LeftFrom.tail {l : List Nat} (h : LeftFrom data size (q :: l)) :
    q < size ∧ bit data q = true ∧ l = positionsFrom data size (q + 1) := by
  obtain ⟨k, hk, hl⟩ := h
  exact positionsFrom_cons hk hl.symm

end CIM.ds.Bitmap
