import Mathlib.Data.Nat.Bitwise
import CIM.Ds.BitmapRuns

/-!
# The bits of a word and of a bitmap

Reading goes by the index of the word and the place in it.
-/
namespace CIM.ds.Bitmap

variable {b : Bitmap} {v : Bool} {w u : UInt16} {i k n : Nat} {data : List UInt16}

/-! ## Words -/

def bitAt (w : UInt16) (i : Nat) : Bool := w &&& POS i != 0

theorem bitAt_eq (w : UInt16) (hi : i < 16) : bitAt w i = w.toNat.testBit i := by
  have hpos : ∀ i < 16, (POS i).toNat = 2 ^ i := by decide
  have hand : (w &&& POS i).toNat = (w.toNat.testBit i).toNat * 2 ^ i := by
    rw [UInt16.toNat_and, hpos i hi, Nat.and_two_pow]
  have hpow : 0 < 2 ^ i := Nat.two_pow_pos i
  unfold bitAt
  rw [Bool.eq_iff_iff, bne_iff_ne, Ne, ← UInt16.toNat_inj, hand]
  change ¬_ = 0 ↔ _
  cases w.toNat.testBit i with
  | false => simp
  | true => simp

theorem bitAt_and (hi : i < 16) : bitAt (w &&& u) i = (bitAt w i && bitAt u i) := by
  rw [bitAt_eq _ hi, bitAt_eq _ hi, bitAt_eq _ hi, UInt16.toNat_and, Nat.testBit_and]

theorem bitAt_or (hi : i < 16) : bitAt (w ||| u) i = (bitAt w i || bitAt u i) := by
  rw [bitAt_eq _ hi, bitAt_eq _ hi, bitAt_eq _ hi, UInt16.toNat_or, Nat.testBit_or]

theorem bitAt_ones : ∀ i < 16, bitAt 0xffff i = true := by
  decide

theorem bitAt_zero (i : Nat) : bitAt 0 i = false := by
  unfold bitAt
  rw [UInt16.zero_and]
  rfl

theorem bitAt_mask : ∀ n < 14, ∀ i < 14, bitAt (MASK n) i = decide (i < n) := by
  decide

theorem bitAt_uniform : ∀ v, ∀ i < 14, bitAt (uniform v) i = v := by
  decide

theorem bitAt_bits (w : UInt16) (hi : i < 14) : bitAt (bits w) i = bitAt w i := by
  unfold bitAt
  rw [bits_and_pos w hi]

/-- Two words have the same fourteen bits if they have them place by place. -/
theorem bits_ext : bits w = bits u ↔ ∀ i < 14, bitAt w i = bitAt u i := by
  constructor
  · intro h i hi
    rw [← bitAt_bits w hi, h, bitAt_bits u hi]
  · intro h
    have hlow : ∀ w : UInt16, (bits w).toNat < 2 ^ 14 := fun w => by
      rw [bits_toNat]
      exact Nat.mod_lt _ (by decide)
    apply UInt16.toNat_inj.mp
    apply Nat.eq_of_testBit_eq
    intro i
    by_cases hi : i < 14
    · rw [← bitAt_eq _ (by omega), ← bitAt_eq _ (by omega), bitAt_bits w hi, bitAt_bits u hi, h i hi]
    · have hpow : 2 ^ 14 ≤ 2 ^ i := Nat.pow_le_pow_right (by decide) (by omega)
      rw [Nat.testBit_lt_two_pow (Nat.lt_of_lt_of_le (hlow w) hpow),
        Nat.testBit_lt_two_pow (Nat.lt_of_lt_of_le (hlow u) hpow)]

theorem bits_eq_uniform : bits w = uniform v ↔ ∀ i < 14, bitAt w i = v := by
  rw [← bits_uniform, bits_ext]
  exact forall₂_congr fun i hi => by rw [bitAt_uniform v i hi]

/-! ## Bitmaps -/

/-- The bit at an index; beyond the data there is none. -/
def bit (data : List UInt16) (k : Nat) : Bool := bitAt (data.getD (k / 14) 0) (k % 14)

theorem get_eq_bit {idx : UInt32} (h : idx.toNat / 14 < b.m_data.length) :
    b.get idx = .ok (bit b.m_data idx.toNat) := by
  have hword : b.m_data[idx.toNat / VALUE_SIZE]? = some b.m_data[idx.toNat / 14] :=
    List.getElem?_eq_getElem h
  rw [get, hword, bit, List.getD_eq_getElem _ _ h]
  rfl

/-- An index below the size is in a word that is there. -/
theorem Plain.word_lt (h : Plain b) (hk : k < b.m_size.toNat) : k / 14 < b.m_data.length := by
  have hlen : b.m_data.length = (b.m_size.toNat + 13) / 14 := h.length
  omega

theorem Plain.get_eq (h : Plain b) {idx : UInt32} (hidx : idx < b.m_size) :
    b.get idx = .ok (bit b.m_data idx.toNat) :=
  get_eq_bit (h.word_lt hidx)

theorem toNat_index {m : UInt32} (hk : k < m.toNat) : (UInt32.ofNat k).toNat = k := by
  have hlt := m.toNat_lt
  rw [UInt32.toNat_ofNat']
  exact Nat.mod_eq_of_lt (by omega)

theorem index_lt {m : UInt32} (hk : k < m.toNat) : UInt32.ofNat k < m :=
  UInt32.lt_iff_toNat_lt.mpr ((toNat_index hk).symm ▸ hk)

theorem Plain.get_index (h : Plain b) (hk : k < b.m_size.toNat) :
    b.get (UInt32.ofNat k) = .ok (bit b.m_data k) := by
  rw [h.get_eq (index_lt hk), toNat_index hk]

end CIM.ds.Bitmap
