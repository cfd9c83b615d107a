import CIM.Net.ByteArrayFlat
import CIM.Net.Endian

/-!
# Integers and strings in a `ByteArray`

A `ByteArray` is written from its start and then read from its start. `Filled` is the state of the
first phase and `Unread` that of the second one; each typed write has its typed read.
-/
namespace CIM

/-- `std::string`, whose size is a `size_t` below `max_size()`. -/
@[ext] structure Str where
  data : List UInt8
  size_lt : data.length < 9223372036854775808
  deriving DecidableEq

namespace ByteArray

open Patch Exec

def writeFuint8 (value : UInt8) : ByteArrayM Unit := write [value]

/-- The bytes `tmp` of `writeUint32` and `writeUint64`, which have room for `k` of them. -/
def vint : Nat → Nat → List UInt8
  | 0, _ => []
  | k+1, value =>
      if value ≥ 0x80 then UInt8.ofNat ((value &&& 0x7F) ||| 0x80) :: vint k (value >>> 7)
      else [UInt8.ofNat value]

def writeUint32 (value : UInt32) : ByteArrayM Unit := write (vint 5 value.toNat)

def writeUint64 (value : UInt64) : ByteArrayM Unit := write (vint 10 value.toNat)

def writeStringVint (value : Str) : ByteArrayM Unit := do
  writeUint64 (UInt64.ofNat value.data.length)
  write value.data

def readFuint8 : ByteArrayM UInt8 := do
  return (← read 1).headD 0

/-- The loops of `readUint32` and `readUint64`: at most `k` bytes, shifted by `i`, `i + 7`, …
in an integer of `bits` bits. -/
def readVint (bits : Nat) : Nat → Nat → Nat → ByteArrayM Nat
  | 0, _, result => return result
  | k+1, i, result => do
      let b ← readFuint8
      if b < 0x80 then return result ||| (b.toNat <<< i % 2 ^ bits)
      else readVint bits k (i + 7) (result ||| ((b &&& 0x7F).toNat <<< i % 2 ^ bits))

def readUint32 : ByteArrayM UInt32 := do
  return UInt32.ofNat (← readVint 32 5 0 0)

def readUint64 : ByteArrayM UInt64 := do
  return UInt64.ofNat (← readVint 64 10 0 0)

/-- `resize` throws when the length is beyond `max_size()`. -/
def readStringVint : ByteArrayM Str := do
  let len ← readUint64
  let buffer ← read len.toNat
  if h : buffer.length < 9223372036854775808 then return ⟨buffer, h⟩
  else throw (.outOfRange "basic_string::resize")

/-- Written from the start, and holding exactly `bs`. -/
structure Filled (base : Nat) (ba : ByteArray) (bs : List UInt8) : Prop where
  linked : Linked ba
  base_eq : ba.baseSize = base
  position : ba.position = bs.length
  dataSize : ba.dataSize = bs.length
  content : (storage ba.nodes).take bs.length = bs

/-- Between the position and the end of the data there is exactly `bs`. -/
structure Unread (base : Nat) (ba : ByteArray) (bs : List UInt8) : Prop where
  linked : Linked ba
  base_eq : ba.baseSize = base
  dataSize : ba.dataSize = ba.position + bs.length
  content : slice (storage ba.nodes) ba.position bs.length = bs

variable {base : Nat} {ba : ByteArray} {bs rest : List UInt8}

theorem new_filled (hb : 1 ≤ base) (arena : Nat → Nat → UInt8) : Filled base (new base arena) [] :=
  ⟨new_linked hb arena, rfl, rfl, rfl, rfl⟩

theorem Filled.write (h : Filled base ba bs) (buf : List UInt8) :
    ∃ ba', write buf ba = .ok ⟨⟩ ba' ∧ Filled base ba' (bs ++ buf) := by
  obtain ⟨fresh, ba', hw, hl, hk, hfresh, hflat⟩ := write_spec h.linked buf
  have hpos : ba'.position = (bs ++ buf).length := by
    rw [List.length_append, ← h.position]
    exact congrArg Flat.cursor hflat
  have hsize : ba'.dataSize = max ba.dataSize (ba.position + buf.length) :=
    congrArg Flat.size hflat
  have hstore : storage ba'.nodes = patch (storage ba.nodes ++ fresh) bs.length buf := by
    rw [← h.position]
    exact congrArg Flat.storage hflat
  have hle := Nat.le_trans hl.position_le hl.dataSize_le
  rw [← hl.length_storage, hstore, length_patch, hpos, List.length_append] at hle
  refine ⟨ba', hw, hl, hk.base.trans h.base_eq, hpos, ?_, ?_⟩
  · rw [hsize, h.dataSize, h.position, List.length_append]
    omega
  · have hlen := h.linked.length_storage
    have hcap := h.linked.dataSize_le
    rw [h.dataSize] at hcap
    have htake : (storage ba.nodes ++ fresh).take bs.length = bs := by
      rw [List.take_append_of_le_length (by omega), h.content]
    rw [hstore, patch_eq hle, htake]
    exact List.take_left

theorem Filled.rewind (h : Filled base ba bs) :
    ∃ ba', setPosition 0 ba = .ok ⟨⟩ ba' ∧ Unread base ba' bs ∧ ba'.position = 0 := by
  have hcap : 0 < ba.capacity := by
    rw [h.linked.capacity]
    exact Nat.mul_pos h.linked.base_pos (List.length_pos_of_ne_nil h.linked.root)
  obtain ⟨ba', hs, hl, hk, -, hflat⟩ := setPosition_spec h.linked hcap
  have hpos : ba'.position = 0 := congrArg Flat.cursor hflat
  have hsize : ba'.dataSize = max ba.dataSize 0 := congrArg Flat.size hflat
  have hstore : storage ba'.nodes = storage ba.nodes := congrArg Flat.storage hflat
  refine ⟨ba', hs, ⟨hl, hk.base.trans h.base_eq, ?_, ?_⟩, hpos⟩
  · rw [hsize, h.dataSize, hpos]
    omega
  · rw [hpos, hstore, slice, List.drop_zero, h.content]

theorem Unread.read (h : Unread base ba (bs ++ rest)) :
    ∃ ba', read bs.length ba = .ok bs ba' ∧ Unread base ba' rest := by
  have hsize := h.dataSize
  rw [List.length_append] at hsize
  have hn : bs.length ≤ ba.getReadSize := by
    unfold getReadSize
    omega
  obtain ⟨ba', hr, hl, hk, hflat⟩ := read_spec h.linked hn
  have hpos : ba'.position = ba.position + bs.length := congrArg Flat.cursor hflat
  have hdata : ba'.dataSize = ba.dataSize := congrArg Flat.size hflat
  have hstore : storage ba'.nodes = storage ba.nodes := congrArg Flat.storage hflat
  have hcontent := h.content
  rw [List.length_append, slice, List.take_add] at hcontent
  have hlen : ((storage ba.nodes).drop ba.position).length = ba.capacity - ba.position := by
    rw [List.length_drop, h.linked.length_storage]
  have hcap := h.linked.dataSize_le
  obtain ⟨hfst, hsnd⟩ := List.append_inj hcontent (by rw [List.length_take]; omega)
  refine ⟨ba', by rw [hr, slice, hfst], hl, hk.base.trans h.base_eq, ?_, ?_⟩
  · rw [hdata, hpos]
    omega
  · rw [hstore, hpos, slice, ← List.drop_drop, hsnd]

theorem Unread.readFuint8 {b : UInt8} (h : Unread base ba (b :: rest)) :
    ∃ ba', readFuint8 ba = .ok b ba' ∧ Unread base ba' rest := by
  obtain ⟨ba', hr, h'⟩ := (show Unread base ba ([b] ++ rest) from h).read
  have hr' : ByteArray.read 1 ba = .ok [b] ba' := hr
  exact ⟨ba', by simp only [ByteArray.readFuint8, bind_apply, hr']; rfl, h'⟩

theorem vint_byte (n : Nat) :
    (UInt8.ofNat ((n &&& 0x7F) ||| 0x80)).toNat = n % 128 + 128 := by
  have hand : n &&& 0x7F = n % 128 := Nat.and_two_pow_sub_one_eq_mod n 7
  have hor : n % 128 ||| 0x80 = n % 128 + 128 := by
    have h := Nat.two_pow_add_eq_or_of_lt (show n % 128 < 2 ^ 7 by omega) 1
    calc n % 128 ||| 0x80 = 2 ^ 7 * 1 ||| n % 128 := Nat.or_comm _ _
      _ = 2 ^ 7 * 1 + n % 128 := h.symm
      _ = n % 128 + 128 := by omega
  rw [hand, hor, UInt8.toNat_ofNat']
  omega

theorem or_shiftLeft {result b i bits : Nat} (hr : result < 2 ^ i) (hfit : b * 2 ^ i < 2 ^ bits) :
    result ||| (b <<< i % 2 ^ bits) = result + b * 2 ^ i := by
  have h := Nat.two_pow_add_eq_or_of_lt hr b
  rw [Nat.shiftLeft_eq, Nat.mod_eq_of_lt hfit, Nat.or_comm, Nat.mul_comm b, ← h, Nat.add_comm]

/-- The loop adds the digits behind those it has already read. -/
theorem Unread.readVint (bits : Nat) {k : Nat} :
    ∀ {i n : Nat} {ba : ByteArray} (result : Nat), n < 128 ^ k → result < 2 ^ i →
    n * 2 ^ i < 2 ^ bits → Unread base ba (vint k n ++ rest) →
    ∃ ba', readVint bits k i result ba = .ok (result + n * 2 ^ i) ba' ∧ Unread base ba' rest := by
  induction k with
  | zero =>
      intro i n ba result hn _ _ h
      obtain rfl : n = 0 := by simpa using hn
      exact ⟨ba, by simp [ByteArray.readVint], h⟩
  | succ k ih =>
      intro i n ba result hn hresult hfit h
      by_cases hbig : n ≥ 0x80
      · rw [vint, if_pos hbig, List.cons_append] at h
        obtain ⟨ba₁, hb, h₁⟩ := h.readFuint8
        have hmod : n % 128 * 2 ^ i < 2 ^ bits :=
          Nat.lt_of_le_of_lt (Nat.mul_le_mul_right _ (Nat.mod_le n 128)) hfit
        have hlow : (UInt8.ofNat ((n &&& 0x7F) ||| 0x80) &&& 0x7F).toNat = n % 128 := by
          have hand : (0x7F : UInt8).toNat = 2 ^ 7 - 1 := rfl
          rw [UInt8.toNat_and, vint_byte, hand, Nat.and_two_pow_sub_one_eq_mod]
          omega
        have hdigits : n / 128 * 2 ^ (i + 7) + n % 128 * 2 ^ i = n * 2 ^ i := by
          calc n / 128 * 2 ^ (i + 7) + n % 128 * 2 ^ i
              = (128 * (n / 128) + n % 128) * 2 ^ i := by ring
            _ = n * 2 ^ i := by rw [Nat.div_add_mod]
        have hnext : result + n % 128 * 2 ^ i < 2 ^ (i + 7) := by
          calc result + n % 128 * 2 ^ i < 2 ^ i + n % 128 * 2 ^ i := Nat.add_lt_add_right hresult _
            _ = (n % 128 + 1) * 2 ^ i := by ring
            _ ≤ 128 * 2 ^ i := Nat.mul_le_mul_right _ (Nat.mod_lt n (by decide))
            _ = 2 ^ (i + 7) := by ring
        have hdiv : n >>> 7 = n / 128 := Nat.shiftRight_eq_div_pow n 7
        rw [hdiv] at h₁
        obtain ⟨ba₂, hr, h₂⟩ := ih (i := i + 7) (result + n % 128 * 2 ^ i)
          (Nat.div_lt_of_lt_mul (by rw [← pow_succ']; exact hn)) hnext (by omega) h₁
        refine ⟨ba₂, ?_, h₂⟩
        have hge : ¬ UInt8.ofNat ((n &&& 0x7F) ||| 0x80) < 0x80 := by
          rw [UInt8.lt_iff_toNat_lt, vint_byte]
          exact Nat.not_lt.mpr (Nat.le_add_left _ _)
        simp only [ByteArray.readVint, bind_apply, hb, if_neg hge, hlow]
        rw [or_shiftLeft hresult hmod, hr]
        congr 1
        omega
      · rw [vint, if_neg hbig, List.singleton_append] at h
        obtain ⟨ba₁, hb, h₁⟩ := h.readFuint8
        refine ⟨ba₁, ?_, h₁⟩
        have hbyte : (UInt8.ofNat n).toNat = n := by
          rw [UInt8.toNat_ofNat']
          omega
        have hlt : UInt8.ofNat n < 0x80 := by
          rw [UInt8.lt_iff_toNat_lt, hbyte]
          exact Nat.lt_of_not_le hbig
        simp only [ByteArray.readVint, bind_apply, hb, if_pos hlt, pure_apply, hbyte]
        rw [or_shiftLeft hresult hfit]

theorem Unread.readUint32 {value : UInt32} (h : Unread base ba (vint 5 value.toNat ++ rest)) :
    ∃ ba', readUint32 ba = .ok value ba' ∧ Unread base ba' rest := by
  have hlt : value.toNat < 4294967296 := value.toNat_lt
  obtain ⟨ba', hr, h'⟩ := Unread.readVint 32 (i := 0) 0
    (Nat.lt_trans hlt (by decide)) (by decide) (by omega) h
  refine ⟨ba', ?_, h'⟩
  simp only [ByteArray.readUint32, bind_apply, hr, pure_apply]
  simp

theorem Unread.readUint64 {value : UInt64} (h : Unread base ba (vint 10 value.toNat ++ rest)) :
    ∃ ba', readUint64 ba = .ok value ba' ∧ Unread base ba' rest := by
  have hlt : value.toNat < 18446744073709551616 := value.toNat_lt
  obtain ⟨ba', hr, h'⟩ := Unread.readVint 64 (i := 0) 0
    (Nat.lt_trans hlt (by decide)) (by decide) (by omega) h
  refine ⟨ba', ?_, h'⟩
  simp only [ByteArray.readUint64, bind_apply, hr, pure_apply]
  simp

/-- A string as `writeStringVint` writes it. -/
def stringVint (value : Str) : List UInt8 := vint 10 value.data.length ++ value.data

theorem Str.length_uint64 (value : Str) :
    (UInt64.ofNat value.data.length).toNat = value.data.length := by
  have h := value.size_lt
  rw [UInt64.toNat_ofNat']
  omega

theorem Filled.writeStringVint (h : Filled base ba bs) (value : Str) :
    ∃ ba', writeStringVint value ba = .ok ⟨⟩ ba' ∧ Filled base ba' (bs ++ stringVint value) := by
  obtain ⟨ba₁, hw₁, h₁⟩ := h.write (vint 10 value.data.length)
  obtain ⟨ba₂, hw₂, h₂⟩ := h₁.write value.data
  refine ⟨ba₂, ?_, by rwa [List.append_assoc] at h₂⟩
  simp only [ByteArray.writeStringVint, writeUint64, Str.length_uint64, bind_apply, hw₁, hw₂]

theorem Unread.readStringVint {value : Str} (h : Unread base ba (stringVint value ++ rest)) :
    ∃ ba', readStringVint ba = .ok value ba' ∧ Unread base ba' rest := by
  rw [stringVint, List.append_assoc, ← Str.length_uint64] at h
  obtain ⟨ba₁, hlen, h₁⟩ := h.readUint64
  obtain ⟨ba₂, hr, h₂⟩ := h₁.read
  refine ⟨ba₂, ?_, h₂⟩
  simp only [ByteArray.readStringVint, bind_apply, hlen, Str.length_uint64, hr,
    dif_pos value.size_lt, pure_apply]

end ByteArray

end CIM
