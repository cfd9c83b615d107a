import CIM.Net.ByteArrayRoundTrip

/-!
# Variable-length and zigzag integers up to the limits of their types

An unsigned integer is carried by at most five or ten bytes from any position of an array. The
zigzag coding of signed integers loses nothing, but the negation in it leaves the type for the
least value.
-/
namespace CIM

/-- The signed operation of `EncodeZigzag32` and `EncodeZigzag64`: `-v`, made for `v < 0`, in a
type with the values from `lo` to `hi`. -/
def NegatesInRange (lo hi v : Int) : Prop := v < 0 → lo ≤ -v ∧ -v ≤ hi

def ZigzagExact32 (v : Int32) : Prop :=
  NegatesInRange Int32.minValue.toInt Int32.maxValue.toInt v.toInt ∧
    decodeZigzag32 (encodeZigzag32 v) = v ∧ ∀ w, encodeZigzag32 w = encodeZigzag32 v → w = v

def ZigzagExact64 (v : Int64) : Prop :=
  NegatesInRange Int64.minValue.toInt Int64.maxValue.toInt v.toInt ∧
    decodeZigzag64 (encodeZigzag64 v) = v ∧ ∀ w, encodeZigzag64 w = encodeZigzag64 v → w = v

/-- With a negation that wraps the least value comes back too. -/
theorem decode_encodeZigzag32_all (v : Int32) : decodeZigzag32 (encodeZigzag32 v) = v := by
  by_cases hv : v = Int32.minValue
  · subst hv
    decide
  · exact decode_encodeZigzag32 hv

theorem decode_encodeZigzag64_all (v : Int64) : decodeZigzag64 (encodeZigzag64 v) = v := by
  by_cases hv : v = Int64.minValue
  · subst hv
    decide
  · exact decode_encodeZigzag64 hv

theorem negatesInRange_iff {lo hi v : Int} (hlo : lo = -hi - 1) (hpos : 0 ≤ hi) (hv : lo ≤ v) :
    NegatesInRange lo hi v ↔ v ≠ lo := by
  constructor
  · intro h he
    have hneg := h (by omega)
    omega
  · intro h hneg
    constructor <;> omega

theorem zigzagExact32_iff (v : Int32) : ZigzagExact32 v ↔ v ≠ Int32.minValue := by
  have hrange : NegatesInRange Int32.minValue.toInt Int32.maxValue.toInt v.toInt ↔
      v.toInt ≠ Int32.minValue.toInt :=
    negatesInRange_iff (by decide) (by decide) (Int32.le_toInt v)
  rw [Ne, Int32.toInt_inj] at hrange
  refine ⟨fun h => hrange.mp h.1, fun h => ⟨hrange.mpr h, decode_encodeZigzag32_all v, ?_⟩⟩
  intro w hw
  have hback := congrArg decodeZigzag32 hw
  rwa [decode_encodeZigzag32_all, decode_encodeZigzag32_all] at hback

theorem zigzagExact64_iff (v : Int64) : ZigzagExact64 v ↔ v ≠ Int64.minValue := by
  have hrange : NegatesInRange Int64.minValue.toInt Int64.maxValue.toInt v.toInt ↔
      v.toInt ≠ Int64.minValue.toInt :=
    negatesInRange_iff (by decide) (by decide) (Int64.le_toInt v)
  rw [Ne, Int64.toInt_inj] at hrange
  refine ⟨fun h => hrange.mp h.1, fun h => ⟨hrange.mpr h, decode_encodeZigzag64_all v, ?_⟩⟩
  intro w hw
  have hback := congrArg decodeZigzag64 hw
  rwa [decode_encodeZigzag64_all, decode_encodeZigzag64_all] at hback

namespace ByteArray

open Patch Exec

variable {α β : Type}

/-- Written at the position of any array, in at most `n` bytes, and read from there again: the
reader returns the value and stops where the writer had stopped. -/
def Carries (n : Nat) (w : ByteArrayM Unit) (r : ByteArrayM α) (a : α) : Prop :=
  ∀ ba, Linked ba → ∃ ba₁ ba₂ ba₃, w ba = .ok ⟨⟩ ba₁ ∧ ba₁.position ≤ ba.position + n ∧
    setPosition ba.position ba₁ = .ok ⟨⟩ ba₂ ∧ r ba₂ = .ok a ba₃ ∧ ba₃.position = ba₁.position

/-- A reader that leaves the size of the data as it is. -/
def SizeKept (r : ByteArrayM α) : Prop :=
  ∀ ba a ba', Linked ba → r ba = .ok a ba' → Linked ba' ∧ ba'.dataSize = ba.dataSize

theorem sizeKept_pure (a : α) : SizeKept (pure a : ByteArrayM α) := by
  intro ba b ba' hl h
  cases h
  exact ⟨hl, rfl⟩

theorem SizeKept.bind {r : ByteArrayM α} {f : α → ByteArrayM β} (hr : SizeKept r)
    (hf : ∀ a, SizeKept (f a)) : SizeKept (r >>= f) := by
  intro ba b ba' hl h
  obtain ⟨a, ba₁, h₁, h₂⟩ := of_bind_ok h
  obtain ⟨hl₁, hs₁⟩ := hr ba a ba₁ hl h₁
  obtain ⟨hl₂, hs₂⟩ := hf a ba₁ b ba' hl₁ h₂
  exact ⟨hl₂, hs₂.trans hs₁⟩

theorem sizeKept_read (n : Nat) : SizeKept (read n) := by
  intro ba a ba' hl h
  by_cases hn : n ≤ ba.getReadSize
  · obtain ⟨ba₁, hr, hl₁, -, hflat⟩ := read_spec hl hn
    rw [hr] at h
    cases h
    exact ⟨hl₁, congrArg Flat.size hflat⟩
  · rw [read_short (Nat.lt_of_not_le hn)] at h
    cases h

theorem sizeKept_readFuint8 : SizeKept readFuint8 :=
  (sizeKept_read 1).bind fun _ => sizeKept_pure _

theorem sizeKept_readVint (bits : Nat) : ∀ k i result, SizeKept (readVint bits k i result) := by
  intro k
  induction k with
  | zero =>
      intro i result
      exact sizeKept_pure _
  | succ k ih =>
      intro i result
      refine sizeKept_readFuint8.bind fun b => ?_
      by_cases hb : b < 0x80
      · rw [if_pos hb]
        exact sizeKept_pure _
      · rw [if_neg hb]
        exact ih _ _

/-- There is room for `k` bytes in `tmp`. -/
theorem length_vint_le (k n : Nat) : (vint k n).length ≤ k := by
  induction k generalizing n with
  | zero => exact Nat.le_refl 0
  | succ k ih =>
      rw [vint]
      split
      · rw [List.length_cons]
        exact Nat.succ_le_succ (ih _)
      · exact Nat.succ_le_succ (Nat.zero_le k)

theorem length_vint_pos (k n : Nat) : 0 < (vint (k + 1) n).length := by
  rw [vint]
  split <;> simp

/-- What is written somewhere is what lies between there and the end of the data. -/
theorem write_unread {ba : ByteArray} (hl : Linked ba) {buf : List UInt8} (hpos : 0 < buf.length) :
    ∃ ba₁ ba₂ rest, write buf ba = .ok ⟨⟩ ba₁ ∧ ba₁.position = ba.position + buf.length ∧
      setPosition ba.position ba₁ = .ok ⟨⟩ ba₂ ∧ ba₂.dataSize = ba₁.position + rest.length ∧
      Unread ba.baseSize ba₂ (buf ++ rest) := by
  obtain ⟨fresh, ba₁, hw, hl₁, hk₁, hfresh, hflat₁⟩ := write_spec hl buf
  have hcursor : ba₁.position = ba.position + buf.length := congrArg Flat.cursor hflat₁
  have hsize : ba₁.dataSize = max ba.dataSize (ba.position + buf.length) :=
    congrArg Flat.size hflat₁
  have hstore : storage ba₁.nodes = patch (storage ba.nodes ++ fresh) ba.position buf :=
    congrArg Flat.storage hflat₁
  have hcap := hl₁.dataSize_le
  have hle := hl₁.position_le
  have hlen := hl₁.length_storage
  obtain ⟨ba₂, hs, hl₂, hk₂, -, hflat₂⟩ := setPosition_spec hl₁ (v := ba.position) (by omega)
  have hcursor₂ : ba₂.position = ba.position := congrArg Flat.cursor hflat₂
  have hsize₂ : ba₂.dataSize = max ba₁.dataSize ba.position := congrArg Flat.size hflat₂
  have hstore₂ : storage ba₂.nodes = storage ba₁.nodes := congrArg Flat.storage hflat₂
  let rest := slice (storage ba₁.nodes) ba₁.position (ba₁.dataSize - ba₁.position)
  have hrest : rest.length = ba₁.dataSize - ba₁.position := by
    rw [length_slice]
    omega
  have hself : slice (storage ba₁.nodes) ba.position buf.length = buf := by
    rw [hstore]
    apply slice_patch_self
    rw [hstore, length_patch] at hlen
    omega
  refine ⟨ba₁, ba₂, rest, hw, hcursor, hs, by omega, hl₂, hk₂.base.trans hk₁.base, ?_, ?_⟩
  · rw [List.length_append]
    omega
  · have hrest' : slice (storage ba₁.nodes) (ba.position + buf.length) rest.length = rest := by
      rw [hrest, ← hcursor]
    rw [hstore₂, hcursor₂, List.length_append, slice, List.take_add, List.drop_drop]
    exact congrArg₂ (· ++ ·) hself hrest'

/-- A writer of some bytes and a reader that takes just these. -/
theorem carries_of_unread {n : Nat} {buf : List UInt8} {r : ByteArrayM α} {a : α}
    (hpos : 0 < buf.length) (hn : buf.length ≤ n) (hk : SizeKept r)
    (hr : ∀ base ba rest, Unread base ba (buf ++ rest) →
      ∃ ba', r ba = .ok a ba' ∧ Unread base ba' rest) : Carries n (write buf) r a := by
  intro ba hl
  obtain ⟨ba₁, ba₂, rest, hw, hcursor, hs, hsize, hu⟩ := write_unread hl hpos
  obtain ⟨ba₃, hok, hu₃⟩ := hr _ ba₂ rest hu
  have hkept := (hk ba₂ a ba₃ hu.linked hok).2
  have hend := hu₃.dataSize
  exact ⟨ba₁, ba₂, ba₃, hw, by omega, hs, hok, by omega⟩

theorem carries_uint32 (v : UInt32) : Carries 5 (writeUint32 v) readUint32 v :=
  carries_of_unread (length_vint_pos 4 _) (length_vint_le 5 _)
    ((sizeKept_readVint 32 5 0 0).bind fun _ => sizeKept_pure _) fun _ _ _ h => h.readUint32

theorem carries_uint64 (v : UInt64) : Carries 10 (writeUint64 v) readUint64 v :=
  carries_of_unread (length_vint_pos 9 _) (length_vint_le 10 _)
    ((sizeKept_readVint 64 10 0 0).bind fun _ => sizeKept_pure _) fun _ _ _ h => h.readUint64

/-- Unsigned integers are carried whole; the zigzag coding is exact above the least value. -/
theorem varint_zigzag (u₃₂ : UInt32) (u₆₄ : UInt64) (v₃₂ : Int32) (v₆₄ : Int64) :
    Carries 5 (writeUint32 u₃₂) readUint32 u₃₂ ∧ Carries 10 (writeUint64 u₆₄) readUint64 u₆₄ ∧
      (ZigzagExact32 v₃₂ ↔ v₃₂ ≠ Int32.minValue) ∧ (ZigzagExact64 v₆₄ ↔ v₆₄ ≠ Int64.minValue) :=
  ⟨carries_uint32 u₃₂, carries_uint64 u₆₄, zigzagExact32_iff v₃₂, zigzagExact64_iff v₆₄⟩

/-- `-INT32_MIN` is no `int32_t`. -/
theorem zigzag_least_overflows : ¬ ZigzagExact32 Int32.minValue := by
  rintro ⟨hrange, -⟩
  exact absurd (hrange (by decide)).2 (by decide)

end ByteArray

end CIM
