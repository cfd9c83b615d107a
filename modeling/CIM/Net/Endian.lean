import Mathlib.Data.List.Basic
import Mathlib.Tactic.Ring

/-!
# Machine integers and network order

Conversions between the integer types, and integers as the bytes that go over the network. The
host is little-endian, so `byteswap`, `ntoh` and `hton` turn its order into the network's.
-/
namespace CIM

def uint32 (n : Int) : Nat := (n % 4294967296).toNat

def uint64 (n : Int) : Nat := (n % 18446744073709551616).toNat

/-- Conversion to `int`, which is two's complement. -/
def int32 (n : Int) : Int :=
  if uint32 n < 2147483648 then uint32 n else uint32 n - 4294967296

def int64 (n : Int) : Int :=
  if uint64 n < 9223372036854775808 then uint64 n else uint64 n - 18446744073709551616

theorem int32_of_lt {n : Nat} (h : n < 2147483648) : int32 n = n := by
  simp only [int32, uint32]
  omega

/-- `byteswap` of an integer that was read byte by byte. -/
def ofNetwork (bs : List UInt8) : Nat := bs.foldl (fun n b => n * 256 + b.toNat) 0

def toNetwork : Nat → Nat → List UInt8
  | 0, _ => []
  | k+1, n => UInt8.ofNat (n / 256 ^ k) :: toNetwork k n

@[simp] theorem length_toNetwork (k n : Nat) : (toNetwork k n).length = k := by
  induction k with
  | zero => rfl
  | succ k ih => simp [toNetwork, ih]

theorem foldl_network (acc : Nat) (bs : List UInt8) :
    bs.foldl (fun n b => n * 256 + b.toNat) acc = acc * 256 ^ bs.length + ofNetwork bs := by
  induction bs generalizing acc with
  | nil => simp [ofNetwork]
  | cons b bs ih =>
      simp only [ofNetwork, List.foldl_cons, List.length_cons]
      rw [ih, ih (0 * 256 + b.toNat)]
      ring

theorem ofNetwork_lt (bs : List UInt8) : ofNetwork bs < 256 ^ bs.length := by
  induction bs with
  | nil => simp [ofNetwork]
  | cons b bs ih =>
      have hb : b.toNat ≤ 255 := Nat.le_of_lt_succ b.toNat_lt
      have hmul := Nat.mul_le_mul_right (256 ^ bs.length) hb
      simp only [ofNetwork, List.foldl_cons, List.length_cons, Nat.zero_mul, Nat.zero_add]
      rw [foldl_network, pow_succ]
      omega

theorem ofNetwork_toNetwork (k n : Nat) : ofNetwork (toNetwork k n) = n % 256 ^ k := by
  induction k with
  | zero => simp [toNetwork, ofNetwork, Nat.mod_one]
  | succ k ih =>
      simp only [toNetwork, ofNetwork, List.foldl_cons, Nat.zero_mul, Nat.zero_add]
      rw [foldl_network, ih, length_toNetwork, pow_succ, Nat.mod_mul]
      simp [UInt8.toNat_ofNat']
      ring

end CIM
