import CIM.Net.Endian
import Mathlib.Data.BitVec
import Mathlib.Tactic.IntervalCases

/-!
# IPv4 network arithmetic

The masks of `CreateMask` and the network, broadcast and subnet addresses that `IPv4Address` makes
of them. `s_addr` holds the address as it lies in memory, so on this host its value is the address
with the bytes swapped.
-/
namespace CIM

/-- Why a call gives no address: a failed assertion, or an operation that has no defined result. -/
inductive AddressFault where
  | assertion
  | undefined
  deriving DecidableEq, Repr

def CIM_ASSERT (cond : Bool) : Except AddressFault Unit :=
  if cond then .ok () else .error .assertion

/-- `n << s` on an `int`, whose width is the first count that has no result. -/
def shiftLeft (n : Int) (s : Nat) : Except AddressFault Int :=
  if s < 32 then .ok (int32 (n * 2 ^ s)) else .error .undefined

/-- `m - n` on `int`s. A compiler may promise that a result out of range wraps around. -/
def subtract (wraps : Bool) (m n : Int) : Except AddressFault Int :=
  if -2147483648 ≤ m - n ∧ m - n < 2147483648 then .ok (m - n)
  else if wraps then .ok (int32 (m - n))
  else .error .undefined

/-- `size` is the size of the type in bytes. The shift and the subtraction are made on `int`. -/
def CreateMask (wraps : Bool) (size bits : Nat) : Except AddressFault (BitVec (size * 8)) := do
  let one ← shiftLeft 1 (size * 8 - bits)
  let mask ← subtract wraps one 1
  return BitVec.ofInt (size * 8) mask

/-- The word that has exactly its `p` leading bits set. -/
def leading (w p : Nat) : BitVec w := ~~~(BitVec.allOnes w >>> p)

theorem getMsbD_leading {w p i : Nat} (hi : i < w) :
    (leading w p).getMsbD i = decide (i < p) := by
  by_cases hp : i < p
  · simp [leading, BitVec.getMsbD_ushiftRight, hi, hp]
  · simp [leading, BitVec.getMsbD_ushiftRight, hi, hp]
    omega

/-- The shift by the width of `int` has no result. -/
theorem CreateMask_zero (wraps : Bool) : CreateMask wraps 4 0 = .error .undefined := rfl

/-- The largest power of two that `int` does not hold becomes its least value. -/
theorem CreateMask_one (wraps : Bool) :
    CreateMask wraps 4 1 = if wraps then .ok (~~~leading 32 1) else .error .undefined := by
  cases wraps <;> decide

theorem CreateMask_of_two_le (wraps : Bool) {p : Nat} (hp : 2 ≤ p) (hle : p ≤ 32) :
    CreateMask wraps 4 p = .ok (~~~leading 32 p) := by
  interval_cases p <;> cases wraps <;> rfl

/-- `byteswap` of 32 bits, as `bswap_32` masks and shifts them. -/
def byteswap32 (v : BitVec 32) : BitVec 32 :=
  (v &&& 0xff000000#32) >>> 24 ||| (v &&& 0x00ff0000#32) >>> 8 |||
    (v &&& 0x0000ff00#32) <<< 8 ||| (v &&& 0x000000ff#32) <<< 24

/-- A bit keeps its place within its byte, the bytes are counted from the other end. -/
theorem getLsbD_byteswap32 (v : BitVec 32) {i : Nat} (hi : i < 32) :
    (byteswap32 v).getLsbD i = v.getLsbD (24 - i / 8 * 8 + i % 8) := by
  interval_cases i <;> simp [byteswap32]

theorem byteswap32_and (v w : BitVec 32) :
    byteswap32 (v &&& w) = byteswap32 v &&& byteswap32 w := by
  apply BitVec.eq_of_getLsbD_eq
  intro i hi
  simp only [BitVec.getLsbD_and, getLsbD_byteswap32 _ hi]

theorem byteswap32_or (v w : BitVec 32) :
    byteswap32 (v ||| w) = byteswap32 v ||| byteswap32 w := by
  apply BitVec.eq_of_getLsbD_eq
  intro i hi
  simp only [BitVec.getLsbD_or, getLsbD_byteswap32 _ hi]

theorem byteswap32_not (v : BitVec 32) : byteswap32 (~~~v) = ~~~byteswap32 v := by
  apply BitVec.eq_of_getLsbD_eq
  intro i hi
  have hlt : 24 - i / 8 * 8 + i % 8 < 32 := by omega
  simp only [BitVec.getLsbD_not, getLsbD_byteswap32 _ hi, hi, hlt]

@[simp] theorem byteswap32_byteswap32 (v : BitVec 32) : byteswap32 (byteswap32 v) = v := by
  apply BitVec.eq_of_getLsbD_eq
  intro i hi
  have hlt : 24 - i / 8 * 8 + i % 8 < 32 := by omega
  have hback : 24 - (24 - i / 8 * 8 + i % 8) / 8 * 8 + (24 - i / 8 * 8 + i % 8) % 8 = i := by omega
  rw [getLsbD_byteswap32 _ hi, getLsbD_byteswap32 _ hlt, hback]

def hton (v : BitVec 32) : BitVec 32 := byteswap32 v

def ntoh (v : BitVec 32) : BitVec 32 := byteswap32 v

/-- The fields of `sockaddr_in` as they lie in memory. -/
structure IPv4Address where
  sin_family : Nat
  sin_port : BitVec 16
  s_addr : BitVec 32
  deriving DecidableEq, Repr

def AF_INET : Nat := 2

namespace IPv4Address

/-- The address as a number, its first byte the highest. -/
def address (a : IPv4Address) : BitVec 32 := ntoh a.s_addr

variable (wraps : Bool)

def broadcastAddress (a : IPv4Address) (prefix_len : Nat) : Except AddressFault IPv4Address := do
  CIM_ASSERT (!decide (prefix_len > 32))
  let mask ← CreateMask wraps 4 prefix_len
  return { a with s_addr := a.s_addr ||| hton mask }

def networkAddress (a : IPv4Address) (prefix_len : Nat) : Except AddressFault IPv4Address := do
  CIM_ASSERT (!decide (prefix_len > 32))
  let mask ← CreateMask wraps 4 prefix_len
  return { a with s_addr := a.s_addr &&& hton (~~~mask) }

/-- The address itself is not read. -/
def subnetMask (prefix_len : Nat) : Except AddressFault IPv4Address := do
  CIM_ASSERT (!decide (prefix_len > 32))
  let mask ← CreateMask wraps 4 prefix_len
  return { sin_family := AF_INET, sin_port := 0, s_addr := ~~~hton mask }

/-- What the three functions owe for an address and a prefix length. -/
structure NetworkArithmetic (a : IPv4Address) (p : Nat) : Prop where
  network : ∃ n, networkAddress wraps a p = .ok n ∧ n.address = a.address &&& leading 32 p
  broadcast : ∃ b, broadcastAddress wraps a p = .ok b ∧ b.address = a.address ||| ~~~leading 32 p
  subnet : ∃ m, subnetMask wraps p = .ok m ∧ m.address = leading 32 p
  ordered : ∃ n b, networkAddress wraps a p = .ok n ∧ broadcastAddress wraps a p = .ok b ∧
    n.address ≤ a.address ∧ a.address ≤ b.address
  idempotent : ∃ n, networkAddress wraps a p = .ok n ∧ networkAddress wraps n p = .ok n
  determined : ∀ a' n n', networkAddress wraps a p = .ok n → networkAddress wraps a' p = .ok n' →
    n'.address = n.address → ∃ b b', broadcastAddress wraps a p = .ok b ∧
      broadcastAddress wraps a' p = .ok b' ∧ b'.address = b.address

variable {wraps} {p : Nat} {a : IPv4Address}

/-- The lengths whose mask the shift and the subtraction can make. -/
def MaskDefined (wraps : Bool) (p : Nat) : Prop := 2 ≤ p ∨ (p = 1 ∧ wraps = true)

theorem CreateMask_eq (hd : MaskDefined wraps p) (hle : p ≤ 32) :
    CreateMask wraps 4 p = .ok (~~~leading 32 p) := by
  rcases hd with hp | ⟨rfl, rfl⟩
  · exact CreateMask_of_two_le wraps hp hle
  · exact CreateMask_one true

theorem CreateMask_undefined (hd : ¬ MaskDefined wraps p) (hle : p ≤ 32) :
    CreateMask wraps 4 p = .error .undefined := by
  have hlt : p < 2 := Nat.lt_of_not_le fun hp => hd (Or.inl hp)
  interval_cases p
  · exact CreateMask_zero wraps
  · have hw : wraps = false := Bool.eq_false_iff.mpr fun hw => hd (Or.inr ⟨rfl, hw⟩)
    rw [CreateMask_one, hw]
    rfl

theorem networkAddress_eq (a : IPv4Address) (hd : MaskDefined wraps p) (hle : p ≤ 32) :
    networkAddress wraps a p = .ok { a with s_addr := a.s_addr &&& hton (leading 32 p) } := by
  have hassert : CIM_ASSERT (!decide (p > 32)) = .ok () := by simp [CIM_ASSERT, hle]
  simp only [networkAddress, hassert, CreateMask_eq hd hle]
  conv_rhs => rw [← BitVec.not_not (b := leading 32 p)]
  rfl

theorem broadcastAddress_eq (a : IPv4Address) (hd : MaskDefined wraps p) (hle : p ≤ 32) :
    broadcastAddress wraps a p = .ok { a with s_addr := a.s_addr ||| hton (~~~leading 32 p) } := by
  have hassert : CIM_ASSERT (!decide (p > 32)) = .ok () := by simp [CIM_ASSERT, hle]
  simp only [broadcastAddress, hassert, CreateMask_eq hd hle]
  rfl

theorem subnetMask_eq (hd : MaskDefined wraps p) (hle : p ≤ 32) :
    subnetMask wraps p = .ok ⟨AF_INET, 0, ~~~hton (~~~leading 32 p)⟩ := by
  have hassert : CIM_ASSERT (!decide (p > 32)) = .ok () := by simp [CIM_ASSERT, hle]
  simp only [subnetMask, hassert, CreateMask_eq hd hle]
  rfl

/-- Masking with a word in network order is masking the address. -/
theorem ntoh_and_hton (v m : BitVec 32) : ntoh (v &&& hton m) = ntoh v &&& m := by
  rw [ntoh, hton, byteswap32_and, byteswap32_byteswap32, ntoh]

theorem ntoh_or_hton (v m : BitVec 32) : ntoh (v ||| hton m) = ntoh v ||| m := by
  rw [ntoh, hton, byteswap32_or, byteswap32_byteswap32, ntoh]

/-- Two addresses that agree under a mask also agree with all other bits set. -/
theorem or_not_eq_of_and_eq {v w m : BitVec 32} (h : v &&& m = w &&& m) :
    v ||| ~~~m = w ||| ~~~m := by
  apply BitVec.eq_of_getLsbD_eq
  intro i hi
  have hbit := congrArg (fun u : BitVec 32 => u.getLsbD i) h
  simp only [BitVec.getLsbD_and] at hbit
  simp only [BitVec.getLsbD_or, BitVec.getLsbD_not, hi, decide_true, Bool.true_and]
  cases hm : m.getLsbD i
  · simp
  · simpa [hm] using hbit

/-- With a mask that can be made all three functions do what they owe. -/
theorem networkArithmetic_of_defined (hd : MaskDefined wraps p) (hle : p ≤ 32) :
    NetworkArithmetic wraps a p where
  network := ⟨_, networkAddress_eq a hd hle, ntoh_and_hton _ _⟩
  broadcast := ⟨_, broadcastAddress_eq a hd hle, ntoh_or_hton _ _⟩
  subnet := by
    refine ⟨_, subnetMask_eq hd hle, ?_⟩
    change byteswap32 (~~~byteswap32 (~~~leading 32 p)) = leading 32 p
    rw [byteswap32_not, byteswap32_byteswap32, BitVec.not_not]
  ordered := by
    refine ⟨_, _, networkAddress_eq a hd hle, broadcastAddress_eq a hd hle, ?_, ?_⟩
    · rw [address, ntoh_and_hton, BitVec.le_def, BitVec.toNat_and]
      exact Nat.and_le_left
    · rw [address, address, ntoh_or_hton, BitVec.le_def, BitVec.toNat_or]
      exact Nat.left_le_or
  idempotent := by
    refine ⟨_, networkAddress_eq a hd hle, ?_⟩
    rw [networkAddress_eq _ hd hle, BitVec.and_assoc, BitVec.and_self]
  determined := by
    intro a' n n' hn hn' heq
    rw [networkAddress_eq _ hd hle, Except.ok.injEq] at hn hn'
    subst hn hn'
    refine ⟨_, _, broadcastAddress_eq a hd hle, broadcastAddress_eq a' hd hle, ?_⟩
    rw [address, address, ntoh_and_hton, ntoh_and_hton] at heq
    rw [address, address, ntoh_or_hton, ntoh_or_hton]
    exact or_not_eq_of_and_eq heq

/-- The three functions do what they owe exactly where the mask can be made in an `int`. -/
theorem networkArithmetic_iff (wraps : Bool) (a : IPv4Address) (p : Nat) (hle : p ≤ 32) :
    NetworkArithmetic wraps a p ↔ 2 ≤ p ∨ (p = 1 ∧ wraps = true) := by
  constructor
  · intro h
    by_contra hd
    obtain ⟨m, hm, -⟩ := h.subnet
    have hassert : CIM_ASSERT (!decide (p > 32)) = .ok () := by simp [CIM_ASSERT, hle]
    simp only [subnetMask, hassert, CreateMask_undefined hd hle] at hm
    cases hm
  · exact fun hd => networkArithmetic_of_defined hd hle

theorem networkArithmetic_iff_private :
    (8 ≤ 32) ∧ (NetworkArithmetic false ⟨AF_INET, 0, 0x0100000a⟩ 8 ↔
      2 ≤ 8 ∨ (8 = 1 ∧ false = true)) :=
  ⟨by decide, networkArithmetic_iff false ⟨AF_INET, 0, 0x0100000a⟩ 8 (by decide)⟩

/-- The prefix of the default route: 10.0.0.1 has no network, broadcast or subnet address, also
where `int` arithmetic wraps around. -/
theorem networkArithmetic_default_route :
    networkAddress true ⟨AF_INET, 0, 0x0100000a⟩ 0 = .error .undefined ∧
      ¬ NetworkArithmetic true ⟨AF_INET, 0, 0x0100000a⟩ 0 := by
  refine ⟨rfl, fun h => ?_⟩
  obtain ⟨n, hn, -⟩ := h.network
  cases hn

end IPv4Address
end CIM
