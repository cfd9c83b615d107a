import CIM.Net.Address

/-!
# IPv6 network arithmetic

The network, broadcast and subnet addresses of `IPv6Address`. The masks are applied to the byte
with the end of the prefix, loops fill whole bytes. A byte outside of the sixteen has no defined
access.
-/
namespace CIM

/-- The fields of `sockaddr_in6` as they lie in memory. -/
structure IPv6Address where
  sin6_family : Nat
  sin6_port : BitVec 16
  sin6_flowinfo : BitVec 32
  s6_addr : Vector (BitVec 8) 16
  sin6_scope_id : BitVec 32
  deriving DecidableEq, Repr

def AF_INET6 : Nat := 10

namespace IPv6Address

def byteAt (bytes : Vector (BitVec 8) 16) (i : Nat) : Except AddressFault (BitVec 8) :=
  if h : i < 16 then .ok bytes[i] else .error .undefined

def setByte (bytes : Vector (BitVec 8) 16) (i : Nat) (b : BitVec 8) :
    Except AddressFault (Vector (BitVec 8) 16) :=
  if h : i < 16 then .ok (bytes.set i b h) else .error .undefined

/-- `for (i = start; i < stop; ++i) bytes[i] = b`. -/
def setBytes (b : BitVec 8) (start stop : Nat) (bytes : Vector (BitVec 8) 16) :
    Except AddressFault (Vector (BitVec 8) 16) :=
  (List.range' start (stop - start)).foldlM (fun bytes i => setByte bytes i b) bytes

variable (wraps : Bool)

def broadcastAddress (a : IPv6Address) (prefix_len : Nat) : Except AddressFault IPv6Address := do
  CIM_ASSERT (decide (prefix_len ≤ 128))
  let mask ← CreateMask wraps 1 (prefix_len % 8)
  let b ← byteAt a.s6_addr (prefix_len / 8)
  let masked ← setByte a.s6_addr (prefix_len / 8) (b ||| mask)
  let filled ← setBytes 0xff (prefix_len / 8 + 1) 16 masked
  return { a with s6_addr := filled }

/-- The mask is not inverted, and no byte after the one with the end of the prefix is written. -/
def networkAddress (a : IPv6Address) (prefix_len : Nat) : Except AddressFault IPv6Address := do
  CIM_ASSERT (decide (prefix_len ≤ 128))
  let mask ← CreateMask wraps 1 (prefix_len % 8)
  let b ← byteAt a.s6_addr (prefix_len / 8)
  let masked ← setByte a.s6_addr (prefix_len / 8) (b &&& mask)
  return { a with s6_addr := masked }

/-- The address itself is not read. The assertion demands a length of at least 128. -/
def subnetMask (prefix_len : Nat) : Except AddressFault IPv6Address := do
  CIM_ASSERT (decide (prefix_len ≥ 128))
  let mask ← CreateMask wraps 1 (prefix_len % 8)
  let masked ← setByte (Vector.replicate 16 0) (prefix_len / 8) (~~~mask)
  let filled ← setBytes 0xff 0 (prefix_len / 8) masked
  return ⟨AF_INET6, 0, 0, filled, 0⟩

/-- The bits of an address, in the order of its bytes and the highest of each byte first. -/
def bit (bytes : Vector (BitVec 8) 16) (i : Fin 128) : Bool :=
  bytes[(i : Nat) / 8].getMsbD (i % 8)

/-- The network address keeps the first `p` bits and has zeros behind them. -/
def NetworkRight (a : IPv6Address) (p : Nat) : Prop :=
  ∃ n, networkAddress wraps a p = .ok n ∧
    ∀ i : Fin 128, bit n.s6_addr i = (decide (i < p) && bit a.s6_addr i)

/-- The broadcast address keeps the first `p` bits and has ones behind them. -/
def BroadcastRight (a : IPv6Address) (p : Nat) : Prop :=
  ∃ n, broadcastAddress wraps a p = .ok n ∧
    ∀ i : Fin 128, bit n.s6_addr i = (!decide (i < p) || bit a.s6_addr i)

/-- The subnet mask has exactly the first `p` bits set. -/
def SubnetRight (p : Nat) : Prop :=
  ∃ n, subnetMask wraps p = .ok n ∧ ∀ i : Fin 128, bit n.s6_addr i = decide (i < p)

variable {wraps} {a : IPv6Address} {p : Nat} {bytes : Vector (BitVec 8) 16}

/-- A mask of a byte is small enough for `int`. -/
theorem CreateMask_byte (wraps : Bool) {r : Nat} (hr : r < 8) :
    CreateMask wraps 1 r = .ok (~~~leading 8 r) := by
  interval_cases r <;> cases wraps <;> rfl

theorem bit_set {k : Nat} (hk : k < 16) (b : BitVec 8) (i : Fin 128) :
    bit (bytes.set k b hk) i =
      if (i : Nat) / 8 = k then b.getMsbD (i % 8) else bit bytes i := by
  by_cases h : (i : Nat) / 8 = k
  · simp [bit, h]
  · simp [bit, h, Ne.symm h]

theorem foldlM_setByte (b : BitVec 8) (n : Nat) : ∀ (start : Nat) (bytes : Vector (BitVec 8) 16),
    start + n ≤ 16 → ∃ filled,
      (List.range' start n).foldlM (fun bytes i => setByte bytes i b) bytes = .ok filled ∧
      ∀ i : Fin 128, bit filled i = if start ≤ (i : Nat) / 8 ∧ (i : Nat) / 8 < start + n
        then b.getMsbD (i % 8) else bit bytes i := by
  induction n with
  | zero =>
      intro start bytes _
      refine ⟨bytes, rfl, fun i => ?_⟩
      rw [if_neg (by omega)]
  | succ n ih =>
      intro start bytes hle
      have hk : start < 16 := by omega
      obtain ⟨filled, hrun, hbits⟩ := ih (start + 1) (bytes.set start b hk) (by omega)
      refine ⟨filled, ?_, fun i => ?_⟩
      · rw [List.range'_succ, List.foldlM_cons, setByte, dif_pos hk]
        exact hrun
      · rw [hbits, bit_set]
        split_ifs <;> first | rfl | omega

theorem setBytes_ones (start : Nat) (bytes : Vector (BitVec 8) 16) (hle : start ≤ 16) :
    ∃ filled, setBytes 0xff start 16 bytes = .ok filled ∧
      ∀ i : Fin 128, bit filled i = if start ≤ (i : Nat) / 8 then true else bit bytes i := by
  obtain ⟨filled, hrun, hbits⟩ := foldlM_setByte 0xff (16 - start) start bytes (by omega)
  refine ⟨filled, hrun, fun i => ?_⟩
  have hones : (0xff : BitVec 8).getMsbD ((i : Nat) % 8) = true := by
    have hlt : (i : Nat) % 8 < 8 := Nat.mod_lt _ (by decide)
    interval_cases (i : Nat) % 8 <;> rfl
  have hend : (i : Nat) / 8 < start + (16 - start) := by omega
  rw [hbits, hones]
  simp only [hend, and_true]

theorem assert_le (hle : p ≤ 128) : CIM_ASSERT (decide (p ≤ 128)) = .ok () := by
  rw [decide_eq_true hle]
  rfl

theorem networkAddress_run (wraps : Bool) (a : IPv6Address) (hp : p < 128) :
    ∃ n, networkAddress wraps a p = .ok n ∧ ∀ i : Fin 128, bit n.s6_addr i =
      if (i : Nat) / 8 = p / 8 then bit a.s6_addr i && !decide ((i : Nat) < p)
      else bit a.s6_addr i := by
  have hk : p / 8 < 16 := by omega
  have hr : p % 8 < 8 := Nat.mod_lt _ (by decide)
  let masked := a.s6_addr.set (p / 8) (a.s6_addr[p / 8] &&& ~~~leading 8 (p % 8))
  refine ⟨{ a with s6_addr := masked }, ?_, fun i => ?_⟩
  · simp only [networkAddress, assert_le (Nat.le_of_lt hp), CreateMask_byte wraps hr, byteAt,
      dif_pos hk, setByte]
    rfl
  · have hi : (i : Nat) % 8 < 8 := Nat.mod_lt _ (by decide)
    rw [bit_set hk]
    split_ifs with h
    · have hpos : decide ((i : Nat) % 8 < p % 8) = decide ((i : Nat) < p) :=
        decide_eq_decide.mpr (by omega)
      rw [BitVec.getMsbD_and, BitVec.getMsbD_not, getMsbD_leading hi, hpos]
      simp [bit, h, hi]
    · rfl

theorem broadcastAddress_run (a : IPv6Address) (hp : p < 128) :
    ∃ n, broadcastAddress wraps a p = .ok n ∧
      ∀ i : Fin 128, bit n.s6_addr i = (!decide ((i : Nat) < p) || bit a.s6_addr i) := by
  have hk : p / 8 < 16 := by omega
  have hr : p % 8 < 8 := Nat.mod_lt _ (by decide)
  obtain ⟨filled, hrun, hbits⟩ := setBytes_ones (p / 8 + 1)
    (a.s6_addr.set (p / 8) (a.s6_addr[p / 8] ||| ~~~leading 8 (p % 8))) (by omega)
  refine ⟨{ a with s6_addr := filled }, ?_, fun i => ?_⟩
  · simp only [broadcastAddress, assert_le (Nat.le_of_lt hp), CreateMask_byte wraps hr, byteAt,
      dif_pos hk, setByte]
    change (setBytes 0xff (p / 8 + 1) 16 _ >>= _) = _
    rw [hrun]
    rfl
  · have hi : (i : Nat) % 8 < 8 := Nat.mod_lt _ (by decide)
    rw [hbits, bit_set hk]
    split_ifs with hlater h
    · have hge : ¬ (i : Nat) < p := by omega
      simp [hge]
    · have hpos : decide ((i : Nat) % 8 < p % 8) = decide ((i : Nat) < p) :=
        decide_eq_decide.mpr (by omega)
      rw [BitVec.getMsbD_or, BitVec.getMsbD_not, getMsbD_leading hi, hpos]
      simp [bit, h, hi, Bool.or_comm]
    · have hlt : (i : Nat) < p := by omega
      simp [hlt]

/-- At the full length the byte behind the address would be read. -/
theorem networkAddress_full (a : IPv6Address) : networkAddress wraps a 128 = .error .undefined := by
  cases wraps <;> rfl

theorem broadcastAddress_full (a : IPv6Address) :
    broadcastAddress wraps a 128 = .error .undefined := by
  cases wraps <;> rfl

theorem subnetMask_full : subnetMask wraps 128 = .error .undefined := by
  cases wraps <;> rfl

/-- The mask is right about the byte with the end of the prefix exactly where that byte and the
bytes behind it are zero. -/
theorem networkRight_iff (hle : p ≤ 128) : NetworkRight wraps a p ↔
    p < 128 ∧ ∀ i : Fin 128, p / 8 ≤ (i : Nat) / 8 → bit a.s6_addr i = false := by
  constructor
  · rintro ⟨n, hn, hright⟩
    have hp : p < 128 := by
      refine Nat.lt_of_le_of_ne hle ?_
      rintro rfl
      rw [networkAddress_full] at hn
      cases hn
    refine ⟨hp, fun i hi => ?_⟩
    obtain ⟨n', hn', hbits⟩ := networkAddress_run wraps a hp
    rw [hn, Except.ok.injEq] at hn'
    subst hn'
    have hbit := (hbits i).symm.trans (hright i)
    split_ifs at hbit with h
    · cases hb : bit a.s6_addr i <;> simp_all
    · have hge : ¬ (i : Nat) < p := by omega
      simpa [hge] using hbit
  · rintro ⟨hp, hzero⟩
    obtain ⟨n, hn, hbits⟩ := networkAddress_run wraps a hp
    refine ⟨n, hn, fun i => ?_⟩
    rw [hbits]
    by_cases hi : p / 8 ≤ (i : Nat) / 8
    · simp [hzero i hi]
    · have hlt : (i : Nat) < p := by omega
      have hne : (i : Nat) / 8 ≠ p / 8 := by omega
      simp [hlt, hne]

theorem broadcastRight_iff (hle : p ≤ 128) : BroadcastRight wraps a p ↔ p < 128 := by
  constructor
  · rintro ⟨n, hn, -⟩
    refine Nat.lt_of_le_of_ne hle ?_
    rintro rfl
    rw [broadcastAddress_full] at hn
    cases hn
  · intro hp
    exact broadcastAddress_run a hp

/-- The assertion lets only the lengths through at which the mask has no byte to stand in. -/
theorem not_subnetRight (hle : p ≤ 128) : ¬ SubnetRight wraps p := by
  rintro ⟨n, hn, -⟩
  by_cases hp : p < 128
  · have hassert : CIM_ASSERT (decide (p ≥ 128)) = .error .assertion := by
      rw [decide_eq_false (by omega)]
      rfl
    rw [subnetMask, hassert] at hn
    cases hn
  · obtain rfl : p = 128 := by omega
    rw [subnetMask_full] at hn
    cases hn

/-- No length has all three right. The network address is right only where nothing was to be
cleared from the end of the prefix on, the broadcast address everywhere but at the full length. -/
theorem network_arithmetic_never (wraps : Bool) (a : IPv6Address) (p : Nat) (hle : p ≤ 128) :
    ¬ (NetworkRight wraps a p ∧ BroadcastRight wraps a p ∧ SubnetRight wraps p) ∧
      (NetworkRight wraps a p ↔
        p < 128 ∧ ∀ i : Fin 128, p / 8 ≤ (i : Nat) / 8 → bit a.s6_addr i = false) ∧
      (BroadcastRight wraps a p ↔ p < 128) ∧ ¬ SubnetRight wraps p :=
  ⟨fun h => not_subnetRight hle h.2.2, networkRight_iff hle, broadcastRight_iff hle,
    not_subnetRight hle⟩

/-- The address of all ones with a prefix of 64 bits. -/
def allOnes : IPv6Address := ⟨AF_INET6, 0, 0, Vector.replicate 16 0xff, 0⟩

theorem network_arithmetic_never_allOnes : (64 ≤ 128) ∧
    ¬ (NetworkRight true allOnes 64 ∧ BroadcastRight true allOnes 64 ∧ SubnetRight true 64) :=
  ⟨by decide, (network_arithmetic_never true allOnes 64 (by decide)).1⟩

/-- The network address keeps bit 64, which lies behind the prefix, and there is no mask. -/
theorem network_arithmetic_allOnes : subnetMask true 64 = .error .assertion ∧
    (networkAddress true allOnes 64).map (fun n => bit n.s6_addr 64) = .ok true ∧
    ¬ NetworkRight true allOnes 64 ∧ ¬ SubnetRight true 64 := by
  have hbit : (networkAddress true allOnes 64).map (fun n => bit n.s6_addr 64) = .ok true := rfl
  refine ⟨rfl, hbit, ?_, not_subnetRight (by decide)⟩
  rintro ⟨n, hn, hright⟩
  rw [hn] at hbit
  have hzero := hright 64
  rw [show bit n.s6_addr 64 = true from Except.ok.inj hbit] at hzero
  simp at hzero

end IPv6Address
end CIM
