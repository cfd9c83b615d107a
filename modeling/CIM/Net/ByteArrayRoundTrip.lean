import CIM.Net.ByteArrayValues

/-!
# Round trip of typed values

A writer appends the bytes of its value and the reader of the same kind takes exactly these, so
a list of values of mixed kinds comes back as it was written.
-/
namespace CIM

theorem toNetwork_ofNetwork (bs : List UInt8) : toNetwork bs.length (ofNetwork bs) = bs := by
  have hgen : ∀ (bs : List UInt8) (acc : Nat),
      toNetwork bs.length (acc * 256 ^ bs.length + ofNetwork bs) = bs := by
    intro bs
    induction bs with
    | nil => intro acc; rfl
    | cons b bs ih =>
        intro acc
        have hb : ofNetwork (b :: bs) = b.toNat * 256 ^ bs.length + ofNetwork bs := by
          simp only [ofNetwork, List.foldl_cons, Nat.zero_mul, Nat.zero_add]
          exact foldl_network b.toNat bs
        have hsum : acc * 256 ^ (b :: bs).length + ofNetwork (b :: bs) =
            (acc * 256 + b.toNat) * 256 ^ bs.length + ofNetwork bs := by
          rw [hb, List.length_cons, pow_succ]
          ring
        have hdiv : ((acc * 256 + b.toNat) * 256 ^ bs.length + ofNetwork bs) / 256 ^ bs.length =
            acc * 256 + b.toNat := by
          rw [Nat.mul_comm, Nat.mul_add_div (Nat.pow_pos (by decide)),
            Nat.div_eq_of_lt (ofNetwork_lt bs), Nat.add_zero]
        have hbyte : UInt8.ofNat (acc * 256 + b.toNat) = b := by
          apply UInt8.toNat.inj
          have hlt := b.toNat_lt
          rw [UInt8.toNat_ofNat']
          omega
        rw [hsum, List.length_cons, toNetwork, hdiv, hbyte, ih]
  have h := hgen bs 0
  rwa [Nat.zero_mul, Nat.zero_add] at h

theorem ofHost_toHost {k n : Nat} (hn : n < 256 ^ k) : ofHost (toHost k n) = n := by
  rw [ofHost, toHost, List.reverse_reverse, ofNetwork_toNetwork, Nat.mod_eq_of_lt hn]

theorem length_toHost (k n : Nat) : (toHost k n).length = k := by
  rw [toHost, List.length_reverse, length_toNetwork]

theorem byteswap_lt (k n : Nat) : byteswap k n < 256 ^ k := by
  have h := ofNetwork_lt (toHost k n)
  rwa [length_toHost] at h

theorem byteswap_byteswap {k n : Nat} (hn : n < 256 ^ k) : byteswap k (byteswap k n) = n := by
  have h := toNetwork_ofNetwork (toHost k n)
  rw [length_toHost] at h
  rw [byteswap, toHost, byteswap, h, toHost, List.reverse_reverse, ofNetwork_toNetwork,
    Nat.mod_eq_of_lt hn]

/-- Decoding twice a magnitude, less one for a negative number. -/
theorem zigzag32 (u : UInt32) (hpos : 0 < u.toNat) (hlt : u.toNat < 2147483648) :
    ((u * 2 - 1) >>> 1) ^^^ -((u * 2 - 1) &&& 1) = -u := by
  have hhalf : (u * 2 - 1) >>> 1 = u - 1 := by
    apply UInt32.toNat.inj
    simp [UInt32.toNat_shiftRight, UInt32.toNat_sub, UInt32.toNat_mul]
    omega
  have hodd : (u * 2 - 1) &&& 1 = 1 := by
    apply UInt32.toNat.inj
    simp [UInt32.toNat_sub, UInt32.toNat_mul, Nat.and_one_is_mod]
  rw [hhalf, hodd, UInt32.xor_neg_one, UInt32.not_eq_neg_sub, UInt32.neg_sub]
  grind

theorem zigzag32_even (u : UInt32) (hlt : u.toNat < 2147483648) :
    ((u * 2) >>> 1) ^^^ -((u * 2) &&& 1) = u := by
  have hhalf : (u * 2) >>> 1 = u := by
    apply UInt32.toNat.inj
    simp [UInt32.toNat_shiftRight, UInt32.toNat_mul]
    omega
  have heven : (u * 2) &&& 1 = 0 := by
    apply UInt32.toNat.inj
    simp [UInt32.toNat_mul, Nat.and_one_is_mod]
  rw [hhalf, heven]
  simp

theorem zigzag64 (u : UInt64) (hpos : 0 < u.toNat) (hlt : u.toNat < 9223372036854775808) :
    ((u * 2 - 1) >>> 1) ^^^ -((u * 2 - 1) &&& 1) = -u := by
  have hhalf : (u * 2 - 1) >>> 1 = u - 1 := by
    apply UInt64.toNat.inj
    simp [UInt64.toNat_shiftRight, UInt64.toNat_sub, UInt64.toNat_mul]
    omega
  have hodd : (u * 2 - 1) &&& 1 = 1 := by
    apply UInt64.toNat.inj
    simp [UInt64.toNat_sub, UInt64.toNat_mul, Nat.and_one_is_mod]
  rw [hhalf, hodd, UInt64.xor_neg_one, UInt64.not_eq_neg_sub, UInt64.neg_sub]
  grind

theorem zigzag64_even (u : UInt64) (hlt : u.toNat < 9223372036854775808) :
    ((u * 2) >>> 1) ^^^ -((u * 2) &&& 1) = u := by
  have hhalf : (u * 2) >>> 1 = u := by
    apply UInt64.toNat.inj
    simp [UInt64.toNat_shiftRight, UInt64.toNat_mul]
    omega
  have heven : (u * 2) &&& 1 = 0 := by
    apply UInt64.toNat.inj
    simp [UInt64.toNat_mul, Nat.and_one_is_mod]
  rw [hhalf, heven]
  simp

theorem decode_encodeZigzag32 {v : Int32} (hv : v ≠ Int32.minValue) :
    decodeZigzag32 (encodeZigzag32 v) = v := by
  have hmin : v.toInt ≠ -2147483648 := fun he => hv (Int32.toInt_inj.mp he)
  have hge := Int32.le_toInt v
  have hlt := Int32.toInt_lt v
  unfold encodeZigzag32 decodeZigzag32
  by_cases hneg : v < 0
  · rw [if_pos hneg]
    have hneg' := Int32.lt_iff_toInt_lt.mp hneg
    have hval : (-v).toInt = -v.toInt := by
      rw [Int32.toInt_neg, Int.bmod_def]
      simp at *
      omega
    have hnonneg : 0 ≤ -v := by
      rw [Int32.le_iff_toInt_le, hval]
      simp at *
      omega
    have hmag : 0 < (-v).toUInt32.toNat ∧ (-v).toUInt32.toNat < 2147483648 := by
      rw [Int32.toNat_toUInt32_of_le hnonneg, Int32.toNatClampNeg, hval]
      simp at *
      omega
    rw [zigzag32 _ hmag.1 hmag.2, UInt32.toInt32_neg, Int32.toInt32_toUInt32, Int32.neg_neg]
  · rw [if_neg hneg]
    have hnonneg : 0 ≤ v := by
      rw [Int32.lt_iff_toInt_lt] at hneg
      rw [Int32.le_iff_toInt_le]
      exact Int.not_lt.mp hneg
    have hmag : v.toUInt32.toNat < 2147483648 := by
      rw [Int32.toNat_toUInt32_of_le hnonneg]
      change v.toInt.toNat < _
      omega
    rw [zigzag32_even _ hmag, Int32.toInt32_toUInt32]

theorem decode_encodeZigzag64 {v : Int64} (hv : v ≠ Int64.minValue) :
    decodeZigzag64 (encodeZigzag64 v) = v := by
  have hmin : v.toInt ≠ -9223372036854775808 := fun he => hv (Int64.toInt_inj.mp he)
  have hge := Int64.le_toInt v
  have hlt := Int64.toInt_lt v
  unfold encodeZigzag64 decodeZigzag64
  by_cases hneg : v < 0
  · rw [if_pos hneg]
    have hneg' := Int64.lt_iff_toInt_lt.mp hneg
    have hval : (-v).toInt = -v.toInt := by
      rw [Int64.toInt_neg, Int.bmod_def]
      simp at *
      omega
    have hnonneg : 0 ≤ -v := by
      rw [Int64.le_iff_toInt_le, hval]
      simp at *
      omega
    have hmag : 0 < (-v).toUInt64.toNat ∧ (-v).toUInt64.toNat < 9223372036854775808 := by
      rw [Int64.toNat_toUInt64_of_le hnonneg, Int64.toNatClampNeg, hval]
      simp at *
      omega
    rw [zigzag64 _ hmag.1 hmag.2, UInt64.toInt64_neg, Int64.toInt64_toUInt64, Int64.neg_neg]
  · rw [if_neg hneg]
    have hnonneg : 0 ≤ v := by
      rw [Int64.lt_iff_toInt_lt] at hneg
      rw [Int64.le_iff_toInt_le]
      exact Int.not_lt.mp hneg
    have hmag : v.toUInt64.toNat < 9223372036854775808 := by
      rw [Int64.toNat_toUInt64_of_le hnonneg]
      change v.toInt.toNat < _
      omega
    rw [zigzag64_even _ hmag, Int64.toInt64_toUInt64]

namespace ByteArray

open Exec

variable {base : Nat} {e : Endian} {ba ba' : ByteArray} {bs bs₁ bs₂ rest : List UInt8}
  {α β : Type}

/-- Written from the start in one byte order. -/
structure Writing (base : Nat) (e : Endian) (ba : ByteArray) (bs : List UInt8) : Prop where
  filled : Filled base ba bs
  endian : ba.endian = e

/-- Read from, in one byte order, with `bs` still to come. -/
structure Reading (base : Nat) (e : Endian) (ba : ByteArray) (bs : List UInt8) : Prop where
  unread : Unread base ba bs
  endian : ba.endian = e

/-- The program appends `bs`. -/
def Writes (e : Endian) (w : ByteArrayM Unit) (bs : List UInt8) : Prop :=
  ∀ base ba bs₀, Writing base e ba bs₀ →
    ∃ ba', w ba = .ok ⟨⟩ ba' ∧ Writing base e ba' (bs₀ ++ bs)

/-- The program takes `bs` and returns `a`. -/
def Reads (e : Endian) (r : ByteArrayM α) (bs : List UInt8) (a : α) : Prop :=
  ∀ base ba rest, Reading base e ba (bs ++ rest) →
    ∃ ba', r ba = .ok a ba' ∧ Reading base e ba' rest

/-- A reader that leaves the byte order as it is. -/
def Steady (r : ByteArrayM α) : Prop :=
  ∀ ba a ba', Linked ba → r ba = .ok a ba' → Linked ba' ∧ ba'.endian = ba.endian

theorem steady_pure (a : α) : Steady (pure a : ByteArrayM α) := by
  intro ba b ba' hl h
  cases h
  exact ⟨hl, rfl⟩

theorem Steady.bind {r : ByteArrayM α} {f : α → ByteArrayM β} (hr : Steady r)
    (hf : ∀ a, Steady (f a)) : Steady (r >>= f) := by
  intro ba b ba' hl h
  obtain ⟨a, ba₁, h₁, h₂⟩ := of_bind_ok h
  obtain ⟨hl₁, he₁⟩ := hr ba a ba₁ hl h₁
  obtain ⟨hl₂, he₂⟩ := hf a ba₁ b ba' hl₁ h₂
  exact ⟨hl₂, he₂.trans he₁⟩

theorem steady_read (n : Nat) : Steady (read n) := by
  intro ba a ba' hl h
  by_cases hn : n ≤ ba.getReadSize
  · obtain ⟨ba₁, hr, hl₁, hk, -⟩ := read_spec hl hn
    rw [hr] at h
    cases h
    exact ⟨hl₁, hk.endian⟩
  · rw [read_short (Nat.lt_of_not_le hn)] at h
    cases h

theorem steady_readFuint8 : Steady readFuint8 :=
  (steady_read 1).bind fun _ => steady_pure _

theorem steady_readVint (bits : Nat) : ∀ k i result, Steady (readVint bits k i result) := by
  intro k
  induction k with
  | zero =>
      intro i result
      exact steady_pure _
  | succ k ih =>
      intro i result
      refine steady_readFuint8.bind fun b => ?_
      by_cases hb : b < 0x80
      · rw [if_pos hb]
        exact steady_pure _
      · rw [if_neg hb]
        exact ih _ _

theorem steady_readUint32 : Steady readUint32 :=
  (steady_readVint 32 5 0 0).bind fun _ => steady_pure _

theorem steady_readUint64 : Steady readUint64 :=
  (steady_readVint 64 10 0 0).bind fun _ => steady_pure _

/-- What `Unread` says of a steady reader, with the byte order. -/
theorem Steady.reads {r : ByteArrayM α} {a : α} (hs : Steady r)
    (h : ∀ base ba rest, Unread base ba (bs ++ rest) →
      ∃ ba', r ba = .ok a ba' ∧ Unread base ba' rest) : Reads e r bs a := by
  intro base ba rest hr
  obtain ⟨ba', hok, hu⟩ := h base ba rest hr.unread
  exact ⟨ba', hok, hu, (hs ba a ba' hr.unread.linked hok).2.trans hr.endian⟩

theorem writes_write (buf : List UInt8) : Writes e (write buf) buf := by
  intro base ba bs₀ h
  obtain ⟨ba', hw, hf⟩ := h.filled.write buf
  obtain ⟨-, ba₁, hw₁, -, hk, -⟩ := write_spec h.filled.linked buf
  rw [hw] at hw₁
  cases hw₁
  exact ⟨ba', hw, hf, hk.endian.trans h.endian⟩

theorem Writes.bind {w₁ w₂ : ByteArrayM Unit} (h₁ : Writes e w₁ bs₁) (h₂ : Writes e w₂ bs₂) :
    Writes e (do w₁; w₂) (bs₁ ++ bs₂) := by
  intro base ba bs₀ h
  obtain ⟨ba₁, hw₁, hf₁⟩ := h₁ base ba bs₀ h
  obtain ⟨ba₂, hw₂, hf₂⟩ := h₂ base ba₁ _ hf₁
  rw [List.append_assoc] at hf₂
  exact ⟨ba₂, (bind_ok hw₁).trans hw₂, hf₂⟩

theorem reads_pure (a : α) : Reads e (pure a) [] a := by
  intro base ba rest h
  exact ⟨ba, rfl, h⟩

theorem Reads.bind {r : ByteArrayM α} {f : α → ByteArrayM β} {a : α} {b : β}
    (h₁ : Reads e r bs₁ a) (h₂ : Reads e (f a) bs₂ b) : Reads e (r >>= f) (bs₁ ++ bs₂) b := by
  intro base ba rest h
  rw [List.append_assoc] at h
  obtain ⟨ba₁, hr₁, hf₁⟩ := h₁ base ba _ h
  obtain ⟨ba₂, hr₂, hf₂⟩ := h₂ base ba₁ rest hf₁
  exact ⟨ba₂, (bind_ok hr₁).trans hr₂, hf₂⟩

/-- A value that is computed from what was read. -/
theorem Reads.then_pure {r : ByteArrayM α} {f : α → β} {a : α} (h : Reads e r bs a) :
    Reads e (do return f (← r)) bs (f a) := by
  have hb : Reads e (r >>= fun x => pure (f x)) (bs ++ []) (f a) := h.bind (reads_pure (f a))
  rwa [List.append_nil] at hb

theorem Reads.map {r : ByteArrayM α} {f : α → β} {a : α} (h : Reads e r bs a) :
    Reads e (f <$> r) bs (f a) := by
  intro base ba rest hr
  obtain ⟨ba', hok, h'⟩ := h base ba rest hr
  refine ⟨ba', ?_, h'⟩
  change EStateM.map f r ba = _
  rw [EStateM.map, hok]

theorem reads_read (bs : List UInt8) : Reads e (read bs.length) bs bs :=
  (steady_read bs.length).reads fun _ _ _ h => h.read

/-- The bytes of a fixed-width integer in the array's byte order. -/
def fixedBytes (e : Endian) (k n : Nat) : List UInt8 :=
  toHost k (if hostEndian ≠ e then byteswap k n else n)

theorem writes_fixed (k n : Nat) : Writes e (writeFixed k n) (fixedBytes e k n) := by
  intro base ba bs₀ h
  obtain ⟨ba', hw, hf⟩ := writes_write (fixedBytes e k n) base ba bs₀ h
  refine ⟨ba', ?_, hf⟩
  rw [← h.endian] at hw
  exact hw

theorem reads_fixed {k n : Nat} (hn : n < 256 ^ k) :
    Reads e (readFixed k) (fixedBytes e k n) n := by
  intro base ba rest h
  have hlen : (fixedBytes e k n).length = k := length_toHost _ _
  obtain ⟨ba', hr, hf⟩ := reads_read (fixedBytes e k n) base ba rest h
  rw [hlen] at hr
  refine ⟨ba', ?_, hf⟩
  have hvalue : (if hostEndian ≠ ba'.endian then byteswap k (ofHost (fixedBytes e k n))
      else ofHost (fixedBytes e k n)) = n := by
    rw [hf.endian, fixedBytes]
    by_cases he : hostEndian ≠ e
    · rw [if_pos he, if_pos he, ofHost_toHost (byteswap_lt k n), byteswap_byteswap hn]
    · rw [if_neg he, if_neg he, ofHost_toHost hn]
  refine (bind_ok hr).trans ?_
  change EStateM.Result.ok _ ba' = _
  rw [hvalue]

theorem reads_chars (s : Str) : Reads e (readChars s.data.length) s.data s := by
  have h : Reads e (readChars s.data.length) (s.data ++ []) s := by
    refine (reads_read s.data).bind ?_
    rw [dif_pos s.size_lt]
    exact reads_pure s
  rwa [List.append_nil] at h

theorem reads_uint8 (v : UInt8) : Reads e readFuint8 [v] v :=
  steady_readFuint8.reads fun _ _ _ h => h.readFuint8

theorem reads_uint32 (v : UInt32) : Reads e readUint32 (vint 5 v.toNat) v :=
  steady_readUint32.reads fun _ _ _ h => h.readUint32

theorem reads_uint64 (v : UInt64) : Reads e readUint64 (vint 10 v.toNat) v :=
  steady_readUint64.reads fun _ _ _ h => h.readUint64

theorem reads_fuint16 (v : UInt16) : Reads e readFuint16 (fixedBytes e 2 v.toNat) v := by
  have h : Reads e readFuint16 (fixedBytes e 2 v.toNat) (UInt16.ofNat v.toNat) :=
    (reads_fixed v.toNat_lt).then_pure
  rwa [UInt16.ofNat_toNat] at h

theorem reads_fuint32 (v : UInt32) : Reads e readFuint32 (fixedBytes e 4 v.toNat) v := by
  have h : Reads e readFuint32 (fixedBytes e 4 v.toNat) (UInt32.ofNat v.toNat) :=
    (reads_fixed v.toNat_lt).then_pure
  rwa [UInt32.ofNat_toNat] at h

theorem reads_fuint64 (v : UInt64) : Reads e readFuint64 (fixedBytes e 8 v.toNat) v := by
  have h : Reads e readFuint64 (fixedBytes e 8 v.toNat) (UInt64.ofNat v.toNat) :=
    (reads_fixed v.toNat_lt).then_pure
  rwa [UInt64.ofNat_toNat] at h

theorem reads_fint16 (v : Int16) : Reads e readFint16 (fixedBytes e 2 v.toUInt16.toNat) v := by
  have h : Reads e readFint16 (fixedBytes e 2 v.toUInt16.toNat)
      (UInt16.ofNat v.toUInt16.toNat).toInt16 :=
    (reads_fixed v.toUInt16.toNat_lt).then_pure (f := fun n => (UInt16.ofNat n).toInt16)
  rwa [UInt16.ofNat_toNat, Int16.toInt16_toUInt16] at h

theorem reads_fint32 (v : Int32) : Reads e readFint32 (fixedBytes e 4 v.toUInt32.toNat) v := by
  have h : Reads e readFint32 (fixedBytes e 4 v.toUInt32.toNat)
      (UInt32.ofNat v.toUInt32.toNat).toInt32 :=
    (reads_fixed v.toUInt32.toNat_lt).then_pure (f := fun n => (UInt32.ofNat n).toInt32)
  rwa [UInt32.ofNat_toNat, Int32.toInt32_toUInt32] at h

theorem reads_fint64 (v : Int64) : Reads e readFint64 (fixedBytes e 8 v.toUInt64.toNat) v := by
  have h : Reads e readFint64 (fixedBytes e 8 v.toUInt64.toNat)
      (UInt64.ofNat v.toUInt64.toNat).toInt64 :=
    (reads_fixed v.toUInt64.toNat_lt).then_pure (f := fun n => (UInt64.ofNat n).toInt64)
  rwa [UInt64.ofNat_toNat, Int64.toInt64_toUInt64] at h

/-- The values that come back: a zigzag integer above the least one, and a string whose length
fits into its length field. -/
def Value.Encodable : Value → Prop
  | .int32 v => v ≠ Int32.minValue
  | .int64 v => v ≠ Int64.minValue
  | .stringF32 v => v.data.length < 4294967296
  | _ => True

theorem reads_string32 {s : Str} (hs : s.data.length < 4294967296) :
    Reads e readString32 (fixedBytes e 4 (UInt32.ofNat s.data.length).toNat ++ s.data) s := by
  refine (reads_fuint32 _).bind ?_
  have hlen : (UInt32.ofNat s.data.length).toNat = s.data.length := by
    rw [UInt32.toNat_ofNat']
    omega
  rw [hlen]
  exact reads_chars s

theorem reads_string64 (s : Str) :
    Reads e readString64 (fixedBytes e 8 (UInt64.ofNat s.data.length).toNat ++ s.data) s := by
  refine (reads_fuint64 _).bind ?_
  rw [Str.length_uint64]
  exact reads_chars s

theorem reads_stringVint (s : Str) :
    Reads e readStringVint (vint 10 (UInt64.ofNat s.data.length).toNat ++ s.data) s := by
  refine (reads_uint64 _).bind ?_
  change Reads e (readChars (UInt64.ofNat s.data.length).toNat) s.data s
  rw [Str.length_uint64]
  exact reads_chars s

/-- Each writer has its reader. -/
theorem Value.codec (e : Endian) {v : Value} (hv : v.Encodable) :
    ∃ bs, Writes e v.write bs ∧ Reads e v.kind.read bs v := by
  cases v with
  | fint8 v =>
      have h : Reads e readFint8 [v.toUInt8] v.toUInt8.toInt8 := (reads_uint8 _).then_pure
      rw [Int8.toInt8_toUInt8] at h
      have hw : Writes e (writeFint8 v) [v.toUInt8] := writes_write _
      exact ⟨_, hw, h.map⟩
  | fuint8 v =>
      have hw : Writes e (writeFuint8 v) [v] := writes_write _
      exact ⟨_, hw, (reads_uint8 v).map⟩
  | fint16 v => exact ⟨_, writes_fixed _ _, (reads_fint16 v).map⟩
  | fuint16 v => exact ⟨_, writes_fixed _ _, (reads_fuint16 v).map⟩
  | fint32 v => exact ⟨_, writes_fixed _ _, (reads_fint32 v).map⟩
  | fuint32 v => exact ⟨_, writes_fixed _ _, (reads_fuint32 v).map⟩
  | fint64 v => exact ⟨_, writes_fixed _ _, (reads_fint64 v).map⟩
  | fuint64 v => exact ⟨_, writes_fixed _ _, (reads_fuint64 v).map⟩
  | int32 v =>
      have h : Reads e readInt32 (vint 5 (encodeZigzag32 v).toNat)
          (decodeZigzag32 (encodeZigzag32 v)) := (reads_uint32 _).then_pure
      rw [decode_encodeZigzag32 hv] at h
      exact ⟨_, writes_write _, h.map⟩
  | uint32 v => exact ⟨_, writes_write _, (reads_uint32 v).map⟩
  | int64 v =>
      have h : Reads e readInt64 (vint 10 (encodeZigzag64 v).toNat)
          (decodeZigzag64 (encodeZigzag64 v)) := (reads_uint64 _).then_pure
      rw [decode_encodeZigzag64 hv] at h
      exact ⟨_, writes_write _, h.map⟩
  | uint64 v => exact ⟨_, writes_write _, (reads_uint64 v).map⟩
  | stringF32 v =>
      exact ⟨_, (writes_fixed _ _).bind (writes_write _), (reads_string32 hv).map⟩
  | stringF64 v =>
      exact ⟨_, (writes_fixed _ _).bind (writes_write _), (reads_string64 v).map⟩
  | stringVint v =>
      exact ⟨_, (writes_write _).bind (writes_write _), (reads_stringVint v).map⟩

/-- A list of values: what is written first is read first. -/
theorem codec_all (e : Endian) {vs : List Value} (hv : ∀ v ∈ vs, v.Encodable) :
    ∃ bs, Writes e (writeAll vs) bs ∧ Reads e (readAll (vs.map Value.kind)) bs vs := by
  induction vs with
  | nil =>
      refine ⟨[], ?_, reads_pure []⟩
      intro base ba bs₀ h
      rw [List.append_nil]
      exact ⟨ba, rfl, h⟩
  | cons v vs ih =>
      obtain ⟨bs₁, hw₁, hr₁⟩ := Value.codec e (hv v List.mem_cons_self)
      obtain ⟨bs₂, hw₂, hr₂⟩ := ih fun w hw => hv w (List.mem_cons_of_mem v hw)
      refine ⟨bs₁ ++ bs₂, hw₁.bind hw₂, hr₁.bind ?_⟩
      exact hr₂.then_pure

theorem Writing.rewind (h : Writing base e ba bs) :
    ∃ ba', setPosition 0 ba = .ok ⟨⟩ ba' ∧ Reading base e ba' bs := by
  obtain ⟨ba', hs, hu, -⟩ := h.filled.rewind
  have hcap : 0 < ba.capacity := by
    rw [h.filled.linked.capacity]
    exact Nat.mul_pos h.filled.linked.base_pos (List.length_pos_of_ne_nil h.filled.linked.root)
  obtain ⟨ba₁, hs₁, -, hk, -⟩ := setPosition_spec h.filled.linked hcap
  rw [hs] at hs₁
  cases hs₁
  exact ⟨ba', hs, hu, hk.endian.trans h.endian⟩

/-- The new array in the byte order that `setIsLittleEndian` chose. -/
theorem new_writing (hb : 1 ≤ base) (arena : Nat → Nat → UInt8) (e : Endian) :
    Writing base e { new base arena with endian := e } [] := by
  have h := new_filled hb arena
  have hl : Linked { new base arena with endian := e } :=
    ⟨h.linked.base_pos, h.linked.uniform, h.linked.root, h.linked.capacity, h.linked.position_le,
      h.linked.dataSize_le, h.linked.cur⟩
  exact ⟨⟨hl, rfl, rfl, rfl, rfl⟩, rfl⟩

/-- Writing the bytes, going back and reading a part of them. -/
theorem writeThenRead_part (hb : 1 ≤ base) (arena : Nat → Nat → UInt8) (little : Bool)
    {vs ws : List Value} (rest : List UInt8)
    (hw : Writes (if little then .little else .big) (writeAll vs) (bs ++ rest))
    (hr : Reads (if little then .little else .big) (readAll (vs.map Value.kind)) bs ws) :
    ∃ ba, writeThenRead little vs (new base arena) = .ok ws ba ∧
      ba.getReadSize = rest.length := by
  obtain ⟨ba₁, hw₁, hf₁⟩ := hw base _ [] (new_writing hb arena _)
  obtain ⟨ba₂, hs, hf₂⟩ := hf₁.rewind
  rw [List.nil_append] at hf₂
  obtain ⟨ba₃, hr₃, hf₃⟩ := hr base ba₂ rest hf₂
  refine ⟨ba₃, ?_, ?_⟩
  · have hset : setIsLittleEndian little (new base arena) =
        .ok ⟨⟩ { new base arena with endian := if little then .little else .big } := rfl
    exact (bind_ok hset).trans ((bind_ok hw₁).trans ((bind_ok hs).trans hr₃))
  · rw [getReadSize, hf₃.unread.dataSize, Nat.add_sub_cancel_left]

/-- Values of any kinds written into an empty array are read back, and nothing is left. -/
theorem writeThenRead_values (hb : 1 ≤ base) (arena : Nat → Nat → UInt8) (little : Bool)
    (vs : List Value) (hv : ∀ v ∈ vs, v.Encodable) :
    ∃ ba, writeThenRead little vs (new base arena) = .ok vs ba ∧ ba.getReadSize = 0 := by
  obtain ⟨bs, hw, hr⟩ := codec_all (if little then .little else .big) hv
  exact writeThenRead_part hb arena little [] (by rw [List.append_nil]; exact hw) hr

theorem writeThenRead_values_mixed :
    ∃ ba, writeThenRead true [.fint16 (-2), .int32 (-5), .stringF32 ⟨[104, 105], by decide⟩]
      (new 1 fun _ _ => 0) =
        .ok [.fint16 (-2), .int32 (-5), .stringF32 ⟨[104, 105], by decide⟩] ba ∧
      ba.getReadSize = 0 := by
  apply writeThenRead_values (Nat.le_refl 1)
  intro v hv
  simp only [List.mem_cons, List.not_mem_nil, or_false] at hv
  rcases hv with rfl | rfl | rfl
  · exact trivial
  · exact (by decide : (-5 : Int32) ≠ Int32.minValue)
  · exact (by decide : 2 < 4294967296)

/-- A string whose length is `2 ^ 32`. -/
def longString : Str := ⟨List.replicate 4294967296 0, by rw [List.length_replicate]; decide⟩

theorem length_longString : longString.data.length = 4294967296 := List.length_replicate

/-- The length field of the string is zero: it is read back empty, and its bytes are left. -/
theorem writeThenRead_longString :
    ∃ ba, writeThenRead false [.stringF32 longString] (new 1 fun _ _ => 0) =
        .ok [.stringF32 ⟨[], by decide⟩] ba ∧ ba.getReadSize = 4294967296 := by
  have hzero : UInt32.ofNat longString.data.length = 0 := by
    rw [length_longString]
    rfl
  have hw : Writes .big (writeAll [.stringF32 longString])
      (fixedBytes .big 4 0 ++ longString.data) := by
    have h : Writes .big (writeStringF32 longString) _ :=
      (writes_fixed 4 (UInt32.ofNat longString.data.length).toNat).bind
        (writes_write longString.data)
    rw [hzero] at h
    intro base ba bs₀ hf
    obtain ⟨ba', hok, hf'⟩ := h base ba bs₀ hf
    exact ⟨ba', bind_ok hok, hf'⟩
  have hr : Reads .big (readAll [.stringF32]) (fixedBytes .big 4 0)
      [.stringF32 ⟨[], by decide⟩] := by
    have h := (reads_string32 (e := .big) (s := ⟨[], by decide⟩) (by decide)).map
      (f := Value.stringF32)
    rw [List.append_nil] at h
    exact (h.map (f := fun v => [v]) : _)
  have hpart := writeThenRead_part (Nat.le_refl 1) (fun _ _ => 0) false longString.data hw hr
  rw [length_longString] at hpart
  exact hpart

end ByteArray

end CIM
