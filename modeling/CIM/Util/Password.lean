import Mathlib.Data.List.TakeWhile
import CIM.Net.Endian
import CIM.Util.UrlCoding

/-!
# Password records

`Hash` writes a record and `Verify` reads one. PBKDF2 is not part of the repository.
-/
namespace CIM.Password

open StringUtil (byte)

abbrev Bytes : Type := List UInt8

/-- `PKCS5_PBKDF2_HMAC` with its lengths as they are handed over, and what it leaves in the
buffer; none where it does not return 1. -/
structure Pbkdf2 where
  run : Bytes → Int → Bytes → Int → Int → Int → Bytes → Option Bytes
  length_run : ∀ pass passlen salt saltlen iter keylen out dk,
    run pass passlen salt saltlen iter keylen out = some dk → dk.length = out.length

def Pbkdf2.Succeeds (P : Pbkdf2) : Prop :=
  ∀ pass passlen salt saltlen iter keylen out,
    (P.run pass passlen salt saltlen iter keylen out).isSome

/-- The call that both functions make, for a key of `len` bytes. -/
def Pbkdf2.derive (P : Pbkdf2) (password salt : Bytes) (iterations : UInt32) (len : Nat) :
    Option Bytes :=
  P.run password (int32 password.length) salt (int32 salt.length) (int32 iterations.toNat)
    (int32 len) (List.replicate len 0)

/-! ## Numbers in text -/

/-- `std::setw(2)` of a byte under `std::hex`. -/
def hexPair (b : UInt8) : Bytes :=
  [byte (b.toNat / 16).digitChar, byte (b.toNat % 16).digitChar]

def to_hex (data : Bytes) : Bytes := data.flatMap hexPair

/-- The value of a hexadecimal digit. -/
def hexValue (c : UInt8) : Option Nat :=
  if byte '0' ≤ c ∧ c ≤ byte '9' then some (c.toNat - 48)
  else if byte 'a' ≤ c ∧ c ≤ byte 'f' then some (c.toNat - 87)
  else if byte 'A' ≤ c ∧ c ≤ byte 'F' then some (c.toNat - 55)
  else none

def isspace (c : UInt8) : Bool := c == byte ' ' || (9 ≤ c && c ≤ 13)

def isdigit (c : UInt8) : Bool := byte '0' ≤ c && c ≤ byte '9'

/-- The characters of a C string behind its white space. -/
def cText (s : Bytes) : Bytes := (s.takeWhile (· != 0)).dropWhile isspace

/-- `sscanf` for `%02x`: two characters behind white space, of which one may be a sign, and the
second need not belong to the number. C libraries differ in `0x` without a digit. -/
def sscanf (zero_x : Bool) (s : Bytes) : Option UInt8 :=
  match (cText s).take 2 with
  | [] => none
  | [c] => (hexValue c).map UInt8.ofNat
  | c :: d :: _ =>
      if c = byte '+' then (hexValue d).map UInt8.ofNat
      else if c = byte '-' then (hexValue d).map fun v => 0 - UInt8.ofNat v
      else
        match hexValue c, hexValue d with
        | none, _ => none
        | some hi, some lo => some (UInt8.ofNat (16 * hi + lo))
        | some hi, none =>
            if c = byte '0' ∧ (d = byte 'x' ∨ d = byte 'X') then if zero_x then some 0 else none
            else some (UInt8.ofNat hi)

/-- The loop of `from_hex`; what `sscanf` reads may go beyond the pair. -/
def from_hexLoop (zero_x : Bool) : Bytes → Option Bytes
  | c :: d :: rest =>
      match sscanf zero_x (c :: d :: rest) with
      | none => none
      | some b => (from_hexLoop zero_x rest).map (b :: ·)
  | _ => some []

def from_hex (zero_x : Bool) (hex : Bytes) : Option Bytes :=
  if hex.length % 2 ≠ 0 then none else from_hexLoop zero_x hex

/-- Digits as a number. -/
def value (digits : Bytes) : Nat := digits.foldl (fun n c => 10 * n + (c.toNat - 48)) 0

def printed (n : Nat) : Bytes := (Nat.toDigits 10 n).map byte

/-- `std::stoul`: white space, a sign, and the digits up to whatever is behind them; none where it
throws. -/
def stoul (s : Bytes) : Option UInt64 :=
  let (negative, s) :=
    match cText s with
    | [] => (false, [])
    | c :: rest =>
        if c = byte '-' then (true, rest)
        else if c = byte '+' then (false, rest)
        else (false, c :: rest)
  let digits := s.takeWhile isdigit
  if digits = [] ∨ 18446744073709551616 ≤ value digits then none
  else some (if negative then 0 - UInt64.ofNat (value digits) else UInt64.ofNat (value digits))

/-! ## Records -/

def hashPrefix : Bytes := "pbkdf2_sha256$".toList.map byte

def dollar : UInt8 := byte '$'

/-- What `Hash` puts together. -/
def record (iterations : UInt32) (salt dk : Bytes) : Bytes :=
  hashPrefix ++ printed iterations.toNat ++ dollar :: (to_hex salt ++ dollar :: to_hex dk)

/-- `rand` is what `RAND_bytes` stores; none where it does not return 1. -/
def Hash (P : Pbkdf2) (rand : Option Bytes) (password : Bytes) (iterations : UInt32) : Bytes :=
  match rand with
  | none => []
  | some salt =>
      match P.run password (int32 password.length) salt 16 (int32 iterations.toNat) 32
        (List.replicate 32 0) with
      | none => []
      | some dk => record iterations salt dk

/-- The text up to the first `$`, and what is behind it. -/
def cut : Bytes → Option (Bytes × Bytes)
  | [] => none
  | c :: rest => if c = dollar then some ([], rest) else (cut rest).map fun r => (c :: r.1, r.2)

/-- The first half of `Verify`: iterations, salt and digest of a record. -/
def readRecord (zero_x : Bool) (stored_hash : Bytes) : Option (UInt32 × Bytes × Bytes) :=
  if hashPrefix.isPrefixOf stored_hash then
    match cut (stored_hash.drop hashPrefix.length) with
    | none => none
    | some (iter_str, rest) =>
        match cut rest with
        | none => none
        | some (salt_hex, dk_hex) =>
            match stoul iter_str, from_hex zero_x salt_hex, from_hex zero_x dk_hex with
            | some iterations, some salt, some dk_ref => some (iterations.toUInt32, salt, dk_ref)
            | _, _, _ => none
  else none

/-- The differences of all bytes, one laid over the other. -/
def diff (dk dk_ref : Bytes) : UInt8 := (List.zipWith (· ^^^ ·) dk dk_ref).foldl (· ||| ·) 0

def Verify (P : Pbkdf2) (zero_x : Bool) (password stored_hash : Bytes) : Bool :=
  match readRecord zero_x stored_hash with
  | none => false
  | some (iterations, salt, dk_ref) =>
      match P.derive password salt iterations dk_ref.length with
      | none => false
      | some dk => dk.length == dk_ref.length && diff dk dk_ref == 0

/-! ## Numbers are read back -/

theorem hexValue_digitChar {d : Nat} (hd : d < 16) : hexValue (byte d.digitChar) = some d := by
  interval_cases d <;> rfl

theorem isdigit_digitChar {d : Nat} (hd : d < 10) :
    isdigit (byte d.digitChar) = true ∧ (byte d.digitChar).toNat - 48 = d := by
  interval_cases d <;> exact ⟨rfl, rfl⟩

/-- No digit is a null, a blank, a sign or the separator. -/
theorem hexValue_isSome {c : UInt8} (h : (hexValue c).isSome) :
    c ≠ 0 ∧ isspace c = false ∧ c ≠ byte '+' ∧ c ≠ byte '-' ∧ c ≠ dollar := by
  have hle : 48 ≤ c.toNat := by
    unfold hexValue at h
    split_ifs at h with h0 ha hA
    · exact UInt8.le_iff_toNat_le.mp h0.1
    · exact Nat.le_trans (by decide) (UInt8.le_iff_toNat_le.mp ha.1)
    · exact Nat.le_trans (by decide) (UInt8.le_iff_toNat_le.mp hA.1)
    · cases h
  have hne : ∀ d : UInt8, d.toNat < 48 → c ≠ d := by
    rintro d hd rfl
    omega
  have hspace : isspace c = false := by
    have hblank := hne (byte ' ') (by decide)
    have hhigh : ¬ c ≤ 13 := fun hc => absurd (UInt8.le_iff_toNat_le.mp hc) (by
      change ¬ c.toNat ≤ 13
      omega)
    simp [isspace, hblank, hhigh]
  exact ⟨hne 0 (by decide), hspace, hne _ (by decide), hne _ (by decide), hne _ (by decide)⟩

theorem isdigit_hexValue {c : UInt8} (h : isdigit c = true) : (hexValue c).isSome := by
  simp only [isdigit, Bool.and_eq_true, decide_eq_true_eq] at h
  rw [hexValue, if_pos h]
  rfl

theorem cText_of_digit {c : UInt8} (h : (hexValue c).isSome) (rest : Bytes) :
    cText (c :: rest) = c :: rest.takeWhile (· != 0) := by
  obtain ⟨h0, hspace, -⟩ := hexValue_isSome h
  rw [cText, List.takeWhile_cons_of_pos (by simpa using h0),
    List.dropWhile_cons_of_neg (by simp [hspace])]

def hexByte (c d : UInt8) : Option UInt8 :=
  match hexValue c, hexValue d with
  | some hi, some lo => some (UInt8.ofNat (16 * hi + lo))
  | _, _ => none

/-- The bytes that pairs of digits stand for. -/
def decodeHex : Bytes → Option Bytes
  | [] => some []
  | c :: d :: rest => (decodeHex rest).bind fun data => (hexByte c d).map (· :: data)
  | [_] => none

/-- The number that decimal digits stand for. -/
def decodeDecimal (s : Bytes) : Option Nat :=
  if s ≠ [] ∧ s.all isdigit then some (value s) else none

theorem decodeHex_cons {c d : UInt8} {rest data : Bytes}
    (h : decodeHex (c :: d :: rest) = some data) : ∃ hi lo behind, hexValue c = some hi ∧
      hexValue d = some lo ∧ decodeHex rest = some behind ∧
      data = UInt8.ofNat (16 * hi + lo) :: behind := by
  obtain ⟨behind, hrest, h⟩ := Option.bind_eq_some_iff.mp h
  obtain ⟨b, hb, rfl⟩ := Option.map_eq_some_iff.mp h
  rw [hexByte] at hb
  split at hb
  · rename_i hi lo hc hd
    exact ⟨hi, lo, behind, hc, hd, hrest, by rw [Option.some.inj hb]⟩
  · cases hb

theorem decodeHex_to_hex (data : Bytes) : decodeHex (to_hex data) = some data := by
  induction data with
  | nil => rfl
  | cons b rest ih =>
      have hlt := b.toNat_lt
      rw [to_hex, List.flatMap_cons, ← to_hex, hexPair, List.cons_append, List.cons_append,
        List.nil_append, decodeHex, ih, hexByte, hexValue_digitChar (by omega),
        hexValue_digitChar (by omega)]
      simp only [Nat.div_add_mod, UInt8.ofNat_toNat]
      rfl

theorem hexValue_of_mem_decodeHex {hex data : Bytes} (h : decodeHex hex = some data) :
    ∀ c ∈ hex, (hexValue c).isSome := by
  induction hex using decodeHex.induct generalizing data with
  | case1 => simp
  | case2 c d rest ih =>
      obtain ⟨hi, lo, behind, hc, hd, hrest, -⟩ := decodeHex_cons h
      intro e he
      rcases List.mem_cons.mp he with rfl | he
      · simp [hc]
      rcases List.mem_cons.mp he with rfl | he
      · simp [hd]
      · exact ih hrest e he
  | case3 c => cases h

theorem from_hexLoop_of_decodeHex (zero_x : Bool) {hex data : Bytes}
    (h : decodeHex hex = some data) :
    from_hexLoop zero_x hex = some data ∧ hex.length = 2 * data.length := by
  induction hex using decodeHex.induct generalizing data with
  | case1 =>
      cases h
      exact ⟨rfl, rfl⟩
  | case2 c d rest ih =>
      obtain ⟨hi, lo, behind, hc, hd, hrest, rfl⟩ := decodeHex_cons h
      obtain ⟨hloop, hlen⟩ := ih hrest
      obtain ⟨hd0, -⟩ := hexValue_isSome (c := d) (by simp [hd])
      obtain ⟨-, -, hplus, hminus, -⟩ := hexValue_isSome (c := c) (by simp [hc])
      have hscan : sscanf zero_x (c :: d :: rest) = some (UInt8.ofNat (16 * hi + lo)) := by
        rw [sscanf, cText_of_digit (by simp [hc]), List.takeWhile_cons_of_pos (by simpa using hd0)]
        simp only [List.take_succ_cons, List.take_zero, if_neg hplus, if_neg hminus, hc, hd]
      refine ⟨?_, ?_⟩
      · rw [from_hexLoop, hscan, hloop]
        rfl
      · rw [List.length_cons, List.length_cons, List.length_cons, hlen]
        omega
  | case3 c => cases h

theorem from_hex_of_decodeHex {zero_x : Bool} {hex data : Bytes} (h : decodeHex hex = some data) :
    from_hex zero_x hex = some data := by
  obtain ⟨hloop, hlen⟩ := from_hexLoop_of_decodeHex zero_x h
  rw [from_hex, if_neg (by omega), hloop]

theorem value_append_singleton (s : Bytes) (c : UInt8) :
    value (s ++ [c]) = 10 * value s + (c.toNat - 48) := by
  rw [value, List.foldl_append]
  rfl

theorem decodeDecimal_printed (n : Nat) : decodeDecimal (printed n) = some n := by
  have hdigits : (printed n).all isdigit = true ∧ value (printed n) = n := by
    induction n using Nat.strongRecOn with
    | ind n ih =>
        rw [printed, Nat.toDigits_eq_if (by decide)]
        by_cases hn : n < 10
        · obtain ⟨hd, hv⟩ := isdigit_digitChar hn
          rw [if_pos hn]
          refine ⟨by simpa using hd, ?_⟩
          change 10 * 0 + ((byte n.digitChar).toNat - 48) = n
          omega
        · obtain ⟨hd, hv⟩ := isdigit_digitChar (Nat.mod_lt n (by decide : 10 > 0))
          obtain ⟨hall, hval⟩ := ih (n / 10) (by omega)
          rw [if_neg hn, List.map_append, ← printed, List.map_singleton]
          refine ⟨by simp [hall, hd], ?_⟩
          rw [value_append_singleton, hval, hv]
          omega
  rw [decodeDecimal, if_pos ⟨by simp [printed], hdigits.1⟩, hdigits.2]

theorem decodeDecimal_eq_some {s : Bytes} {n : Nat} (h : decodeDecimal s = some n) :
    s ≠ [] ∧ (∀ c ∈ s, isdigit c = true) ∧ value s = n := by
  rw [decodeDecimal] at h
  split at h
  · rename_i hs
    exact ⟨hs.1, List.all_eq_true.mp hs.2, Option.some.inj h⟩
  · cases h

theorem stoul_of_decodeDecimal {s : Bytes} {n : Nat} (h : decodeDecimal s = some n)
    (hn : n < 18446744073709551616) : stoul s = some (UInt64.ofNat n) := by
  obtain ⟨hne, hall, hval⟩ := decodeDecimal_eq_some h
  obtain ⟨c, rest, rfl⟩ := List.exists_cons_of_ne_nil hne
  have hc := isdigit_hexValue (hall c (List.mem_cons_self ..))
  obtain ⟨-, -, hplus, hminus, -⟩ := hexValue_isSome hc
  have hrest : rest.takeWhile (· != 0) = rest := by
    rw [List.takeWhile_eq_self_iff]
    intro d hd
    obtain ⟨h0, -⟩ := hexValue_isSome (isdigit_hexValue (hall d (List.mem_cons_of_mem _ hd)))
    simpa using h0
  have hdigits : (c :: rest).takeWhile isdigit = c :: rest := List.takeWhile_eq_self_iff.mpr hall
  rw [stoul, cText_of_digit hc, hrest]
  simp only [if_neg hplus, if_neg hminus, hdigits, hval]
  rw [if_neg (by simpa using hn)]
  rfl

theorem cut_append {front : Bytes} (h : dollar ∉ front) (rest : Bytes) :
    cut (front ++ dollar :: rest) = some (front, rest) := by
  induction front with
  | nil => simp [cut]
  | cons c front ih =>
      rw [List.mem_cons, not_or] at h
      rw [List.cons_append, cut, if_neg (Ne.symm h.1), ih h.2]
      rfl

theorem dollar_not_mem {s : Bytes} (h : ∀ c ∈ s, (hexValue c).isSome) : dollar ∉ s := fun hm =>
  (hexValue_isSome (h _ hm)).2.2.2.2 rfl

/-! ## Records are read back -/

/-- The documented form: decimal iterations, a salt in hexadecimal, and a digest of 64 digits. -/
def InForm (s : Bytes) (iterations : UInt32) (salt dk : Bytes) : Prop :=
  ∃ iter_str salt_hex dk_hex,
    s = hashPrefix ++ iter_str ++ dollar :: (salt_hex ++ dollar :: dk_hex) ∧
      decodeDecimal iter_str = some iterations.toNat ∧ decodeHex salt_hex = some salt ∧
      decodeHex dk_hex = some dk ∧ dk_hex.length = 64

variable {P : Pbkdf2} (zero_x : Bool) {s salt dk : Bytes} {iterations : UInt32}

theorem readRecord_of_fields {iter_str salt_hex dk_hex : Bytes}
    (hiter : decodeDecimal iter_str = some iterations.toNat)
    (hsalt : decodeHex salt_hex = some salt) (hdk : decodeHex dk_hex = some dk) :
    readRecord zero_x (hashPrefix ++ iter_str ++ dollar :: (salt_hex ++ dollar :: dk_hex)) =
      some (iterations, salt, dk) := by
  have hlt := iterations.toNat_lt
  have hfirst : dollar ∉ iter_str := dollar_not_mem fun c hc =>
    isdigit_hexValue ((decodeDecimal_eq_some hiter).2.1 c hc)
  have hsecond := dollar_not_mem (hexValue_of_mem_decodeHex hsalt)
  have hcast : (UInt64.ofNat iterations.toNat).toUInt32 = iterations := by
    rw [← UInt32.toNat_inj, UInt64.toNat_toUInt32, UInt64.toNat_ofNat']
    omega
  rw [List.append_assoc, readRecord,
    if_pos (List.isPrefixOf_iff_prefix.mpr (List.prefix_append _ _)), List.drop_left,
    cut_append hfirst]
  simp only [cut_append hsecond]
  rw [stoul_of_decodeDecimal hiter (by omega), from_hex_of_decodeHex hsalt,
    from_hex_of_decodeHex hdk]
  simp only [hcast]

theorem InForm.readRecord (h : InForm s iterations salt dk) :
    readRecord zero_x s = some (iterations, salt, dk) ∧ dk.length = 32 := by
  obtain ⟨iter_str, salt_hex, dk_hex, rfl, hiter, hsalt, hdk, hlen⟩ := h
  have htwice := (from_hexLoop_of_decodeHex zero_x hdk).2
  exact ⟨readRecord_of_fields zero_x hiter hsalt hdk, by omega⟩

theorem readRecord_record (iterations : UInt32) (salt dk : Bytes) :
    Password.readRecord zero_x (record iterations salt dk) = some (iterations, salt, dk) :=
  readRecord_of_fields zero_x (decodeDecimal_printed _) (decodeHex_to_hex salt)
    (decodeHex_to_hex dk)

theorem foldl_or_eq_zero (l : Bytes) (a : UInt8) :
    l.foldl (· ||| ·) a = 0 ↔ a = 0 ∧ ∀ b ∈ l, b = 0 := by
  induction l generalizing a with
  | nil => simp
  | cons b l ih =>
      rw [List.foldl_cons, ih, UInt8.or_eq_zero_iff, List.forall_mem_cons, and_assoc]

/-- The comparison finds every difference. -/
theorem diff_eq_zero {dk dk_ref : Bytes} (h : dk.length = dk_ref.length) :
    diff dk dk_ref = 0 ↔ dk = dk_ref := by
  rw [diff, foldl_or_eq_zero]
  simp only [true_and]
  induction dk generalizing dk_ref with
  | nil => simp [List.length_eq_zero_iff.mp h.symm]
  | cons a dk ih =>
      obtain ⟨b, ref, rfl⟩ := List.exists_cons_of_length_eq_add_one h.symm
      rw [List.zipWith_cons_cons, List.forall_mem_cons, ih (by simpa using h), List.cons.injEq,
        UInt8.xor_eq_zero_iff]

theorem Verify_iff {zero_x : Bool} {q : Bytes}
    (h : Password.readRecord zero_x s = some (iterations, salt, dk)) :
    Verify P zero_x q s = true ↔ P.derive q salt iterations dk.length = some dk := by
  unfold Verify
  simp only [h]
  rcases hd : P.derive q salt iterations dk.length with _ | dk'
  · simp
  · have hlen := P.length_run _ _ _ _ _ _ _ _ hd
    rw [List.length_replicate] at hlen
    rw [Bool.and_eq_true, beq_iff_eq, beq_iff_eq, diff_eq_zero hlen]
    simp [hlen]

/-- What `Hash` writes is read back, and verifies exactly the passwords of the same digest. -/
theorem hash_round_trip (P : Pbkdf2) (zero_x : Bool) (p q salt : Bytes) (iterations : UInt32)
    {dk dk' : Bytes} (hp : p.length < 2147483648) (hq : q.length < 2147483648)
    (hsalt : salt.length = 16)
    (hdk : P.run p p.length salt 16 (int32 iterations.toNat) 32 (List.replicate 32 0) = some dk)
    (hdk' : P.run q q.length salt 16 (int32 iterations.toNat) 32 (List.replicate 32 0) =
      some dk') :
    readRecord zero_x (Hash P (some salt) p iterations) = some (iterations, salt, dk) ∧
      dk.length = 32 ∧ Verify P zero_x p (Hash P (some salt) p iterations) = true ∧
      (Verify P zero_x q (Hash P (some salt) p iterations) = true ↔ dk' = dk) := by
  have hlen : dk.length = 32 := P.length_run _ _ _ _ _ _ _ _ hdk
  have hhash : Hash P (some salt) p iterations = record iterations salt dk := by
    simp only [Hash, int32_of_lt hp, hdk]
  have hread := readRecord_record zero_x iterations salt dk
  have h16 : int32 16 = 16 := rfl
  have h32 : int32 32 = 32 := rfl
  have hderive : ∀ r : Bytes, r.length < 2147483648 → P.derive r salt iterations dk.length =
      P.run r r.length salt 16 (int32 iterations.toNat) 32 (List.replicate 32 0) := by
    intro r hr
    rw [Pbkdf2.derive, hlen, hsalt, int32_of_lt hr]
    rfl
  rw [hhash]
  refine ⟨hread, hlen, ?_, ?_⟩
  · rw [Verify_iff hread, hderive p hp, hdk]
  · rw [Verify_iff hread, hderive q hq, hdk', Option.some.injEq]

/-- A stand-in whose digest repeats the first byte of the password. -/
def repeating : Pbkdf2 where
  run pass _ _ _ _ _ out := some (out.map fun _ => pass.headD 0)
  length_run := by
    rintro pass passlen salt saltlen iter keylen out dk h
    rw [← Option.some.inj h, List.length_map]

theorem hash_round_trip_repeating :
    Verify repeating true [1] (Hash repeating (some (List.replicate 16 7)) [1] 100000) = true ∧
      Verify repeating true [2] (Hash repeating (some (List.replicate 16 7)) [1] 100000) =
        false := by
  have h := hash_round_trip repeating true [1] [2] (List.replicate 16 7) 100000 (by decide)
    (by decide) (by decide) rfl rfl
  exact ⟨h.2.2.1, Bool.eq_false_iff.mpr (mt h.2.2.2.mp (by decide))⟩

/-- The record has the documented form and holds the digest of the password. -/
def Documented (P : Pbkdf2) (q s : Bytes) : Prop :=
  ∃ iterations salt dk, InForm s iterations salt dk ∧ P.derive q salt iterations 32 = some dk

/-- The same digest for every password. -/
def Pbkdf2.constant (dk : Bytes) : Pbkdf2 where
  run _ _ _ _ _ _ out := some (if dk.length = out.length then dk else out)
  length_run := by
    rintro pass passlen salt saltlen iter keylen out dk' h
    rw [← Option.some.inj h]
    split
    · assumption
    · rfl

theorem Pbkdf2.constant_derive (dk q salt : Bytes) (iterations : UInt32) :
    (Pbkdf2.constant dk).derive q salt iterations dk.length = some dk := by
  simp [Pbkdf2.derive, Pbkdf2.constant]

/-- Whatever is read is compared at the length it has: the records outside the documented form are
refused only if they cannot be read or the digest is another one at that length. -/
theorem verify_documented_iff (zero_x : Bool) (s : Bytes) :
    (∀ P q, (Verify P zero_x q s = true → Documented P q s) ↔
      (∃ iterations salt dk, InForm s iterations salt dk) ∨
        ∀ iterations salt dk, readRecord zero_x s = some (iterations, salt, dk) →
          P.derive q salt iterations dk.length ≠ some dk) ∧
    ((∀ P : Pbkdf2, P.Succeeds → ∀ q, Verify P zero_x q s = true → Documented P q s) ↔
      (∃ iterations salt dk, InForm s iterations salt dk) ∨ readRecord zero_x s = none) := by
  have hform : ∀ P q, (∃ iterations salt dk, InForm s iterations salt dk) →
      Verify P zero_x q s = true → Documented P q s := by
    rintro P q ⟨iterations, salt, dk, h⟩ hv
    obtain ⟨hread, hlen⟩ := h.readRecord zero_x
    rw [Verify_iff hread, hlen] at hv
    exact ⟨iterations, salt, dk, h, hv⟩
  refine ⟨fun P q => ⟨?_, ?_⟩, ?_, ?_⟩
  · intro h
    by_cases hv : Verify P zero_x q s = true
    · obtain ⟨iterations, salt, dk, hin, -⟩ := h hv
      exact .inl ⟨iterations, salt, dk, hin⟩
    · exact .inr fun iterations salt dk hread hd => hv ((Verify_iff hread).mpr hd)
  · rintro (hin | hne) hv
    · exact hform P q hin hv
    · rcases hread : readRecord zero_x s with _ | ⟨iterations, salt, dk⟩
      · simp [Verify, hread] at hv
      · exact absurd ((Verify_iff hread).mp hv) (hne iterations salt dk hread)
  · intro h
    rcases hread : readRecord zero_x s with _ | ⟨iterations, salt, dk⟩
    · exact .inr rfl
    · have hv : Verify (Pbkdf2.constant dk) zero_x [] s = true :=
        (Verify_iff hread).mpr (Pbkdf2.constant_derive dk [] salt iterations)
      obtain ⟨iterations', salt', dk', hin, -⟩ :=
        h (Pbkdf2.constant dk) (fun _ _ _ _ _ _ _ => rfl) [] hv
      exact .inl ⟨iterations', salt', dk', hin⟩
  · rintro (hin | hnone) P _ q hv
    · exact hform P q hin hv
    · simp [Verify, hnone] at hv

/-- No digest behind the last separator. -/
def emptyDigest : Bytes := "pbkdf2_sha256$1$$".toList.map byte

theorem readRecord_emptyDigest (zero_x : Bool) :
    readRecord zero_x emptyDigest = some (1, [], []) := by
  cases zero_x <;> decide +kernel

/-- Every password is right for a record without a digest, which is not in the documented form. -/
theorem emptyDigest_verifies :
    (∀ P : Pbkdf2, P.Succeeds → ∀ zero_x q, Verify P zero_x q emptyDigest = true) ∧
      ∀ P q, ¬ Documented P q emptyDigest := by
  refine ⟨?_, ?_⟩
  · intro P hP zero_x q
    rw [Verify_iff (readRecord_emptyDigest zero_x)]
    obtain ⟨dk, hd⟩ := Option.isSome_iff_exists.mp (hP q (int32 q.length) [] 0 1 0 [])
    have hlen : dk = [] := List.length_eq_zero_iff.mp (P.length_run _ _ _ _ _ _ _ _ hd)
    rw [hlen] at hd
    exact hd
  · rintro P q ⟨iterations, salt, dk, hin, -⟩
    obtain ⟨hread, hlen⟩ := hin.readRecord true
    rw [readRecord_emptyDigest] at hread
    cases hread
    exact absurd hlen (by decide)

end CIM.Password
