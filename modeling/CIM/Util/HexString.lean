import Mathlib.Data.List.Basic
import Mathlib.Tactic.Common

/-!
# Hexadecimal strings

`hexstring_from_data` writes the two halves of each byte, and `data_from_hexstring` reads them, in
either case of the letters. What it throws is an error with its text.
-/
namespace CIM.HashUtil

/-- The two branches of `hexstring_from_data`, for half a byte. -/
def hexChar (c : UInt8) : UInt8 := if c > 9 then c + 97 - 10 else c + 48

/-- The loop of `hexstring_from_data`. -/
def writeHex : List UInt8 → List UInt8
  | [] => []
  | b :: buf => hexChar (b >>> 4 &&& 0xf) :: hexChar (b &&& 0xf) :: writeHex buf

def hexstringFromData (data : List UInt8) : List UInt8 :=
  if data.length = 0 then [] else writeHex data

/-- The cases of the two switches. -/
def digit (c : UInt8) : Option UInt8 :=
  if 97 ≤ c ∧ c ≤ 102 then some (c - 97 + 10)
  else if 65 ≤ c ∧ c ≤ 70 then some (c - 65 + 10)
  else if 48 ≤ c ∧ c ≤ 57 then some (c - 48)
  else none

def readDigit (c : UInt8) : Except String UInt8 :=
  match digit c with
  | some n => .ok n
  | none => .error "data_from_hexstring invalid hexstring"

/-- The loop of `data_from_hexstring`. -/
def readHex : List UInt8 → Except String (List UInt8)
  | [] => .ok []
  -- behind the text there is a null byte, which is no digit
  | [_] => .error "data_from_hexstring invalid hexstring"
  | c :: d :: hexstring => do
      let high ← readDigit c
      let low ← readDigit d
      let buf ← readHex hexstring
      return (high <<< 4 ||| low) :: buf

/-- The overload with an output. -/
def readInto (hexstring : List UInt8) : Except String (List UInt8) :=
  if hexstring.length % 2 ≠ 0 then .error "data_from_hexstring length % 2 != 0"
  else readHex hexstring

def dataFromHexstring (hexstring : List UInt8) : Except String (List UInt8) :=
  if hexstring.length % 2 ≠ 0 then .error "data_from_hexstring length % 2 != 0"
  else if hexstring.length = 0 then .ok []
  else readInto hexstring

/-! ## What is wanted -/

def HexDigit (c : UInt8) : Prop :=
  (48 ≤ c ∧ c ≤ 57) ∨ (97 ≤ c ∧ c ≤ 102) ∨ (65 ≤ c ∧ c ≤ 70)

def Throws (hexstring : List UInt8) : Prop := ∃ what, dataFromHexstring hexstring = .error what

/-- A letter in lower case. -/
def lower (c : UInt8) : UInt8 := if 65 ≤ c ∧ c ≤ 90 then c + 32 else c

theorem digit_isSome (c : UInt8) : (digit c).isSome ↔ HexDigit c := by
  unfold digit HexDigit
  split_ifs <;> grind

/-- Half a byte is one of sixteen values. -/
theorem forall_half {p : UInt8 → Prop} (h : ∀ n : Fin 16, p (UInt8.ofNat n)) {c : UInt8}
    (hc : c.toNat < 16) : p c := by
  have hp := h ⟨c.toNat, hc⟩
  rwa [UInt8.ofNat_toNat] at hp

theorem digit_hexChar {c : UInt8} (hc : c.toNat < 16) : digit (hexChar c) = some c :=
  forall_half (p := fun c => digit (hexChar c) = some c) (by decide) hc

theorem high_half (b : UInt8) : (b >>> 4 &&& 0xf).toNat = b.toNat / 16 := by
  have hb := b.toNat_lt
  have hand : b.toNat / 16 &&& 15 = b.toNat / 16 % 16 := Nat.and_two_pow_sub_one_eq_mod _ 4
  simp [Nat.shiftRight_eq_div_pow, hand]
  omega

theorem low_half (b : UInt8) : (b &&& 0xf).toNat = b.toNat % 16 := by
  simpa using Nat.and_two_pow_sub_one_eq_mod b.toNat 4

/-- The two halves of a byte, put together again. -/
theorem halves_of_byte (b : UInt8) : (b >>> 4 &&& 0xf) <<< 4 ||| (b &&& 0xf) = b := by
  have hb := b.toNat_lt
  have hor : b.toNat / 16 * 16 ||| b.toNat % 16 = b.toNat / 16 * 16 + b.toNat % 16 := by
    have h := Nat.shiftLeft_add_eq_or_of_lt (Nat.mod_lt b.toNat (by decide : 0 < 2 ^ 4))
      (b.toNat / 16)
    rw [Nat.shiftLeft_eq] at h
    exact h.symm
  have hlt : b.toNat / 16 * 16 % 256 = b.toNat / 16 * 16 := Nat.mod_eq_of_lt (by omega)
  refine UInt8.toNat_inj.mp ?_
  rw [UInt8.toNat_or, UInt8.toNat_shiftLeft, high_half, low_half]
  simp only [Nat.shiftLeft_eq, UInt8.reduceToNat, Nat.reduceMod, Nat.reducePow, hlt, hor]
  omega

theorem readHex_writeHex (s : List UInt8) : readHex (writeHex s) = .ok s := by
  induction s with
  | nil => rfl
  | cons b s ih =>
    have hb := b.toNat_lt
    have hhigh : digit (hexChar (b >>> 4 &&& 0xf)) = some (b >>> 4 &&& 0xf) :=
      digit_hexChar (by rw [high_half]; omega)
    have hlow : digit (hexChar (b &&& 0xf)) = some (b &&& 0xf) :=
      digit_hexChar (by rw [low_half]; omega)
    simp only [writeHex, readHex, readDigit, hhigh, hlow, ih]
    exact congrArg (fun byte => Except.ok (byte :: s)) (halves_of_byte b)

theorem length_writeHex (s : List UInt8) : (writeHex s).length = 2 * s.length := by
  induction s with
  | nil => rfl
  | cons b s ih => simp only [writeHex, List.length_cons, ih]; omega

theorem data_of_hexstring (s : List UInt8) : dataFromHexstring (hexstringFromData s) = .ok s := by
  unfold hexstringFromData
  split_ifs with hempty
  · rw [List.eq_nil_of_length_eq_zero hempty]; rfl
  · have heven : (writeHex s).length % 2 = 0 := by rw [length_writeHex]; omega
    have hne : (writeHex s).length ≠ 0 := by rw [length_writeHex]; omega
    simp [dataFromHexstring, readInto, heven, hne, readHex_writeHex]

/-! ## What is read -/

theorem readDigit_ok {c : UInt8} : (∃ n, readDigit c = .ok n) ↔ HexDigit c := by
  rw [← digit_isSome]
  cases h : digit c <;> simp [readDigit, h]

theorem readHex_pair (c d : UInt8) (hexstring : List UInt8) :
    (∃ out, readHex (c :: d :: hexstring) = .ok out) ↔
      (HexDigit c ∧ HexDigit d) ∧ ∃ out, readHex hexstring = .ok out := by
  rw [← readDigit_ok, ← readDigit_ok]
  simp only [readHex]
  cases readDigit c with
  | error what => exact ⟨nofun, fun h => nomatch h.1.1⟩
  | ok high =>
    cases readDigit d with
    | error what => exact ⟨nofun, fun h => nomatch h.1.2⟩
    | ok low =>
      cases readHex hexstring with
      | error what => exact ⟨nofun, fun h => nomatch h.2⟩
      | ok buf => exact ⟨fun _ => ⟨⟨⟨high, rfl⟩, low, rfl⟩, buf, rfl⟩, fun _ => ⟨_, rfl⟩⟩

theorem readHex_ok (hexstring : List UInt8) : (∃ out, readHex hexstring = .ok out) ↔
    hexstring.length % 2 = 0 ∧ ∀ c ∈ hexstring, HexDigit c := by
  induction hexstring using readHex.induct with
  | case1 => simp [readHex]
  | case2 c => simp [readHex]
  | case3 c d hexstring ih =>
    have hlength : (c :: d :: hexstring).length % 2 = hexstring.length % 2 := by
      simp only [List.length_cons]; omega
    rw [readHex_pair, ih, hlength]
    simp only [List.forall_mem_cons]
    tauto

theorem dataFromHexstring_eq (hexstring : List UInt8) : dataFromHexstring hexstring =
    if hexstring.length % 2 ≠ 0 then .error "data_from_hexstring length % 2 != 0"
    else readHex hexstring := by
  unfold dataFromHexstring readInto
  split_ifs with hodd hempty
  · rfl
  · rw [List.eq_nil_of_length_eq_zero hempty]; rfl
  · rfl

theorem throws_iff (hexstring : List UInt8) : Throws hexstring ↔
    hexstring.length % 2 = 1 ∨ ∃ c ∈ hexstring, ¬ HexDigit c := by
  have hok := readHex_ok hexstring
  unfold Throws
  rw [dataFromHexstring_eq]
  split_ifs with hodd
  · exact iff_of_true ⟨_, rfl⟩ (.inl (by omega))
  · cases hread : readHex hexstring with
    | error what =>
      have hbad : ¬ ∀ c ∈ hexstring, HexDigit c := fun hall =>
        nomatch hread.symm.trans (hok.mpr ⟨by omega, hall⟩).choose_spec
      exact iff_of_true ⟨what, rfl⟩ (.inr (by simpa using hbad))
    | ok out =>
      have hall := (hok.mp ⟨out, hread⟩).2
      refine iff_of_false nofun ?_
      rintro (hlength | ⟨c, hc, hbad⟩)
      · omega
      · exact hbad (hall c hc)

/-! ## The case of the letters -/

theorem digit_lower (c : UInt8) : digit (lower c) = digit c := by
  have hshift : c + 32 - 97 + 10 = c - 65 + 10 := by grind
  unfold digit lower
  split_ifs <;> grind

theorem readHex_lower (hexstring : List UInt8) :
    readHex (hexstring.map lower) = readHex hexstring := by
  induction hexstring using readHex.induct with
  | case1 => rfl
  | case2 c => rfl
  | case3 c d hexstring ih => simp only [List.map_cons, readHex, readDigit, digit_lower, ih]

theorem data_lower (hexstring : List UInt8) :
    dataFromHexstring (hexstring.map lower) = dataFromHexstring hexstring := by
  rw [dataFromHexstring_eq, dataFromHexstring_eq, readHex_lower, List.length_map]

/-- What was written is read back, only odd lengths and other characters are refused, and the case
of a letter does not matter. -/
theorem hex_coding :
    (∀ s, dataFromHexstring (hexstringFromData s) = .ok s) ∧
    (∀ hexstring, Throws hexstring ↔
      hexstring.length % 2 = 1 ∨ ∃ c ∈ hexstring, ¬ HexDigit c) ∧
    ∀ hexstring other, hexstring.map lower = other.map lower →
      dataFromHexstring hexstring = dataFromHexstring other :=
  ⟨data_of_hexstring, throws_iff, fun hexstring other h => by
    rw [← data_lower hexstring, h, data_lower]⟩

example : dataFromHexstring [52, 65, 52, 97] = .ok [74, 74] := rfl

end CIM.HashUtil
