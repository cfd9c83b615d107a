import CIM.Util.UrlCoding

/-!
# Base64

`base64encode` packs three bytes at a time into 24 bits and writes them as four characters;
`base64decode` packs four characters and writes three bytes. A group that ends early is padded.
-/
namespace CIM.HashUtil

open StringUtil (byte)

def base64 : List UInt8 :=
  "ABCDEFGHIJKLMNOPQRSTUVWXYZabcdefghijklmnopqrstuvwxyz0123456789+/".toList.map byte

/-- The bytes of a round, which are at most three, in the upper part of 24 bits. -/
def packGroup (group : List UInt8) : Nat :=
  group.foldl (fun packed c => packed <<< 8 ||| c.toNat) 0 <<< (8 * (3 - group.length))

/-- What a round of the encoder appends. -/
def writeGroup (padding packed : Nat) : List UInt8 :=
  [base64.getD (packed >>> 18) 0, base64.getD ((packed >>> 12) &&& 0x3f) 0] ++
    (if padding ≠ 2 then [base64.getD ((packed >>> 6) &&& 0x3f) 0] else []) ++
    (if padding = 0 then [base64.getD (packed &&& 0x3f) 0] else []) ++
    List.replicate padding (byte '=')

def encodeGroup (group : List UInt8) : List UInt8 :=
  let padding := if group.length = 2 then 1 else if group.length = 1 then 2 else 0
  writeGroup padding (packGroup group)

def encodeLoop (ret : List UInt8) : List UInt8 → List UInt8
  | [] => ret
  | c :: data =>
      encodeLoop (ret ++ encodeGroup ((c :: data).take 3)) ((c :: data).drop 3)
  termination_by data => data.length
  decreasing_by simp only [List.length_cons, List.length_drop]; omega

def base64encode (data : List UInt8) : List UInt8 := encodeLoop [] data

/-- The six bits of a character. -/
def charValue (c : UInt8) : Option Nat :=
  if byte 'A' ≤ c ∧ c ≤ byte 'Z' then some (c.toNat - (byte 'A').toNat)
  else if byte 'a' ≤ c ∧ c ≤ byte 'z' then some (c.toNat - (byte 'a').toNat + 26)
  else if byte '0' ≤ c ∧ c ≤ byte '9' then some (c.toNat - (byte '0').toNat + 52)
  else if c = byte '+' then some 62
  else if c = byte '/' then some 63
  else none

/-- One character of a group, with `padding` and `packed`. Nothing but padding may follow
padding. -/
def readChar (group : Nat × Nat) (c : UInt8) : Option (Nat × Nat) :=
  let (padding, packed) := group
  if c = byte '=' then some (padding + 1, packed <<< 6)
  else if padding > 0 then none
  else (charValue c).map fun val => (padding, packed <<< 6 ||| val)

/-- What one round of the decoder writes. -/
def decodeGroup (padding packed : Nat) : List UInt8 :=
  [UInt8.ofNat ((packed >>> 16) &&& 0xff)] ++
    (if padding ≠ 2 then [UInt8.ofNat ((packed >>> 8) &&& 0xff)] else []) ++
    (if padding = 0 then [UInt8.ofNat (packed &&& 0xff)] else [])

def decodeLoop (result : List UInt8) : List UInt8 → Option (List UInt8)
  | [] => some result
  | c :: src =>
      match ((c :: src).take 4).foldlM readChar (0, 0) with
      | none => none
      | some (padding, packed) =>
          if ((c :: src).take 4).length ≠ 4 then none
          else if padding > 0 ∧ (c :: src).drop 4 ≠ [] then none
          else if padding > 2 then none
          else decodeLoop (result ++ decodeGroup padding packed) ((c :: src).drop 4)
  termination_by src => src.length
  decreasing_by simp only [List.length_cons, List.length_drop]; omega

/-- A text that is not well formed gives the empty string. -/
def base64decode (src : List UInt8) : List UInt8 := (decodeLoop [] src).getD []

theorem charValue_base64 {d : Nat} (hd : d < 64) :
    charValue (base64.getD d 0) = some d ∧ base64.getD d 0 ≠ byte '=' := by
  interval_cases d <;> exact ⟨rfl, by decide⟩

theorem readChar_digit {d : Nat} (packed : Nat) (hd : d < 64) :
    readChar (0, packed) (base64.getD d 0) = some (0, packed * 64 + d) := by
  obtain ⟨hval, hpad⟩ := charValue_base64 hd
  have hor : packed <<< 6 ||| d = packed * 64 + d := by
    rw [← Nat.shiftLeft_add_eq_or_of_lt hd, Nat.shiftLeft_eq]
  simp only [readChar, if_neg hpad, hval, Option.map_some, hor, gt_iff_lt, Nat.lt_irrefl, if_false]

theorem readChar_padding (padding packed : Nat) :
    readChar (padding, packed) (byte '=') = some (padding + 1, packed * 64) := by
  simp [readChar, Nat.shiftLeft_eq]

theorem six_bits (n : Nat) : n &&& 0x3f = n % 64 := Nat.and_two_pow_sub_one_eq_mod n 6

theorem eight_bits (n : Nat) : n &&& 0xff = n % 256 := Nat.and_two_pow_sub_one_eq_mod n 8

theorem writeGroup_zero (packed : Nat) : writeGroup 0 packed =
    [base64.getD (packed / 262144) 0, base64.getD (packed / 4096 % 64) 0,
      base64.getD (packed / 64 % 64) 0, base64.getD (packed % 64) 0] := by
  simp only [writeGroup, six_bits, Nat.shiftRight_eq_div_pow]
  rfl

theorem writeGroup_one (packed : Nat) : writeGroup 1 packed =
    [base64.getD (packed / 262144) 0, base64.getD (packed / 4096 % 64) 0,
      base64.getD (packed / 64 % 64) 0, byte '='] := by
  simp only [writeGroup, six_bits, Nat.shiftRight_eq_div_pow]
  rfl

theorem writeGroup_two (packed : Nat) : writeGroup 2 packed =
    [base64.getD (packed / 262144) 0, base64.getD (packed / 4096 % 64) 0, byte '=', byte '='] := by
  simp only [writeGroup, six_bits, Nat.shiftRight_eq_div_pow]
  rfl

/-- What was written is packed again: the padding stands for bits that are zero. -/
theorem read_writeGroup {padding packed : Nat} (hpad : padding ≤ 2) (hlt : packed < 16777216)
    (hzero : packed % 64 ^ padding = 0) :
    (writeGroup padding packed).foldlM readChar (0, 0) = some (padding, packed) := by
  have h₃ : packed / 262144 < 64 := by omega
  have h₂ : packed / 4096 % 64 < 64 := Nat.mod_lt _ (by decide)
  have h₁ : packed / 64 % 64 < 64 := Nat.mod_lt _ (by decide)
  have h₀ : packed % 64 < 64 := Nat.mod_lt _ (by decide)
  interval_cases padding
  · simp only [writeGroup_zero, List.foldlM_cons, List.foldlM_nil, readChar_digit _ h₃,
      readChar_digit _ h₂, readChar_digit _ h₁, readChar_digit _ h₀, Option.bind_eq_bind,
      Option.bind_some, Option.pure_def, Option.some.injEq, Prod.mk.injEq, true_and]
    omega
  · simp only [writeGroup_one, List.foldlM_cons, List.foldlM_nil, readChar_digit _ h₃,
      readChar_digit _ h₂, readChar_digit _ h₁, readChar_padding, Option.bind_eq_bind,
      Option.bind_some, Option.pure_def, Option.some.injEq, Prod.mk.injEq, true_and]
    omega
  · simp only [writeGroup_two, List.foldlM_cons, List.foldlM_nil, readChar_digit _ h₃,
      readChar_digit _ h₂, readChar_padding, Option.bind_eq_bind,
      Option.bind_some, Option.pure_def, Option.some.injEq, Prod.mk.injEq, true_and]
    omega

theorem length_writeGroup {padding : Nat} (packed : Nat) (hpad : padding ≤ 2) :
    (writeGroup padding packed).length = 4 := by
  interval_cases padding <;> rfl

theorem padding_mem_writeGroup {padding packed : Nat} (hpad : padding ≤ 2)
    (hlt : packed < 16777216) : byte '=' ∈ writeGroup padding packed ↔ padding ≠ 0 := by
  have hdigit : ∀ d, d < 64 → byte '=' ≠ base64.getD d 0 := fun d hd h =>
    (charValue_base64 hd).2 h.symm
  interval_cases padding
  · have h₃ := hdigit (packed / 262144) (by omega)
    have h₂ := hdigit (packed / 4096 % 64) (Nat.mod_lt _ (by decide))
    have h₁ := hdigit (packed / 64 % 64) (Nat.mod_lt _ (by decide))
    have h₀ := hdigit (packed % 64) (Nat.mod_lt _ (by decide))
    rw [writeGroup_zero]
    simp only [List.mem_cons, h₃, h₂, h₁, h₀, List.not_mem_nil, or_self, ne_eq, not_true_eq_false]
  · simp [writeGroup_one]
  · simp [writeGroup_two]

/-- The bytes of a round and their padding, with the bits they are packed into. -/
structure Packs (group : List UInt8) (padding packed : Nat) : Prop where
  encode : encodeGroup group = writeGroup padding packed
  decode : decodeGroup padding packed = group
  length : padding + group.length = 3
  lt : packed < 16777216
  zero : packed % 64 ^ padding = 0

theorem shift_or (n : Nat) (b : UInt8) : n <<< 8 ||| b.toNat = n * 256 + b.toNat := by
  rw [← Nat.shiftLeft_add_eq_or_of_lt (UInt8.toNat_lt b), Nat.shiftLeft_eq]

theorem ofNat_of_eq {n : Nat} {b : UInt8} (h : n = b.toNat) : UInt8.ofNat n = b := by
  rw [h, UInt8.ofNat_toNat]

/-- The bytes that a round of the decoder can write. -/
def writtenBytes (packed : Nat) : List UInt8 :=
  [UInt8.ofNat (packed / 65536 % 256), UInt8.ofNat (packed / 256 % 256), UInt8.ofNat (packed % 256)]

theorem decodeGroup_eq {padding : Nat} (packed : Nat) (hpad : padding ≤ 2) :
    decodeGroup padding packed = (writtenBytes packed).take (3 - padding) := by
  interval_cases padding <;>
    simp only [decodeGroup, eight_bits, Nat.shiftRight_eq_div_pow] <;> rfl

theorem packs_three (a b c : UInt8) :
    Packs [a, b, c] 0 ((a.toNat * 256 + b.toNat) * 256 + c.toNat) := by
  have ha := a.toNat_lt
  have hb := b.toNat_lt
  have hc := c.toNat_lt
  have hpack : packGroup [a, b, c] = (a.toNat * 256 + b.toNat) * 256 + c.toNat := by
    simp only [packGroup, List.foldl_cons, List.foldl_nil, shift_or, Nat.zero_mul, Nat.zero_add]
    rfl
  refine ⟨by rw [← hpack]; rfl, ?_, rfl, by omega, Nat.mod_one _⟩
  rw [decodeGroup_eq _ (by decide), writtenBytes, ofNat_of_eq (b := a) (by omega),
    ofNat_of_eq (b := b) (by omega), ofNat_of_eq (b := c) (by omega)]
  rfl

theorem packs_two (a b : UInt8) : Packs [a, b] 1 ((a.toNat * 256 + b.toNat) * 256) := by
  have ha := a.toNat_lt
  have hb := b.toNat_lt
  have hpack : packGroup [a, b] = (a.toNat * 256 + b.toNat) * 256 := by
    simp only [packGroup, List.foldl_cons, List.foldl_nil, shift_or, Nat.zero_mul, Nat.zero_add]
    exact Nat.shiftLeft_eq _ _
  refine ⟨by rw [← hpack]; rfl, ?_, rfl, by omega, by omega⟩
  rw [decodeGroup_eq _ (by decide), writtenBytes, ofNat_of_eq (b := a) (by omega),
    ofNat_of_eq (b := b) (by omega)]
  rfl

theorem packs_one (a : UInt8) : Packs [a] 2 (a.toNat * 65536) := by
  have ha := a.toNat_lt
  have hpack : packGroup [a] = a.toNat * 65536 := by
    simp only [packGroup, List.foldl_cons, List.foldl_nil, shift_or, Nat.zero_mul, Nat.zero_add]
    exact Nat.shiftLeft_eq _ _
  refine ⟨by rw [← hpack]; rfl, ?_, rfl, by omega, by omega⟩
  rw [decodeGroup_eq _ (by decide), writtenBytes, ofNat_of_eq (b := a) (by omega)]
  rfl

/-- Every round of the encoder packs its bytes. -/
theorem exists_packs {group : List UInt8} (hne : group ≠ []) (hlen : group.length ≤ 3) :
    ∃ padding packed, Packs group padding packed := by
  rcases group with _ | ⟨a, _ | ⟨b, _ | ⟨c, _ | ⟨d, rest⟩⟩⟩⟩
  · exact absurd rfl hne
  · exact ⟨_, _, packs_one a⟩
  · exact ⟨_, _, packs_two a b⟩
  · exact ⟨_, _, packs_three a b c⟩
  · simp only [List.length_cons] at hlen
    omega

/-- The rounds append to what is there. -/
theorem encodeLoop_append (ret data : List UInt8) :
    encodeLoop ret data = ret ++ encodeLoop [] data := by
  induction hn : data.length using Nat.strongRecOn generalizing ret data with
  | ind n ih =>
      cases data with
      | nil => simp [encodeLoop]
      | cons c data =>
          have hlt : ((c :: data).drop 3).length < n := by
            rw [← hn, List.length_drop, List.length_cons]
            omega
          rw [encodeLoop, ih _ hlt (ret ++ encodeGroup ((c :: data).take 3)) _ rfl, encodeLoop,
            ih _ hlt ([] ++ encodeGroup ((c :: data).take 3)) _ rfl]
          simp

theorem base64encode_cons (c : UInt8) (data : List UInt8) : base64encode (c :: data) =
    encodeGroup ((c :: data).take 3) ++ base64encode ((c :: data).drop 3) := by
  rw [base64encode, encodeLoop, encodeLoop_append, base64encode]
  rfl

/-- One round of the decoder on what a round of the encoder wrote. -/
theorem decodeLoop_group {padding packed : Nat} {text src : List UInt8} (result : List UInt8)
    (hlen : text.length = 4) (hread : text.foldlM readChar (0, 0) = some (padding, packed))
    (hpad : padding ≤ 2) (hend : padding ≠ 0 → src = []) :
    decodeLoop result (text ++ src) = decodeLoop (result ++ decodeGroup padding packed) src := by
  cases text with
  | nil => cases hlen
  | cons c text =>
      have htake : (c :: (text ++ src)).take 4 = c :: text := by
        rw [← List.cons_append, ← hlen, List.take_left]
      have hdrop : (c :: (text ++ src)).drop 4 = src := by
        rw [← List.cons_append, ← hlen, List.drop_left]
      have hbehind : ¬ (padding > 0 ∧ src ≠ []) := fun h => h.2 (hend (Nat.ne_of_gt h.1))
      rw [List.cons_append, decodeLoop, htake, hread, hdrop]
      simp only [hlen, ne_eq, not_true_eq_false, if_false]
      rw [if_neg hbehind, if_neg (by omega)]

/-- What holds of the text that is left to decode, by rounds of three bytes. -/
theorem rounds (data : List UInt8) :
    (∀ result, decodeLoop result (base64encode data) = some (result ++ data)) ∧
      (base64encode data).length = 4 * ((data.length + 2) / 3) ∧
      (byte '=' ∈ base64encode data ↔ data.length % 3 ≠ 0) := by
  induction hn : data.length using Nat.strongRecOn generalizing data with
  | ind n ih =>
      cases data with
      | nil =>
          rw [← hn]
          exact ⟨fun result => by simp [base64encode, encodeLoop, decodeLoop],
            by simp [base64encode, encodeLoop], by simp [base64encode, encodeLoop]⟩
      | cons c data =>
          have hsplit := List.take_append_drop 3 (c :: data)
          have htake := List.length_take (i := 3) (l := c :: data)
          have hdrop := List.length_drop (i := 3) (l := c :: data)
          rw [hn] at htake hdrop
          have hpos : 0 < n := by rw [← hn, List.length_cons]; omega
          obtain ⟨padding, packed, hp⟩ := exists_packs
            (show (c :: data).take 3 ≠ [] by simp) (by omega)
          obtain ⟨hdecode, hlength, hpadding⟩ := ih (n - 3) (by omega) _ hdrop
          have hlen3 := hp.length
          have hle : padding ≤ 2 := by omega
          have hend : padding ≠ 0 → base64encode ((c :: data).drop 3) = [] := by
            intro hne
            have hnil : (c :: data).drop 3 = [] := List.eq_nil_of_length_eq_zero (by omega)
            rw [hnil, base64encode, encodeLoop]
          rw [base64encode_cons, hp.encode]
          refine ⟨fun result => ?_, ?_, ?_⟩
          · rw [decodeLoop_group result (length_writeGroup packed hle)
              (read_writeGroup hle hp.lt hp.zero) hle hend, hdecode, hp.decode, List.append_assoc,
              hsplit]
          · rw [List.length_append, length_writeGroup packed hle, hlength]
            omega
          · rw [List.mem_append, padding_mem_writeGroup hle hp.lt, hpadding]
            omega

/-- Base64 text is decoded to the bytes it was made of, has four characters for every three bytes
begun, and is padded exactly where three bytes were begun and not filled. -/
theorem base64_coding (s : List UInt8) :
    base64decode (base64encode s) = s ∧ (base64encode s).length = 4 * ((s.length + 2) / 3) ∧
      (byte '=' ∈ base64encode s ↔ s.length % 3 ≠ 0) := by
  obtain ⟨hdecode, hlength, hpadding⟩ := rounds s
  refine ⟨?_, hlength, hpadding⟩
  rw [base64decode, hdecode]
  rfl

end CIM.HashUtil
