import CIM.Ds.BitmapMixed

/-!
# Counting

A plain bitmap is counted by blocks of eight bytes, with the bits that no index reaches, and word by
word behind them. Of a compressed one each digit of the length of a run counts as it stands.
-/
namespace CIM.ds.Bitmap

open Transition

variable {b : Bitmap} {v : Bool} {w : UInt16} {n m k : Nat} {ws rest data : List UInt16}

def U64_DIV_BASE : Nat := 4
def U64_VALUE_SIZE : Nat := VALUE_SIZE * U64_DIV_BASE

/-- What a run of the loop over a word finds below the size. -/
def countWord (size cur_pos : Nat) (tmp : UInt16) : Nat :=
  (List.range (min VALUE_SIZE (size - cur_pos))).countP (bitAt tmp)

/-- The loop over single words; `cur_pos` stops at the size. -/
def countWords (size : Nat) : Nat → UInt32 → List UInt16 → UInt32
  | _, count, [] => count
  | cur_pos, count, tmp :: rest =>
      if tmp = 0 then countWords size ((cur_pos + VALUE_SIZE) % 4294967296) count rest
      else
        countWords size (cur_pos + min VALUE_SIZE (size - cur_pos))
          (count + UInt32.ofNat (countWord size cur_pos tmp)) rest

/-- What a compressed word adds. -/
def compressedCount (tmp : UInt16) : Nat :=
  if isRun tmp then if runValue tmp then (tmp &&& COUNT_MASK).toNat else 0 else count_bits tmp

/-- The bits of eight bytes are those of four words. -/
def getCount (b : Bitmap) : UInt32 :=
  if b.m_compress then
    b.m_data.foldl (fun count tmp => count + UInt32.ofNat (compressedCount tmp)) 0
  else
    let len := b.m_data.length / U64_DIV_BASE
    countWords b.m_size.toNat (len * U64_VALUE_SIZE % 4294967296)
      ((b.m_data.take (len * U64_DIV_BASE)).foldl
        (fun count tmp => count + UInt32.ofNat (count_bits tmp)) 0)
      (b.m_data.drop (len * U64_DIV_BASE))

/-- The number of indices below the size at which `get` is true. -/
def setCount (b : Bitmap) : Nat :=
  (List.range b.m_size.toNat).countP fun k => b.get (UInt32.ofNat k) == .ok true

/-! ## The bits of words in a row -/

/-- The number of bits among the first `m`. -/
def countBelow (data : List UInt16) (m : Nat) : Nat := (List.range m).countP (bit data)

theorem Plain.setCount_eq (h : Plain b) : setCount b = countBelow b.m_data b.m_size.toNat := by
  unfold setCount countBelow
  refine List.countP_congr fun k hk => ?_
  rw [h.get_index (List.mem_range.mp hk)]
  cases bit b.m_data k <;> decide

theorem countBelow_le : countBelow data m ≤ m := by
  have h := List.countP_le_length (p := bit data) (l := List.range m)
  rw [List.length_range] at h
  exact h

theorem countBelow_nil : countBelow [] m = 0 :=
  List.countP_eq_zero.mpr fun _ _ h => Bool.false_ne_true ((bitAt_zero _).symm.trans h)

/-- The bits above `m` are those of the words shifted. -/
theorem countBelow_add (data : List UInt16) (m n : Nat) : countBelow data (m + n) =
    countBelow data m + (List.range n).countP fun i => bit data (m + i) := by
  unfold countBelow
  rw [List.range_add, List.countP_append, List.countP_map]
  rfl

theorem bit_cons_low (hk : k < 14) : bit (w :: ws) k = bitAt w k := by
  unfold bit
  rw [Nat.div_eq_of_lt hk, Nat.mod_eq_of_lt hk]
  rfl

theorem bit_cons_high : bit (w :: ws) (14 + k) = bit ws k := by
  have hdiv : (14 + k) / 14 = k / 14 + 1 := by omega
  have hmod : (14 + k) % 14 = k % 14 := by omega
  unfold bit
  rw [hdiv, hmod, List.getD_cons_succ]

/-- The bits of the first word, and those of the others. -/
theorem countBelow_cons : countBelow (w :: ws) m =
    (List.range (min 14 m)).countP (bitAt w) + countBelow ws (m - 14) := by
  have hlow : ∀ m ≤ 14, countBelow (w :: ws) m = (List.range m).countP (bitAt w) := by
    intro m hm
    refine List.countP_congr fun k hk => ?_
    rw [bit_cons_low (Nat.lt_of_lt_of_le (List.mem_range.mp hk) hm)]
  rcases Nat.le_total m 14 with hm | hm
  · rw [Nat.min_eq_right hm, Nat.sub_eq_zero_of_le hm, hlow m hm]
    rfl
  · obtain ⟨r, rfl⟩ := Nat.exists_eq_add_of_le hm
    rw [Nat.min_eq_left hm, Nat.add_sub_cancel_left, countBelow_add, hlow 14 (Nat.le_refl _)]
    simp only [bit_cons_high]
    rfl

/-- The places below `m` in the first word, in the other words and behind them. -/
theorem first_word (w : UInt16) (ws : List UInt16) (m : Nat) :
    min 14 (min m (14 * (w :: ws).length)) = min 14 m ∧
      min m (14 * (w :: ws).length) - 14 = min (m - 14) (14 * ws.length) ∧
      m - 14 - 14 * ws.length = m - 14 * (w :: ws).length := by
  rw [List.length_cons]
  omega

theorem countBelow_append : countBelow (ws ++ rest) m =
    countBelow ws (min m (14 * ws.length)) + countBelow rest (m - 14 * ws.length) := by
  induction ws generalizing m with
  | nil =>
      rw [countBelow_nil, List.length_nil, Nat.mul_zero, Nat.sub_zero, Nat.zero_add]
      rfl
  | cons w ws ih =>
      obtain ⟨hfirst, hothers, hrest⟩ := first_word w ws m
      rw [List.cons_append, countBelow_cons, ih, countBelow_cons, hfirst, hothers, hrest,
        Nat.add_assoc]

/-! ## The loops -/

theorem foldl_count {f : UInt16 → Nat} {c : UInt32} :
    ws.foldl (fun count tmp => count + UInt32.ofNat (f tmp)) c =
      c + UInt32.ofNat (ws.map f).sum := by
  induction ws generalizing c with
  | nil => exact (UInt32.add_zero c).symm
  | cons w ws ih =>
      rw [List.foldl_cons, ih, List.map_cons, List.sum_cons, UInt32.ofNat_add, UInt32.add_assoc]

/-- The loop over single words finds the bits below the size, as only the last word may end above
it. -/
theorem countWords_eq {size p : Nat} {c : UInt32} (hsize : size < 4294967296)
    (hp : p + 14 * ws.length < size + 14) :
    countWords size p c ws = c + UInt32.ofNat (countBelow ws (size - p)) := by
  induction ws generalizing p c with
  | nil =>
      rw [countBelow_nil]
      exact (UInt32.add_zero c).symm
  | cons w ws ih =>
      rw [List.length_cons] at hp
      rw [countBelow_cons, UInt32.ofNat_add, ← UInt32.add_assoc]
      unfold countWords
      by_cases hw : w = 0
      · have hnone : (List.range (min 14 (size - p))).countP (bitAt w) = 0 := by
          rw [hw]
          exact List.countP_eq_zero.mpr fun i _ h =>
            Bool.false_ne_true ((bitAt_zero i).symm.trans h)
        rw [if_pos hw, hnone]
        change _ = c + 0 + _
        rw [UInt32.add_zero]
        cases ws with
        | nil =>
            rw [countBelow_nil]
            exact (UInt32.add_zero c).symm
        | cons u ws =>
            rw [List.length_cons] at hp
            have hnext : (p + VALUE_SIZE) % 4294967296 = p + 14 := Nat.mod_eq_of_lt (by
              change p + 14 < _
              omega)
            rw [hnext, ih (by rw [List.length_cons]; omega), Nat.sub_sub]
      · rw [if_neg hw]
        change countWords size (p + min 14 (size - p))
          (c + UInt32.ofNat ((List.range (min 14 (size - p))).countP (bitAt w))) ws = _
        cases ws with
        | nil =>
            rw [countBelow_nil]
            exact (UInt32.add_zero _).symm
        | cons u ws =>
            rw [List.length_cons] at hp
            rw [Nat.min_eq_left (by omega), ih (by rw [List.length_cons]; omega), Nat.sub_sub]

/-! ## Plain bitmaps -/

/-- The bits of a word above the fourteen. -/
def highBits (w : UInt16) : Nat := (bitAt w 14).toNat + (bitAt w 15).toNat

theorem count_bits_eq : count_bits w = (List.range 14).countP (bitAt w) + highBits w := by
  have hall : count_bits w = (List.range 16).countP (bitAt w) := by
    refine List.countP_congr fun i hi => ?_
    rw [bitAt_eq w (List.mem_range.mp hi)]
  have hone : ∀ i, [i].countP (bitAt w) = (bitAt w i).toNat := fun i => by
    rw [List.countP_singleton]
    cases bitAt w i <;> rfl
  rw [hall, List.range_succ, List.countP_append, List.range_succ, List.countP_append, hone, hone,
    Nat.add_assoc]
  rfl

/-- A word has no bits above the fourteen if it is one of fourteen bits. -/
theorem highBits_eq_zero : highBits w = 0 ↔ bits w = w := by
  have hdrop : ∀ i < 16, bitAt (bits w) i = (bitAt w i && bitAt COUNT_MASK i) := fun i hi =>
    bitAt_and hi
  have hmask : bitAt COUNT_MASK 14 = false ∧ bitAt COUNT_MASK 15 = false := by decide
  constructor
  · intro h
    have h14 : bitAt w 14 = false := by
      unfold highBits at h
      cases hb : bitAt w 14 with
      | false => rfl
      | true =>
          rw [hb, Bool.toNat_true] at h
          omega
    have h15 : bitAt w 15 = false := by
      unfold highBits at h
      cases hb : bitAt w 15 with
      | false => rfl
      | true =>
          rw [hb, Bool.toNat_true] at h
          omega
    apply UInt16.toNat_inj.mp
    apply Nat.eq_of_testBit_eq
    intro i
    by_cases hi : i < 16
    · rw [← bitAt_eq _ hi, ← bitAt_eq _ hi]
      by_cases hlow : i < 14
      · exact bitAt_bits w hlow
      · rcases (by omega : i = 14 ∨ i = 15) with rfl | rfl
        · rw [hdrop 14 (by decide), h14, Bool.false_and]
        · rw [hdrop 15 (by decide), h15, Bool.false_and]
    · have hpow : 2 ^ 16 ≤ 2 ^ i := Nat.pow_le_pow_right (by decide) (by omega)
      rw [Nat.testBit_lt_two_pow (Nat.lt_of_lt_of_le (bits w).toNat_lt hpow),
        Nat.testBit_lt_two_pow (Nat.lt_of_lt_of_le w.toNat_lt hpow)]
  · intro h
    unfold highBits
    rw [← h, hdrop 14 (by decide), hdrop 15 (by decide), hmask.1, hmask.2, Bool.and_false,
      Bool.and_false]
    rfl

/-- The bits of the first word, and how many are behind it. -/
theorem words_cons (w : UInt16) (ws : List UInt16) : min 14 (14 * (w :: ws).length) = 14 ∧
    14 * (w :: ws).length - 14 = 14 * ws.length := by
  rw [List.length_cons]
  omega

theorem sum_count_bits :
    (ws.map count_bits).sum = countBelow ws (14 * ws.length) + (ws.map highBits).sum := by
  induction ws with
  | nil => rfl
  | cons w ws ih =>
      obtain ⟨hmin, hsub⟩ := words_cons w ws
      rw [List.map_cons, List.sum_cons, ih, List.map_cons, List.sum_cons, countBelow_cons, hmin,
        hsub, count_bits_eq]
      omega

/-- The words that are counted by blocks. -/
def blockWords (b : Bitmap) : List UInt16 :=
  b.m_data.take (b.m_data.length / U64_DIV_BASE * U64_DIV_BASE)

/-- The words counted by blocks have no bits that no index reaches. -/
def NoStray (b : Bitmap) : Prop :=
  (∀ w ∈ blockWords b, bits w = w) ∧
    ∀ k, b.m_size.toNat ≤ k → bit (blockWords b) k = false

/-- The bits above the size that the blocks count. -/
def tailBits (b : Bitmap) : Nat :=
  (List.range (14 * (blockWords b).length - min b.m_size.toNat (14 * (blockWords b).length))).countP
    fun i => bit (blockWords b) (min b.m_size.toNat (14 * (blockWords b).length) + i)

def strayBits (b : Bitmap) : Nat := ((blockWords b).map highBits).sum + tailBits b

theorem blockWords_length : (blockWords b).length = b.m_data.length / 4 * 4 := by
  unfold blockWords
  rw [List.length_take]
  exact Nat.min_eq_left (Nat.div_mul_le_self _ _)

theorem bit_beyond (hk : 14 * data.length ≤ k) : bit data k = false := by
  unfold bit
  rw [List.getD_eq_default _ _ (by omega)]
  exact bitAt_zero _

theorem tailBits_eq_zero :
    tailBits b = 0 ↔ ∀ k, b.m_size.toNat ≤ k → bit (blockWords b) k = false := by
  unfold tailBits
  rw [List.countP_eq_zero]
  constructor
  · intro h k hk
    by_cases hlt : k < 14 * (blockWords b).length
    · have hmin : min b.m_size.toNat (14 * (blockWords b).length) = b.m_size.toNat := by omega
      have hbit := h (k - b.m_size.toNat) (List.mem_range.mpr (by omega))
      rw [hmin, Nat.add_sub_cancel' hk] at hbit
      exact Bool.eq_false_iff.mpr hbit
    · exact bit_beyond (Nat.not_lt.mp hlt)
  · intro h i hi
    have hi := List.mem_range.mp hi
    exact Bool.eq_false_iff.mp (h _ (by omega))

theorem strayBits_eq_zero : strayBits b = 0 ↔ NoStray b := by
  unfold strayBits NoStray
  rw [Nat.add_eq_zero_iff, tailBits_eq_zero, List.sum_eq_zero_iff_forall_eq_nat, List.forall_mem_map]
  exact and_congr_left' (forall₂_congr fun w _ => highBits_eq_zero)

theorem sum_highBits_le (ws : List UInt16) : (ws.map highBits).sum ≤ 2 * ws.length := by
  induction ws with
  | nil => exact Nat.le_refl 0
  | cons w ws ih =>
      have hle : highBits w ≤ 2 := Nat.add_le_add (Bool.toNat_le _) (Bool.toNat_le _)
      rw [List.map_cons, List.sum_cons, List.length_cons]
      omega

theorem strayBits_lt (h : Plain b) : strayBits b < 4294967296 := by
  have hhigh := sum_highBits_le (blockWords b)
  have htail : tailBits b ≤ 14 * (blockWords b).length -
      min b.m_size.toNat (14 * (blockWords b).length) := by
    have hle := List.countP_le_length (p := fun i => bit (blockWords b)
      (min b.m_size.toNat (14 * (blockWords b).length) + i))
      (l := List.range (14 * (blockWords b).length -
        min b.m_size.toNat (14 * (blockWords b).length)))
    rw [List.length_range] at hle
    exact hle
  have hsize := b.m_size.toNat_lt
  have hlen : b.m_data.length = (b.m_size.toNat + 13) / 14 := h.length
  rw [blockWords_length] at hhigh htail
  unfold strayBits
  omega

/-- The blocks count all of their bits, and the loop behind them those below the size. -/
theorem getCount_plain (h : Plain b) :
    b.getCount = UInt32.ofNat (setCount b + strayBits b) := by
  have hlen : b.m_data.length = (b.m_size.toNat + 13) / 14 := h.length
  have hblocks := blockWords_length (b := b)
  obtain ⟨rest, hrest⟩ : ∃ rest, b.m_data = blockWords b ++ rest :=
    ⟨_, (List.take_append_drop _ _).symm⟩
  have hrlen : (blockWords b).length + rest.length = b.m_data.length := by
    rw [← List.length_append, ← hrest]
  have hdrop : b.m_data.drop (b.m_data.length / 4 * 4) = rest := by
    rw [← hblocks]
    conv_lhs => rw [hrest]
    exact List.drop_left
  have hcount : b.getCount = countWords b.m_size.toNat
      (14 * (blockWords b).length % 4294967296)
      (0 + UInt32.ofNat ((blockWords b).map count_bits).sum) rest := by
    have hpos : b.m_data.length / 4 * (14 * 4) = 14 * (b.m_data.length / 4 * 4) := by
      rw [Nat.mul_left_comm]
    unfold getCount
    rw [if_neg h.not_compressed]
    change countWords b.m_size.toNat (b.m_data.length / 4 * (14 * 4) % 4294967296)
      ((blockWords b).foldl _ 0) (b.m_data.drop (b.m_data.length / 4 * 4)) = _
    rw [foldl_count, hdrop, hpos, ← hblocks]
  have hloop : b.getCount = UInt32.ofNat ((blockWords b).map count_bits).sum +
      UInt32.ofNat (countBelow rest (b.m_size.toNat - 14 * (blockWords b).length)) := by
    rw [hcount, UInt32.zero_add]
    cases hr : rest with
    | nil =>
        rw [countBelow_nil]
        exact (UInt32.add_zero _).symm
    | cons w ws =>
        rw [hr, List.length_cons] at hrlen
        have hsize := b.m_size.toNat_lt
        rw [Nat.mod_eq_of_lt (by omega),
          countWords_eq hsize (by rw [List.length_cons]; omega)]
  have hset : setCount b = countBelow (blockWords b)
      (min b.m_size.toNat (14 * (blockWords b).length)) +
        countBelow rest (b.m_size.toNat - 14 * (blockWords b).length) := by
    rw [h.setCount_eq, ← countBelow_append, ← hrest]
  have htail : countBelow (blockWords b) (14 * (blockWords b).length) =
      countBelow (blockWords b) (min b.m_size.toNat (14 * (blockWords b).length)) +
        tailBits b := by
    have hadd := countBelow_add (blockWords b)
      (min b.m_size.toNat (14 * (blockWords b).length))
      (14 * (blockWords b).length - min b.m_size.toNat (14 * (blockWords b).length))
    rw [Nat.add_sub_cancel' (Nat.min_le_right _ _)] at hadd
    exact hadd
  rw [hloop, ← UInt32.ofNat_add, sum_count_bits, htail, hset]
  unfold strayBits
  congr 1
  omega

theorem getCount_plain_iff (h : Plain b) : b.getCount.toNat = setCount b ↔ NoStray b := by
  have hset : setCount b < 4294967296 := by
    rw [h.setCount_eq]
    exact Nat.lt_of_le_of_lt countBelow_le b.m_size.toNat_lt
  have hstray := strayBits_lt h
  rw [getCount_plain h, UInt32.toNat_ofNat', ← strayBits_eq_zero]
  omega

/-! ## Compressed bitmaps -/

/-- The digits of the length of a run, each as it stands. -/
theorem sum_runWords {fuel : Nat} :
    ((runWords true fuel n).map compressedCount).sum ≤ n ∧
      (n < 16384 ^ fuel →
        (((runWords true fuel n).map compressedCount).sum = n ↔ n < 16384)) := by
  have hword : ∀ m, compressedCount (runWord true m) = m % 16384 := by
    intro m
    unfold compressedCount
    rw [if_pos (runWord_isRun true m), if_pos (runWord_value true m), runWord_count]
  induction fuel generalizing n with
  | zero =>
      refine ⟨Nat.zero_le n, fun hn => ?_⟩
      have hzero : n = 0 := Nat.lt_one_iff.mp hn
      rw [hzero]
      exact ⟨fun _ => by decide, fun _ => rfl⟩
  | succ fuel ih =>
      unfold runWords
      by_cases hn : n = 0
      · rw [if_pos hn, hn]
        exact ⟨Nat.le_refl 0, fun _ => ⟨fun _ => by decide, fun _ => rfl⟩⟩
      · obtain ⟨hle, heq⟩ := ih (n := n / 16384)
        rw [if_neg hn, List.map_cons, List.sum_cons, hword]
        refine ⟨by omega, fun _ => ⟨fun hsum => by omega, fun hlt => ?_⟩⟩
        have hzero : n / 16384 = 0 := Nat.div_eq_of_lt hlt
        rw [hzero] at hle ⊢
        omega

/-- The words of ones in a run of `n` words of the value. -/
def openOnes (v : Bool) (n : Nat) : Nat := if v then n else 0

/-- What is written for a run of `n` words. -/
theorem sum_flush (hn : 14 * n < 4294967310) :
    ((flush v (14 * n)).map compressedCount).sum ≤ 14 * openOnes v n ∧
      (((flush v (14 * n)).map compressedCount).sum = 14 * openOnes v n ↔
        openOnes v n ≤ 1170) := by
  have hdiv : 14 * n / VALUE_SIZE = n := Nat.mul_div_cancel_left _ (by decide)
  unfold flush
  rw [hdiv]
  by_cases h1 : 1 < n
  · rw [if_pos h1]
    cases v with
    | false =>
        have hzero : ((runWords false 5 (14 * n)).map compressedCount).sum = 0 := by
          refine List.sum_eq_zero_iff_forall_eq_nat.mpr (List.forall_mem_map.mpr fun w hw => ?_)
          have hcont := runWords_continue w hw
          unfold continues at hcont
          rw [Bool.and_eq_true, beq_iff_eq] at hcont
          unfold compressedCount
          rw [if_pos hcont.1, ← hcont.2]
          rfl
        rw [hzero]
        exact ⟨Nat.zero_le _, fun _ => Nat.zero_le _, fun _ => rfl⟩
    | true =>
        obtain ⟨hle, heq⟩ := sum_runWords (n := 14 * n)
        change _ ≤ 14 * n ∧ (_ = 14 * n ↔ n ≤ 1170)
        refine ⟨hle, (heq (by omega)).trans ?_⟩
        omega
  · rw [if_neg h1]
    by_cases h0 : n = 0
    · rw [if_pos (by omega), h0]
      cases v <;> exact ⟨Nat.le_refl 0, fun _ => Nat.zero_le _, fun _ => rfl⟩
    · have hone : n = 1 := by omega
      rw [if_neg (by omega), hone]
      cases v <;> decide

/-- The longest run of words of ones, `n` of which came before. -/
def longestOnes : Nat → List UInt16 → Nat
  | n, [] => n
  | n, w :: ws =>
      if isUniform true w then longestOnes (n + 1) ws else max n (longestOnes 0 ws)

/-- No word carries bits above the fourteen, unless it is written again as a run. -/
def Countable (w : UInt16) : Prop := (∃ v, isUniform v w = true) ∨ bits w = w

theorem count_uniform (h : isUniform v w = true) :
    (List.range 14).countP (bitAt w) = 14 * openOnes v 1 := by
  have hw := bits_eq_uniform.mp (isUniform_iff.mp h)
  cases v with
  | false =>
      exact List.countP_eq_zero.mpr fun i hi hb =>
        Bool.false_ne_true ((hw i (List.mem_range.mp hi)).symm.trans hb)
  | true =>
      refine (List.countP_eq_length.mpr ?_).trans List.length_range
      exact fun i hi => hw i (List.mem_range.mp hi)

theorem count_literal (h : bits w = w) :
    compressedCount w = (List.range 14).countP (bitAt w) := by
  have hrun : isRun w = false := by
    unfold isRun
    rw [← h, bits_and (by decide)]
    rfl
  unfold compressedCount
  rw [if_neg (by rw [hrun]; exact Bool.false_ne_true), count_bits_eq, highBits_eq_zero.mpr h]
  rfl

theorem countBelow_full : countBelow (w :: ws) (14 * (w :: ws).length) =
    (List.range 14).countP (bitAt w) + countBelow ws (14 * ws.length) := by
  obtain ⟨hmin, hsub⟩ := words_cons w ws
  rw [countBelow_cons, hmin, hsub]

/-- A run of the one value or of the other, then the words behind it. -/
theorem longestOnes_cons (hw : isUniform v w = true) :
    longestOnes n (w :: ws) =
      if v then longestOnes (n + 1) ws else max n (longestOnes 0 ws) := by
  rw [longestOnes]
  cases v with
  | true => rw [if_pos hw, if_pos rfl]
  | false =>
      have hones : ¬isUniform true w = true := fun ht =>
        absurd (uniform_injective ((isUniform_iff.mp ht).symm.trans
          (isUniform_iff.mp hw))) (by decide)
      rw [if_neg hones, if_neg Bool.false_ne_true]

/-- By induction on the words that are left: what is written counts at most what was read, and less
only if a run of ones is too long for one digit. -/
theorem sum_compressLoop (hcount : ∀ w ∈ ws, Countable w)
    (hsize : 14 * (n + ws.length) < 4294967310) :
    ((compressLoop v (14 * n) ws).map compressedCount).sum ≤
        14 * openOnes v n + countBelow ws (14 * ws.length) ∧
      (((compressLoop v (14 * n) ws).map compressedCount).sum =
          14 * openOnes v n + countBelow ws (14 * ws.length) ↔
        longestOnes (openOnes v n) ws ≤ 1170) := by
  induction ws generalizing v n with
  | nil =>
      rw [countBelow_nil, Nat.add_zero]
      exact sum_flush hsize
  | cons cur ws ih =>
      have hrest : ∀ w ∈ ws, Countable w := fun w hw => hcount w (List.mem_cons_of_mem _ hw)
      rw [List.length_cons] at hsize
      rw [countBelow_full]
      unfold compressLoop
      by_cases hsame : isUniform v cur = true
      · obtain ⟨hle, heq⟩ := ih (v := v) (n := n + 1) hrest (by omega)
        have hopen : openOnes v (n + 1) = openOnes v n + openOnes v 1 := by
          cases v <;> rfl
        have hlongest : longestOnes (openOnes v n) (cur :: ws) =
            longestOnes (openOnes v (n + 1)) ws := by
          rw [longestOnes_cons hsame]
          cases v with
          | false => exact Nat.max_eq_right (Nat.zero_le _)
          | true => rfl
        rw [if_pos hsame, count_uniform hsame, hlongest, ← heq, hopen]
        change ((compressLoop v (14 * (n + 1)) ws).map compressedCount).sum ≤ _ ∧
          (((compressLoop v (14 * (n + 1)) ws).map compressedCount).sum = _ ↔
            ((compressLoop v (14 * (n + 1)) ws).map compressedCount).sum = _)
        rw [hopen] at hle
        omega
      · obtain ⟨hflush, hflusheq⟩ := sum_flush (v := v) (n := n) (by omega)
        rw [if_neg hsame]
        by_cases hother : isUniform (!v) cur = true
        · obtain ⟨hle, heq⟩ := ih (v := !v) (n := 1) hrest (by omega)
          have hlongest : longestOnes (openOnes v n) (cur :: ws) =
              max (openOnes v n) (longestOnes (openOnes (!v) 1) ws) := by
            rw [longestOnes_cons hother]
            cases v with
            | false => exact (Nat.max_eq_right (Nat.zero_le _)).symm
            | true => rfl
          rw [if_pos hother, List.map_append, List.sum_append, count_uniform hother, hlongest,
            Nat.max_le, ← hflusheq, ← heq]
          change _ + ((compressLoop (!v) (14 * 1) ws).map compressedCount).sum ≤ _ ∧
            (_ + ((compressLoop (!v) (14 * 1) ws).map compressedCount).sum = _ ↔ _)
          omega
        · obtain ⟨hle, heq⟩ := ih (v := v) (n := 0) hrest (by omega)
          have hones : ¬isUniform true cur = true := by
            cases v with
            | false => exact hother
            | true => exact hsame
          have hbits : bits cur = cur := by
            refine (hcount cur List.mem_cons_self).resolve_left ?_
            rintro ⟨u, hu⟩
            cases u <;> cases v <;> first | exact hsame hu | exact hother hu
          have hzero : openOnes v 0 = 0 := by
            cases v <;> rfl
          rw [hzero] at hle heq
          rw [if_neg hother, List.map_append, List.sum_append, List.map_cons, List.sum_cons,
            count_literal hbits]
          rw [longestOnes, if_neg hones, Nat.max_le, ← hflusheq, ← heq]
          change _ + (_ + ((compressLoop v (14 * 0) ws).map compressedCount).sum) ≤ _ ∧
            (_ + (_ + ((compressLoop v (14 * 0) ws).map compressedCount).sum) = _ ↔ _)
          omega

/-- No bit above the size is set. -/
def TailClear (b : Bitmap) : Prop := ∀ k, b.m_size.toNat ≤ k → bit b.m_data k = false

theorem setCount_full (h : Plain b) (htail : TailClear b) :
    setCount b = countBelow b.m_data (14 * b.m_data.length) := by
  have hlen : b.m_data.length = (b.m_size.toNat + 13) / 14 := h.length
  have hsplit := countBelow_add b.m_data b.m_size.toNat
    (14 * b.m_data.length - b.m_size.toNat)
  have hnone : (List.range (14 * b.m_data.length - b.m_size.toNat)).countP
      (fun i => bit b.m_data (b.m_size.toNat + i)) = 0 :=
    List.countP_eq_zero.mpr fun i _ => Bool.eq_false_iff.mp (htail _ (Nat.le_add_right _ _))
  rw [Nat.add_sub_cancel' (by omega), hnone, Nat.add_zero] at hsplit
  rw [h.setCount_eq, hsplit]

theorem getCount_compress_iff (h : Plain b) (hcount : ∀ w ∈ b.m_data, Countable w)
    (htail : TailClear b) :
    b.compress.getCount.toNat = setCount b ↔ longestOnes 0 b.m_data ≤ 1170 := by
  have hsum : b.compress.getCount =
      UInt32.ofNat ((compressLoop false 0 b.m_data).map compressedCount).sum := by
    rw [h.compress_eq]
    unfold getCount
    rw [if_pos rfl, foldl_count, UInt32.zero_add]
  have hset : setCount b < 4294967296 := by
    rw [h.setCount_eq]
    exact Nat.lt_of_le_of_lt countBelow_le b.m_size.toNat_lt
  obtain ⟨hle, heq⟩ := sum_compressLoop (v := false) (n := 0) hcount
    (by rw [Nat.zero_add]; exact h.size_lt)
  rw [← setCount_full h htail] at hle heq
  change ((compressLoop false 0 b.m_data).map compressedCount).sum ≤ 14 * 0 + setCount b at hle
  change ((compressLoop false 0 b.m_data).map compressedCount).sum = 14 * 0 + setCount b ↔
    longestOnes 0 b.m_data ≤ 1170 at heq
  rw [Nat.mul_zero, Nat.zero_add] at hle heq
  rw [hsum, UInt32.toNat_ofNat', Nat.mod_eq_of_lt (by omega), heq]

theorem Countable.clean (h : Countable w) : Clean w := h.elim .inl Clean.of_bits

theorem countable_iterate (h : ∀ w ∈ b.m_data, Countable w) :
    ∀ w ∈ (flip^[k] b).m_data, Countable w := by
  cases k with
  | zero => exact h
  | succ k =>
      rw [Function.iterate_succ_apply']
      intro w hw
      obtain ⟨x, -, rfl⟩ := List.mem_map.mp hw
      exact .inr bits_flipWord

/-! ## Runs -/

variable {s : Bitmaps} {i : Nat}

/-- The count of a plain bitmap is right if its blocks have no other bits. The compressed form of a
bitmap without such bits, turned any number of times, is counted right if no run of ones needs a
second digit. -/
theorem run_getCount {ops : List BitmapOp} (h : bitmaps.Run ops s) (hb : s i = some b) :
    (b.getCount.toNat = setCount b ↔ NoStray b) ∧
      ∀ k, (∀ w ∈ b.m_data, Countable w) → TailClear (flip^[k] b) →
        ((Bitmap.not^[k] b.compress).getCount.toNat = setCount (flip^[k] b) ↔
          longestOnes 0 (flip^[k] b).m_data ≤ 1170) := by
  have hplain := run_plain h i b hb
  refine ⟨getCount_plain_iff hplain, fun k hcount htail => ?_⟩
  obtain ⟨hnot, hplain', -⟩ := not_iterate (k := k) hplain fun w hw => (hcount w hw).clean
  rw [hnot]
  exact getCount_compress_iff hplain' (countable_iterate hcount) htail

theorem run_getCount_one_bit : ∃ ops s b, bitmaps.Run ops s ∧ s 0 = some b ∧
    (b.getCount.toNat = setCount b ↔ NoStray b) ∧
      ((Bitmap.not^[0] b.compress).getCount.toNat = setCount (flip^[0] b) ↔
        longestOnes 0 (flip^[0] b).m_data ≤ 1170) := by
  have h₀ : bitmaps.Run [] (fun _ => none) := .start rfl
  have h₁ := h₀.snoc (e := .create 0 20 0) (.inl rfl)
  have hclean := cleanBits_create 20
  obtain ⟨hplain, hcompressed⟩ := run_getCount (i := 0) h₁ rfl
  exact ⟨_, _, _, h₁, rfl, hplain, hcompressed 0 (fun w hw => .inr (hclean.words w hw)) hclean.tail⟩

/-- A bitmap that is made of ones has them above the fourteen bits of its words too. -/
theorem getCount_ones : ∃ (ops : List BitmapOp) (s : Bitmaps) (b : Bitmap),
    bitmaps.Run ops s ∧ s 0 = some b ∧ b.m_size = 56 ∧ setCount b = 56 ∧ b.getCount = 64 := by
  have h₀ : bitmaps.Run [] (fun _ => none) := .start rfl
  have h₁ := h₀.snoc (e := .create 0 56 255) (.inl rfl)
  exact ⟨_, _, create 56 255, h₁, rfl, rfl, by decide, by decide⟩

end CIM.ds.Bitmap
