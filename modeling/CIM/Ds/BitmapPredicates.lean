import CIM.Ds.BitmapBits
import CIM.Ds.BitmapCount

/-!
# What two bitmaps have in common

`any`, `operator==` and `cross` read whole words. The bits above the fourteen and behind the size
count as any other, and `any` leaves out a last word that is full.
-/
namespace CIM.ds.Bitmap

open Transition

/-- `isNull` tells that `m_data` is the null pointer. Without data `m_dataSize - 1` wraps around
and the loop leaves the data; a compressed word is read as a `uint8_t`. -/
def any (isNull : Bool) (b : Bitmap) : Except BitmapFailure Bool :=
  if isNull then .ok false
  else if b.m_compress then
    .ok (b.m_data.any fun w =>
      let cur := w.toUInt8.toUInt16
      if cur &&& COMPRESS_MASK != 0 then cur &&& VALUE_MASK != 0 else cur != 0)
  else
    match b.m_data.getLast? with
    | none => .error .undefined
    | some last =>
        .ok (b.m_data.dropLast.any (fun w => w != 0) ||
          last &&& MASK (b.m_size.toNat % VALUE_SIZE) != 0)

/-- `operator==`; an object compares with itself as with its copy. -/
def equals (a b : Bitmap) : Bool :=
  if a.m_compress ≠ b.m_compress ∨ a.m_size ≠ b.m_size ∨ a.m_data.length ≠ b.m_data.length then
    false
  else if a.m_data ≠ b.m_data then false
  else
    let left := a.m_size.toNat % VALUE_SIZE
    if left ≠ 0 then
      (a.m_data.getLast?.map fun w => w &&& MASK left) ==
        b.m_data.getLast?.map fun w => w &&& MASK left
    else true

/-- `get(from, size, v)` -/
def getRange (data : List UInt16) (start size : Nat) (v : Bool) : Except BitmapFailure Bool :=
  if size = 0 then .ok false
  else if start % VALUE_SIZE ≠ 0 ∨ (start + size) % 4294967296 % VALUE_SIZE ≠ 0 then
    .error .assertion
  else
    let cur_from := start / VALUE_SIZE
    let cur_to := (start + size) % 4294967296 / VALUE_SIZE
    (List.range' cur_from (cur_to - cur_from)).anyM fun i =>
      match data[i]? with
      | none => .error .undefined
      | some w => .ok (if v then w &&& COUNT_MASK != 0 else w &&& COUNT_MASK == 0)

/-- The loop of `compressCross` over what the other bitmap holds. -/
def crossLoop (data : List UInt16) : Nat → List Segment → Except BitmapFailure Bool
  | _, [] => .ok false
  | cur_pos, .literal w :: segs =>
      match data[cur_pos / VALUE_SIZE]? with
      | none => .error .undefined
      | some x =>
          if x &&& w != 0 then .ok true
          else crossLoop data ((cur_pos + VALUE_SIZE) % 4294967296) segs
  | cur_pos, .run v cur more :: segs => do
      let count ← runCount 1 (cur &&& COUNT_MASK).toNat more
      if v then
        if ← getRange data cur_pos count true then return true
      crossLoop data ((cur_pos + count) % 4294967296) segs

/-- The stretches of words that `normalCross` compares, by their first word and their length:
eight bytes at a time those that are not all 0, and then every word that is left. -/
def stretches (a : Bitmap) : List (Nat × Nat) :=
  let max_size := a.m_size.toNat / U64_VALUE_SIZE
  ((List.range max_size).filter fun i => (List.range U64_DIV_BASE).any fun k =>
      a.m_data.getD (U64_DIV_BASE * i + k) 0 != 0).map
        (fun i => (U64_DIV_BASE * i, U64_DIV_BASE)) ++
    (List.range' (max_size * U64_DIV_BASE) (a.m_data.length - max_size * U64_DIV_BASE)).map
      fun i => (i, 1)

/-- Two words of the stretch have a bit in common. -/
def shares (a b : List UInt16) (u : Nat × Nat) : Bool :=
  (List.range u.2).any fun k => a.getD (u.1 + k) 0 &&& b.getD (u.1 + k) 0 != 0

def normalCross (a b : Bitmap) : Except BitmapFailure Bool :=
  (stretches a).anyM fun u =>
    if u.1 + u.2 ≤ b.m_data.length then .ok (shares a.m_data b.m_data u) else .error .undefined

def cross (a b : Bitmap) : Except BitmapFailure Bool :=
  if a.m_compress then .ok false
  else if b.m_compress then crossLoop a.m_data 0 (segments b.m_data)
  else normalCross a b

/-! ## What the predicates are for -/

def HasBit (b : Bitmap) : Prop := ∃ idx, idx < b.m_size ∧ b.get idx = .ok true

def SameBits (a b : Bitmap) : Prop :=
  a.m_size = b.m_size ∧ ∀ idx, idx < a.m_size → a.get idx = b.get idx

def Meets (a b : Bitmap) : Prop :=
  ∃ idx, idx < a.m_size ∧ idx < b.m_size ∧ a.get idx = .ok true ∧ b.get idx = .ok true

def AnyExact (isNull : Bool) (b : Bitmap) : Prop :=
  ∃ r, any isNull b = .ok r ∧ (r = true ↔ HasBit b)

def EqualsExact (a b : Bitmap) : Prop := equals a b = true ↔ SameBits a b

def CrossExact (a b : Bitmap) : Prop := ∃ r, cross a b = .ok r ∧ (r = true ↔ Meets a b)

/-! ## What they depend on -/

/-- A full last word has no bit set, unless a word before it is not 0. -/
def LastWordSeen (b : Bitmap) : Prop :=
  b.m_size.toNat % VALUE_SIZE = 0 → (∀ w ∈ b.m_data.dropLast, w = 0) →
    ∀ w ∈ b.m_data.getLast?, bits w = 0

/-- A word with nothing but the bits above the fourteen comes with a bit that is set. -/
def TagsCovered (b : Bitmap) : Prop :=
  (∃ w ∈ b.m_data.dropLast, w ≠ 0 ∧ bits w = 0) → HasBit b

/-- Same size and same bits come with the same words. -/
def OneForm (a b : Bitmap) : Prop := SameBits a b → a.m_data = b.m_data

/-- The comparison ends inside the data of the other bitmap. -/
def StaysInside (a b : Bitmap) : Prop :=
  (∀ u ∈ stretches a, u.1 + u.2 ≤ b.m_data.length) ∨
    ∃ u ∈ stretches a, u.1 + u.2 ≤ b.m_data.length ∧ shares a.m_data b.m_data u = true

/-- Two words with a bit in common, of any kind, come with an index that is set in both. -/
def TagsShared (a b : Bitmap) : Prop :=
  (∃ i, a.m_data.getD i 0 &&& b.m_data.getD i 0 ≠ 0) → Meets a b

variable {a b : Bitmap} {w : UInt16} {isNull : Bool} {i k : Nat}

/-! ## Words and bits -/

theorem ne_zero_iff : w ≠ 0 ↔ ∃ i < 16, bitAt w i = true := by
  constructor
  · intro h
    by_contra hnone
    apply h
    apply UInt16.toNat_inj.mp
    apply Nat.eq_of_testBit_eq
    intro i
    by_cases hi : i < 16
    · rw [← bitAt_eq w hi, ← bitAt_eq 0 hi, bitAt_zero]
      exact Bool.eq_false_iff.mpr fun ht => hnone ⟨i, hi, ht⟩
    · have hlt := w.toNat_lt
      have hpow : 2 ^ 16 ≤ 2 ^ i := Nat.pow_le_pow_right (by decide) (Nat.le_of_not_lt hi)
      rw [Nat.testBit_lt_two_pow (Nat.lt_of_lt_of_le hlt hpow)]
      exact (Nat.zero_testBit i).symm
  · rintro ⟨i, -, ht⟩ rfl
    rw [bitAt_zero] at ht
    cases ht

theorem bits_ne_zero_iff : bits w ≠ 0 ↔ ∃ i < 14, bitAt w i = true := by
  have h : bits w = 0 ↔ ∀ i < 14, bitAt w i = false := bits_eq_uniform (v := false)
  rw [Ne, h]
  simp

theorem mask_ne_zero_iff {left : Nat} (hl : left < 14) :
    w &&& MASK left ≠ 0 ↔ ∃ i < left, bitAt w i = true := by
  have hmask : ∀ n < 14, ∀ i < 16, bitAt (MASK n) i = decide (i < n) := by decide
  rw [ne_zero_iff]
  constructor
  · rintro ⟨i, hi, ht⟩
    rw [bitAt_and hi, hmask left hl i hi, Bool.and_eq_true, decide_eq_true_eq] at ht
    exact ⟨i, ht.2, ht.1⟩
  · rintro ⟨i, hi, ht⟩
    refine ⟨i, by omega, ?_⟩
    rw [bitAt_and (by omega), hmask left hl i (by omega), ht]
    simpa using hi

theorem Plain.hasBit_iff (h : Plain b) :
    HasBit b ↔ ∃ k < b.m_size.toNat, bit b.m_data k = true := by
  constructor
  · rintro ⟨idx, hidx, hget⟩
    rw [h.get_eq hidx, Except.ok.injEq] at hget
    exact ⟨idx.toNat, hidx, hget⟩
  · rintro ⟨k, hk, ht⟩
    exact ⟨UInt32.ofNat k, index_lt hk, by rw [h.get_index hk, ht]⟩

/-- A bit that is set is one of a word before the last, or one of the last word in front of the
size. -/
theorem Plain.hasBit_split (h : Plain b) {front : List UInt16} {last : UInt16}
    (hdata : b.m_data = front ++ [last]) : HasBit b ↔
      (∃ w ∈ front, bits w ≠ 0) ∨
        ∃ p, p < b.m_size.toNat - 14 * front.length ∧ bitAt last p = true := by
  have hlen : b.m_data.length = (b.m_size.toNat + 13) / 14 := h.length
  rw [hdata, List.length_append, List.length_singleton] at hlen
  rw [h.hasBit_iff, hdata]
  constructor
  · rintro ⟨k, hk, ht⟩
    unfold bit at ht
    by_cases hfront : k / 14 < front.length
    · rw [List.getD_append _ _ _ _ hfront, List.getD_eq_getElem _ _ hfront] at ht
      exact .inl ⟨_, List.getElem_mem hfront,
        bits_ne_zero_iff.mpr ⟨k % 14, Nat.mod_lt _ (by decide), ht⟩⟩
    · have heq : k / 14 = front.length := by omega
      have hword : (front ++ [last]).getD (k / 14) 0 = last := by
        rw [heq, List.getD_append_right _ _ _ _ (Nat.le_refl _), Nat.sub_self]
        rfl
      rw [hword] at ht
      exact .inr ⟨k % 14, by omega, ht⟩
  · rintro (⟨w, hw, hbits⟩ | ⟨p, hp, ht⟩)
    · obtain ⟨p, hp, ht⟩ := bits_ne_zero_iff.mp hbits
      obtain ⟨i, hi, rfl⟩ := List.mem_iff_getElem.mp hw
      refine ⟨14 * i + p, by omega, ?_⟩
      have hdiv : (14 * i + p) / 14 = i := by omega
      have hmod : (14 * i + p) % 14 = p := by omega
      rw [bit, hdiv, hmod, List.getD_append _ _ _ _ hi, List.getD_eq_getElem _ _ hi]
      exact ht
    · refine ⟨14 * front.length + p, by omega, ?_⟩
      have hdiv : (14 * front.length + p) / 14 = front.length := by omega
      have hmod : (14 * front.length + p) % 14 = p := by omega
      rw [bit, hdiv, hmod, List.getD_append_right _ _ _ _ (Nat.le_refl _), Nat.sub_self]
      exact ht

/-! ## `any` -/

section LastWord

variable {front : List UInt16} {last : UInt16}

/-- The places of the last word in front of the size: all of them when the word is full. -/
theorem Plain.left_eq (h : Plain b) (hdata : b.m_data = front ++ [last]) :
    b.m_size.toNat - 14 * front.length =
      if b.m_size.toNat % 14 = 0 then 14 else b.m_size.toNat % 14 := by
  have hlen : b.m_data.length = (b.m_size.toNat + 13) / 14 := h.length
  rw [hdata, List.length_append, List.length_singleton] at hlen
  split <;> omega

/-- What `any` sees of the last word: nothing when it is full. -/
theorem Plain.masked_iff (h : Plain b) (hdata : b.m_data = front ++ [last]) :
    last &&& MASK (b.m_size.toNat % 14) ≠ 0 ↔ b.m_size.toNat % 14 ≠ 0 ∧
      ∃ p, p < b.m_size.toNat - 14 * front.length ∧ bitAt last p = true := by
  rw [mask_ne_zero_iff (Nat.mod_lt _ (by decide)), h.left_eq hdata]
  by_cases hfull : b.m_size.toNat % 14 = 0
  · simp [hfull]
  · rw [if_neg hfull, and_iff_right hfull]

theorem Plain.full_iff (h : Plain b) (hdata : b.m_data = front ++ [last])
    (hfull : b.m_size.toNat % 14 = 0) :
    bits last ≠ 0 ↔ ∃ p, p < b.m_size.toNat - 14 * front.length ∧ bitAt last p = true := by
  rw [h.left_eq hdata, if_pos hfull, bits_ne_zero_iff]

theorem Plain.any_true_iff (h : Plain b) (hdata : b.m_data = front ++ [last]) :
    ∃ r, any false b = .ok r ∧
      (r = true ↔ (∃ w ∈ front, w ≠ 0) ∨ last &&& MASK (b.m_size.toNat % 14) ≠ 0) := by
  have hlast : b.m_data.getLast? = some last := by simp [hdata]
  have hfront : b.m_data.dropLast = front := by simp [hdata]
  unfold any
  rw [if_neg Bool.false_ne_true, if_neg h.not_compressed, hlast, hfront]
  refine ⟨_, rfl, ?_⟩
  rw [Bool.or_eq_true, List.any_eq_true]
  simp only [bne_iff_ne]
  rfl

theorem Plain.anyExact_of_data (h : Plain b) (hdata : b.m_data = front ++ [last]) :
    AnyExact false b ↔ LastWordSeen b ∧ TagsCovered b := by
  have hlast : b.m_data.getLast? = some last := by simp [hdata]
  have hfront : b.m_data.dropLast = front := by simp [hdata]
  have hsplit := h.hasBit_split hdata
  have hmasked := h.masked_iff hdata
  obtain ⟨r, hany, hr⟩ := h.any_true_iff hdata
  have hexact : AnyExact false b ↔ (r = true ↔ HasBit b) := by
    unfold AnyExact
    simp only [hany, Except.ok.injEq, exists_eq_left']
  rw [hexact, hr, hmasked]
  unfold LastWordSeen TagsCovered
  rw [hlast, hfront]
  simp only [Option.mem_some_iff, forall_eq']
  constructor
  · intro hexact
    refine ⟨fun hfull hzeros => ?_, ?_⟩
    · by_contra hset
      have hp := (h.full_iff hdata hfull).mp hset
      rcases hexact.mpr (hsplit.mpr (.inr hp)) with ⟨w, hw, hne⟩ | ⟨hpart, -⟩
      · exact hne (hzeros w hw)
      · exact hpart hfull
    · rintro ⟨w, hw, hne, -⟩
      exact hexact.mp (.inl ⟨w, hw, hne⟩)
  · rintro ⟨hseen, htags⟩
    constructor
    · rintro (⟨w, hw, hne⟩ | ⟨-, hp⟩)
      · by_cases hb : bits w = 0
        · exact htags ⟨w, hw, hne, hb⟩
        · exact hsplit.mpr (.inl ⟨w, hw, hb⟩)
      · exact hsplit.mpr (.inr hp)
    · intro hset
      rcases hsplit.mp hset with ⟨w, hw, hb⟩ | hp
      · refine .inl ⟨w, hw, ?_⟩
        rintro rfl
        exact hb rfl
      · by_cases hfull : b.m_size.toNat % 14 = 0
        · -- a full last word is not looked at
          left
          by_contra hnone
          refine (h.full_iff hdata hfull).mpr hp (hseen hfull fun w hw => ?_)
          by_contra hne
          exact hnone ⟨w, hw, hne⟩
        · exact .inr ⟨hfull, hp⟩

end LastWord

theorem anyExact_iff (h : Plain b) (hnull : isNull = true → b.m_data = []) :
    AnyExact isNull b ↔ isNull = true ∨ b.m_data ≠ [] ∧ LastWordSeen b ∧ TagsCovered b := by
  cases isNull with
  | true =>
      have hlen : b.m_data.length = (b.m_size.toNat + 13) / 14 := h.length
      have hzero : b.m_data.length = 0 := by rw [hnull rfl]; rfl
      refine iff_of_true ⟨false, rfl, ?_⟩ (.inl rfl)
      rw [h.hasBit_iff]
      refine iff_of_false Bool.false_ne_true ?_
      rintro ⟨k, hk, -⟩
      omega
  | false =>
      rcases List.eq_nil_or_concat b.m_data with hnil | ⟨front, last, hdata⟩
      · refine iff_of_false ?_ fun hor => hor.elim Bool.false_ne_true fun hand => hand.1 hnil
        rintro ⟨r, hr, -⟩
        rw [any, if_neg Bool.false_ne_true, if_neg h.not_compressed, hnil] at hr
        cases hr
      · rw [List.concat_eq_append] at hdata
        have hne : b.m_data ≠ [] := by simp [hdata]
        rw [h.anyExact_of_data hdata]
        exact ⟨fun hand => .inr ⟨hne, hand⟩, fun hor => hor.elim (nomatch ·) And.right⟩

/-! ## `operator==` -/

theorem Plain.equals_iff (ha : Plain a) (hb : Plain b) :
    equals a b = true ↔ a.m_size = b.m_size ∧ a.m_data = b.m_data := by
  unfold equals
  constructor
  · intro h
    split at h
    · cases h
    · rename_i hhead
      split at h
      · cases h
      · rename_i hdata
        exact ⟨by_contra fun hs => hhead (.inr (.inl hs)), Decidable.not_not.mp hdata⟩
  · rintro ⟨hsize, hdata⟩
    rw [ha.uncompressed, hb.uncompressed, hsize, hdata]
    simp

theorem equalsExact_iff (ha : Plain a) (hb : Plain b) : EqualsExact a b ↔ OneForm a b := by
  unfold EqualsExact OneForm
  rw [ha.equals_iff hb]
  constructor
  · intro h hsame
    exact (h.mpr hsame).2
  · refine fun hform => ⟨?_, fun hsame => ⟨hsame.1, hform hsame⟩⟩
    rintro ⟨hsize, hdata⟩
    refine ⟨hsize, fun idx hidx => ?_⟩
    rw [ha.get_eq hidx, hb.get_eq (hsize ▸ hidx), hdata]

/-! ## `cross` -/

/-- Where the stretches come in order, one that shares a bit and lies inside the data is found
before the search leaves the data. -/
theorem anyM_inside {n : Nat} {share : Nat × Nat → Bool} {us : List (Nat × Nat)}
    (hus : us.Pairwise fun u v => u.1 + u.2 ≤ v.1 + v.2)
    (h : ∃ u ∈ us, u.1 + u.2 ≤ n ∧ share u = true) :
    us.anyM (fun u => if u.1 + u.2 ≤ n then Except.ok (share u)
      else .error BitmapFailure.undefined) = .ok true := by
  induction us with
  | nil =>
      obtain ⟨u, hu, -⟩ := h
      cases hu
  | cons v us ih =>
      obtain ⟨hv, hrest⟩ := List.pairwise_cons.mp hus
      obtain ⟨u, hu, hle, hs⟩ := h
      have hvle : v.1 + v.2 ≤ n := by
        rcases List.mem_cons.mp hu with rfl | hmem
        · exact hle
        · exact Nat.le_trans (hv u hmem) hle
      rw [List.anyM_cons, if_pos hvle]
      cases hsv : share v with
      | true => rfl
      | false =>
          rcases List.mem_cons.mp hu with rfl | hmem
          · rw [hsv] at hs
            cases hs
          · exact ih hrest ⟨u, hmem, hle, hs⟩

theorem anyM_none {n : Nat} {share : Nat × Nat → Bool} {us : List (Nat × Nat)}
    (h : ∀ u ∈ us, u.1 + u.2 ≤ n → share u = false) :
    us.anyM (fun u => if u.1 + u.2 ≤ n then Except.ok (share u)
      else .error BitmapFailure.undefined) =
        if ∀ u ∈ us, u.1 + u.2 ≤ n then .ok false else .error .undefined := by
  induction us with
  | nil => simp; rfl
  | cons v us ih =>
      have hrest := ih fun u hu => h u (List.mem_cons_of_mem v hu)
      rw [List.anyM_cons]
      by_cases hv : v.1 + v.2 ≤ n
      · rw [if_pos hv, h v List.mem_cons_self hv]
        simp only [List.forall_mem_cons, hv, true_and]
        exact hrest
      · rw [if_neg hv, if_neg fun hall => hv (hall v List.mem_cons_self)]
        rfl

theorem stretches_sorted (a : Bitmap) :
    (stretches a).Pairwise fun u v => u.1 + u.2 ≤ v.1 + v.2 := by
  have hlt : ∀ u ∈ ((List.range (a.m_size.toNat / U64_VALUE_SIZE)).filter fun i =>
      (List.range U64_DIV_BASE).any fun k => a.m_data.getD (U64_DIV_BASE * i + k) 0 != 0),
      u < a.m_size.toNat / U64_VALUE_SIZE := fun u hu =>
    List.mem_range.mp (List.mem_of_mem_filter hu)
  refine List.pairwise_append.mpr ⟨?_, ?_, ?_⟩
  · refine List.pairwise_map.mpr ((List.pairwise_lt_range.filter _).imp fun {i j} hij => ?_)
    exact Nat.add_le_add_right (Nat.mul_le_mul_left 4 (Nat.le_of_lt hij)) 4
  · refine List.pairwise_map.mpr ((List.pairwise_lt_range' 1).imp fun {i j} hij => ?_)
    exact Nat.add_le_add_right (Nat.le_of_lt hij) 1
  · intro u hu v hv
    obtain ⟨i, hi, rfl⟩ := List.mem_map.mp hu
    obtain ⟨j, hj, rfl⟩ := List.mem_map.mp hv
    have hi := hlt i hi
    have hj := (List.mem_range'_1.mp hj).1
    simp only [U64_DIV_BASE] at *
    omega

theorem shares_iff {a b : List UInt16} {u : Nat × Nat} : shares a b u = true ↔
    ∃ k < u.2, a.getD (u.1 + k) 0 &&& b.getD (u.1 + k) 0 ≠ 0 := by
  simp only [shares, List.any_eq_true, List.mem_range, bne_iff_ne]

/-- Every word that is not 0 is in a stretch. -/
theorem exists_stretch (hword : a.m_data.getD i 0 ≠ 0) :
    ∃ u ∈ stretches a, u.1 ≤ i ∧ i < u.1 + u.2 := by
  by_cases hgroup : i < a.m_size.toNat / U64_VALUE_SIZE * U64_DIV_BASE
  · refine ⟨(U64_DIV_BASE * (i / U64_DIV_BASE), U64_DIV_BASE), List.mem_append_left _ ?_, ?_, ?_⟩
    · refine List.mem_map.mpr ⟨i / U64_DIV_BASE, List.mem_filter.mpr ⟨?_, ?_⟩, rfl⟩
      · rw [List.mem_range]
        exact Nat.div_lt_of_lt_mul (by rwa [Nat.mul_comm] at hgroup)
      · refine List.any_eq_true.mpr ⟨i % U64_DIV_BASE, ?_, ?_⟩
        · exact List.mem_range.mpr (Nat.mod_lt _ (by decide))
        · rw [Nat.div_add_mod]
          exact bne_iff_ne.mpr hword
    · exact Nat.mul_div_le i U64_DIV_BASE
    · exact Nat.lt_mul_div_succ i (by decide)
  · have hlt : i < a.m_data.length := by
      by_contra hge
      exact hword (List.getD_eq_default _ _ (Nat.le_of_not_lt hge))
    refine ⟨(i, 1), List.mem_append_right _ (List.mem_map.mpr ⟨i, ?_, rfl⟩), Nat.le_refl i, ?_⟩
    · rw [List.mem_range'_1]
      omega
    · exact Nat.lt_succ_self i

theorem and_ne_zero_left {w u : UInt16} (h : w &&& u ≠ 0) : w ≠ 0 := by
  rintro rfl
  rw [UInt16.zero_and] at h
  exact h rfl

/-- A comparison that stays inside the data finds any bit the words share. -/
theorem StaysInside.shares_iff (h : StaysInside a b) :
    (∃ u ∈ stretches a, u.1 + u.2 ≤ b.m_data.length ∧ shares a.m_data b.m_data u = true) ↔
      ∃ i, a.m_data.getD i 0 &&& b.m_data.getD i 0 ≠ 0 := by
  constructor
  · rintro ⟨u, -, -, hs⟩
    obtain ⟨k, -, hk⟩ := Bitmap.shares_iff.mp hs
    exact ⟨_, hk⟩
  · rintro ⟨i, hi⟩
    rcases h with hall | hfound
    · obtain ⟨u, hu, hle, hlt⟩ := exists_stretch (and_ne_zero_left hi)
      refine ⟨u, hu, hall u hu, Bitmap.shares_iff.mpr ⟨i - u.1, by omega, ?_⟩⟩
      rw [Nat.add_sub_cancel' hle]
      exact hi
    · exact hfound

theorem Plain.meets_iff (ha : Plain a) (hb : Plain b) : Meets a b ↔
    ∃ k, k < a.m_size.toNat ∧ k < b.m_size.toNat ∧ bit a.m_data k = true ∧
      bit b.m_data k = true := by
  constructor
  · rintro ⟨idx, hia, hib, hga, hgb⟩
    rw [ha.get_eq hia, Except.ok.injEq] at hga
    rw [hb.get_eq hib, Except.ok.injEq] at hgb
    exact ⟨idx.toNat, hia, hib, hga, hgb⟩
  · rintro ⟨k, hka, hkb, hta, htb⟩
    exact ⟨UInt32.ofNat k, index_lt hka, index_lt hkb, by rw [ha.get_index hka, hta],
      by rw [hb.get_index hkb, htb]⟩

theorem Plain.shared_of_meets (ha : Plain a) (hb : Plain b) (h : Meets a b) :
    ∃ i, a.m_data.getD i 0 &&& b.m_data.getD i 0 ≠ 0 := by
  obtain ⟨k, -, -, hta, htb⟩ := (ha.meets_iff hb).mp h
  have hmod : k % 14 < 16 := Nat.lt_of_lt_of_le (Nat.mod_lt k (by decide)) (by decide)
  refine ⟨k / 14, ne_zero_iff.mpr ⟨k % 14, hmod, ?_⟩⟩
  rw [bitAt_and hmod, Bool.and_eq_true]
  exact ⟨hta, htb⟩

theorem crossExact_iff (ha : Plain a) (hb : Plain b) :
    CrossExact a b ↔ StaysInside a b ∧ TagsShared a b := by
  have hcross : cross a b = normalCross a b := by
    rw [cross, if_neg ha.not_compressed, if_neg hb.not_compressed]
  unfold CrossExact
  rw [hcross, normalCross]
  by_cases hfound : ∃ u ∈ stretches a,
      u.1 + u.2 ≤ b.m_data.length ∧ shares a.m_data b.m_data u = true
  · have hinside : StaysInside a b := .inr hfound
    rw [anyM_inside (stretches_sorted a) hfound]
    simp only [Except.ok.injEq, exists_eq_left', true_iff, and_iff_right hinside]
    exact ⟨fun hm _ => hm, fun htags => htags (hinside.shares_iff.mp hfound)⟩
  · have hnone : ∀ u ∈ stretches a, u.1 + u.2 ≤ b.m_data.length →
        shares a.m_data b.m_data u = false := fun u hu hle =>
      Bool.eq_false_iff.mpr fun hs => hfound ⟨u, hu, hle, hs⟩
    rw [anyM_none hnone]
    by_cases hall : ∀ u ∈ stretches a, u.1 + u.2 ≤ b.m_data.length
    · have hinside : StaysInside a b := .inl hall
      rw [if_pos hall]
      have hshared : ¬∃ i, a.m_data.getD i 0 &&& b.m_data.getD i 0 ≠ 0 := fun hs =>
        hfound (hinside.shares_iff.mpr hs)
      refine iff_of_true ⟨false, rfl, ?_⟩ ⟨hinside, fun hs => absurd hs hshared⟩
      exact iff_of_false Bool.false_ne_true fun hm => hshared (ha.shared_of_meets hb hm)
    · rw [if_neg hall]
      refine iff_of_false ?_ fun h => h.1.elim hall hfound
      rintro ⟨r, hr, -⟩
      cases hr

/-- Each predicate is exact where the bits that stand for no index do not tell. -/
theorem run_predicates {ops : List BitmapOp} {s : Bitmaps} {j : Nat} (h : bitmaps.Run ops s)
    (ha : s i = some a) (hb : s j = some b) :
    (∀ isNull, (isNull = true → a.m_data = []) →
      (AnyExact isNull a ↔ isNull = true ∨ a.m_data ≠ [] ∧ LastWordSeen a ∧ TagsCovered a)) ∧
    (EqualsExact a b ↔ OneForm a b) ∧ (CrossExact a b ↔ StaysInside a b ∧ TagsShared a b) := by
  have hplain := run_plain h
  have hpa := hplain i a ha
  have hpb := hplain j b hb
  exact ⟨fun isNull hnull => anyExact_iff hpa hnull, equalsExact_iff hpa hpb,
    crossExact_iff hpa hpb⟩

theorem run_predicates_two_words : ∃ (s : Bitmaps) (a : Bitmap),
    bitmaps.Run [.create 0 15 0, .set 0 14 true] s ∧ s 0 = some a ∧
      (AnyExact false a ↔ false = true ∨ a.m_data ≠ [] ∧ LastWordSeen a ∧ TagsCovered a) ∧
      (EqualsExact a a ↔ OneForm a a) ∧ (CrossExact a a ↔ StaysInside a a ∧ TagsShared a a) := by
  have h₀ : bitmaps.Run [] (fun _ => none) := .start rfl
  have h₁ := h₀.snoc (e := .create 0 15 0) (.inl rfl)
  have h₂ := h₁.snoc (e := .set 0 14 true) (.inl rfl)
  have h := run_predicates (a := ⟨false, 15, [0, 1]⟩) (i := 0) (j := 0) h₂ rfl rfl
  exact ⟨_, _, h₂, rfl, h.1 false (fun hn => nomatch hn), h.2.1, h.2.2⟩

/-- The only bit of a full word is not seen, and a word set by `set(from, size, v)` is not the one
that the constructor makes of ones. -/
theorem last_word_unseen : ∃ (s : Bitmaps) (a b c : Bitmap),
    bitmaps.Run [.create 0 14 0, .set 0 0 true, .create 1 14 255, .create 2 14 0,
      .set_range 2 0 14 true] s ∧ s 0 = some a ∧ s 1 = some b ∧ s 2 = some c ∧
      a.get 0 = .ok true ∧ any false a = .ok false ∧ ¬AnyExact false a ∧
      SameBits b c ∧ ¬EqualsExact b c := by
  have h₀ : bitmaps.Run [] (fun _ => none) := .start rfl
  have h₁ := h₀.snoc (e := .create 0 14 0) (.inl rfl)
  have h₂ := h₁.snoc (e := .set 0 0 true) (.inl rfl)
  have h₃ := h₂.snoc (e := .create 1 14 255) (.inl rfl)
  have h₄ := h₃.snoc (e := .create 2 14 0) (.inl rfl)
  have h₅ := h₄.snoc (e := .set_range 2 0 14 true) (.inl rfl)
  have hsame : SameBits ⟨false, 14, [0xffff]⟩ ⟨false, 14, [0x3fff]⟩ := by
    refine ⟨rfl, fun idx hidx => ?_⟩
    have hall : ∀ k < 14, get ⟨false, 14, [0xffff]⟩ (UInt32.ofNat k) =
        get ⟨false, 14, [0x3fff]⟩ (UInt32.ofNat k) := by decide
    have hk := hall idx.toNat hidx
    rwa [UInt32.ofNat_toNat] at hk
  refine ⟨_, ⟨false, 14, [1]⟩, ⟨false, 14, [0xffff]⟩, ⟨false, 14, [0x3fff]⟩, h₅, rfl, rfl, rfl,
    rfl, rfl, ?_, hsame, fun hexact => ?_⟩
  · rintro ⟨r, hr, hexact⟩
    cases hr
    exact absurd (hexact.mpr ⟨0, by decide, rfl⟩) Bool.false_ne_true
  · exact absurd (hexact.mpr hsame) (by decide)

end CIM.ds.Bitmap
