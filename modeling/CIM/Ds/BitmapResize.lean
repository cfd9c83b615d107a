import CIM.Ds.BitmapBits

/-!
# Resizing

The word at the old size is shared by old and new bits. Where no words are added it is left as it
is; where words are added it is masked, from the wrong side for one of the two values.
-/
namespace CIM.ds.Bitmap

open Transition

variable {b b' : Bitmap} {v : Bool} {w : UInt16} {n : UInt32} {data : List UInt16} {k : Nat}

/-- The bitmap has the new size, its old bits and the value in the new ones. -/
def Resized (b b' : Bitmap) (n : UInt32) (v : Bool) : Prop :=
  b'.m_size = n ∧ ∀ idx < n, b'.get idx = if idx < b.m_size then b.get idx else .ok v

/-- If words are added, the old size ends a word where ones come and does not where zeros come,
or the last word is already of the value. If none are, the words already have the value above the
old size. -/
def Resizable (b : Bitmap) (n : UInt32) (v : Bool) : Prop :=
  if b.m_data.length < dataSize n then
    b.m_size ≠ 0 ∧ ((b.m_size.toNat % VALUE_SIZE = 0 ↔ v = true) ∨
      bits (b.m_data.getD (b.m_data.length - 1) 0) = uniform v)
  else ∀ k, b.m_size.toNat ≤ k → k < n.toNat → bit b.m_data k = v

/-! ## The last word -/

/-- What growing makes of the last word, which has `left` bits, or all fourteen where `left` is
zero. -/
def boundaryWord (left : Nat) (v : Bool) (w : UInt16) : UInt16 :=
  if v then w ||| MASK left else w &&& MASK left

theorem bitAt_boundaryWord {left i : Nat} (hleft : left < 14) (hi : i < 14) :
    bitAt (boundaryWord left v w) i =
      if v then bitAt w i || decide (i < left) else bitAt w i && decide (i < left) := by
  unfold boundaryWord
  cases v with
  | false =>
      rw [if_neg Bool.false_ne_true, if_neg Bool.false_ne_true, bitAt_and (by omega),
        bitAt_mask left hleft i hi]
  | true => rw [if_pos rfl, if_pos rfl, bitAt_or (by omega), bitAt_mask left hleft i hi]

/-- A last word of `r` bits comes out right in one alignment for each value, or if nothing was to
be done. -/
theorem boundaryWord_iff {r : Nat} (hr : 0 < r) (hr14 : r ≤ 14) :
    (∀ i < 14, bitAt (boundaryWord (r % 14) v w) i = if i < r then bitAt w i else v) ↔
      ((r % 14 = 0 ↔ v = true) ∨ bits w = uniform v) := by
  have hleft : r % 14 < 14 := Nat.mod_lt _ (by decide)
  have hstep : ∀ i < 14, (bitAt (boundaryWord (r % 14) v w) i = if i < r then bitAt w i else v) ↔
      ((r % 14 = 0 ↔ v = true) ∨ bitAt w i = v) := by
    intro i hi
    rw [bitAt_boundaryWord hleft hi]
    by_cases hfull : r = 14
    · -- a full word: zeros clear it, ones leave it
      have hlt : i < r := by omega
      have hzero : r % 14 = 0 := by omega
      rw [if_pos hlt, hzero]
      cases v <;> simp
    · have hmod : r % 14 = r := Nat.mod_eq_of_lt (by omega)
      have hne : r ≠ 0 := Nat.ne_of_gt hr
      rw [hmod]
      by_cases hlt : i < r
      · cases v <;> simp [hlt, hne]
      · cases v <;> simp [hlt, hne]
  rw [bits_eq_uniform]
  constructor
  · intro h
    by_cases ha : r % 14 = 0 ↔ v = true
    · exact .inl ha
    · exact .inr fun i hi => ((hstep i hi).mp (h i hi)).resolve_left ha
  · rintro (ha | hw) i hi
    · exact (hstep i hi).mpr (.inl ha)
    · exact (hstep i hi).mpr (.inr (hw i hi))

/-! ## The data -/

theorem bit_take {m : Nat} (h : k / 14 < m) : bit (data.take m) k = bit data k := by
  unfold bit
  rw [List.getD_eq_getElem?_getD, List.getD_eq_getElem?_getD, List.getElem?_take_of_lt h]

/-- The data after growing: the words before the last, the last, and the new ones. -/
theorem bit_grown (data : List UInt16) {f : UInt16 → UInt16} {j : Nat} (hpos : 0 < data.length)
    (hk : k / 14 < data.length + j) :
    bit ((data ++ List.replicate j (if v then 0xffff else 0)).modify (data.length - 1) f) k =
      if k / 14 < data.length - 1 then bit data k
      else if k / 14 = data.length - 1 then
        bitAt (f (data.getD (data.length - 1) 0)) (k % 14)
      else v := by
  have hmod : k % 14 < 16 := by omega
  unfold bit
  rw [List.getD_eq_getElem?_getD]
  by_cases hlast : data.length - 1 = k / 14
  · have hlt : k / 14 < data.length := by omega
    rw [hlast, List.getElem?_modify_eq, if_neg (Nat.lt_irrefl _), if_pos rfl,
      List.getElem?_append_left hlt,
      List.getElem?_eq_getElem hlt, List.getD_eq_getElem _ _ hlt]
    rfl
  · rw [List.getElem?_modify_ne _ _ hlast]
    by_cases hlt : k / 14 < data.length
    · rw [List.getElem?_append_left hlt, List.getD_eq_getElem?_getD, if_pos (by omega)]
    · rw [List.getElem?_append_right (by omega), List.getElem?_replicate_of_lt (by omega)]
      change bitAt (if v then 0xffff else 0) (k % 14) = _
      rw [if_neg (c := k / 14 < data.length - 1) (by omega),
        if_neg (c := k / 14 = data.length - 1) (by omega)]
      cases v with
      | false => exact bitAt_zero _
      | true => exact bitAt_ones _ hmod

/-- To be resized is a statement about the bits of the data. -/
theorem resized_iff (h : Plain b) (h' : Plain b') (hsize : b'.m_size = n) :
    Resized b b' n v ↔ ∀ k < n.toNat, bit b'.m_data k =
      if k < b.m_size.toNat then bit b.m_data k else v := by
  have hnew : ∀ idx < n, b'.get idx = .ok (bit b'.m_data idx.toNat) := fun idx hidx =>
    h'.get_eq (hsize ▸ hidx)
  have hold : ∀ idx, (if idx < b.m_size then b.get idx else .ok v) =
      Except.ok (if idx.toNat < b.m_size.toNat then bit b.m_data idx.toNat else v) := by
    intro idx
    by_cases hidx : idx < b.m_size
    · rw [if_pos hidx, if_pos (UInt32.lt_iff_toNat_lt.mp hidx), h.get_eq hidx]
    · rw [if_neg hidx, if_neg (mt UInt32.lt_iff_toNat_lt.mpr hidx)]
  constructor
  · rintro ⟨-, hall⟩ k hk
    have hget := hall _ (index_lt hk)
    rw [hnew _ (index_lt hk), hold, toNat_index hk] at hget
    exact Except.ok.inj hget
  · intro hall
    refine ⟨hsize, fun idx hidx => ?_⟩
    rw [hnew idx hidx, hold, hall idx.toNat (UInt32.lt_iff_toNat_lt.mp hidx)]

/-! ## The bits after a resize -/

theorem resize_fits (h : Plain b) (hle : ¬b.m_data.length < dataSize n) :
    (∃ b', b.resize n v = .ok b' ∧ Resized b b' n v) ↔
      ∀ k, b.m_size.toNat ≤ k → k < n.toNat → bit b.m_data k = v := by
  have hresize : b.resize n v = .ok ⟨false, n, b.m_data.take (dataSize n)⟩ := by
    unfold resize
    rw [if_neg h.not_compressed, if_neg hle]
  have hword : ∀ k < n.toNat, k / 14 < dataSize n := by
    intro k hk
    change k / 14 < (n.toNat + 13) / 14
    omega
  rw [hresize]
  have hiff := resized_iff (v := v) h (h.resize hresize) rfl
  constructor
  · rintro ⟨b', hb', hres⟩ k hmk hk
    cases hb'
    have hbit := hiff.mp hres k hk
    rw [if_neg (by omega), bit_take (hword k hk)] at hbit
    exact hbit
  · intro hall
    refine ⟨_, rfl, hiff.mpr fun k hk => ?_⟩
    rw [bit_take (hword k hk)]
    by_cases hmk : k < b.m_size.toNat
    · rw [if_pos hmk]
    · rw [if_neg hmk]
      exact hall k (by omega) hk

theorem resize_grows (h : Plain b) (hlt : b.m_data.length < dataSize n) (hm : b.m_size ≠ 0) :
    (∃ b', b.resize n v = .ok b' ∧ Resized b b' n v) ↔
      ((b.m_size.toNat % VALUE_SIZE = 0 ↔ v = true) ∨
        bits (b.m_data.getD (b.m_data.length - 1) 0) = uniform v) := by
  have hm0 : b.m_size.toNat ≠ 0 := fun h0 => hm (UInt32.toNat_inj.mp h0)
  have hlen : b.m_data.length = (b.m_size.toNat + 13) / 14 := h.length
  have hn : dataSize n = (n.toNat + 13) / 14 := rfl
  have hresize : b.resize n v = .ok ⟨false, n,
      (b.m_data ++ List.replicate (dataSize n - b.m_data.length) (if v then 0xffff else 0)).modify
        (b.m_data.length - 1) (boundaryWord (b.m_size.toNat % 14) v)⟩ := by
    unfold resize
    rw [if_neg h.not_compressed, if_pos hlt, if_neg (by omega)]
    unfold modifyAt
    rw [List.length_append, List.length_replicate, if_pos (by omega)]
    rfl
  -- the last word holds the bits from `base` on, `r` of them below the old size
  obtain ⟨base, r, hbase, hr0, hr14, hsize⟩ : ∃ base r, base = b.m_data.length - 1 ∧ 0 < r ∧
      r ≤ 14 ∧ b.m_size.toNat = 14 * base + r :=
    ⟨_, b.m_size.toNat - 14 * (b.m_data.length - 1), rfl, by omega, by omega, by omega⟩
  have hrmod : b.m_size.toNat % 14 = r % 14 := by omega
  have hbits : ∀ k < n.toNat, bit _ k = _ := fun k hk =>
    bit_grown b.m_data (v := v) (f := boundaryWord (b.m_size.toNat % 14) v)
      (j := dataSize n - b.m_data.length) (k := k) (by omega) (by omega)
  rw [hresize]
  have hiff := resized_iff (v := v) h (h.resize hresize) rfl
  have hword := boundaryWord_iff (v := v) (w := b.m_data.getD (b.m_data.length - 1) 0) hr0 hr14
  rw [← hrmod] at hword
  change _ ↔ ((b.m_size.toNat % 14 = 0 ↔ v = true) ∨ _)
  rw [← hword]
  constructor
  · rintro ⟨b', hb', hres⟩ i hi
    cases hb'
    have hk : 14 * base + i < n.toNat := by omega
    have hdiv : (14 * base + i) / 14 = b.m_data.length - 1 := by omega
    have himod : (14 * base + i) % 14 = i := by omega
    have hbit := hiff.mp hres (14 * base + i) hk
    rw [hbits _ hk, if_neg (by omega), if_pos hdiv, himod] at hbit
    rw [hbit]
    unfold bit
    rw [hdiv, himod]
    by_cases hir : i < r
    · rw [if_pos hir, if_pos (by omega)]
    · rw [if_neg hir, if_neg (by omega)]
  · intro hall
    refine ⟨_, rfl, hiff.mpr fun k hk => ?_⟩
    rw [hbits k hk]
    by_cases hbefore : k / 14 < b.m_data.length - 1
    · rw [if_pos hbefore, if_pos (by omega)]
    · rw [if_neg hbefore]
      by_cases hat : k / 14 = b.m_data.length - 1
      · rw [if_pos hat, hall _ (Nat.mod_lt _ (by decide))]
        unfold bit
        rw [hat]
        by_cases hir : k % 14 < r
        · rw [if_pos hir, if_pos (by omega)]
        · rw [if_neg hir, if_neg (by omega)]
      · rw [if_neg hat, if_neg (by omega)]

theorem resize_iff (h : Plain b) :
    (∃ b', b.resize n v = .ok b' ∧ Resized b b' n v) ↔ Resizable b n v := by
  unfold Resizable
  by_cases hlt : b.m_data.length < dataSize n
  · rw [if_pos hlt]
    by_cases hm : b.m_size = 0
    · have hlen : b.m_data.length = 0 := by
        rw [h.length, hm]
        rfl
      have hundefined : b.resize n v = .error .undefined := by
        unfold resize
        rw [if_neg h.not_compressed, if_pos hlt, if_pos hlen]
      rw [hundefined]
      constructor
      · rintro ⟨b', hb', -⟩
        cases hb'
      · rintro ⟨hne, -⟩
        exact absurd hm hne
    · rw [resize_grows h hlt hm]
      exact ⟨fun hw => ⟨hm, hw⟩, fun hw => hw.2⟩
  · rw [if_neg hlt]
    exact resize_fits h hlt

/-! ## Runs -/

variable {s : Bitmaps} {i : Nat}

/-- Every bitmap that can be made is resized as it should be just where its last words allow it. -/
theorem run_resize {ops : List BitmapOp} (h : bitmaps.Run ops s) (hb : s i = some b) :
    (∃ b', b.resize n v = .ok b' ∧ b'.m_size = n ∧
      ∀ idx < n, b'.get idx = if idx < b.m_size then b.get idx else .ok v) ↔ Resizable b n v :=
  resize_iff (run_plain h i b hb)

theorem run_resize_grown : ∃ ops s, bitmaps.Run ops s ∧
    ((∃ b', resize ⟨false, 20, [0, 0]⟩ 30 false = .ok b' ∧ b'.m_size = 30 ∧
      ∀ idx < 30, b'.get idx =
        if idx < 20 then get ⟨false, 20, [0, 0]⟩ idx else .ok false) ↔
      Resizable ⟨false, 20, [0, 0]⟩ 30 false) := by
  have h₀ : bitmaps.Run [] (fun _ => none) := .start rfl
  have h₁ := h₀.snoc (e := .create 0 20 0) (.inl rfl)
  exact ⟨_, _, h₁, run_resize (i := 0) h₁ rfl⟩

/-- A bit above a shrunken size comes back when the bitmap grows again. -/
theorem resize_reappears : ∃ (ops : List BitmapOp) (s : Bitmaps) (b : Bitmap),
    bitmaps.Run ops s ∧ s 0 = some b ∧ b.m_size = 6 ∧
      ∃ b', b.resize 10 false = .ok b' ∧ b'.get 7 = .ok true := by
  have h₀ : bitmaps.Run [] (fun _ => none) := .start rfl
  have h₁ := h₀.snoc (e := .create 0 10 0) (.inl rfl)
  have h₂ := h₁.snoc (e := .set 0 7 true) (.inl rfl)
  have h₃ := h₂.snoc (e := .resize 0 6 false) (.inl rfl)
  exact ⟨_, _, ⟨false, 6, [128]⟩, h₃, rfl, rfl, ⟨false, 10, [128]⟩, rfl, rfl⟩

end CIM.ds.Bitmap
