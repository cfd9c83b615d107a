import CIM.Ds.BitmapBits

/-!
# Operators on a compressed bitmap

A plain bitmap is combined with the words that compression wrote, and a compressed one is turned
word by word. Both give what the plain operators give, unless a run that has to be written ends
above `2 ^ 32`.
-/
namespace CIM.ds.Bitmap

open Transition

variable {a b : Bitmap} {v : Bool} {w : UInt16} {n m k : Nat} {ws : List UInt16}

/-! ## A run that ends above `2 ^ 32` -/

theorem uniform_injective {u : Bool} (h : uniform u = uniform v) : u = v := by
  cases u <;> cases v <;> first | rfl | exact absurd h (by decide)

/-- A pair of equal words at the end is not divided by the place before a word that ends a run. -/
theorem pair_behind {u : Bool} {l : List UInt16} (hcur : ¬isUniform v w = true)
    (hend : [uniform u, uniform u] <:+ List.replicate n (uniform v) ++ bits w :: l) :
    [uniform u, uniform u] <:+ bits w :: l := by
  cases l with
  | cons x l =>
      refine List.suffix_of_suffix_length_le hend (List.suffix_append _ _) ?_
      exact Nat.le_add_left 2 l.length
  | nil =>
      exfalso
      cases n with
      | zero => exact absurd hend.length_le (by simp)
      | succ n =>
          have hpair : [uniform v, bits w] <:+
              List.replicate (n + 1) (uniform v) ++ [bits w] := by
            rw [List.replicate_succ', List.append_assoc]
            exact List.suffix_append _ _
          have heq :=
            (List.suffix_of_suffix_length_le hend hpair (Nat.le_refl 2)).eq_of_length rfl
          have huv : uniform u = uniform v := (List.cons.inj heq).1
          have hbits : uniform u = bits w := (List.cons.inj (List.cons.inj heq).2).1
          exact hcur (isUniform_iff.mpr (hbits.symm.trans huv))

/-- By induction on the words that are left: the last run is the one that cannot be written. -/
theorem replay_overflows {writes : Bool → Bool} {combine : UInt16 → UInt16 → UInt16}
    {pre old : List UInt16} {u : Bool} (hm : Merges writes combine) (hw : writes u = true)
    (hold : ∀ o ∈ old, bits o = o) (hlen : old.length = n + ws.length)
    (hclean : ∀ w ∈ ws, Clean w) (hlow : 4294967296 ≤ 14 * (pre.length + (n + ws.length)))
    (hhigh : 14 * (pre.length + (n + ws.length)) < 4294967310)
    (hend : [uniform u, uniform u] <:+ List.replicate n (uniform v) ++ ws.map bits) :
    replay writes combine (segments (compressLoop v (14 * n) ws))
      (14 * pre.length % 4294967296, pre ++ old) = .error .assertion := by
  induction ws generalizing v n pre old with
  | nil =>
      rw [List.map_nil, List.append_nil] at hend
      rw [List.length_nil, Nat.add_zero] at hlow hhigh
      have hn : 1 < n := by
        have hle := hend.length_le
        rw [List.length_replicate] at hle
        exact hle
      have huv : u = v := by
        have hmem : uniform u ∈ List.replicate n (uniform v) :=
          hend.subset List.mem_cons_self
        exact uniform_injective (List.eq_of_mem_replicate hmem)
      have hdiv : 14 * n / VALUE_SIZE = n := Nat.mul_div_cancel_left _ (by decide)
      have hrun : replay writes combine (segments (runWords v 5 (14 * n) ++ []))
          (14 * pre.length % 4294967296, pre ++ old) = _ := replay_run hn hhigh ends_nil
      rw [List.append_nil, ← huv, if_pos hw, setRange_overflows (by omega) hlow hhigh] at hrun
      change replay _ _ (segments (flush v (14 * n))) _ = _
      unfold flush
      rw [hdiv, if_pos hn, ← huv, hrun]
      rfl
  | cons cur ws ih =>
      have hrest : ∀ w ∈ ws, Clean w := fun w hw => hclean w (List.mem_cons_of_mem _ hw)
      rw [List.map_cons] at hend
      rw [List.length_cons] at hlen hlow hhigh
      obtain ⟨os, old, hos, hlen', rfl⟩ := split_length hlen
      have holdos : ∀ o ∈ os, bits o = o := fun o ho => hold o (List.mem_append_left _ ho)
      have hold' : ∀ o ∈ old, bits o = o := fun o ho => hold o (List.mem_append_right _ ho)
      obtain ⟨written, -, hwlen, hflush⟩ :=
        replay_open v pre old hm holdos hos (by omega)
      unfold compressLoop
      by_cases hsame : isUniform v cur = true
      · have hcur := open_run (n := n) hsame (ws.map bits)
        rw [if_pos hsame]
        refine ih (n := n + 1) hold ?_ hrest ?_ ?_ (hcur ▸ hend)
        · rw [hlen]
          omega
        · omega
        · omega
      · rw [if_neg hsame]
        have hafter := pair_behind hsame hend
        by_cases hother : isUniform (!v) cur = true
        · have hcur : bits cur :: ws.map bits =
              List.replicate 1 (uniform (!v)) ++ ws.map bits := open_run (n := 0) hother _
          rw [if_pos hother]
          change replay _ _ (segments (flush v (14 * n) ++ compressLoop (!v) (14 * 1) ws)) _ = _
          rw [hflush ends_other]
          refine ih hold' (hlen'.trans (Nat.add_comm _ _)) hrest ?_ ?_ (hcur ▸ hafter)
          · rw [hwlen]
            omega
          · rw [hwlen]
            omega
        · have hdiffer : ∀ x, bits cur ≠ uniform x := fun x hx =>
            bits_differ hsame hother x (isUniform_iff.mpr hx)
          have hraw : isRun cur = false := by
            refine (hclean cur List.mem_cons_self).resolve_left ?_
            rintro ⟨x, hx⟩
            exact hdiffer x (isUniform_iff.mp hx)
          have hlast : [uniform u, uniform u] <:+ ws.map bits := by
            rcases List.suffix_cons_iff.mp hafter with heq | hlast
            · exact absurd (List.cons.inj heq).1.symm (hdiffer u)
            · exact hlast
          obtain ⟨o, old, rfl⟩ := List.exists_cons_of_length_eq_add_one hlen'
          have hpre : ((pre ++ written) ++ [combine o (bits cur)]).length = pre.length + n + 1 := by
            rw [List.length_append, hwlen, List.length_singleton]
          have hpos : 14 * (pre ++ written).length < 4294967296 := by
            rw [hwlen]
            omega
          rw [if_neg hother, hflush (ends_literal hraw), replay_literal hraw hpos]
          have h := ih (v := v) (n := 0)
            (fun o ho => hold' o (List.mem_cons_of_mem _ ho))
            ((Nat.succ.inj hlen').trans (Nat.zero_add _).symm) hrest
            (by rw [hpre]; omega) (by rw [hpre]; omega) hlast
          rw [hpre, List.append_assoc _ [combine o (bits cur)]] at h
          rw [hwlen]
          exact h

/-! ## Turning compressed words -/

/-- What `~` makes of a compressed word. -/
def notWord (cur : UInt16) : UInt16 :=
  if isRun cur then
    if runValue cur then cur &&& NOT_VALUE_MASK else cur ||| VALUE_MASK
  else ~~~cur &&& COUNT_MASK

/-- The turned bits of a word alone. -/
def flipWord (w : UInt16) : UInt16 := ~~~w &&& COUNT_MASK

def flip (b : Bitmap) : Bitmap := { b with m_data := b.m_data.map flipWord }

theorem notWord_literal (h : isRun w = false) : notWord w = flipWord w := by
  unfold notWord
  rw [if_neg (by rw [h]; exact Bool.false_ne_true)]
  rfl

theorem bitAt_not {i : Nat} (hi : i < 16) : bitAt (~~~w) i = !bitAt w i := by
  have hnot : (~~~w).toNat = 2 ^ 16 - (w.toNat + 1) := by
    rw [UInt16.toNat_not, ← Nat.sub_sub, Nat.sub_right_comm]
    rfl
  rw [bitAt_eq _ hi, bitAt_eq _ hi, hnot, Nat.testBit_two_pow_sub_succ w.toNat_lt,
    decide_eq_true hi, Bool.true_and]

theorem bitAt_flipWord {i : Nat} (hi : i < 14) : bitAt (flipWord w) i = !bitAt w i := by
  change bitAt (bits (~~~w)) i = _
  rw [bitAt_bits _ hi, bitAt_not (by omega)]

theorem bits_flipWord : bits (flipWord w) = flipWord w := by
  unfold bits flipWord
  rw [UInt16.and_assoc, UInt16.and_self]

theorem isUniform_flipWord : isUniform (!v) (flipWord w) = isUniform v w := by
  rw [Bool.eq_iff_iff, isUniform_iff, isUniform_iff, bits_eq_uniform, bits_eq_uniform]
  refine forall₂_congr fun i hi => ?_
  rw [bitAt_flipWord hi]
  exact Bool.not_inj_iff

theorem notWord_uniform : notWord (uniform v) = uniform (!v) := by
  cases v <;> decide

theorem notWord_runWord : notWord (runWord v n) = runWord (!v) n := by
  have hrun := runWord_isRun v n
  have hvalue := runWord_value v n
  unfold notWord
  rw [if_pos hrun, hvalue]
  unfold runWord
  cases v with
  | false =>
      rw [if_neg Bool.false_ne_true, if_neg Bool.false_ne_true, Bool.not_false, if_pos rfl,
        UInt16.or_assoc, UInt16.or_assoc, UInt16.or_comm (UInt16.ofNat _)]
  | true =>
      have hlow : UInt16.ofNat (n % 16384) &&& NOT_VALUE_MASK = UInt16.ofNat (n % 16384) := by
        rw [← bits_digit]
        unfold bits
        rw [UInt16.and_assoc]
        rfl
      have htag : (COMPRESS_MASK ||| VALUE_MASK) &&& NOT_VALUE_MASK = COMPRESS_MASK := by decide
      rw [if_pos rfl, if_pos rfl, Bool.not_true, if_neg Bool.false_ne_true, or_and, htag, hlow]

theorem map_runWords {fuel : Nat} : (runWords v fuel n).map notWord = runWords (!v) fuel n := by
  induction fuel generalizing n with
  | zero => rfl
  | succ fuel ih =>
      unfold runWords
      by_cases hn : n = 0
      · rw [if_pos hn, if_pos hn]
        rfl
      · rw [if_neg hn, if_neg hn, List.map_cons, notWord_runWord, ih]

theorem map_flush : (flush v n).map notWord = flush (!v) n := by
  unfold flush
  by_cases h1 : 1 < n / VALUE_SIZE
  · rw [if_pos h1, if_pos h1, map_runWords]
  · rw [if_neg h1, if_neg h1]
    by_cases h0 : n = 0
    · rw [if_pos h0, if_pos h0]
      rfl
    · rw [if_neg h0, if_neg h0, List.map_singleton, notWord_uniform]

/-- Compression of the turned words is what turning the compressed words gives. -/
theorem map_compressLoop (hclean : ∀ w ∈ ws, Clean w) :
    (compressLoop v n ws).map notWord = compressLoop (!v) n (ws.map flipWord) := by
  induction ws generalizing v n with
  | nil => exact map_flush
  | cons cur ws ih =>
      have hrest : ∀ w ∈ ws, Clean w := fun w hw => hclean w (List.mem_cons_of_mem _ hw)
      rw [List.map_cons]
      unfold compressLoop
      rw [isUniform_flipWord, isUniform_flipWord]
      by_cases hsame : isUniform v cur = true
      · rw [if_pos hsame, if_pos hsame]
        exact ih hrest
      · rw [if_neg hsame, if_neg hsame]
        by_cases hother : isUniform (!v) cur = true
        · rw [if_pos hother, if_pos hother, List.map_append, map_flush, ih hrest]
        · have hraw : isRun cur = false := by
            rcases hclean cur List.mem_cons_self with ⟨u, hu⟩ | hraw
            · cases u <;> cases v <;> first | exact absurd hu hsame | exact absurd hu hother
            · exact hraw
          rw [if_neg hother, if_neg hother, List.map_append, map_flush, List.map_cons,
            notWord_literal hraw, ih hrest]

/-- The value with which the loop starts does not matter. -/
theorem compressLoop_start : compressLoop true 0 ws = compressLoop false 0 ws := by
  induction ws with
  | nil => rfl
  | cons cur ws ih =>
      have hboth : ¬(isUniform true cur = true ∧ isUniform false cur = true) := by
        rintro ⟨ht, hf⟩
        have h := (isUniform_iff.mp ht).symm.trans (isUniform_iff.mp hf)
        exact absurd (uniform_injective h) (by decide)
      unfold compressLoop
      by_cases ht : isUniform true cur = true
      · have hf : ¬isUniform false cur = true := fun hf => hboth ⟨ht, hf⟩
        rw [if_pos ht, if_neg hf, Bool.not_false, if_pos ht]
        rfl
      · rw [if_neg ht, Bool.not_true, Bool.not_false]
        by_cases hf : isUniform false cur = true
        · rw [if_pos hf, if_pos hf]
          rfl
        · rw [if_neg hf, if_neg hf, if_neg ht, ih]
          rfl

/-- To turn a compressed bitmap is to compress the turned one. -/
theorem not_compress (h : Plain b) (hclean : ∀ w ∈ b.m_data, Clean w) :
    b.compress.not = b.flip.compress := by
  have hc : b.compress = ⟨true, b.m_size, compressLoop false 0 b.m_data⟩ := by
    unfold compress
    rw [h.uncompressed]
    rfl
  have hf : b.flip.compress = ⟨true, b.m_size, compressLoop false 0 b.flip.m_data⟩ := by
    unfold compress flip
    rw [h.uncompressed]
    rfl
  rw [hc, hf]
  change Bitmap.mk true b.m_size ((compressLoop false 0 b.m_data).map notWord) = _
  rw [map_compressLoop hclean, Bool.not_false, compressLoop_start]
  rfl

theorem Plain.flip (h : Plain b) : Plain b.flip :=
  ⟨h.uncompressed, (List.length_map _).trans h.length⟩

/-- A word of fourteen bits is not tagged. -/
theorem Clean.of_bits (h : bits w = w) : Clean w := by
  right
  unfold isRun
  rw [← h, bits_and (by decide)]
  rfl

/-- Turning a compressed bitmap again and again. -/
theorem not_iterate (h : Plain b) (hclean : ∀ w ∈ b.m_data, Clean w) :
    Bitmap.not^[k] b.compress = (flip^[k] b).compress ∧ Plain (flip^[k] b) ∧
      ∀ w ∈ (flip^[k] b).m_data, Clean w := by
  induction k with
  | zero => exact ⟨rfl, h, hclean⟩
  | succ k ih =>
      obtain ⟨hnot, hplain, hwords⟩ := ih
      rw [Function.iterate_succ_apply', Function.iterate_succ_apply', hnot]
      refine ⟨not_compress hplain hwords, hplain.flip, fun w hw => ?_⟩
      obtain ⟨x, -, rfl⟩ := List.mem_map.mp hw
      exact .of_bits bits_flipWord

/-! ## Clean bitmaps -/

/-- The bits that no index reaches are zero, above the fourteen of a word and above the size. -/
structure CleanBits (b : Bitmap) : Prop where
  words : ∀ w ∈ b.m_data, bits w = w
  tail : ∀ k, b.m_size.toNat ≤ k → bit b.m_data k = false

namespace CleanBits

theorem clean (h : CleanBits b) : ∀ w ∈ b.m_data, Clean w := fun w hw => .of_bits (h.words w hw)

theorem map_bits (h : CleanBits b) : b.m_data.map bits = b.m_data := by
  have hid : b.m_data.map bits = b.m_data.map id := List.map_congr_left h.words
  rw [hid, List.map_id]

end CleanBits

theorem bit_map {f : UInt16 → UInt16} {data : List UInt16} (hk : k / 14 < data.length) :
    bit (data.map f) k = bitAt (f (data.getD (k / 14) 0)) (k % 14) := by
  unfold bit
  rw [List.getD_eq_getElem _ _ (by rw [List.length_map]; exact hk), List.getElem_map,
    List.getD_eq_getElem _ _ hk]

theorem flipWord_flipWord : flipWord (flipWord w) = bits w := by
  have h : bits (flipWord (flipWord w)) = bits (bits w) := by
    refine bits_ext.mpr fun i hi => ?_
    rw [bitAt_flipWord hi, bitAt_flipWord hi, Bool.not_not, bitAt_bits w hi]
  have hself : bits (bits w) = bits w := by
    unfold bits
    rw [UInt16.and_assoc, UInt16.and_self]
  rw [bits_flipWord, hself] at h
  exact h

theorem flipWord_uniform : flipWord (uniform v) = uniform (!v) := by
  cases v <;> decide

/-- Turned bits are the same whether or not the others are turned with them. -/
theorem Plain.get_not (h : Plain b) {idx : UInt32} (hidx : idx < b.m_size) :
    ∃ v, b.flip.get idx = .ok v ∧ b.not.get idx = .ok v := by
  have hk : idx.toNat / 14 < b.m_data.length := h.word_lt hidx
  have hnot : b.not.m_data = b.m_data.map fun w => ~~~w := by
    unfold Bitmap.not
    rw [if_neg h.not_compressed]
  have hsize : b.not.m_size = b.m_size := by
    unfold Bitmap.not
    rw [if_neg h.not_compressed]
  have hmod : idx.toNat % 14 < 14 := Nat.mod_lt _ (by decide)
  refine ⟨_, h.flip.get_eq (b := b.flip) hidx, ?_⟩
  rw [h.not.get_eq (by rw [hsize]; exact hidx), hnot, bit_map hk, bitAt_not (by omega)]
  change _ = Except.ok (bit (b.m_data.map flipWord) idx.toNat)
  rw [bit_map hk, bitAt_flipWord hmod]

/-! ## Where the last run can be written -/

/-- No word ends above `2 ^ 32`, or the last two are not both zero. -/
def EndsBelow (b : Bitmap) : Prop :=
  VALUE_SIZE * b.m_data.length < 4294967296 ∨ ¬[0, 0] <:+ b.m_data

theorem Plain.size_lt (h : Plain b) : 14 * b.m_data.length < 4294967310 := by
  have hlt := b.m_size.toNat_lt
  have hlen : b.m_data.length = (b.m_size.toNat + 13) / 14 := h.length
  omega

/-- A last word that ends above `2 ^ 32` has bits above the size, so it is not all ones. -/
theorem EndsBelow.not_run (hend : EndsBelow b) (hc : CleanBits b)
    (hhigh : ¬VALUE_SIZE * b.m_data.length < 4294967296) {l : List UInt16}
    (hl : b.m_data = l ++ [uniform v, uniform v]) : False := by
  have hzero := hend.resolve_left hhigh
  cases v with
  | false => exact hzero ⟨l, hl.symm⟩
  | true =>
      have hlen : b.m_data.length = l.length + 2 := by
        rw [hl, List.length_append]
        rfl
      have hsize := b.m_size.toNat_lt
      have hge : b.m_size.toNat ≤ 14 * (l.length + 1) + 13 := by
        change ¬14 * b.m_data.length < 4294967296 at hhigh
        omega
      have htail := hc.tail _ hge
      have hdiv : (14 * (l.length + 1) + 13) / 14 = l.length + 1 := by omega
      have hmod : (14 * (l.length + 1) + 13) % 14 = 13 := by omega
      unfold bit at htail
      rw [hdiv, hmod, hl, List.getD_append_right _ _ _ _ (Nat.le_succ _),
        Nat.succ_sub (Nat.le_refl _), Nat.sub_self] at htail
      exact absurd htail (by decide)

theorem EndsBelow.fitsFor (hend : EndsBelow b) (h : Plain b) (hc : CleanBits b)
    {writes : Bool → Bool} : FitsFor writes 0 (b.m_data.map bits) where
  size := by
    rw [Nat.zero_add, List.length_map]
    exact h.size_lt
  run := by
    rw [Nat.zero_add, List.length_map]
    by_cases hfit : 14 * b.m_data.length < 4294967296
    · exact .inl hfit
    · right
      intro v l hl
      rw [hc.map_bits] at hl
      exact (hend.not_run hc hfit hl).elim

theorem EndsBelow.compressible_flip (hend : EndsBelow b) (hc : CleanBits b) :
    Compressible b.flip where
  clean := by
    intro w hw
    obtain ⟨x, -, rfl⟩ := List.mem_map.mp hw
    exact .of_bits bits_flipWord
  fits := by
    have hlen : b.flip.m_data.length = b.m_data.length := List.length_map _
    rw [hlen]
    by_cases hfit : VALUE_SIZE * b.m_data.length < 4294967296
    · exact .inl hfit
    · right
      rintro ⟨v, l, hl⟩
      have hback : b.m_data = l.map flipWord ++ [uniform (!v), uniform (!v)] := by
        calc b.m_data = (b.flip.m_data.map bits).map flipWord := by
              change _ = ((b.m_data.map flipWord).map bits).map flipWord
              rw [List.map_map, List.map_map]
              refine (List.map_id _).symm.trans (List.map_congr_left fun w hw => ?_)
              change w = flipWord (bits (flipWord w))
              rw [bits_flipWord, flipWord_flipWord, hc.words w hw]
          _ = _ := by
              rw [hl, List.map_append]
              change _ ++ [flipWord (uniform v), flipWord (uniform v)] = _
              rw [flipWord_uniform]
      exact hend.not_run hc hfit hback

/-! ## The operators -/

/-- Both are bitmaps, with the same bits below the size. -/
def Agree (size : UInt32) (r r' : Except BitmapFailure Bitmap) : Prop :=
  ∃ c c', r = .ok c ∧ r' = .ok c' ∧ ∀ idx < size, ∃ v, c.get idx = .ok v ∧ c'.get idx = .ok v

theorem Agree.refl {r : Bitmap} (h : Plain r) : Agree r.m_size (.ok r) (.ok r) :=
  ⟨r, r, rfl, rfl, fun _ hidx => ⟨_, h.get_eq hidx, h.get_eq hidx⟩⟩

theorem Plain.compress_eq (h : Plain b) :
    b.compress = ⟨true, b.m_size, compressLoop false 0 b.m_data⟩ := by
  unfold compress
  rw [h.uncompressed]
  rfl

section Combine

variable {name : String} {writes : Bool → Bool} {op : UInt16 → UInt16 → UInt16}

theorem combineWith_plain (ha : Plain a) (hb : Plain b) (hsize : a.m_size = b.m_size) :
    combineWith name writes op a b =
      .ok { a with m_data := List.zipWith op a.m_data b.m_data } := by
  unfold combineWith
  rw [if_neg (not_not.mpr hsize), if_neg ha.not_compressed, if_neg hb.not_compressed]

theorem combineWith_compressed (ha : Plain a) (hb : Plain b) (hsize : a.m_size = b.m_size) :
    combineWith name writes op a b.compress =
      (replay writes op (segments (compressLoop false 0 b.m_data)) (0, a.m_data)).map
        fun r => { a with m_data := r.2 } := by
  unfold combineWith
  rw [hb.compress_eq, if_neg (not_not.mpr hsize), if_neg ha.not_compressed, if_pos rfl]

/-- The data of two bitmaps of one size have the same length. -/
theorem Plain.length_eq (ha : Plain a) (hb : Plain b) (hsize : a.m_size = b.m_size) :
    a.m_data.length = b.m_data.length := by
  rw [ha.length, hb.length, hsize]

theorem combineWith_compress (hm : Merges writes op) (ha : Plain a) (hb : Plain b)
    (hsize : a.m_size = b.m_size) (hca : CleanBits a) (hcb : CleanBits b) (hend : EndsBelow b) :
    combineWith name writes op a b.compress = combineWith name writes op a b := by
  have hfit : FitsFor writes ([] : List UInt16).length
      (List.replicate 0 (uniform false) ++ b.m_data.map bits) := hend.fitsFor hb hcb
  have hreplay := replay_compressLoop hm hca.words
    ((ha.length_eq hb hsize).trans (Nat.zero_add _).symm) hcb.clean hfit
  change (replay writes op (segments (compressLoop false 0 b.m_data)) (0, a.m_data)).map Prod.snd =
    .ok (List.zipWith op a.m_data (b.m_data.map bits)) at hreplay
  obtain ⟨r, hr, hdata⟩ := of_map_ok hreplay
  rw [combineWith_compressed ha hb hsize, combineWith_plain ha hb hsize, hr]
  change Except.ok { a with m_data := r.2 } = _
  rw [hdata, hcb.map_bits]

/-- Zeros that end above `2 ^ 32` cannot be written. -/
theorem combineWith_overflows (hm : Merges writes op) (hw : writes false = true) (ha : Plain a)
    (hb : Plain b) (hsize : a.m_size = b.m_size) (hca : CleanBits a) (hcb : CleanBits b)
    (hend : ¬EndsBelow b) : combineWith name writes op a b.compress = .error .assertion := by
  have hhigh : ¬14 * b.m_data.length < 4294967296 := fun h => hend (.inl h)
  have hzero : [0, 0] <:+ b.m_data := not_not.mp fun h => hend (.inr h)
  have hlt := hb.size_lt
  have hreplay := replay_overflows (n := 0) (v := false) (u := false)
    hm hw hca.words ((ha.length_eq hb hsize).trans (Nat.zero_add _).symm) hcb.clean
    (by rw [List.length_nil, Nat.zero_add, Nat.zero_add]; omega)
    (by rw [List.length_nil, Nat.zero_add, Nat.zero_add]; omega)
    (by rw [hcb.map_bits]; exact hzero)
  change replay writes op (segments (compressLoop false 0 b.m_data)) (0, a.m_data) = _ at hreplay
  rw [combineWith_compressed ha hb hsize, hreplay]
  rfl

end Combine

theorem merges_and : Merges (fun v => !v) fun w x => w &&& x := by
  intro v old hold
  cases v with
  | false => exact UInt16.and_zero
  | true => exact hold

theorem merges_or : Merges (fun v => v) fun w x => w ||| x := by
  intro v old hold
  cases v with
  | false => exact UInt16.or_zero
  | true =>
      change old ||| COUNT_MASK = COUNT_MASK
      rw [← hold]
      apply UInt16.toNat_inj.mp
      apply Nat.eq_of_testBit_eq
      intro i
      unfold bits
      rw [UInt16.toNat_or, UInt16.toNat_and, Nat.testBit_or, Nat.testBit_and]
      cases COUNT_MASK.toNat.testBit i with
      | false => rw [Bool.and_false, Bool.false_or]
      | true => rw [Bool.or_true]

theorem uncompress_not_compress (h : Plain b) (hc : CleanBits b) (hend : EndsBelow b) :
    Agree b.m_size b.compress.not.uncompress (.ok b.not) := by
  have hflip : b.flip.m_data.map bits = b.flip.m_data := by
    change (b.m_data.map flipWord).map bits = b.m_data.map flipWord
    rw [List.map_map]
    exact List.map_congr_left fun w _ => bits_flipWord
  refine ⟨b.flip, b.not, ?_, rfl, fun idx hidx => h.get_not hidx⟩
  rw [not_compress h hc.clean, h.flip.uncompress_compress (hend.compressible_flip hc), hflip]
  have hplain := h.uncompressed
  unfold flip
  rw [hplain]

theorem mixed_iff (ha : Plain a) (hb : Plain b) (hsize : a.m_size = b.m_size)
    (hca : CleanBits a) (hcb : CleanBits b) :
    (Agree a.m_size (a.and_assign b.compress) (a.and_assign b) ∧
      Agree a.m_size (a.or_assign b.compress) (a.or_assign b) ∧
      Agree b.m_size b.compress.not.uncompress (.ok b.not)) ↔ EndsBelow b := by
  constructor
  · rintro ⟨⟨c, -, hand, -⟩, -⟩
    by_contra hend
    have herror : a.and_assign b.compress = .error .assertion :=
      combineWith_overflows merges_and rfl ha hb hsize hca hcb hend
    rw [herror] at hand
    cases hand
  · intro hend
    have hand : a.and_assign b.compress = a.and_assign b :=
      combineWith_compress merges_and ha hb hsize hca hcb hend
    have hor : a.or_assign b.compress = a.or_assign b :=
      combineWith_compress merges_or ha hb hsize hca hcb hend
    have hagree : ∀ {name : String} {writes : Bool → Bool} {op : UInt16 → UInt16 → UInt16},
        Agree a.m_size (combineWith name writes op a b) (combineWith name writes op a b) := by
      intro name writes op
      have hcombine : combineWith name writes op a b = _ := combineWith_plain ha hb hsize
      have hplain := ha.combineWith (.inr hb) hcombine
      rw [hcombine]
      exact Agree.refl hplain
    rw [hand, hor]
    exact ⟨hagree, hagree, uncompress_not_compress hb hcb hend⟩

/-! ## Runs -/

variable {s : Bitmaps} {i j : Nat}

/-- For clean bitmaps the operators on a compressed one agree with those on the plain one just
where its last run can be written. -/
theorem run_mixed {ops : List BitmapOp} (h : bitmaps.Run ops s) (ha : s i = some a)
    (hb : s j = some b) (hsize : a.m_size = b.m_size) (hca : CleanBits a) (hcb : CleanBits b) :
    (Agree a.m_size (a.and_assign b.compress) (a.and_assign b) ∧
      Agree a.m_size (a.or_assign b.compress) (a.or_assign b) ∧
      Agree b.m_size b.compress.not.uncompress (.ok b.not)) ↔ EndsBelow b :=
  mixed_iff (run_plain h i a ha) (run_plain h j b hb) hsize hca hcb

theorem bit_zeros : bit (List.replicate n 0) k = false := by
  unfold bit
  rw [List.getD_eq_getElem?_getD, List.getElem?_replicate]
  split
  · exact bitAt_zero _
  · exact bitAt_zero _

theorem cleanBits_create (size : UInt32) : CleanBits (create size 0) where
  words := fun w hw => by
    rw [List.eq_of_mem_replicate hw]
    rfl
  tail := fun _ _ => bit_zeros

theorem run_mixed_zeros : ∃ ops s, bitmaps.Run ops s ∧
    ((Agree 28 ((create 28 0).and_assign (create 28 0).compress)
        ((create 28 0).and_assign (create 28 0)) ∧
      Agree 28 ((create 28 0).or_assign (create 28 0).compress)
        ((create 28 0).or_assign (create 28 0)) ∧
      Agree 28 (create 28 0).compress.not.uncompress (.ok (create 28 0).not)) ↔
      EndsBelow (create 28 0)) := by
  have h₀ : bitmaps.Run [] (fun _ => none) := .start rfl
  have h₁ := h₀.snoc (e := .create 0 28 0) (.inl rfl)
  exact ⟨_, _, h₁, run_mixed (i := 0) (j := 0) h₁ rfl rfl rfl (cleanBits_create 28)
    (cleanBits_create 28)⟩

/-- Of a bitmap of the largest size, all of whose bits are zero, the compressed form cannot be used
with `&=`. -/
theorem and_compress_overflows : ∃ (ops : List BitmapOp) (s : Bitmaps) (b : Bitmap),
    bitmaps.Run ops s ∧ s 0 = some b ∧ b.m_size = 4294967295 ∧ CleanBits b ∧
      b.and_assign b.compress = .error .assertion ∧ ∃ c, b.and_assign b = .ok c := by
  have h₀ : bitmaps.Run [] (fun _ => none) := .start rfl
  have h₁ := h₀.snoc (e := .create 0 4294967295 0) (.inl rfl)
  have hplain := Plain.create 4294967295 0
  have hclean := cleanBits_create 4294967295
  have hwords : dataSize 4294967295 = 306783379 := by decide
  have hend : ¬EndsBelow (create 4294967295 0) := by
    rintro (hlt | hno)
    · rw [hplain.length] at hlt
      change 14 * dataSize 4294967295 < 4294967296 at hlt
      omega
    · refine hno ⟨List.replicate (dataSize 4294967295 - 2) (uniform false), ?_⟩
      exact (replicate_ends (v := false) (by omega)).symm
  exact ⟨_, _, _, h₁, rfl, rfl, hclean,
    combineWith_overflows merges_and rfl hplain hplain rfl hclean hclean hend,
    _, combineWith_plain hplain hplain rfl⟩

end CIM.ds.Bitmap
