import CIM.Ds.Bitmap

/-!
# Reading back what compression wrote

A word whose bits differ is written as it is, so it must not carry the tag of a run; the length
of a run must be read without wrapping around.
-/
namespace CIM.ds.Bitmap

variable {v : Bool} {w : UInt16} {n m : Nat} {pre post ws rest : List UInt16}

/-! ## Words -/

/-- The fourteen bits of a word. -/
def bits (w : UInt16) : UInt16 := w &&& COUNT_MASK

theorem bits_toNat (w : UInt16) : (bits w).toNat = w.toNat % 16384 := by
  change (w &&& COUNT_MASK).toNat = w.toNat % 2 ^ 14
  rw [UInt16.toNat_and]
  exact Nat.and_two_pow_sub_one_eq_mod w.toNat 14

theorem bits_uniform (v : Bool) : bits (uniform v) = uniform v := by
  cases v <;> decide

theorem isRun_uniform (v : Bool) : isRun (uniform v) = false := by
  cases v <;> decide

/-- Bits above the fourteen are not among those of the word. -/
theorem bits_and {mask : UInt16} (h : COUNT_MASK &&& mask = 0) (w : UInt16) :
    bits w &&& mask = 0 := by
  unfold bits
  rw [UInt16.and_assoc, h]
  exact UInt16.and_zero

theorem bits_and_pos (w : UInt16) {i : Nat} (hi : i < VALUE_SIZE) :
    bits w &&& POS i = w &&& POS i := by
  have hpos : ∀ i < 14, COUNT_MASK &&& POS i = POS i := by decide
  unfold bits
  rw [UInt16.and_assoc, hpos i hi]

/-- The words of fourteen equal bits are the two that stand for runs. -/
theorem isUniform_iff : isUniform v w = true ↔ bits w = uniform v := by
  have hlt : (bits w).toNat < 2 ^ 14 := by
    rw [bits_toNat]
    exact Nat.mod_lt _ (by decide)
  have hhigh : ∀ i, 14 ≤ i → (bits w).toNat.testBit i = false := fun i hi =>
    Nat.testBit_lt_two_pow (Nat.lt_of_lt_of_le hlt (Nat.pow_le_pow_right (by decide) hi))
  have hcount : count_bits (bits w) =
      (List.range 14).countP fun i => (bits w).toNat.testBit i := by
    unfold count_bits
    rw [List.range_succ, List.countP_append, List.range_succ, List.countP_append]
    simp only [List.countP_singleton, hhigh 14 (by decide), hhigh 15 (by decide)]
    rfl
  have hext : ∀ u : UInt16, u.toNat < 2 ^ 14 →
      (∀ i < 14, (bits w).toNat.testBit i = u.toNat.testBit i) → bits w = u := by
    intro u hu hbits
    apply UInt16.toNat_inj.mp
    apply Nat.eq_of_testBit_eq
    intro i
    by_cases hi : i < 14
    · exact hbits i hi
    · rw [hhigh i (by omega)]
      exact (Nat.testBit_lt_two_pow
        (Nat.lt_of_lt_of_le hu (Nat.pow_le_pow_right (by decide) (by omega)))).symm
  have hunf : isUniform v w = true ↔ count_bits (bits w) = if v then 14 else 0 := beq_iff_eq
  rw [hunf, hcount]
  cases v with
  | false =>
      rw [if_neg Bool.false_ne_true, List.countP_eq_zero]
      constructor
      · intro h
        apply hext 0 (by decide)
        intro i hi
        change (bits w).toNat.testBit i = (0 : Nat).testBit i
        rw [Nat.zero_testBit]
        exact Bool.eq_false_iff.mpr (h i (List.mem_range.mpr hi))
      · intro h i hi
        rw [h]
        change ¬(0 : Nat).testBit i = true
        rw [Nat.zero_testBit]
        exact Bool.false_ne_true
  | true =>
      have hmask : ∀ i < 14, COUNT_MASK.toNat.testBit i = true := by decide
      rw [if_pos rfl]
      constructor
      · intro h
        have hall := List.countP_eq_length.mp (h.trans List.length_range.symm)
        apply hext COUNT_MASK (by decide)
        intro i hi
        rw [hall i (List.mem_range.mpr hi), hmask i hi]
      · intro h
        refine (List.countP_eq_length.mpr ?_).trans List.length_range
        intro i hi
        rw [h]
        exact hmask i (List.mem_range.mp hi)

/-! ## The words of a run -/

theorem or_and (a b mask : UInt16) : (a ||| b) &&& mask = a &&& mask ||| b &&& mask := by
  apply UInt16.toNat_inj.mp
  rw [UInt16.toNat_and, UInt16.toNat_or, UInt16.toNat_or, UInt16.toNat_and, UInt16.toNat_and]
  exact Nat.and_or_distrib_right _ _ _

theorem bits_digit (n : Nat) : bits (UInt16.ofNat (n % 16384)) = UInt16.ofNat (n % 16384) := by
  apply UInt16.toNat_inj.mp
  rw [bits_toNat, UInt16.toNat_ofNat']
  omega

theorem runWord_isRun (v : Bool) (n : Nat) : isRun (runWord v n) = true := by
  have hd : UInt16.ofNat (n % 16384) &&& COMPRESS_MASK = 0 := by
    rw [← bits_digit]
    exact bits_and (by decide) _
  unfold isRun runWord
  cases v with
  | false =>
      rw [if_neg Bool.false_ne_true, or_and, hd]
      decide
  | true =>
      rw [if_pos rfl, or_and, hd]
      decide

theorem runWord_value (v : Bool) (n : Nat) : runValue (runWord v n) = v := by
  have hd : UInt16.ofNat (n % 16384) &&& VALUE_MASK = 0 := by
    rw [← bits_digit]
    exact bits_and (by decide) _
  unfold runValue runWord
  cases v with
  | false =>
      rw [if_neg Bool.false_ne_true, or_and, hd]
      decide
  | true =>
      rw [if_pos rfl, or_and, hd]
      decide

theorem runWord_count (v : Bool) (n : Nat) :
    (runWord v n &&& COUNT_MASK).toNat = n % 16384 := by
  have hd : UInt16.ofNat (n % 16384) &&& COUNT_MASK = UInt16.ofNat (n % 16384) := bits_digit n
  have htag : runWord v n &&& COUNT_MASK = UInt16.ofNat (n % 16384) := by
    unfold runWord
    cases v with
    | false =>
        rw [if_neg Bool.false_ne_true, or_and, hd]
        exact UInt16.zero_or
    | true =>
        rw [if_pos rfl, or_and, hd]
        exact UInt16.zero_or
  rw [htag, UInt16.toNat_ofNat']
  omega

theorem continues_runWord (v : Bool) (n : Nat) : continues v (runWord v n) = true := by
  unfold continues
  rw [runWord_isRun, runWord_value]
  exact beq_self_eq_true v

theorem runWords_continue {fuel : Nat} : ∀ w ∈ runWords v fuel n, continues v w = true := by
  induction fuel generalizing n with
  | zero =>
      intro w hw
      cases hw
  | succ fuel ih =>
      intro w hw
      unfold runWords at hw
      split at hw
      · cases hw
      · cases hw with
        | head => exact continues_runWord v n
        | tail _ hw => exact ih w hw

/-- The digits are put together again, as long as no bit is shifted out. -/
theorem runCount_runWords {fuel count k : Nat} (hfuel : n < 16384 ^ fuel)
    (hcount : count < 16384 ^ k) (hfit : count + n * 16384 ^ k < 4294967296) :
    runCount k count (runWords v fuel n) = .ok (count + n * 16384 ^ k) := by
  induction fuel generalizing n count k with
  | zero =>
      have hn : n = 0 := by omega
      rw [hn, Nat.zero_mul, Nat.add_zero]
      rfl
  | succ fuel ih =>
      unfold runWords
      by_cases hn : n = 0
      · rw [if_pos hn, hn, Nat.zero_mul, Nat.add_zero]
        rfl
      · rw [if_neg hn]
        have hpow : (16384 : Nat) ^ k = 2 ^ (14 * k) := by
          rw [Nat.pow_mul]
        have hk : 14 * k < 32 := by
          have hle : 1 * 2 ^ (14 * k) ≤ n * 2 ^ (14 * k) :=
            Nat.mul_le_mul_right _ (by omega)
          have hlt : 2 ^ (14 * k) < 2 ^ 32 := by
            rw [hpow] at hfit
            omega
          exact (Nat.pow_lt_pow_iff_right (by decide)).mp hlt
        have hsplit : n * 16384 ^ k = n % 16384 * 16384 ^ k + n / 16384 * 16384 ^ (k + 1) := by
          rw [Nat.pow_succ, ← Nat.mul_assoc, Nat.mul_right_comm, ← Nat.add_mul]
          congr 1
          omega
        have hshift : ((runWord v n &&& COUNT_MASK).toNat <<< (VALUE_SIZE * k)) % 4294967296
            ||| count = count + n % 16384 * 16384 ^ k := by
          rw [runWord_count, Nat.shiftLeft_eq]
          change n % 16384 * 2 ^ (14 * k) % 4294967296 ||| count = _
          rw [← hpow, Nat.mod_eq_of_lt (by omega), Nat.mul_comm (n % 16384), Nat.add_comm count, hpow,
            Nat.two_pow_add_eq_or_of_lt (hpow ▸ hcount)]
        have hbound : count + n % 16384 * 16384 ^ k < 16384 ^ (k + 1) := by
          have hd : n % 16384 ≤ 16383 := by omega
          have hmul := Nat.mul_le_mul_right (16384 ^ k) hd
          rw [Nat.pow_succ]
          omega
        have hrest : n / 16384 < 16384 ^ fuel := by
          rw [Nat.pow_succ] at hfuel
          exact Nat.div_lt_of_lt_mul (by omega)
        have hgoal := ih (k := k + 1) hrest hbound (by omega)
        unfold runCount
        rw [if_neg (show ¬32 ≤ VALUE_SIZE * k by change ¬32 ≤ 14 * k; omega), hshift, hgoal, hsplit,
          Nat.add_assoc]

/-! ## Writing the words back -/

theorem modifyAt_append (f : UInt16 → UInt16) :
    modifyAt (pre ++ w :: post) pre.length f = .ok (pre ++ f w :: post) := by
  have hlt : pre.length < (pre ++ w :: post).length := by
    rw [List.length_append, List.length_cons]
    omega
  have hmod : (pre ++ w :: post).modify pre.length f = pre ++ f w :: post := by
    induction pre with
    | nil => rfl
    | cons x pre ih =>
        exact congrArg (x :: ·) (ih (by rw [List.length_append, List.length_cons]; omega))
  unfold modifyAt
  rw [if_pos hlt, hmod]

theorem fill_words {old : List UInt16} (hold : old.length = n) :
    (List.range' pre.length n).foldlM (fun d i => modifyAt d i fun _ => uniform v)
      (pre ++ (old ++ post)) = .ok (pre ++ (List.replicate n (uniform v) ++ post)) := by
  induction n generalizing pre old with
  | zero =>
      rw [List.length_eq_zero_iff.mp hold]
      rfl
  | succ n ih =>
      obtain ⟨o, old, rfl⟩ := List.exists_cons_of_length_eq_add_one hold
      have hlen : old.length = n := Nat.succ.inj hold
      rw [List.range'_succ, List.cons_append, List.foldlM_cons, modifyAt_append]
      change (List.range' (pre.length + 1) n).foldlM _ (pre ++ uniform v :: _) = _
      have hnext : (List.range' (pre ++ [uniform v]).length n).foldlM
          (fun d i => modifyAt d i fun _ => uniform v)
          ((pre ++ [uniform v]) ++ (old ++ post)) = _ := ih hlen
      rw [List.length_append, List.length_singleton, List.append_assoc,
        List.append_assoc] at hnext
      exact hnext

theorem setRange_words {old : List UInt16} (hold : old.length = n)
    (hfit : 14 * (pre.length + n) < 4294967296) :
    setRange (pre ++ (old ++ post)) (14 * pre.length) (14 * n) v =
      .ok (pre ++ (List.replicate n (uniform v) ++ post)) := by
  unfold setRange
  by_cases hn : n = 0
  · rw [if_pos (by omega), hn, List.length_eq_zero_iff.mp (hold.trans hn)]
    rfl
  · have hto : (14 * pre.length + 14 * n) % 4294967296 = 14 * (pre.length + n) := by omega
    have hfrom : 14 * pre.length / VALUE_SIZE = pre.length :=
      Nat.mul_div_cancel_left _ (by decide)
    have hcount : 14 * (pre.length + n) / VALUE_SIZE - pre.length = n := by
      change 14 * (pre.length + n) / 14 - pre.length = n
      omega
    have haligned : ¬(14 * pre.length % VALUE_SIZE ≠ 0 ∨
        14 * (pre.length + n) % VALUE_SIZE ≠ 0) := by
      change ¬(14 * pre.length % 14 ≠ 0 ∨ 14 * (pre.length + n) % 14 ≠ 0)
      omega
    rw [if_neg (by omega), hto, if_neg haligned]
    change (List.range' (14 * pre.length / VALUE_SIZE)
      (14 * (pre.length + n) / VALUE_SIZE - 14 * pre.length / VALUE_SIZE)).foldlM _ _ = _
    rw [hfrom, hcount]
    exact fill_words hold

/-- A run that ends above `2 ^ 32` does not end at a word any more. -/
theorem setRange_overflows {data : List UInt16} {p : Nat} (hn : n ≠ 0)
    (hlow : 4294967296 ≤ 14 * (p + n)) (hhigh : 14 * (p + n) < 4294967310) :
    setRange data (14 * p) (14 * n % 4294967296) v = .error .assertion := by
  have hsize : ¬14 * n % 4294967296 = 0 := by omega
  have hto : (14 * p + 14 * n % 4294967296) % 4294967296 = 10 := by omega
  have haligned : 14 * p % VALUE_SIZE ≠ 0 ∨ 10 % VALUE_SIZE ≠ 0 := .inr (by decide)
  unfold setRange
  rw [if_neg hsize, hto, if_pos haligned]

/-! ## Where one segment ends -/

/-- The word behind a run is not read as a part of it. -/
def Ends (v : Bool) (rest : List UInt16) : Prop := ∀ w ∈ rest.head?, continues v w = false

theorem ends_nil : Ends v [] := by
  intro w hw
  cases hw

theorem ends_literal (hw : isRun w = false) : Ends v (w :: rest) := by
  intro u hu
  cases hu
  unfold continues
  rw [hw]
  exact Bool.false_and _

theorem segments_literal (hw : isRun w = false) :
    segments (w :: rest) = .literal (bits w) :: segments rest := by
  rw [segments, if_neg (by rw [hw]; exact Bool.false_ne_true)]
  rfl

theorem takeWhile_ends {l : List UInt16} (hl : ∀ w ∈ l, continues v w = true) (h : Ends v rest) :
    (l ++ rest).takeWhile (continues v) = l ∧ (l ++ rest).dropWhile (continues v) = rest := by
  induction l with
  | nil =>
      cases rest with
      | nil => exact ⟨rfl, rfl⟩
      | cons w rest =>
          have hw := h w rfl
          rw [List.nil_append, List.takeWhile_cons_of_neg (by rw [hw]; exact Bool.false_ne_true),
            List.dropWhile_cons_of_neg (by rw [hw]; exact Bool.false_ne_true)]
          exact ⟨rfl, rfl⟩
  | cons x l ih =>
      obtain ⟨ht, hd⟩ := ih fun w hw => hl w (List.mem_cons_of_mem _ hw)
      have hx := hl x List.mem_cons_self
      rw [List.cons_append, List.takeWhile_cons_of_pos hx, List.dropWhile_cons_of_pos hx, ht, hd]
      exact ⟨rfl, rfl⟩

theorem segments_run {cur : UInt16} {more : List UInt16} (hcur : continues v cur = true)
    (hmore : ∀ w ∈ more, continues v w = true) (h : Ends v rest) :
    segments (cur :: (more ++ rest)) = .run v cur more :: segments rest := by
  unfold continues at hcur
  rw [Bool.and_eq_true, beq_iff_eq] at hcur
  obtain ⟨hrun, hv⟩ := hcur
  obtain ⟨ht, hd⟩ := takeWhile_ends hmore h
  rw [segments, if_pos hrun, ← hv, ht, hd]

theorem ends_flush (hn : n ≠ 0) : Ends (!v) (flush v (14 * n) ++ rest) := by
  unfold flush
  by_cases h : 1 < 14 * n / VALUE_SIZE
  · rw [if_pos h, runWords, if_neg (by omega)]
    intro w hw
    cases hw
    unfold continues
    rw [runWord_value]
    cases v
    · exact Bool.and_false _
    · exact Bool.and_false _
  · rw [if_neg h, if_neg (by omega)]
    exact ends_literal (isRun_uniform v)

/-- What is written while a run is open starts with that run. -/
theorem ends_compressLoop (hn : n ≠ 0) : Ends (!v) (compressLoop v (14 * n) ws) := by
  induction ws generalizing n with
  | nil =>
      have h : Ends (!v) (flush v (14 * n) ++ []) := ends_flush hn
      rw [List.append_nil] at h
      exact h
  | cons cur ws ih =>
      unfold compressLoop
      split
      · exact ih (n := n + 1) (Nat.succ_ne_zero n)
      · split
        · exact ends_flush hn
        · exact ends_flush hn

/-- A run of one word of the other value is open behind the first one. -/
theorem ends_other : Ends v (compressLoop (!v) (14 * 1) ws) := by
  have h : Ends (!!v) (compressLoop (!v) (14 * 1) ws) := ends_compressLoop Nat.one_ne_zero
  rw [Bool.not_not] at h
  exact h

/-! ## Reading back -/

/-- The loop of `uncompress`. -/
def readBack (l : List UInt16) (at_ : Nat × List UInt16) :
    Except BitmapFailure (Nat × List UInt16) :=
  replay (fun _ => true) (fun _ w => w) (segments l) at_

/-- Over an old word of fourteen bits a literal word of equal bits does what its run would do. -/
def Merges (writes : Bool → Bool) (combine : UInt16 → UInt16 → UInt16) : Prop :=
  ∀ v old, bits old = old → combine old (uniform v) = if writes v then uniform v else old

section Replay

variable {writes : Bool → Bool} {combine : UInt16 → UInt16 → UInt16} {old : List UInt16}

theorem replayStep_literal {p : Nat} {data data' : List UInt16}
    (h : modifyAt data (p / VALUE_SIZE) (fun o => combine o w) = .ok data') :
    replayStep writes combine (p, data) (.literal w) =
      .ok ((p + VALUE_SIZE) % 4294967296, data') := by
  change (modifyAt data (p / VALUE_SIZE) (fun o => combine o w) >>= _) = _
  rw [h]
  rfl

theorem replayStep_run {p count : Nat} {cur : UInt16} {data more : List UInt16}
    (hc : runCount 1 (cur &&& COUNT_MASK).toNat more = .ok count) :
    replayStep writes combine (p, data) (.run v cur more) =
      (if writes v then setRange data p count v else .ok data).map
        fun data' => ((p + count) % 4294967296, data') := by
  change (runCount 1 (cur &&& COUNT_MASK).toNat more >>= _) = _
  rw [hc]
  cases writes v with
  | false => rfl
  | true =>
      change (setRange data p count v >>= _) = (setRange data p count v).map _
      cases setRange data p count v with
      | error e => rfl
      | ok data' => rfl

theorem replay_literal {o : UInt16} (hw : isRun w = false) (hpos : 14 * pre.length < 4294967296) :
    replay writes combine (segments (w :: rest))
        (14 * pre.length % 4294967296, pre ++ o :: post) =
      replay writes combine (segments rest)
        (14 * (pre.length + 1) % 4294967296, pre ++ (combine o (bits w) :: post)) := by
  have hp : 14 * pre.length % 4294967296 / VALUE_SIZE = pre.length := by
    change 14 * pre.length % 4294967296 / 14 = pre.length
    omega
  have hnext : (14 * pre.length % 4294967296 + VALUE_SIZE) % 4294967296 =
      14 * (pre.length + 1) % 4294967296 := by
    change (14 * pre.length % 4294967296 + 14) % 4294967296 = _
    omega
  have hmod : modifyAt (pre ++ o :: post) (14 * pre.length % 4294967296 / VALUE_SIZE)
      (fun o => combine o (bits w)) = .ok (pre ++ (combine o (bits w) :: post)) := by
    rw [hp, modifyAt_append]
  have hstep : replayStep writes combine (14 * pre.length % 4294967296, pre ++ o :: post)
      (.literal (bits w)) = _ := replayStep_literal hmod
  rw [hnext] at hstep
  unfold replay
  rw [segments_literal hw, List.foldlM_cons, hstep]
  rfl

/-- The length of a run is read back; a run over all the words of the largest sizes wraps around. -/
theorem runCount_run (hn : 1 < n) (hsize : 14 * n < 4294967310) :
    runCount 1 (runWord v (14 * n) &&& COUNT_MASK).toNat (runWords v 4 (14 * n / 16384)) =
      .ok (14 * n % 4294967296) := by
  by_cases hfit : 14 * n < 4294967296
  · have hdiv : 14 * n % 16384 + 14 * n / 16384 * 16384 ^ 1 = 14 * n := by omega
    rw [runWord_count, runCount_runWords (by omega) (by omega) (by omega), hdiv,
      Nat.mod_eq_of_lt hfit]
  · have hall : n = 306783379 := by omega
    rw [hall]
    cases v <;> rfl

theorem replay_run (hn : 1 < n) (hsize : 14 * (pre.length + n) < 4294967310)
    (h : Ends v rest) {data : List UInt16} :
    replay writes combine (segments (runWords v 5 (14 * n) ++ rest))
        (14 * pre.length % 4294967296, data) =
      (if writes v then setRange data (14 * pre.length) (14 * n % 4294967296) v
        else .ok data) >>= fun data' =>
          replay writes combine (segments rest)
            (14 * (pre.length + n) % 4294967296, data') := by
  have hwords : runWords v 5 (14 * n) =
      runWord v (14 * n) :: runWords v 4 (14 * n / 16384) := by
    rw [runWords, if_neg (by omega)]
  have hpos : 14 * pre.length % 4294967296 = 14 * pre.length := by omega
  have hnext : (14 * pre.length + 14 * n % 4294967296) % 4294967296 =
      14 * (pre.length + n) % 4294967296 := by omega
  have hstep : replayStep writes combine (14 * pre.length, data)
      (.run v (runWord v (14 * n)) (runWords v 4 (14 * n / 16384))) = _ :=
    replayStep_run (runCount_run hn (by omega))
  rw [hnext] at hstep
  unfold replay
  rw [hwords, List.cons_append, segments_run (continues_runWord v _) runWords_continue h,
    List.foldlM_cons, hpos, hstep]
  cases (if writes v then setRange data (14 * pre.length) (14 * n % 4294967296) v
    else .ok data) with
  | error e => rfl
  | ok data' => rfl

/-- What the words of a run make of the old ones. -/
theorem zipWith_uniform (hm : Merges writes combine) (hold : ∀ o ∈ old, bits o = o)
    (hlen : old.length = n) : List.zipWith combine old (List.replicate n (uniform v)) =
      if writes v then List.replicate n (uniform v) else old := by
  induction old generalizing n with
  | nil =>
      rw [← hlen]
      cases writes v <;> rfl
  | cons o old ih =>
      rw [← hlen, List.length_cons, List.replicate_succ, List.zipWith_cons_cons,
        hm v o (hold o List.mem_cons_self),
        ih (fun o ho => hold o (List.mem_cons_of_mem _ ho)) rfl]
      cases writes v <;> rfl

/-- A pending run is read back, whichever way it was written. -/
theorem replay_flush (hm : Merges writes combine) (hold : ∀ o ∈ old, bits o = o)
    (hlen : old.length = n) (hsize : 14 * (pre.length + n) < 4294967310)
    (hrun : 1 < n → writes v = true → 14 * (pre.length + n) < 4294967296) (h : Ends v rest) :
    replay writes combine (segments (flush v (14 * n) ++ rest))
        (14 * pre.length % 4294967296, pre ++ (old ++ post)) =
      replay writes combine (segments rest) (14 * (pre.length + n) % 4294967296,
        pre ++ (List.zipWith combine old (List.replicate n (uniform v)) ++ post)) := by
  have hdiv : 14 * n / VALUE_SIZE = n := Nat.mul_div_cancel_left _ (by decide)
  unfold flush
  rw [hdiv]
  by_cases h1 : 1 < n
  · rw [if_pos h1, replay_run h1 hsize h, zipWith_uniform hm hold hlen]
    cases hw : writes v with
    | false => rfl
    | true =>
        have hfit := hrun h1 hw
        rw [if_pos rfl, if_pos rfl, Nat.mod_eq_of_lt (by omega), setRange_words hlen hfit]
        rfl
  · rw [if_neg h1]
    by_cases h0 : n = 0
    · rw [if_pos (by omega), h0, List.length_eq_zero_iff.mp (hlen.trans h0)]
      rfl
    · have hone : n = 1 := by omega
      obtain ⟨o, rfl⟩ := List.length_eq_one_iff.mp (hlen.trans hone)
      have hlit : replay writes combine (segments (uniform v :: rest))
          (14 * pre.length % 4294967296, pre ++ o :: post) = _ :=
        replay_literal (isRun_uniform v) (by omega)
      rw [bits_uniform] at hlit
      rw [if_neg (by omega), hone]
      exact hlit

/-- The open run is written, and what follows is read behind it. -/
theorem replay_open (v : Bool) (pre old : List UInt16) {os : List UInt16}
    (hm : Merges writes combine) (hold : ∀ o ∈ os, bits o = o) (hos : os.length = n)
    (hbefore : 14 * (pre.length + n) < 4294967296) : ∃ written,
      List.zipWith combine os (List.replicate n (uniform v)) = written ∧
      (pre ++ written).length = pre.length + n ∧
      ∀ {l}, Ends v l →
        replay writes combine (segments (flush v (14 * n) ++ l))
          (14 * pre.length % 4294967296, pre ++ (os ++ old)) =
        replay writes combine (segments l)
          (14 * (pre ++ written).length % 4294967296, (pre ++ written) ++ old) := by
  have hlen : (pre ++ List.zipWith combine os (List.replicate n (uniform v))).length =
      pre.length + n := by
    rw [List.length_append, List.length_zipWith, hos, List.length_replicate, Nat.min_self]
  refine ⟨_, rfl, hlen, fun hl => ?_⟩
  rw [replay_flush hm hold hos (by omega) (fun _ _ => hbefore) hl, hlen, List.append_assoc]

end Replay

/-! ## The whole loop -/

/-- A word whose bits differ has the tag of a run only if it is dirty. -/
def Clean (w : UInt16) : Prop := (∃ v, isUniform v w = true) ∨ isRun w = false

/-- The last two words belong to one run. -/
def EndsInRun (words : List UInt16) : Prop :=
  ∃ v l, words = l ++ [uniform v, uniform v]

/-- Of the words from `p` on all but the last end below `2 ^ 32`, and no run ends above. -/
structure Fits (p : Nat) (words : List UInt16) : Prop where
  size : 14 * (p + words.length) < 4294967310
  run : 14 * (p + words.length) < 4294967296 ∨ ¬EndsInRun words

/-- Of the words from `p` on all but the last end below `2 ^ 32`, and no run that is written ends
above. -/
structure FitsFor (writes : Bool → Bool) (p : Nat) (words : List UInt16) : Prop where
  size : 14 * (p + words.length) < 4294967310
  run : 14 * (p + words.length) < 4294967296 ∨
    ∀ v l, words = l ++ [uniform v, uniform v] → writes v = false

variable {writes : Bool → Bool} {combine : UInt16 → UInt16 → UInt16} {old : List UInt16}

theorem Fits.fitsFor {p : Nat} {words : List UInt16} (h : Fits p words) :
    FitsFor (fun _ => true) p words where
  size := h.size
  run := h.run.imp_right fun hrun v l hl => absurd ⟨v, l, hl⟩ hrun

theorem FitsFor.suffix {p : Nat} {l words : List UInt16} (h : FitsFor writes p (l ++ words)) :
    FitsFor writes (p + l.length) words := by
  have hlen : p + (l ++ words).length = p + l.length + words.length := by
    rw [List.length_append, Nat.add_assoc]
  constructor
  · rw [← hlen]
    exact h.size
  · rw [← hlen]
    refine h.run.imp_right fun hrun => ?_
    rintro v l' rfl
    exact hrun v (l ++ l') (List.append_assoc _ _ _).symm

theorem replicate_ends (hn : 1 < n) : List.replicate n (uniform v) =
    List.replicate (n - 2) (uniform v) ++ [uniform v, uniform v] := by
  change _ = _ ++ List.replicate 2 (uniform v)
  rw [List.replicate_append_replicate, Nat.sub_add_cancel hn]

theorem FitsFor.last {p : Nat} (h : FitsFor writes p (List.replicate n (uniform v)))
    (hn : 1 < n) (hw : writes v = true) : 14 * (p + n) < 4294967296 := by
  have hrun := h.run.resolve_right fun hno => by
    rw [hno v _ (replicate_ends hn)] at hw
    cases hw
  rw [List.length_replicate] at hrun
  exact hrun

/-- A run with words behind it. -/
theorem FitsFor.before {p : Nat} {words : List UInt16}
    (h : FitsFor writes p (List.replicate n (uniform v) ++ w :: words)) :
    14 * (p + n) < 4294967296 := by
  have hsize := h.size
  rw [List.length_append, List.length_replicate, List.length_cons] at hsize
  omega

/-- The words of the open run, and those from the next one on. -/
theorem split_length {α : Type} {l : List α} (h : l.length = n + m) :
    ∃ os rest, os.length = n ∧ rest.length = m ∧ l = os ++ rest := by
  refine ⟨l.take n, l.drop n, ?_, ?_, (List.take_append_drop n l).symm⟩
  · rw [List.length_take, h]
    exact Nat.min_eq_left (Nat.le_add_right _ _)
  · rw [List.length_drop, h, Nat.add_sub_cancel_left]

theorem open_run (h : isUniform v w = true) (l : List UInt16) :
    List.replicate n (uniform v) ++ bits w :: l = List.replicate (n + 1) (uniform v) ++ l := by
  rw [isUniform_iff.mp h, List.replicate_succ', List.append_assoc]
  rfl

theorem bits_differ (h : ¬isUniform v w = true) (hother : ¬isUniform (!v) w = true) (u : Bool) :
    ¬isUniform u w = true := by
  cases u <;> cases v <;> first | exact h | exact hother

/-- By induction on the words that are left, with the run of `n` words that is still open. -/
theorem replay_compressLoop (hm : Merges writes combine) (hold : ∀ o ∈ old, bits o = o)
    (hlen : old.length = n + ws.length) (hclean : ∀ w ∈ ws, Clean w)
    (hfit : FitsFor writes pre.length (List.replicate n (uniform v) ++ ws.map bits)) :
    (replay writes combine (segments (compressLoop v (14 * n) ws))
      (14 * pre.length % 4294967296, pre ++ old)).map Prod.snd =
      .ok (pre ++ List.zipWith combine old (List.replicate n (uniform v) ++ ws.map bits)) := by
  induction ws generalizing v n pre old with
  | nil =>
      rw [List.map_nil, List.append_nil] at hfit ⊢
      rw [List.length_nil, Nat.add_zero] at hlen
      have hsize := hfit.size
      rw [List.length_replicate] at hsize
      have hflush : replay writes combine (segments (flush v (14 * n) ++ []))
          (14 * pre.length % 4294967296, pre ++ (old ++ [])) = _ :=
        replay_flush hm hold hlen hsize hfit.last ends_nil
      rw [List.append_nil, List.append_nil, List.append_nil] at hflush
      change (replay _ _ (segments (flush v (14 * n))) _).map Prod.snd = _
      rw [hflush, segments]
      rfl
  | cons cur ws ih =>
      have hrest : ∀ w ∈ ws, Clean w := fun w hw => hclean w (List.mem_cons_of_mem _ hw)
      rw [List.map_cons] at hfit ⊢
      rw [List.length_cons] at hlen
      obtain ⟨os, old, hos, hlen', rfl⟩ := split_length hlen
      have holdos : ∀ o ∈ os, bits o = o := fun o ho => hold o (List.mem_append_left _ ho)
      have hold' : ∀ o ∈ old, bits o = o := fun o ho => hold o (List.mem_append_right _ ho)
      have hzip : List.zipWith combine (os ++ old)
          (List.replicate n (uniform v) ++ bits cur :: ws.map bits) =
          List.zipWith combine os (List.replicate n (uniform v)) ++
            List.zipWith combine old (bits cur :: ws.map bits) :=
        List.zipWith_append (by rw [hos, List.length_replicate])
      obtain ⟨written, hwritten, hwlen, hflush⟩ :=
        replay_open v pre old hm holdos hos hfit.before
      have hnext : FitsFor writes (pre ++ written).length (bits cur :: ws.map bits) := by
        have h := hfit.suffix
        rw [List.length_replicate] at h
        rw [hwlen]
        exact h
      unfold compressLoop
      by_cases hsame : isUniform v cur = true
      · have hcur := open_run (n := n) hsame (ws.map bits)
        rw [if_pos hsame, hcur]
        refine ih (n := n + 1) hold ?_ hrest (hcur ▸ hfit)
        rw [hlen]
        omega
      · rw [if_neg hsame, hzip, hwritten, ← List.append_assoc pre written]
        by_cases hother : isUniform (!v) cur = true
        · have hcur : bits cur :: ws.map bits =
              List.replicate 1 (uniform (!v)) ++ ws.map bits := open_run (n := 0) hother _
          rw [if_pos hother]
          change (replay _ _ (segments (flush v (14 * n) ++ compressLoop (!v) (14 * 1) ws)) _).map
            Prod.snd = _
          rw [hflush ends_other, hcur]
          exact ih hold' (hlen'.trans (Nat.add_comm _ _)) hrest (hcur ▸ hnext)
        · have hraw : isRun cur = false := by
            refine (hclean cur List.mem_cons_self).resolve_left ?_
            rintro ⟨u, hu⟩
            exact bits_differ hsame hother u hu
          obtain ⟨o, old, rfl⟩ := List.exists_cons_of_length_eq_add_one hlen'
          have hpos : 14 * (pre ++ written).length < 4294967296 := by
            have hsize := hnext.size
            rw [List.length_cons] at hsize
            omega
          rw [if_neg hother, hflush (ends_literal hraw), replay_literal hraw hpos,
            List.zipWith_cons_cons]
          have hfit' : FitsFor writes ((pre ++ written) ++ [combine o (bits cur)]).length
              (List.replicate 0 (uniform v) ++ ws.map bits) := by
            have h := FitsFor.suffix (l := [bits cur]) hnext
            rw [List.length_append]
            exact h
          have h := ih (v := v) (n := 0)
            (fun o ho => hold' o (List.mem_cons_of_mem _ ho))
            ((Nat.succ.inj hlen').trans (Nat.zero_add _).symm) hrest hfit'
          rw [List.length_append, List.length_singleton,
            List.append_assoc _ [combine o (bits cur)],
            List.append_assoc _ [combine o (bits cur)]] at h
          exact h

/-- Over a new bitmap the words themselves are read back. -/
theorem readBack_compressLoop (hclean : ∀ w ∈ ws, Clean w)
    (hfit : Fits pre.length (List.replicate n (uniform v) ++ ws.map bits)) :
    (readBack (compressLoop v (14 * n) ws)
      (14 * pre.length % 4294967296, pre ++ List.replicate (n + ws.length) 0)).map Prod.snd =
      .ok (pre ++ (List.replicate n (uniform v) ++ ws.map bits)) := by
  have hzip : ∀ {old l : List UInt16}, old.length = l.length →
      List.zipWith (fun _ w => w) old l = l := by
    intro old l hlen
    induction old generalizing l with
    | nil => exact (List.length_eq_zero_iff.mp hlen.symm).symm
    | cons o old ih =>
        obtain ⟨w, l, rfl⟩ := List.exists_cons_of_length_eq_add_one hlen.symm
        exact congrArg (w :: ·) (ih (Nat.succ.inj hlen))
  have hmerges : Merges (fun _ => true) fun _ w => w := fun v o _ => (if_pos rfl).symm
  have hzeros : ∀ o ∈ List.replicate (n + ws.length) 0, bits o = o := fun o ho => by
    rw [List.eq_of_mem_replicate ho]
    rfl
  have h := replay_compressLoop hmerges hzeros List.length_replicate hclean hfit.fitsFor
  rw [hzip (by rw [List.length_replicate, List.length_append, List.length_replicate,
    List.length_map])] at h
  exact h

end CIM.ds.Bitmap
