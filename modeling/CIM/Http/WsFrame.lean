import CIM.Http.WsSession

/-!
# Frames and one pass of the reading loop

`Frame.encode` is a frame as the protocol has it. The lemmas here say what one pass of the loop
does at the start of a frame: `recvPass_taken` when it takes the frame up, `recvPass_control` for
the control frames, and `recvPass_ok` that a pass which comes through was of the first kind.
-/
namespace CIM.Http

open WSFrameHead Exec CIM.Stream

/-- A frame on the wire: the key is there when the frame is masked. -/
structure Frame where
  fin : Bool
  opcode : Nat
  key : Option (List UInt8)
  payload : List UInt8

namespace Frame

def head (f : Frame) : List UInt8 :=
  [finOpcode f.fin f.opcode, maskLength f.key.isSome f.payload.length]

def body (f : Frame) : List UInt8 :=
  match f.key with
  | none => f.payload
  | some key => applyMask key f.payload

/-- What follows the two bytes of the head. -/
def tail (f : Frame) : List UInt8 := lenBytes f.payload.length ++ f.key.getD [] ++ f.body

def encode (f : Frame) : List UInt8 := f.head ++ f.tail

def isData (f : Frame) : Bool :=
  f.opcode == CONTINUE || f.opcode == TEXT_FRAME || f.opcode == BIN_FRAME

/-- The frames of the protocol, as the receiving side must get them. -/
structure WellFormed (client : Bool) (f : Frame) : Prop where
  opcode : f.opcode ∈ [CONTINUE, TEXT_FRAME, BIN_FRAME, CLOSE, PING, PONG]
  key : ∀ k ∈ f.key, k.length = 4
  length : f.payload.length < 9223372036854775808
  control : f.isData = false → f.fin = true ∧ f.payload.length ≤ 125
  masked : f.isData = true → client = false → f.key.isSome

/-- What a pass needs of a frame, with `total` bytes read before it, to be done with it. -/
structure Readable (max_size : UInt32) (total : Nat) (f : Frame) : Prop where
  control : f.isData = false → f.key = none ∧ f.payload = []
  nonempty : f.isData = true → f.payload ≠ []
  total_lt : f.isData = true → total < 2147483648
  length_lt : f.isData = true → f.payload.length < 2147483648
  limit : f.isData = true → total + f.payload.length < max_size.toNat

end Frame

theorem uint8_xor_cancel (a b : UInt8) : a ^^^ b ^^^ b = a := by
  rw [UInt8.xor_assoc, UInt8.xor_self, UInt8.xor_zero]

@[simp] theorem length_applyMask (key data : List UInt8) :
    (applyMask key data).length = data.length := by
  simp [applyMask]

@[simp] theorem applyMask_applyMask (key data : List UInt8) :
    applyMask key (applyMask key data) = data := by
  refine List.ext_getElem (by simp) fun i h₁ h₂ => ?_
  simp only [applyMask, List.getElem_mapIdx, uint8_xor_cancel]

theorem lenIndicator_cases (n : Nat) :
    n < 126 ∧ lenIndicator n = n ∨ n < 65536 ∧ lenIndicator n = 126 ∨ lenIndicator n = 127 := by
  unfold lenIndicator
  split
  · omega
  · split <;> omega

theorem parse_head (f : Frame) (hop : f.opcode < 16) :
    ∃ b1 b2, f.head = [b1, b2] ∧
      WSFrameHead.parse b1 b2 =
        ⟨f.fin, f.opcode, f.key.isSome, lenIndicator f.payload.length⟩ := by
  have h1 : ∀ (fin : Bool) (op : Fin 16),
      ((((if fin then 0x80 else 0) ||| (UInt8.ofNat op &&& 0x0F) : UInt8) &&& 0x80 != 0) = fin) ∧
      (((if fin then 0x80 else 0) ||| (UInt8.ofNat op &&& 0x0F) : UInt8) &&& 0x0F).toNat = op := by
    decide
  have h2 : ∀ (mask : Bool) (len : Fin 128),
      ((((if mask then 0x80 else 0) ||| (UInt8.ofNat len &&& 0x7F) : UInt8) &&& 0x80 != 0)
        = mask) ∧
      (((if mask then 0x80 else 0) ||| (UInt8.ofNat len &&& 0x7F) : UInt8) &&& 0x7F).toNat
        = len := by
    decide
  have hlen : lenIndicator f.payload.length < 128 := by
    rcases lenIndicator_cases f.payload.length with h | h | h <;> omega
  refine ⟨_, _, rfl, ?_⟩
  obtain ⟨hfin, hopc⟩ := h1 f.fin ⟨f.opcode, hop⟩
  obtain ⟨hmask, hind⟩ := h2 f.key.isSome ⟨_, hlen⟩
  simp only [WSFrameHead.parse, finOpcode, maskLength, hfin, hopc, hmask, hind]

theorem readFix_feeds {s : Stream} {bs rest : List UInt8} (h : Feeds s (bs ++ rest))
    (hne : bs ≠ []) (hlen : bs.length < 2147483648) :
    ∃ s', readFix bs.length s = .ok bs s' ∧ Feeds s' rest := by
  have hpos := List.length_pos_of_ne_nil hne
  obtain ⟨s', hr, h'⟩ := h.readFixSize (ε := Halt) (by omega)
  refine ⟨s', ?_, h'⟩
  simp only [readFix, bind_apply, hr, int32_of_lt hlen]
  rw [if_neg (by omega), pure_apply]

theorem readByte_feeds {s : Stream} {b : UInt8} {rest : List UInt8} (h : Feeds s (b :: rest)) :
    ∃ s', readByte s = .ok b s' ∧ Feeds s' rest := by
  obtain ⟨s', hr, h'⟩ :=
    readFix_feeds (show Feeds s ([b] ++ rest) from h) (List.cons_ne_nil b []) (by simp)
  exact ⟨s', by simp only [readByte, bind_apply, show readFix 1 s = _ from hr]; rfl, h'⟩

theorem writeFix_put {s : Stream} {buffer : List UInt8} (h : Healthy s) (hne : buffer ≠ [])
    (hlen : buffer.length < 2147483648) :
    ∃ s', writeFix buffer s = .ok ⟨⟩ s' ∧ Put s buffer s' ∧ Healthy s' := by
  have hpos := List.length_pos_of_ne_nil hne
  obtain ⟨s', hw, h'⟩ := writeFixSize_healthy (ε := Halt) h buffer (by omega)
  refine ⟨s', ?_, h'⟩
  simp only [writeFix, bind_apply, hw, int32_of_lt hlen]
  rw [if_neg (by omega), pure_apply]

theorem WSPong_feeds {s : Stream} {bs : List UInt8} (h : Feeds s bs) :
    ∃ s', WSPong s = .ok 2 s' ∧ Feeds s' bs := by
  obtain ⟨s₁, hw₁, hput₁, h₁⟩ :=
    writeFix_put h.healthy (List.cons_ne_nil (0x80 ||| 0x0A : UInt8) []) (by simp)
  obtain ⟨s₂, hw₂, hput₂, h₂⟩ := writeFix_put h₁ (List.cons_ne_nil (0x00 : UInt8) []) (by simp)
  refine ⟨s₂, ?_, h₂, by rw [hput₂.input, hput₁.input, h.input]⟩
  simp only [WSPong, orClose, bind_apply, hw₁, hw₂, pure_apply]

theorem recvLength_feeds {s : Stream} {n : Nat} {rest : List UInt8}
    (hn : n < 18446744073709551616) (h : Feeds s (lenBytes n ++ rest)) :
    ∃ s', recvLength (lenIndicator n) s = .ok n s' ∧ Feeds s' rest := by
  rcases lenIndicator_cases n with ⟨hlt, he⟩ | ⟨hlt, he⟩ | he
  · have h6 : n ≠ 126 := by omega
    have h7 : n ≠ 127 := by omega
    simp only [lenBytes, he, if_neg h6, if_neg h7, List.nil_append] at h
    exact ⟨s, by simp only [recvLength, he, if_neg h6, if_neg h7, pure_apply], h⟩
  · simp only [lenBytes, he, if_true] at h
    obtain ⟨s', hr, h'⟩ := readFix_feeds h (List.cons_ne_nil _ _) (by simp)
    rw [length_toNetwork] at hr
    refine ⟨s', ?_, h'⟩
    simp only [recvLength, he, if_true, bind_apply, hr, ofNetwork_toNetwork, pure_apply]
    rw [Nat.mod_eq_of_lt (by omega)]
  · have h76 : ¬ 127 = 126 := by decide
    simp only [lenBytes, he, if_neg h76, if_true] at h
    obtain ⟨s', hr, h'⟩ := readFix_feeds h (List.cons_ne_nil _ _) (by simp)
    rw [length_toNetwork] at hr
    refine ⟨s', ?_, h'⟩
    simp only [recvLength, he, if_neg h76, if_true, bind_apply, hr, ofNetwork_toNetwork,
      pure_apply]
    rw [Nat.mod_eq_of_lt (by omega)]

theorem recvMaskKey_feeds {s : Stream} {key : Option (List UInt8)} {rest : List UInt8}
    (hkey : ∀ k ∈ key, k.length = 4) (h : Feeds s (key.getD [] ++ rest)) :
    ∃ s', recvMaskKey key.isSome s = .ok (key.getD [0, 0, 0, 0]) s' ∧ Feeds s' rest := by
  cases key with
  | none => exact ⟨s, rfl, h⟩
  | some k =>
      have hlen : k.length = 4 := hkey k rfl
      obtain ⟨s', hr, h'⟩ := readFix_feeds h (List.ne_nil_of_length_pos (by
        simp only [Option.getD_some]; omega)) (by simp only [Option.getD_some]; omega)
      simp only [Option.getD_some, hlen] at hr
      exact ⟨s', hr, h'⟩

namespace Frame

variable {client : Bool} {max_size : UInt32} {f : Frame} {s : Stream} {rest : List UInt8}

theorem WellFormed.opcode_lt (hf : f.WellFormed client) : f.opcode < 16 := by
  have h := hf.opcode
  simp only [CONTINUE, TEXT_FRAME, BIN_FRAME, CLOSE, PING, PONG, List.mem_cons,
    List.not_mem_nil, or_false] at h
  omega

/-- The part of a data frame's head that is kept for the payload. -/
def dataHead (f : Frame) : DataHead :=
  ⟨f.fin, f.opcode, f.key.isSome, f.payload.length, f.key.getD [0, 0, 0, 0]⟩

theorem isData_iff : f.isData = true ↔
    f.opcode = CONTINUE ∨ f.opcode = TEXT_FRAME ∨ f.opcode = BIN_FRAME := by
  simp only [isData, Bool.or_eq_true, beq_iff_eq, or_assoc]

theorem recvHead_data (max_size : UInt32) (hf : f.WellFormed client) (hd : f.isData = true)
    (st : RecvState)
    (h : Feeds s (f.encode ++ rest)) :
    (uint64 (st.cur_len + f.payload.length) < max_size.toNat →
      ∃ s', recvHead client max_size st s = .ok (some f.dataHead) s' ∧
        Feeds s' (f.body ++ rest)) ∧
    (max_size.toNat ≤ uint64 (st.cur_len + f.payload.length) →
      ∃ s', recvHead client max_size st s = .error .brk s') := by
  obtain ⟨b1, b2, hhead, hparse⟩ := parse_head f hf.opcode_lt
  simp only [encode, tail, hhead, List.append_assoc, List.cons_append, List.nil_append] at h
  obtain ⟨s₁, hb1, h⟩ := readByte_feeds h
  obtain ⟨s₂, hb2, h⟩ := readByte_feeds h
  obtain ⟨s₃, hlen, h⟩ := recvLength_feeds (Nat.lt_trans hf.length (by decide)) h
  obtain ⟨s₄, hkey, h⟩ := recvMaskKey_feeds hf.key h
  have hop := isData_iff.mp hd
  have hping : f.opcode ≠ PING := by rcases hop with h | h | h <;> rw [h] <;> decide
  have hpong : f.opcode ≠ PONG := by rcases hop with h | h | h <;> rw [h] <;> decide
  have hmask : (!client && !f.key.isSome) = false := by
    cases hc : client with
    | true => rfl
    | false => simp [hf.masked hd hc]
  constructor
  · intro hlt
    refine ⟨s₄, ?_, h⟩
    simp only [recvHead, bind_apply, hb1, hb2, hparse, if_neg hping, if_neg hpong, if_pos hop,
      hmask, Bool.false_eq_true, if_false, hlen, ge_iff_le, if_neg (Nat.not_le.mpr hlt), hkey,
      pure_apply, dataHead]
  · intro hge
    refine ⟨s₃, ?_⟩
    simp only [recvHead, bind_apply, hb1, hb2, hparse, if_neg hping, if_neg hpong, if_pos hop,
      hmask, Bool.false_eq_true, if_false, hlen, ge_iff_le, if_pos hge, throw_apply]

/-- A control frame is left after its first two bytes. -/
theorem recvPass_control (max_size : UInt32) (hf : f.WellFormed client) (hd : f.isData = false)
    (st : RecvState)
    (h : Feeds s (f.encode ++ rest)) :
    ∃ s', recvPass client max_size st s = .ok (.inl st) s' ∧ Feeds s' (f.tail ++ rest) := by
  obtain ⟨b1, b2, hhead, hparse⟩ := parse_head f hf.opcode_lt
  simp only [encode, hhead, List.cons_append, List.nil_append] at h
  obtain ⟨s₁, hb1, h⟩ := readByte_feeds h
  obtain ⟨s₂, hb2, h⟩ := readByte_feeds h
  have hop : ¬ (f.opcode = CONTINUE ∨ f.opcode = TEXT_FRAME ∨ f.opcode = BIN_FRAME) := fun hop =>
    absurd (isData_iff.mpr hop) (by rw [hd]; decide)
  by_cases hping : f.opcode = PING
  · obtain ⟨s₃, hpong, h⟩ := WSPong_feeds h
    refine ⟨s₃, ?_, h⟩
    simp only [recvPass, recvHead, bind_apply, hb1, hb2, hparse, if_pos hping, hpong]
    rfl
  · refine ⟨s₂, ?_, h⟩
    simp only [recvPass, recvHead, bind_apply, hb1, hb2, hparse, if_neg hping, if_neg hop,
      ite_self, pure_apply]

end Frame

@[simp] theorem length_resize (data : List UInt8) (n : Nat) : (resize data n).length = n := by
  simp only [resize, List.length_append, List.length_take, List.length_replicate]
  omega

theorem store_ok {data out bytes : List UInt8} {offset : Int} {s s' : Stream}
    (h : store data offset bytes s = .ok out s') :
    s' = s ∧ out.length = data.length ∧
      (bytes = [] ∨ 0 ≤ offset ∧ offset + bytes.length ≤ data.length) := by
  unfold store at h
  split at h
  · cases h
    exact ⟨rfl, rfl, .inl ‹_›⟩
  · split at h
    · rename_i hin
      cases h
      refine ⟨rfl, ?_, .inr hin⟩
      simp only [List.length_append, List.length_take, List.length_drop]
      omega
    · cases h

/-- A payload stored right behind the data read so far. -/
theorem store_resize {data bytes : List UInt8} (s : Stream) :
    store (resize data (data.length + bytes.length)) data.length bytes s =
      .ok (data ++ bytes) s := by
  have ht : data.take (data.length + bytes.length) = data :=
    List.take_of_length_le (Nat.le_add_right _ _)
  unfold store
  by_cases hb : bytes = []
  · subst hb
    simp [resize]
  · rw [if_neg hb, if_pos (by simp), pure_apply]
    simp [resize, ht]

/-- How the length counter, an `int`, stands to the data. -/
structure RecvState.Counts (st : RecvState) : Prop where
  cur_len : st.cur_len = int32 st.data.length
  data_lt : st.data.length < 4294967296

/-- What a payload read that comes through says about the frame and about the next state. -/
theorem recvPayload_ok {st : RecvState} {head : DataHead} {s s' : Stream}
    {r : RecvState ⊕ WSFrameMessage} (h : recvPayload st head s = .ok r s') :
    0 < int32 head.length ∧
      (head.length < 9223372036854775808 →
        0 ≤ st.cur_len ∧
          st.cur_len + head.length ≤ uint64 (st.cur_len + head.length)) ∧
      ∀ st', r = .inl st' → st'.data.length = uint64 (st.cur_len + head.length) ∧
        st'.cur_len = int32 (st.cur_len + head.length) := by
  obtain ⟨rt, bs, s₁, hr, -, -, hrt⟩ := readFixSize_took (ε := Halt) head.length s
  simp only [recvPayload, bind_apply, hr] at h
  obtain ⟨data, hdata⟩ :
      ∃ data, data = if head.mask then applyMask head.mask_key bs else bs := ⟨_, rfl⟩
  have hlen : data.length = bs.length := by
    rw [hdata]
    split
    · exact length_applyMask _ _
    · rfl
  rw [← hdata] at h
  cases hstore : store (resize st.data (uint64 (st.cur_len + head.length))) st.cur_len data s₁ with
  | error e s₂ => simp only [hstore, reduceCtorEq] at h
  | ok out s₂ =>
      obtain ⟨rfl, hout, hin⟩ := store_ok hstore
      rw [length_resize] at hout hin
      simp only [hstore] at h
      split at h
      · cases h
      · rename_i hpos
        obtain ⟨rfl, hbs⟩ : rt = int32 head.length ∧ bs.length = (int64 head.length).toNat := by
          rcases hrt with hrt | hrt
          · exact hrt
          · exact absurd hrt hpos
        refine ⟨by omega, fun hlt => ?_, ?_⟩
        · have hne : head.length ≠ 0 := by
            intro h0
            exact hpos (by rw [h0]; decide)
          have h64 : int64 head.length = head.length := by simp only [int64, uint64]; omega
          rcases hin with rfl | hin
          · simp only [List.length_nil] at hlen
            omega
          · rw [hlen, hbs, h64] at hin
            omega
        · rintro st' rfl
          split at h
          · cases h
          · cases h
            exact ⟨hout, rfl⟩

namespace Frame

variable {client : Bool} {max_size : UInt32} {f : Frame} {s : Stream} {rest : List UInt8}

@[simp] theorem length_body (f : Frame) : f.body.length = f.payload.length := by
  unfold body
  split
  · rfl
  · exact length_applyMask _ _

theorem unmask_body (f : Frame) :
    (if f.dataHead.mask then applyMask f.dataHead.mask_key f.body else f.body) = f.payload := by
  cases hk : f.key with
  | none => simp [dataHead, body, hk]
  | some key => simp [dataHead, body, hk]

/-- A readable data frame is taken up whole. -/
theorem recvPass_taken (hf : f.WellFormed client) (hd : f.isData = true) {st : RecvState}
    (hst : st.Counts) (hok : f.Readable max_size st.data.length)
    (h : Feeds s (f.encode ++ rest)) :
    ∃ s', recvPass client max_size st s =
        .ok (if f.fin then .inr ⟨nextOpcode st.opcode f.opcode, st.data ++ f.payload⟩
          else .inl ⟨nextOpcode st.opcode f.opcode, st.data ++ f.payload,
            int32 (st.data ++ f.payload).length⟩) s' ∧
      Feeds s' rest := by
  have htotal := hok.total_lt hd
  have hlen := hok.length_lt hd
  have hlimit := hok.limit hd
  have hpos := List.length_pos_of_ne_nil (hok.nonempty hd)
  have hcur : st.cur_len = st.data.length := hst.cur_len.trans (int32_of_lt htotal)
  have h64 : uint64 (st.cur_len + f.payload.length) = st.data.length + f.payload.length := by
    rw [hcur]
    simp only [uint64]
    omega
  obtain ⟨s₁, hhead, h₁⟩ := (recvHead_data max_size hf hd st h).1 (by rw [h64]; exact hlimit)
  obtain ⟨s₂, hr, h₂⟩ := h₁.readFixSize (ε := Halt) (by rw [length_body]; omega)
  rw [length_body] at hr
  refine ⟨s₂, ?_, h₂⟩
  have hlen' : f.dataHead.length = f.payload.length := rfl
  simp only [recvPass, bind_apply, hhead, recvPayload, hlen', hr, unmask_body, h64]
  rw [hcur, store_resize]
  simp only [int32_of_lt hlen]
  rw [if_neg (by omega)]
  have hsum : ((st.data.length : Int) + f.payload.length) =
      ((st.data ++ f.payload).length : Nat) := by
    rw [List.length_append]
    omega
  rw [hsum]
  cases hfin : f.fin <;> simp [dataHead, hfin, nextOpcode]

/-- A pass over a data frame comes through only when the frame is readable. -/
theorem recvPass_ok (hf : f.WellFormed client) (hd : f.isData = true) {st : RecvState}
    (hst : st.Counts) (h : Feeds s (f.encode ++ rest)) {r : RecvState ⊕ WSFrameMessage}
    {s' : Stream} (hr : recvPass client max_size st s = .ok r s') :
    f.Readable max_size st.data.length := by
  have hmax : max_size.toNat < 4294967296 := max_size.toNat_lt
  obtain ⟨htaken, hbroken⟩ := recvHead_data max_size hf hd st h
  by_cases hlt : uint64 (st.cur_len + f.payload.length) < max_size.toNat
  · obtain ⟨s₁, hhead, -⟩ := htaken hlt
    simp only [recvPass, bind_apply, hhead] at hr
    obtain ⟨hpos, hin, -⟩ := recvPayload_ok hr
    have hlen' : f.dataHead.length = f.payload.length := rfl
    rw [hlen'] at hpos hin
    obtain ⟨hcur, hle⟩ := hin hf.length
    have hlt' := hst.data_lt
    have hc := hst.cur_len
    have hd64 : st.data.length < 2147483648 := by
      rw [hc] at hcur
      simp only [int32, uint32] at hcur
      omega
    have hc' := hc.trans (int32_of_lt hd64)
    have hlimit : st.data.length + f.payload.length < max_size.toNat := by omega
    have hplt : f.payload.length < 2147483648 := by
      simp only [int32, uint32] at hpos
      omega
    refine ⟨fun h => ?_, fun _ h => ?_, fun _ => hd64, fun _ => hplt, fun _ => hlimit⟩
    · exact absurd hd (by rw [h]; decide)
    · rw [h] at hpos
      exact absurd hpos (by decide)
  · obtain ⟨s₁, hhead⟩ := hbroken (Nat.le_of_not_lt hlt)
    simp only [recvPass, bind_apply, hhead, reduceCtorEq] at hr

end Frame

end CIM.Http
