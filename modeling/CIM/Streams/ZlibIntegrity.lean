import CIM.Streams.ZlibStream

/-!
# Broken streams in `ZlibStream`

`decode` looks at one of the results of `inflate` only, the one that a stream in order does not
give. It reports success whatever the input was; the result is what of it could be inflated.
-/
namespace CIM

open Exec

/-- zlib's `inflate`: `Whole x z` says that `z` is one complete stream of `x`, and `inflated z` is
all that can be had from the bytes `z`. `Rep` relates a state to what it has taken and stored.
Room is left in the output when nothing more can be stored, and input behind that only where the
stream has ended or is broken. -/
structure Inflater where
  codec : Codec
  Whole : List UInt8 → List UInt8 → Prop
  inflated : List UInt8 → List UInt8
  Rep : codec.State → List UInt8 → List UInt8 → Prop
  whole : ∀ {x z}, Whole x z → inflated z = x
  init : Rep codec.init [] []
  ret : ∀ {σ x y} finish i n, Rep σ x y → 0 < n →
    (codec.call σ finish i n).ret ≠ Z_STREAM_ERROR
  out_le : ∀ {σ x y} finish i n, Rep σ x y → 0 < n →
    (codec.call σ finish i n).out.length ≤ n
  stores : ∀ {σ x y} finish i n, Rep σ x y → 0 < n →
    y ++ (codec.call σ finish i n).out <+: inflated (x ++ i)
  takes : ∀ {σ x y} finish i n, Rep σ x y → 0 < n →
    ∃ taken, i = taken ++ (codec.call σ finish i n).next_in ∧
      Rep (codec.call σ finish i n).state (x ++ taken) (y ++ (codec.call σ finish i n).out)
  settled : ∀ {σ x y} finish i n, Rep σ x y → 0 < n →
    (codec.call σ finish i n).out.length < n →
    y ++ (codec.call σ finish i n).out = inflated (x ++ i) ∧
      ∀ taken, i = taken ++ (codec.call σ finish i n).next_in →
        (codec.call σ finish i n).next_in = [] ∨
          ∀ more, inflated (x ++ taken ++ more) = inflated (x ++ taken)

namespace ZlibStream

variable {C : Codec}

/-- `avail_in` has 32 bits. -/
def availIn (v : List UInt8) : List UInt8 := v.take (v.length % 4294967296)

def decode (turns : Nat) (finish : Bool) (vs : List (List UInt8)) : ZlibM C Unit :=
  code turns finish (vs.map availIn)

/-- Calls of `write`, of a buffer or of the vectors of a `ByteArray`, and a `flush` behind them. -/
def session (turns : Nat) : List (List (List UInt8)) → ZlibM C Unit
  | [] => flush turns
  | vs :: calls => do
      decode turns false vs
      session turns calls

/-- What the calls were given. -/
def given (calls : List (List (List UInt8))) : List UInt8 := calls.flatten.flatten

/-- What `inflate` was given. -/
def fed (calls : List (List (List UInt8))) : List UInt8 := (calls.flatten.map availIn).flatten

/-- When every call returns `Z_OK`, a complete stream was given, and its bytes are the result. -/
def Honest (Z : Inflater) (turns : Nat) (calls : List (List (List UInt8))) : Prop :=
  ∀ zs, session turns calls (create Z.codec) = .ok ⟨⟩ zs →
    ∃ x, Z.Whole x (given calls) ∧ zs.contents = x

variable {Z : Inflater} {zs : ZlibStream Z.codec} {w x i : List UInt8}

/-- The stream was given `w` and has taken `x`, which any further bytes go on from alike. -/
structure Decoded (Z : Inflater) (zs : ZlibStream Z.codec) (w x : List UInt8) : Prop where
  rep : Z.Rep zs.state x zs.contents
  behind : ∀ more, Z.inflated (x ++ more) = Z.inflated (w ++ more)
  buffs_le : ∀ b ∈ zs.buffs, b.length ≤ buffSize

theorem create_decoded (Z : Inflater) : Decoded Z (create Z.codec) [] [] :=
  ⟨Z.init, fun _ => rfl, fun _ hb => by cases hb⟩

/-- What a turn takes of the input, and that the rest of the input is of no use when it leaves
room in the buffer. -/
theorem Decoded.turn (h : Decoded Z zs w x) (finish : Bool) (i : List UInt8)
    {reply : Reply Z.codec.State}
    (hreply : Z.codec.call zs.state finish i (buffSize - (back zs.buffs).1.length) = reply) :
    reply.ret ≠ Z_STREAM_ERROR ∧
      zs.contents ++ reply.out <+: Z.inflated (w ++ i) ∧
      (∃ taken, i = taken ++ reply.next_in ∧
        Decoded Z (turned zs reply) (w ++ taken) (x ++ taken)) ∧
      (buffSize - (back zs.buffs).1.length - reply.out.length ≠ 0 →
        (turned zs reply).contents = Z.inflated (w ++ i) ∧
          ∃ x', Decoded Z (turned zs reply) (w ++ i) x') := by
  have hn : 0 < buffSize - (back zs.buffs).1.length :=
    Nat.sub_pos_of_lt (back_spec h.buffs_le).1
  have hret := Z.ret finish i _ h.rep hn
  have hout := Z.out_le finish i _ h.rep hn
  have hstores := Z.stores finish i _ h.rep hn
  have hsettled := Z.settled finish i _ h.rep hn
  obtain ⟨taken, htaken, hrep⟩ := Z.takes finish i _ h.rep hn
  rw [hreply] at hret hout hstores hsettled htaken hrep
  rw [h.behind i] at hstores
  have hcontents := contents_turned h.buffs_le reply
  have hbuffs := buffs_turned h.buffs_le hout
  rw [← hcontents] at hrep
  refine ⟨hret, hstores, ⟨taken, htaken, hrep, fun more => ?_, hbuffs⟩, fun hroom => ?_⟩
  · rw [List.append_assoc, List.append_assoc, h.behind]
  · obtain ⟨hall, hrest⟩ := hsettled (by omega)
    refine ⟨by rw [hcontents, hall, h.behind], x ++ taken, hrep, fun more => ?_, hbuffs⟩
    rcases hrest taken htaken with hempty | hend
    · have hi : i = taken := by rw [htaken, hempty, List.append_nil]
      rw [hi, List.append_assoc, List.append_assoc, h.behind]
    · -- behind the end, or behind what is broken, the rest of the input adds nothing
      have hmore := hend (reply.next_in ++ more)
      rw [hend more, ← hmore, List.append_assoc, ← List.append_assoc taken, ← htaken, h.behind,
        List.append_assoc]

/-- The loop ends, without an error, when all that can be had from the input is stored. -/
theorem fillLoop_decoded (turns : Nat) (finish : Bool) :
    ∀ {zs : ZlibStream Z.codec} {w x i : List UInt8}, 0 < turns →
      (Z.inflated (w ++ i)).length < turns + zs.contents.length → Decoded Z zs w x →
      ∃ zs' x', fillLoop finish turns i zs = .ok ⟨⟩ zs' ∧ Decoded Z zs' (w ++ i) x' ∧
        zs'.contents = Z.inflated (w ++ i) := by
  induction turns with
  | zero =>
      intro zs w x i hpos
      cases hpos
  | succ turns ih =>
      intro zs w x i _ hturns h
      generalize hreply :
        Z.codec.call zs.state finish i (buffSize - (back zs.buffs).1.length) = reply
      obtain ⟨hret, hstores, ⟨taken, htaken, hnext⟩, hroom⟩ := h.turn finish i hreply
      rw [fillLoop_succ turns hreply hret]
      by_cases hfull : buffSize - (back zs.buffs).1.length - reply.out.length = 0
      · -- a full buffer has stored a byte at least
        have hpos := (back_spec h.buffs_le).1
        have hle := hstores.length_le
        have hsame : w ++ taken ++ reply.next_in = w ++ i := by rw [htaken, List.append_assoc]
        have hlen : (turned zs reply).contents.length =
            zs.contents.length + reply.out.length := by
          rw [contents_turned h.buffs_le, List.length_append]
        rw [List.length_append] at hle
        obtain ⟨zs', x', hl, hdecoded, hresult⟩ := ih (i := reply.next_in) (by omega)
          (by rw [hsame, hlen]; omega) hnext
        rw [hsame] at hdecoded hresult
        exact ⟨zs', x', by rw [if_pos hfull, hl], hdecoded, hresult⟩
      · obtain ⟨hresult, x', hdecoded⟩ := hroom hfull
        exact ⟨_, x', by rw [if_neg hfull], hdecoded, hresult⟩

theorem code_decoded (turns : Nat) (finish : Bool) (vs : List (List UInt8)) :
    ∀ {zs : ZlibStream Z.codec} {w x : List UInt8}, Decoded Z zs w x →
      (∀ c, c <+: vs.flatten → (Z.inflated (w ++ c)).length < turns) →
      ∃ zs' x', code turns finish vs zs = .ok ⟨⟩ zs' ∧ Decoded Z zs' (w ++ vs.flatten) x' ∧
        (vs ≠ [] → zs'.contents = Z.inflated (w ++ vs.flatten)) := by
  induction vs with
  | nil =>
      intro zs w x h _
      exact ⟨zs, x, rfl, by rwa [List.flatten_nil, List.append_nil], fun h => absurd rfl h⟩
  | cons v vs ih =>
      intro zs w x h hbound
      rw [List.flatten_cons] at hbound ⊢
      have hv := hbound v (List.prefix_append v _)
      obtain ⟨zs₁, x₁, hl₁, h₁, hresult₁⟩ :=
        fillLoop_decoded (i := v) turns (finish && vs.isEmpty) (by omega) (by omega) h
      obtain ⟨zs₂, x₂, hl₂, h₂, hresult₂⟩ := ih h₁ fun c hc => by
        rw [List.append_assoc]
        exact hbound (v ++ c) ((List.prefix_append_right_inj v).mpr hc)
      rw [List.append_assoc] at h₂ hresult₂
      refine ⟨zs₂, x₂, (bind_ok hl₁).trans hl₂, h₂, fun _ => ?_⟩
      by_cases hvs : vs = []
      · subst hvs
        cases hl₂
        rwa [List.flatten_nil, List.append_nil]
      · exact hresult₂ hvs

theorem session_decoded (turns : Nat) (calls : List (List (List UInt8))) :
    ∀ {zs : ZlibStream Z.codec} {w x : List UInt8}, Decoded Z zs w x →
      (∀ c, c <+: fed calls → (Z.inflated (w ++ c)).length < turns) →
      ∃ zs', session turns calls zs = .ok ⟨⟩ zs' ∧
        zs'.contents = Z.inflated (w ++ fed calls) := by
  induction calls with
  | nil =>
      intro zs w x h hbound
      obtain ⟨zs₁, x₁, hl, -, hresult⟩ := code_decoded turns true [[]] h hbound
      exact ⟨zs₁, hl, hresult (List.cons_ne_nil _ _)⟩
  | cons vs calls ih =>
      intro zs w x h hbound
      have hfed : fed (vs :: calls) = (vs.map availIn).flatten ++ fed calls := by
        rw [fed, List.flatten_cons, List.map_append, List.flatten_append]
        rfl
      rw [hfed] at hbound ⊢
      obtain ⟨zs₁, x₁, hl₁, h₁, -⟩ := code_decoded turns false (vs.map availIn) h fun c hc =>
        hbound c (hc.trans (List.prefix_append _ _))
      obtain ⟨zs₂, hl₂, hresult₂⟩ := ih h₁ fun c hc => by
        rw [List.append_assoc]
        exact hbound _ ((List.prefix_append_right_inj _).mpr hc)
      rw [List.append_assoc] at hresult₂
      exact ⟨zs₂, (bind_ok hl₁).trans hl₂, hresult₂⟩

theorem session_ok (Z : Inflater) (calls : List (List (List UInt8))) :
    ∃ n, ∀ turns, n ≤ turns → ∃ zs, session turns calls (create Z.codec) = .ok ⟨⟩ zs ∧
      zs.contents = Z.inflated (fed calls) := by
  obtain ⟨n, hn⟩ := exists_bound (fun c => (Z.inflated c).length) (fed calls)
  refine ⟨n, fun turns hturns => ?_⟩
  exact session_decoded turns calls (create_decoded Z) fun c hc =>
    Nat.lt_of_lt_of_le (hn c hc) hturns

theorem honest_of_session {turns : Nat} {calls : List (List (List UInt8))}
    (hok : session turns calls (create Z.codec) = .ok ⟨⟩ zs)
    (hresult : zs.contents = Z.inflated (fed calls)) :
    Honest Z turns calls ↔ ∃ x, Z.Whole x (given calls) ∧ Z.inflated (fed calls) = x := by
  constructor
  · intro h
    obtain ⟨x, hwhole, hx⟩ := h zs hok
    exact ⟨x, hwhole, hresult.symm.trans hx⟩
  · rintro ⟨x, hwhole, hx⟩ zs' hok'
    rw [hok] at hok'
    cases hok'
    exact ⟨x, hwhole, hresult.trans hx⟩

/-- Whatever the input, every call reports success. That is right for the inputs that are a
complete stream and of which enough reaches `inflate`, and for no others. -/
theorem honest_iff (Z : Inflater) (calls : List (List (List UInt8))) :
    ∃ n, ∀ turns, n ≤ turns →
      (∃ zs, session turns calls (create Z.codec) = .ok ⟨⟩ zs) ∧
      (Honest Z turns calls ↔ ∃ x, Z.Whole x (given calls) ∧ Z.inflated (fed calls) = x) := by
  obtain ⟨n, hn⟩ := session_ok Z calls
  refine ⟨n, fun turns hturns => ?_⟩
  obtain ⟨zs, hok, hresult⟩ := hn turns hturns
  exact ⟨⟨zs, hok⟩, honest_of_session hok hresult⟩

theorem fed_of_short {calls : List (List (List UInt8))}
    (h : ∀ v ∈ calls.flatten, v.length < 4294967296) : fed calls = given calls := by
  have hid : ∀ v ∈ calls.flatten, availIn v = v := fun v hv => by
    rw [availIn, Nat.mod_eq_of_lt (h v hv), List.take_length]
  rw [fed, List.map_congr_left hid, List.map_id', given]

/-- In pieces shorter than `2 ^ 32` all of the input reaches `inflate`. -/
theorem honest_iff_of_short (Z : Inflater) {calls : List (List (List UInt8))}
    (h : ∀ v ∈ calls.flatten, v.length < 4294967296) :
    ∃ n, ∀ turns, n ≤ turns → (Honest Z turns calls ↔ ∃ x, Z.Whole x (given calls)) := by
  obtain ⟨n, hn⟩ := session_ok Z calls
  refine ⟨n, fun turns hturns => ?_⟩
  obtain ⟨zs, hok, hresult⟩ := hn turns hturns
  rw [honest_of_session hok hresult, fed_of_short h]
  constructor
  · rintro ⟨x, hwhole, -⟩
    exact ⟨x, hwhole⟩
  · rintro ⟨x, hwhole⟩
    exact ⟨x, hwhole, Z.whole hwhole⟩

/-! ## Streams of one stored byte -/

def Z_STREAM_END : Int := 1
def Z_DATA_ERROR : Int := -3
def Z_BUF_ERROR : Int := -5

/-- The head of a last block of deflate with one byte, which is stored as it is. -/
def blockHead : List UInt8 := [1, 1, 0, 254, 255]

def blockByte (w : List UInt8) : List UInt8 :=
  if w.take 5 = blockHead then (w.drop 5).take 1 else []

/-- `inflate` on inputs that begin with such a block, or are cut short in its head. -/
def blockCodec : Codec where
  State := List UInt8 × Nat
  init := ([], 0)
  call σ finish i n :=
    let out := ((blockByte (σ.1 ++ i)).drop σ.2).take n
    let ret :=
      if blockByte (σ.1 ++ i) ≠ [] then Z_STREAM_END
      else if (σ.1 ++ i).isPrefixOf blockHead then if finish then Z_BUF_ERROR else Z_OK
      else Z_DATA_ERROR
    ⟨ret, out, [], (σ.1 ++ i, σ.2 + out.length)⟩

theorem blockByte_append (w i : List UInt8) : blockByte w <+: blockByte (w ++ i) := by
  unfold blockByte
  by_cases hhead : w.take 5 = blockHead
  · have hlen : 5 ≤ w.length := by
      have h := congrArg List.length hhead
      rw [List.length_take] at h
      change min 5 w.length = 5 at h
      omega
    rw [if_pos hhead, List.take_append_of_le_length hlen, if_pos hhead,
      List.drop_append_of_le_length hlen]
    exact (List.prefix_append _ _).take 1
  · rw [if_neg hhead]
    exact List.nil_prefix

def blockInflater : Inflater where
  codec := blockCodec
  Whole x z := x.length = 1 ∧ z = blockHead ++ x
  inflated := blockByte
  Rep σ x y := σ = (x, y.length) ∧ y <+: blockByte x
  whole := by
    rintro x z ⟨hlen, rfl⟩
    exact List.take_of_length_le (Nat.le_of_eq hlen)
  init := ⟨rfl, List.nil_prefix⟩
  ret := by
    intro σ x y finish i n h hn
    simp only [blockCodec]
    split_ifs <;> decide
  out_le := by
    intro σ x y finish i n h hn
    exact List.length_take_le _ _
  stores := by
    rintro σ x y finish i n ⟨rfl, hy⟩ hn
    obtain ⟨t, ht⟩ := hy.trans (blockByte_append x i)
    simp only [blockCodec, ← ht, List.drop_left]
    exact (List.prefix_append_right_inj y).mpr (List.take_prefix n t)
  takes := by
    rintro σ x y finish i n ⟨rfl, hy⟩ hn
    obtain ⟨t, ht⟩ := hy.trans (blockByte_append x i)
    refine ⟨i, (List.append_nil i).symm, ?_, ?_⟩
    · simp only [blockCodec, List.length_append]
    · simp only [blockCodec, ← ht, List.drop_left]
      exact (List.prefix_append_right_inj y).mpr (List.take_prefix n t)
  settled := by
    rintro σ x y finish i n ⟨rfl, hy⟩ hn hroom
    obtain ⟨t, ht⟩ := hy.trans (blockByte_append x i)
    refine ⟨?_, fun taken htaken => .inl rfl⟩
    simp only [blockCodec, ← ht, List.drop_left, List.length_take] at hroom ⊢
    rw [List.take_of_length_le (by omega)]

/-- The block in two pieces. -/
theorem honest_iff_block : ∃ n, ∀ turns, n ≤ turns →
    (∃ zs, session turns [[blockHead], [[104]]] (create blockInflater.codec) = .ok ⟨⟩ zs) ∧
      Honest blockInflater turns [[blockHead], [[104]]] := by
  obtain ⟨n, hn⟩ := honest_iff blockInflater [[blockHead], [[104]]]
  refine ⟨n, fun turns hturns => ?_⟩
  obtain ⟨hok, hiff⟩ := hn turns hturns
  exact ⟨hok, hiff.mpr ⟨[104], ⟨rfl, rfl⟩, by decide⟩⟩

/-- The input ends behind the head of the block: `write` and `flush` report success. -/
theorem truncated_block_accepted :
    session 1 [[blockHead]] (create blockInflater.codec) = .ok ⟨⟩ ⟨(blockHead, 0), [[]]⟩ ∧
      ¬∃ x, blockInflater.Whole x (given [[blockHead]]) := by
  refine ⟨by rfl, ?_⟩
  rintro ⟨x, hlen, hgiven⟩
  have h := congrArg List.length hgiven
  rw [List.length_append, hlen] at h
  exact absurd h (by decide)

end ZlibStream

end CIM
