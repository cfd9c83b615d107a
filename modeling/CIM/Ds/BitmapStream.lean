import CIM.Ds.BitmapBits
import CIM.Ds.BitmapRuns
import CIM.Net.ByteArrayRoundTrip

/-!
# A bitmap in a `ByteArray`

`readFrom` overwrites the bitmap field by field as it reads them, and gives the memory of the
words away before it has read the new ones. What a stream that ends early leaves behind is told by
how far the fields came.
-/
namespace CIM.ds.Bitmap

open Exec CIM.ByteArray

/-- The words in the memory of the host. -/
def bytesOf (ws : List UInt16) : List UInt8 := ws.flatMap fun w => toHost 2 w.toNat

def wordsOf : List UInt8 → List UInt16
  | low :: high :: bs => UInt16.ofNat (ofHost [low, high]) :: wordsOf bs
  | _ => []

def writeTo (b : Bitmap) : ByteArrayM Unit := do
  writeFuint8 (if b.m_compress then 1 else 0)
  writeFuint32 b.m_size
  writeFuint32 (UInt32.ofNat b.m_data.length)
  write (bytesOf b.m_data)

abbrev ReadM := EStateM Fault (Bitmap × ByteArray)

def onArray {α : Type} (r : ByteArrayM α) : ReadM α := fun s =>
  match r s.2 with
  | .ok a ba => .ok a (s.1, ba)
  | .error fault ba => .error fault (s.1, ba)

def assign (f : Bitmap → Bitmap) : ReadM Unit := modify fun s => (f s.1, s.2)

/-- The `try` block. `fresh` is what the new memory holds before it is written. -/
def readFields (fresh : Nat → UInt16) : ReadM Unit := do
  let compress ← onArray readFuint8
  assign fun b => { b with m_compress := compress != 0 }
  let size ← onArray readFuint32
  assign fun b => { b with m_size := size }
  let dataSize ← onArray readFuint32
  assign fun b => { b with m_data := (List.range dataSize.toNat).map fresh }
  let bytes ← onArray (read (dataSize.toNat * 2))
  assign fun b => { b with m_data := wordsOf bytes }

/-- The handler stops every exception; the use of a null node is none. -/
def readFrom (fresh : Nat → UInt16) (b : Bitmap) (ba : ByteArray) :
    Except Fault (Bool × Bitmap × ByteArray) :=
  match readFields fresh (b, ba) with
  | .ok _ s => .ok (true, s)
  | .error (.outOfRange _) s => .ok (false, s)
  | .error .nullNode _ => .error .nullNode

/-- The bit of a bitmap in either representation. -/
def bitOf (b : Bitmap) (idx : UInt32) : Except BitmapFailure Bool :=
  b.uncompress >>= fun u => u.get idx

/-- The size and every bit that could be read are as they were. -/
def Keeps (b b' : Bitmap) : Prop :=
  b'.m_size = b.m_size ∧
    ∀ idx, idx < b.m_size → ∀ v, b.bitOf idx = .ok v → b'.bitOf idx = .ok v

/-! ## The fields in a stream -/

/-- An integer as `readFixed` takes it from its bytes. -/
def number (e : Endian) (bs : List UInt8) : Nat :=
  if hostEndian ≠ e then byteswap bs.length (ofHost bs) else ofHost bs

def compressIn (bs : List UInt8) : Bool := bs.headD 0 != 0

def sizeIn (e : Endian) (bs : List UInt8) : UInt32 :=
  UInt32.ofNat (number e ((bs.drop 1).take 4))

def dataSizeIn (e : Endian) (bs : List UInt8) : UInt32 :=
  UInt32.ofNat (number e ((bs.drop 5).take 4))

/-- Where the words of the bitmap end in the stream. -/
def lengthIn (e : Endian) (bs : List UInt8) : Nat := 9 + (dataSizeIn e bs).toNat * 2

/-- What is returned, and what is left of the bitmap. -/
def outcome (fresh : Nat → UInt16) (e : Endian) (b : Bitmap) (bs : List UInt8) : Bool × Bitmap :=
  if bs.length < 1 then (false, b)
  else if bs.length < 5 then (false, { b with m_compress := compressIn bs })
  else if bs.length < 9 then (false, ⟨compressIn bs, sizeIn e bs, b.m_data⟩)
  else if bs.length < lengthIn e bs then
    (false, ⟨compressIn bs, sizeIn e bs, (List.range (dataSizeIn e bs).toNat).map fresh⟩)
  else
    (true, ⟨compressIn bs, sizeIn e bs,
      wordsOf ((bs.drop 9).take ((dataSizeIn e bs).toNat * 2))⟩)

/-- The words stand for the same bits in the representation `compress`. -/
def ReadsSame (b : Bitmap) (compress : Bool) : Prop :=
  ∀ idx, idx < b.m_size → ∀ v, b.bitOf idx = .ok v →
    bitOf { b with m_compress := compress } idx = .ok v

def Unreadable (b : Bitmap) : Prop := ∀ idx, idx < b.m_size → ∀ v, b.bitOf idx ≠ .ok v

/-- A stream on which `readFrom` does no harm when it returns false: it ends before the first
byte, or behind fields that say nothing new, or the bitmap has no bits to lose. -/
structure Harmless (e : Endian) (b : Bitmap) (bs : List UInt8) : Prop where
  words : 1 ≤ bs.length → bs.length < 9 → ReadsSame b (compressIn bs)
  size : 5 ≤ bs.length → bs.length < lengthIn e bs → sizeIn e bs = b.m_size
  memory : 9 ≤ bs.length → bs.length < lengthIn e bs → Unreadable b

variable {base : Nat} {e : Endian} {ba : ByteArray} {bs : List UInt8} {b : Bitmap}

theorem reading_size (h : Reading base e ba bs) : ba.getReadSize = bs.length := by
  rw [getReadSize, h.unread.dataSize, Nat.add_sub_cancel_left]

theorem read_take (h : Reading base e ba bs) {n : Nat} (hn : n ≤ bs.length) :
    ∃ ba', read n ba = .ok (bs.take n) ba' ∧ Reading base e ba' (bs.drop n) := by
  have hlen : (bs.take n).length = n := List.length_take_of_le hn
  have hr : Reading base e ba (bs.take n ++ bs.drop n) := by rwa [List.take_append_drop]
  obtain ⟨ba', hok, h'⟩ := reads_read (bs.take n) base ba _ hr
  rw [hlen] at hok
  exact ⟨ba', hok, h'⟩

theorem read_ends (h : Reading base e ba bs) {n : Nat} (hn : bs.length < n) :
    read n ba = .error (.outOfRange "not enough len") ba :=
  read_short (by rwa [reading_size h])

theorem readFuint8_head (h : Reading base e ba bs) (hn : 1 ≤ bs.length) :
    ∃ ba', readFuint8 ba = .ok (bs.headD 0) ba' ∧ Reading base e ba' (bs.drop 1) := by
  obtain ⟨ba', hok, h'⟩ := read_take h hn
  refine ⟨ba', ?_, h'⟩
  rw [readFuint8, bind_ok hok, pure_apply]
  cases bs with
  | nil => cases hn
  | cons byte bs => rfl

theorem readFuint32_take (h : Reading base e ba bs) (hn : 4 ≤ bs.length) :
    ∃ ba', readFuint32 ba = .ok (UInt32.ofNat (number e (bs.take 4))) ba' ∧
      Reading base e ba' (bs.drop 4) := by
  obtain ⟨ba', hok, h'⟩ := read_take h hn
  refine ⟨ba', ?_, h'⟩
  have hlen : (bs.take 4).length = 4 := List.length_take_of_le hn
  have hfixed : readFixed 4 ba = .ok (number e (bs.take 4)) ba' := by
    refine (bind_ok hok).trans ?_
    change EStateM.Result.ok _ ba' = _
    rw [h'.endian, number, hlen]
  exact (bind_ok hfixed).trans rfl

theorem readFuint32_ends (h : Reading base e ba bs) (hn : bs.length < 4) :
    readFuint32 ba = .error (.outOfRange "not enough len") ba := by
  have hread := read_ends h hn
  simp only [readFuint32, readFixed, bind_apply, hread]

theorem onArray_ok {α : Type} {r : ByteArrayM α} {a : α} {ba' : ByteArray}
    (h : r ba = .ok a ba') : onArray r (b, ba) = .ok a (b, ba') := by
  simp only [onArray, h]

theorem onArray_error {α : Type} {r : ByteArrayM α} {fault : Fault} {ba' : ByteArray}
    (h : r ba = .error fault ba') : onArray r (b, ba) = .error fault (b, ba') := by
  simp only [onArray, h]

theorem assign_apply (f : Bitmap → Bitmap) : assign f (b, ba) = .ok ⟨⟩ (f b, ba) := rfl

/-- `readFrom` does what the length of the stream says. -/
theorem readFrom_spec (fresh : Nat → UInt16) (b : Bitmap) (h : Reading base e ba bs) : ∃ ba',
    readFrom fresh b ba = .ok ((outcome fresh e b bs).1, (outcome fresh e b bs).2, ba') ∧
      (lengthIn e bs ≤ bs.length → Reading base e ba' (bs.drop (lengthIn e bs))) := by
  unfold outcome readFrom readFields
  have hge : 9 ≤ lengthIn e bs := Nat.le_add_right 9 _
  by_cases h1 : bs.length < 1
  · have hread : readFuint8 ba = .error (.outOfRange "not enough len") ba := by
      simp only [readFuint8, bind_apply, read_ends h h1]
    rw [if_pos h1]
    exact ⟨ba, by simp only [bind_apply, onArray_error hread], fun hle => by omega⟩
  obtain ⟨ba₁, hok₁, hr₁⟩ := readFuint8_head h (by omega)
  rw [if_neg h1]
  have hlen₁ : (bs.drop 1).length = bs.length - 1 := List.length_drop
  by_cases h5 : bs.length < 5
  · have hread := readFuint32_ends hr₁ (by omega)
    rw [if_pos h5]
    refine ⟨ba₁, ?_, fun hle => by omega⟩
    simp only [bind_apply, onArray_ok hok₁, assign_apply, onArray_error hread]
    rfl
  obtain ⟨ba₂, hok₂, hr₂⟩ := readFuint32_take hr₁ (by omega)
  rw [List.drop_drop] at hr₂
  rw [if_neg h5]
  have hlen₂ : (bs.drop (1 + 4)).length = bs.length - 5 := List.length_drop
  by_cases h9 : bs.length < 9
  · have hread := readFuint32_ends hr₂ (by omega)
    rw [if_pos h9]
    refine ⟨ba₂, ?_, fun hle => by omega⟩
    simp only [bind_apply, onArray_ok hok₁, onArray_ok hok₂, assign_apply, onArray_error hread]
    rfl
  obtain ⟨ba₃, hok₃, hr₃⟩ := readFuint32_take hr₂ (by omega)
  rw [List.drop_drop] at hr₃
  rw [if_neg h9]
  have hlen₃ : (bs.drop (1 + 4 + 4)).length = bs.length - 9 := List.length_drop
  have hsize₃ : readFuint32 ba₂ = .ok (dataSizeIn e bs) ba₃ := hok₃
  by_cases hn : bs.length < lengthIn e bs
  · have hread : read ((dataSizeIn e bs).toNat * 2) ba₃ =
        .error (.outOfRange "not enough len") ba₃ :=
      read_ends hr₃ (by unfold lengthIn at hn; omega)
    rw [if_pos hn]
    refine ⟨ba₃, ?_, fun hle => absurd hle (Nat.not_le.mpr hn)⟩
    simp only [bind_apply, onArray_ok hok₁, onArray_ok hok₂, onArray_ok hsize₃, assign_apply,
      onArray_error hread]
    rfl
  · have hle : (dataSizeIn e bs).toNat * 2 ≤ (bs.drop (1 + 4 + 4)).length := by
      unfold lengthIn at hn
      omega
    obtain ⟨ba₄, hok₄, hr₄⟩ := read_take hr₃ hle
    rw [List.drop_drop] at hr₄
    rw [if_neg hn]
    refine ⟨ba₄, ?_, fun _ => hr₄⟩
    simp only [bind_apply, onArray_ok hok₁, onArray_ok hok₂, onArray_ok hsize₃, assign_apply,
      onArray_ok hok₄]
    rfl

/-! ## The round trip -/

theorem wordsOf_bytesOf (ws : List UInt16) : wordsOf (bytesOf ws) = ws := by
  induction ws with
  | nil => rfl
  | cons w ws ih =>
      have hw := ofHost_toHost (k := 2) (show w.toNat < 256 ^ 2 from w.toNat_lt)
      have htwo : toHost 2 w.toNat =
          [UInt8.ofNat (w.toNat / 256 ^ 0), UInt8.ofNat (w.toNat / 256 ^ 1)] := rfl
      have hbytes : bytesOf (w :: ws) = toHost 2 w.toNat ++ bytesOf ws := List.flatMap_cons
      rw [hbytes, htwo]
      rw [htwo] at hw
      change UInt16.ofNat (ofHost [_, _]) :: wordsOf (bytesOf ws) = w :: ws
      rw [hw, ih, UInt16.ofNat_toNat]

theorem length_bytesOf (ws : List UInt16) : (bytesOf ws).length = ws.length * 2 := by
  induction ws with
  | nil => rfl
  | cons w ws ih =>
      have hbytes : bytesOf (w :: ws) = toHost 2 w.toNat ++ bytesOf ws := List.flatMap_cons
      rw [hbytes, List.length_append, length_toHost, ih, List.length_cons]
      omega

theorem number_fixedBytes {n : Nat} (hn : n < 256 ^ 4) : number e (fixedBytes e 4 n) = n := by
  have hlen : (fixedBytes e 4 n).length = 4 := length_toHost _ _
  rw [number, hlen, fixedBytes]
  by_cases he : hostEndian ≠ e
  · rw [if_pos he, if_pos he, ofHost_toHost (byteswap_lt 4 n), byteswap_byteswap hn]
  · rw [if_neg he, if_neg he, ofHost_toHost hn]

/-- A bitmap as `writeTo` writes it. -/
def serialized (e : Endian) (b : Bitmap) : List UInt8 :=
  [if b.m_compress then 1 else 0] ++ (fixedBytes e 4 b.m_size.toNat ++
    (fixedBytes e 4 b.m_data.length ++ bytesOf b.m_data))

theorem writes_writeTo (hb : b.m_data.length < 4294967296) :
    Writes e (writeTo b) (serialized e b) := by
  have hlen : (UInt32.ofNat b.m_data.length).toNat = b.m_data.length := by
    rw [UInt32.toNat_ofNat']
    omega
  have h : Writes e (writeTo b) ([if b.m_compress then 1 else 0] ++
      (fixedBytes e 4 b.m_size.toNat ++
        (fixedBytes e 4 (UInt32.ofNat b.m_data.length).toNat ++ bytesOf b.m_data))) :=
    (writes_write _).bind ((writes_fixed _ _).bind ((writes_fixed _ _).bind (writes_write _)))
  rwa [hlen] at h

theorem outcome_serialized (fresh : Nat → UInt16) (c : Bitmap) (rest : List UInt8)
    (hb : b.m_data.length < 4294967296) :
    outcome fresh e c (serialized e b ++ rest) = (true, b) ∧
      lengthIn e (serialized e b ++ rest) = (serialized e b).length := by
  have hsize : (fixedBytes e 4 b.m_size.toNat).length = 4 := length_toHost _ _
  have hdata : (fixedBytes e 4 b.m_data.length).length = 4 := length_toHost _ _
  have hbytes := length_bytesOf b.m_data
  have hstream : serialized e b ++ rest = (if b.m_compress then 1 else 0) ::
      (fixedBytes e 4 b.m_size.toNat ++
        (fixedBytes e 4 b.m_data.length ++ (bytesOf b.m_data ++ rest))) := by
    simp only [serialized, List.cons_append, List.nil_append, List.append_assoc]
  have hfive : (serialized e b ++ rest).drop 5 =
      fixedBytes e 4 b.m_data.length ++ (bytesOf b.m_data ++ rest) := by
    rw [hstream, List.drop_succ_cons, List.drop_left' hsize]
  have hnine : (serialized e b ++ rest).drop 9 = bytesOf b.m_data ++ rest := by
    have h := congrArg (List.drop 4) hfive
    rwa [List.drop_drop, List.drop_left' hdata] at h
  have hcompress : compressIn (serialized e b ++ rest) = b.m_compress := by
    rw [hstream, compressIn, List.headD_cons]
    cases b.m_compress <;> rfl
  have hsizeIn : sizeIn e (serialized e b ++ rest) = b.m_size := by
    have hlt : b.m_size.toNat < 256 ^ 4 := b.m_size.toNat_lt
    rw [sizeIn, hstream, List.drop_succ_cons, List.drop_zero, List.take_left' hsize,
      number_fixedBytes hlt, UInt32.ofNat_toNat]
  have hdataIn : (dataSizeIn e (serialized e b ++ rest)).toNat = b.m_data.length := by
    rw [dataSizeIn, hfive, List.take_left' hdata, number_fixedBytes hb, UInt32.toNat_ofNat']
    omega
  have hlength : lengthIn e (serialized e b ++ rest) = (serialized e b).length := by
    rw [lengthIn, hdataIn]
    simp only [serialized, List.length_append, List.length_singleton, hsize, hdata, hbytes]
    omega
  have hfits : lengthIn e (serialized e b ++ rest) ≤ (serialized e b ++ rest).length := by
    rw [hlength, List.length_append]
    omega
  have hge : 9 ≤ lengthIn e (serialized e b ++ rest) := Nat.le_add_right 9 _
  refine ⟨?_, hlength⟩
  rw [outcome, if_neg (by omega), if_neg (by omega), if_neg (by omega), if_neg (by omega),
    hcompress, hsizeIn, hdataIn, hnine, ← hbytes, List.take_left, wordsOf_bytesOf]

/-! ## The streams that end early -/

theorem not_keeps_uniform (n : Nat) (size : UInt32) {idx : UInt32} (hidx : idx < b.m_size)
    {v : Bool} (hv : b.bitOf idx = .ok v) :
    ¬Keeps b ⟨false, size, (List.range n).map fun _ => uniform (!v)⟩ := by
  intro hk
  have hget : get ⟨false, size, (List.range n).map fun _ => uniform (!v)⟩ idx = .ok v :=
    hk.2 idx hidx v hv
  by_cases hin : idx.toNat / 14 < ((List.range n).map fun _ => uniform (!v)).length
  · have hplace : idx.toNat % 14 < 14 := Nat.mod_lt _ (by decide)
    have hbit : bit ((List.range n).map fun _ => uniform (!v)) idx.toNat = !v := by
      rw [bit, List.getD_eq_getElem _ _ hin, List.getElem_map, bitAt_uniform _ _ hplace]
    rw [get_eq_bit hin, hbit] at hget
    cases v <;> cases hget
  · have hnone : ((List.range n).map fun _ => uniform (!v))[idx.toNat / VALUE_SIZE]? = none :=
      List.getElem?_eq_none (Nat.le_of_not_lt hin)
    simp only [get, hnone] at hget
    cases hget

/-- A run of one bit, behind which all is 0: it is no number of whole words. -/
theorem bitOf_short_run (n : Nat) (size idx : UInt32) :
    bitOf ⟨true, size, (List.range (n + 1)).map fun i => if i = 0 then 0xC001 else 0⟩ idx =
      .error .assertion := by
  have hdata : (List.range (n + 1)).map (fun i => if i = 0 then (0xC001 : UInt16) else 0) =
      0xC001 :: ([] ++ List.replicate n 0) := by
    rw [List.range_succ_eq_map, List.map_cons, List.map_map, List.nil_append]
    congr 1
    rw [List.eq_replicate_iff]
    refine ⟨by rw [List.length_map, List.length_range], fun w hw => ?_⟩
    obtain ⟨i, -, rfl⟩ := List.mem_map.mp hw
    rfl
  have hends : Ends true (List.replicate n 0) := by
    cases n with
    | zero => exact ends_nil
    | succ n => exact ends_literal rfl
  have hrun : segments (0xC001 :: ([] ++ List.replicate n 0)) =
      .run true 0xC001 [] :: segments (List.replicate n 0) :=
    segments_run rfl (fun _ hw => by cases hw) hends
  rw [hdata]
  change (replay _ _ (segments (0xC001 :: ([] ++ List.replicate n 0))) _).map _ >>= _ = _
  rw [hrun]
  rfl

/-- What is left in the new memory can be any words, and so any bits: all those that differ, or a
run that no bitmap has. -/
theorem not_keeps_fresh (compress : Bool) {n : Nat} (hn : 0 < n) (size : UInt32) {idx : UInt32}
    (hidx : idx < b.m_size) {v : Bool} (hv : b.bitOf idx = .ok v) :
    ∃ fresh, ¬Keeps b ⟨compress, size, (List.range n).map fresh⟩ := by
  cases compress with
  | false => exact ⟨fun _ => uniform (!v), not_keeps_uniform n size hidx hv⟩
  | true =>
      obtain ⟨m, rfl⟩ := Nat.exists_eq_succ_of_ne_zero (Nat.ne_of_gt hn)
      refine ⟨fun i => if i = 0 then 0xC001 else 0, fun hk => ?_⟩
      have hbit := hk.2 idx hidx v hv
      rw [bitOf_short_run] at hbit
      cases hbit

theorem outcome_keeps_iff :
    (∀ fresh, (outcome fresh e b bs).1 = false → Keeps b (outcome fresh e b bs).2) ↔
      Harmless e b bs := by
  have hge : 9 ≤ lengthIn e bs := Nat.le_add_right 9 _
  by_cases h1 : bs.length < 1
  · simp only [outcome, if_pos h1]
    exact ⟨fun _ => ⟨fun _ _ => by omega, fun _ _ => by omega, fun _ _ => by omega⟩,
      fun _ _ _ => ⟨rfl, fun _ _ _ hv => hv⟩⟩
  by_cases h5 : bs.length < 5
  · simp only [outcome, if_neg h1, if_pos h5]
    constructor
    · intro h
      exact ⟨fun _ _ => (h (fun _ => 0) trivial).2, fun _ _ => by omega, fun _ _ => by omega⟩
    · intro h fresh _
      exact ⟨rfl, h.words (by omega) (by omega)⟩
  by_cases h9 : bs.length < 9
  · simp only [outcome, if_neg h1, if_neg h5, if_pos h9]
    constructor
    · intro h
      obtain ⟨hsize, hbits⟩ := h (fun _ => 0) trivial
      have hsize : sizeIn e bs = b.m_size := hsize
      refine ⟨fun _ _ => ?_, fun _ _ => hsize, fun _ _ => by omega⟩
      rw [hsize] at hbits
      exact hbits
    · intro h fresh _
      rw [h.size (by omega) (by omega)]
      exact ⟨rfl, h.words (by omega) h9⟩
  by_cases hn : bs.length < lengthIn e bs
  · simp only [outcome, if_neg h1, if_neg h5, if_neg h9, if_pos hn]
    constructor
    · intro h
      refine ⟨fun _ _ => by omega, fun _ _ => (h (fun _ => 0) trivial).1, ?_⟩
      intro _ _ idx hidx v hv
      have hpos : 0 < (dataSizeIn e bs).toNat := by
        unfold lengthIn at hn
        omega
      obtain ⟨fresh, hlost⟩ := not_keeps_fresh (compressIn bs) hpos (sizeIn e bs) hidx hv
      exact hlost (h fresh trivial)
    · intro h fresh _
      exact ⟨h.size (by omega) hn,
        fun idx hidx v hv => absurd hv (h.memory (by omega) hn idx hidx v)⟩
  · simp only [outcome, if_neg h1, if_neg h5, if_neg h9, if_neg hn]
    exact ⟨fun _ => ⟨fun _ _ => by omega, fun _ _ => by omega, fun _ _ => by omega⟩,
      fun _ _ h => by cases h⟩

theorem harmless_iff (h : Reading base e ba bs) :
    (∀ fresh b' ba', readFrom fresh b ba = .ok (false, b', ba') → Keeps b b') ↔
      Harmless e b bs := by
  refine Iff.trans ?_ outcome_keeps_iff
  constructor
  · intro hall fresh hfalse
    obtain ⟨ba', hread, -⟩ := readFrom_spec fresh b h
    rw [hfalse] at hread
    exact hall fresh _ ba' hread
  · intro hall fresh b' ba' hok
    obtain ⟨ba₁, hread, -⟩ := readFrom_spec fresh b h
    rw [hread] at hok
    obtain ⟨hfalse, hleft⟩ := Prod.mk.inj (Except.ok.inj hok)
    obtain ⟨rfl, -⟩ := Prod.mk.inj hleft
    exact hall fresh hfalse

/-- Whatever bitmap receives them, the bytes of `writeTo` are read back as the bitmap they were
written from. -/
def Persists (e : Endian) (b : Bitmap) : Prop :=
  ∃ bs, Writes e (writeTo b) bs ∧
    ∀ fresh c base ba rest, Reading base e ba (bs ++ rest) →
      ∃ ba', readFrom fresh c ba = .ok (true, b, ba') ∧ Reading base e ba' rest

theorem persists (hb : b.m_data.length < 4294967296) : Persists e b := by
  refine ⟨serialized e b, writes_writeTo hb, fun fresh c base ba rest h => ?_⟩
  obtain ⟨hout, hlength⟩ := outcome_serialized (e := e) fresh c rest hb
  obtain ⟨ba', hok, hrest⟩ := readFrom_spec fresh c h
  rw [hout] at hok
  rw [hlength, List.drop_left] at hrest
  exact ⟨ba', hok, hrest (by rw [List.length_append]; omega)⟩

/-- The round trip never fails; a read that fails keeps the bitmap just for the streams that do
no harm. -/
theorem persists_keeps_iff (hb : b.m_data.length < 4294967296) (h : Reading base e ba bs) :
    Persists e b ∧
      ((∀ fresh b' ba', readFrom fresh b ba = .ok (false, b', ba') → Keeps b b') ↔
        Harmless e b bs) :=
  ⟨persists hb, harmless_iff h⟩

theorem exists_reading (e : Endian) (bs : List UInt8) : ∃ ba, Reading 1 e ba bs := by
  obtain ⟨ba, -, hw⟩ := writes_write bs 1 _ [] (new_writing (Nat.le_refl 1) (fun _ _ => 0) e)
  obtain ⟨ba', -, hr⟩ := hw.rewind
  exact ⟨ba', hr⟩

/-- The first byte alone says again that the words are not compressed. -/
theorem persists_keeps_first_byte : ∃ ba, Reading 1 .big ba [0] ∧
    Persists .big ⟨false, 14, [5]⟩ ∧
      ∀ fresh b' ba', readFrom fresh ⟨false, 14, [5]⟩ ba = .ok (false, b', ba') →
        Keeps ⟨false, 14, [5]⟩ b' := by
  obtain ⟨ba, h⟩ := exists_reading .big [0]
  obtain ⟨hpersists, hkeeps⟩ := persists_keeps_iff (b := ⟨false, 14, [5]⟩) (by decide) h
  refine ⟨ba, h, hpersists, hkeeps.mpr ⟨fun _ _ _ _ _ hv => hv, ?_, ?_⟩⟩
  · intro hlen
    cases hlen with
    | step hle => cases hle
  · intro hlen
    cases hlen with
    | step hle => cases hle

/-- The stream ends in `m_dataSize`: the size is the new one when false is returned. -/
theorem readFrom_cut_short : ∃ ba ba', Reading 1 .big ba [0, 0, 0, 0, 28] ∧
    readFrom (fun _ => 0) ⟨false, 14, [5]⟩ ba = .ok (false, ⟨false, 28, [5]⟩, ba') ∧
      ¬Keeps ⟨false, 14, [5]⟩ ⟨false, 28, [5]⟩ := by
  obtain ⟨ba, h⟩ := exists_reading .big [0, 0, 0, 0, 28]
  obtain ⟨ba', hok, -⟩ := readFrom_spec (fun _ => 0) ⟨false, 14, [5]⟩ h
  have hout : outcome (fun _ => 0) .big ⟨false, 14, [5]⟩ [0, 0, 0, 0, 28] =
      (false, ⟨false, 28, [5]⟩) := by decide
  rw [hout] at hok
  exact ⟨ba, ba', h, hok, fun hk => absurd hk.1 (by decide)⟩

end CIM.ds.Bitmap
