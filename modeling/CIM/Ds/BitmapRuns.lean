import Mathlib.Logic.Function.Basic
import CIM.Ds.BitmapRoundTrip

/-!
# The bitmaps a program can make

Construction and the operators keep a bitmap uncompressed, with a word for every fourteen bits of
its size; what they do to the bits above the fourteen decides whether it can be compressed.
-/
namespace CIM.ds

open Transition

/-- The operators take the other bitmap as it is, or what `compress` made of it. -/
inductive BitmapOp
  | create (i : Nat) (size : UInt32) (dflt : UInt8)
  | copy (i j : Nat)
  | set (i : Nat) (idx : UInt32) (v : Bool)
  | set_range (i : Nat) (start size : UInt32) (v : Bool)
  | and_assign (i j : Nat) (compressed : Bool)
  | or_assign (i j : Nat) (compressed : Bool)
  | not (i : Nat)
  | resize (i : Nat) (size : UInt32) (v : Bool)

/-- The bitmaps by the names they have in the program. -/
abbrev Bitmaps := Nat → Option Bitmap

namespace Bitmaps

def find (s : Bitmaps) (i : Nat) : Except BitmapFailure Bitmap :=
  match s i with
  | some b => .ok b
  | none => .error .undefined

def put (s : Bitmaps) (i : Nat) (r : Except BitmapFailure Bitmap) :
    Except BitmapFailure Bitmaps :=
  r.map fun b => Function.update s i (some b)

def operand (s : Bitmaps) (j : Nat) (compressed : Bool) : Except BitmapFailure Bitmap :=
  (s.find j).map fun b => if compressed then b.compress else b

def apply (s : Bitmaps) : BitmapOp → Except BitmapFailure Bitmaps
  | .create i size dflt => s.put i (.ok (Bitmap.create size dflt))
  | .copy i j => s.put i (s.find j)
  | .set i idx v => s.put i (s.find i >>= fun b => b.set idx v)
  | .set_range i start size v =>
      s.put i (s.find i >>= fun b =>
        (Bitmap.setRange b.m_data start.toNat size.toNat v).map fun data =>
          { b with m_data := data })
  | .and_assign i j compressed =>
      s.put i (s.operand j compressed >>= fun b => s.find i >>= fun a => a.and_assign b)
  | .or_assign i j compressed =>
      s.put i (s.operand j compressed >>= fun b => s.find i >>= fun a => a.or_assign b)
  | .not i => s.put i ((s.find i).map Bitmap.not)
  | .resize i size v => s.put i (s.find i >>= fun b => b.resize size v)

end Bitmaps

/-- An exception leaves every bitmap as it was; what is undefined does not go on. -/
def bitmaps : System Bitmaps BitmapOp where
  init s := s = fun _ => none
  step s op s' :=
    s.apply op = .ok s' ∨ ∃ what, s.apply op = .error (.logic_error what) ∧ s' = s

namespace Bitmap

variable {a b b' : Bitmap} {w : UInt16} {data data' : List UInt16}

/-- An uncompressed bitmap has a word for every fourteen bits. -/
structure Plain (b : Bitmap) : Prop where
  uncompressed : b.m_compress = false
  length : b.m_data.length = dataSize b.m_size

/-- No word whose bits differ looks like a run, and no run ends above `2 ^ 32`. -/
structure Compressible (b : Bitmap) : Prop where
  clean : ∀ w ∈ b.m_data, Clean w
  fits : VALUE_SIZE * b.m_data.length < 4294967296 ∨ ¬EndsInRun (b.m_data.map bits)

/-! ## Compressing one bitmap -/

theorem Plain.uncompress_compress (h : Plain b) (hc : Compressible b) :
    b.compress.uncompress = .ok ⟨false, b.m_size, b.m_data.map bits⟩ := by
  have hzeros : (create b.m_size 0).m_data = List.replicate b.m_data.length 0 := by
    rw [h.length]
    rfl
  have hfit : Fits ([] : List UInt16).length
      (List.replicate 0 (uniform false) ++ b.m_data.map bits) := by
    have hsize : 14 * b.m_data.length < 4294967310 := by
      have hlt := b.m_size.toNat_lt
      have hlen : b.m_data.length = (b.m_size.toNat + 13) / 14 := h.length
      omega
    constructor
    · change 14 * (0 + (b.m_data.map bits).length) < 4294967310
      rw [Nat.zero_add, List.length_map]
      exact hsize
    · change 14 * (0 + (b.m_data.map bits).length) < 4294967296 ∨ _
      rw [Nat.zero_add, List.length_map]
      exact hc.fits
  have hread := readBack_compressLoop hc.clean hfit
  rw [Nat.zero_add] at hread
  change (readBack (compressLoop false 0 b.m_data) (0, List.replicate b.m_data.length 0)).map
    Prod.snd = .ok (b.m_data.map bits) at hread
  have hcompress : b.compress = ⟨true, b.m_size, compressLoop false 0 b.m_data⟩ := by
    unfold compress
    rw [h.uncompressed]
    rfl
  rw [hcompress]
  change (readBack (compressLoop false 0 b.m_data) (0, (create b.m_size 0).m_data)).map _ = _
  rw [hzeros]
  cases hr : readBack (compressLoop false 0 b.m_data) (0, List.replicate b.m_data.length 0) with
  | error e =>
      rw [hr] at hread
      cases hread
  | ok r =>
      rw [hr] at hread
      have hdata : r.2 = b.m_data.map bits := Except.ok.inj hread
      change Except.ok (Bitmap.mk false b.m_size r.2) = _
      rw [hdata]

/-- Below the size a bit is the same with and without the bits above the fourteen. -/
theorem Plain.get_bits (h : Plain b) {idx : UInt32} (hidx : idx < b.m_size) :
    ∃ v, b.get idx = .ok v ∧ Bitmap.get ⟨false, b.m_size, b.m_data.map bits⟩ idx = .ok v := by
  have hlt : idx.toNat / VALUE_SIZE < b.m_data.length := by
    have hlen : b.m_data.length = (b.m_size.toNat + 13) / 14 := h.length
    have hi : idx.toNat < b.m_size.toNat := hidx
    change idx.toNat / 14 < b.m_data.length
    omega
  have hword : b.m_data[idx.toNat / VALUE_SIZE]? = some b.m_data[idx.toNat / VALUE_SIZE] :=
    List.getElem?_eq_getElem hlt
  have hmask := bits_and_pos b.m_data[idx.toNat / VALUE_SIZE]
    (Nat.mod_lt idx.toNat (by decide : 0 < VALUE_SIZE))
  refine ⟨b.m_data[idx.toNat / VALUE_SIZE] &&& POS (idx.toNat % VALUE_SIZE) != 0, ?_, ?_⟩
  · unfold get
    rw [hword]
  · unfold get
    rw [List.getElem?_map, hword]
    change Except.ok (bits b.m_data[idx.toNat / VALUE_SIZE] &&& POS (idx.toNat % VALUE_SIZE) != 0)
      = _
    rw [hmask]

/-! ## What the operations keep -/

theorem modifyAt_length {i : Nat} {f : UInt16 → UInt16} (h : modifyAt data i f = .ok data') :
    data'.length = data.length := by
  unfold modifyAt at h
  split at h
  · cases h
    exact List.length_modify _ _ _
  · cases h

theorem foldlM_ok {σ α : Type} {f : σ → α → Except BitmapFailure σ} {P : σ → Prop}
    (hf : ∀ s x s', P s → f s x = .ok s' → P s') {l : List α} {s s' : σ} (hs : P s)
    (h : l.foldlM f s = .ok s') : P s' := by
  induction l generalizing s with
  | nil =>
      cases h
      exact hs
  | cons x l ih =>
      rw [List.foldlM_cons] at h
      cases hx : f s x with
      | error e =>
          rw [hx] at h
          cases h
      | ok t =>
          rw [hx] at h
          exact ih (hf s x t hs hx) h

theorem setRange_length {start size : Nat} {v : Bool} (h : setRange data start size v = .ok data') :
    data'.length = data.length := by
  unfold setRange at h
  split at h
  · cases h
    rfl
  · split at h
    · cases h
    · exact foldlM_ok (P := fun d => d.length = data.length)
        (fun d i d' hd hm => (modifyAt_length hm).trans hd) rfl h

theorem of_bind_ok {ε α β : Type} {x : Except ε α} {f : α → Except ε β} {r : β}
    (h : x >>= f = .ok r) : ∃ y, x = .ok y ∧ f y = .ok r := by
  cases x with
  | error e => cases h
  | ok y => exact ⟨y, rfl, h⟩

theorem of_map_ok {ε α β : Type} {x : Except ε α} {f : α → β} {r : β} (h : x.map f = .ok r) :
    ∃ y, x = .ok y ∧ f y = r := by
  cases x with
  | error e => cases h
  | ok y => exact ⟨y, rfl, Except.ok.inj h⟩

theorem replayStep_length {f : Bool → Bool} {g : UInt16 → UInt16 → UInt16} {p p' : Nat}
    {seg : Segment} (h : replayStep f g (p, data) seg = .ok (p', data')) :
    data'.length = data.length := by
  cases seg with
  | literal w =>
      obtain ⟨d, hm, hd⟩ := of_bind_ok h
      cases hd
      exact modifyAt_length hm
  | run v cur more =>
      obtain ⟨count, -, h⟩ := of_bind_ok h
      change (if f v then setRange data p count v >>= _ else _) = _ at h
      split at h
      · obtain ⟨d, hm, hd⟩ := of_bind_ok h
        cases hd
        exact setRange_length hm
      · cases h
        rfl

theorem replay_length {f : Bool → Bool} {g : UInt16 → UInt16 → UInt16} {segs : List Segment}
    {p : Nat} {r : Nat × List UInt16} (h : replay f g segs (p, data) = .ok r) :
    r.2.length = data.length :=
  foldlM_ok (P := fun r : Nat × List UInt16 => r.2.length = data.length)
    (fun _ _ _ hr hstep => (replayStep_length hstep).trans hr) rfl h

namespace Plain

theorem create (size : UInt32) (dflt : UInt8) : Plain (Bitmap.create size dflt) :=
  ⟨rfl, List.length_replicate⟩

theorem not_compressed (h : Plain b) : ¬b.m_compress = true := by
  rw [h.uncompressed]
  exact Bool.false_ne_true

theorem congr (h : Plain a) (hlen : data.length = a.m_data.length) :
    Plain { a with m_data := data } :=
  ⟨h.uncompressed, hlen.trans h.length⟩

theorem set {idx : UInt32} {v : Bool} (h : Plain b) (hset : b.set idx v = .ok b') : Plain b' := by
  obtain ⟨data, hm, rfl⟩ := of_map_ok hset
  exact h.congr (modifyAt_length hm)

/-- The other bitmap is uncompressed or a compressed one. -/
theorem combineWith {name : String} {f : Bool → Bool} {g : UInt16 → UInt16 → UInt16} {r : Bitmap}
    (ha : Plain a) (hb : b.m_compress = true ∨ Plain b)
    (h : Bitmap.combineWith name f g a b = .ok r) : Plain r := by
  unfold Bitmap.combineWith at h
  split at h
  · cases h
  · rename_i hsize
    rw [if_neg ha.not_compressed] at h
    split at h
    · obtain ⟨at_, hr, rfl⟩ := of_map_ok h
      exact ha.congr (replay_length hr)
    · rename_i hcompress
      cases h
      have hlen := (hb.resolve_left hcompress).length
      rw [← not_not.mp hsize, ← ha.length] at hlen
      apply ha.congr
      rw [List.length_zipWith, hlen, Nat.min_self]

theorem not (h : Plain b) : Plain b.not := by
  unfold Bitmap.not
  rw [if_neg h.not_compressed]
  exact h.congr (List.length_map _)

theorem resize {size : UInt32} {v : Bool} (h : Plain b) (hr : b.resize size v = .ok b') :
    Plain b' := by
  unfold Bitmap.resize at hr
  rw [if_neg h.not_compressed] at hr
  split at hr
  · rename_i hlt
    split at hr
    · cases hr
    · obtain ⟨data, hm, rfl⟩ := of_map_ok hr
      refine ⟨rfl, (modifyAt_length hm).trans ?_⟩
      rw [List.length_append, List.length_replicate]
      exact Nat.add_sub_cancel' (Nat.le_of_lt hlt)
  · rename_i hle
    cases hr
    refine ⟨rfl, ?_⟩
    rw [List.length_take]
    exact Nat.min_eq_left (Nat.not_lt.mp hle)

end Plain

/-! ## Runs -/

/-- Every bitmap there is is uncompressed. -/
def AllPlain (s : Bitmaps) : Prop := ∀ i b, s i = some b → Plain b

variable {s s' : Bitmaps} {i j : Nat}

theorem AllPlain.find (h : AllPlain s) (hf : s.find i = .ok b) : Plain b := by
  unfold Bitmaps.find at hf
  split at hf
  · rename_i b₁ hb
    cases hf
    exact h i b hb
  · cases hf

theorem AllPlain.operand {compressed : Bool} (h : AllPlain s)
    (ho : s.operand j compressed = .ok b) : b.m_compress = true ∨ Plain b := by
  obtain ⟨b₁, hf, rfl⟩ := of_map_ok ho
  have hplain := h.find hf
  cases compressed with
  | false => exact .inr hplain
  | true =>
      left
      change b₁.compress.m_compress = true
      unfold compress
      rw [hplain.uncompressed]
      rfl

theorem AllPlain.put {r : Except BitmapFailure Bitmap} (h : AllPlain s)
    (hr : ∀ b, r = .ok b → Plain b) (hput : s.put i r = .ok s') : AllPlain s' := by
  obtain ⟨b, hb, rfl⟩ := of_map_ok hput
  intro j b' hj
  by_cases hij : j = i
  · rw [hij, Function.update_self] at hj
    cases hj
    exact hr b hb
  · rw [Function.update_of_ne hij] at hj
    exact h j b' hj

theorem AllPlain.apply {op : BitmapOp} (h : AllPlain s) (hop : s.apply op = .ok s') :
    AllPlain s' := by
  cases op with
  | create i size dflt =>
      refine h.put (fun b hb => ?_) hop
      cases hb
      exact .create size dflt
  | copy i j => exact h.put (fun b hb => h.find hb) hop
  | set i idx v =>
      refine h.put (fun b hb => ?_) hop
      obtain ⟨b₁, hf, hset⟩ := of_bind_ok hb
      exact (h.find hf).set hset
  | set_range i start size v =>
      refine h.put (fun b hb => ?_) hop
      obtain ⟨b₁, hf, hset⟩ := of_bind_ok hb
      obtain ⟨data, hm, rfl⟩ := of_map_ok hset
      exact (h.find hf).congr (setRange_length hm)
  | and_assign i j compressed =>
      refine h.put (fun r hr => ?_) hop
      obtain ⟨b, ho, hr⟩ := of_bind_ok hr
      obtain ⟨a, hf, hr⟩ := of_bind_ok hr
      exact (h.find hf).combineWith (h.operand ho) hr
  | or_assign i j compressed =>
      refine h.put (fun r hr => ?_) hop
      obtain ⟨b, ho, hr⟩ := of_bind_ok hr
      obtain ⟨a, hf, hr⟩ := of_bind_ok hr
      exact (h.find hf).combineWith (h.operand ho) hr
  | not i =>
      refine h.put (fun b hb => ?_) hop
      obtain ⟨b₁, hf, rfl⟩ := of_map_ok hb
      exact (h.find hf).not
  | resize i size v =>
      refine h.put (fun b hb => ?_) hop
      obtain ⟨b₁, hf, hr⟩ := of_bind_ok hb
      exact (h.find hf).resize hr

theorem run_plain {ops : List BitmapOp} (h : bitmaps.Run ops s) : AllPlain s := by
  refine h.invariant (I := AllPlain) ?_ ?_
  · rintro s rfl i b hb
    cases hb
  · intro s op s' hs hstep
    rcases hstep with hok | ⟨what, -, rfl⟩
    · exact hs.apply hok
    · exact hs

/-- Every bitmap that can be made and is compressible comes back with its size and its bits. -/
theorem run_lossless {ops : List BitmapOp} (h : bitmaps.Run ops s) (hb : s i = some b)
    (hc : Compressible b) :
    ∃ u, b.compress.uncompress = .ok u ∧ u.m_size = b.m_size ∧
      ∀ idx, idx < b.m_size → ∃ v, b.get idx = .ok v ∧ u.get idx = .ok v := by
  have hplain := run_plain h i b hb
  refine ⟨_, hplain.uncompress_compress hc, rfl, ?_⟩
  intro idx hidx
  exact hplain.get_bits hidx

theorem run_lossless_two_bits :
    let a : Bitmap := ⟨false, 30, [32, 0, 1]⟩
    ∃ u, a.compress.uncompress = .ok u ∧ u.m_size = 30 ∧
      ∀ idx, idx < 30 → ∃ v, a.get idx = .ok v ∧ u.get idx = .ok v := by
  have h₀ : bitmaps.Run [] (fun _ => none) := .start rfl
  have h₁ := h₀.snoc (e := .create 0 30 0) (.inl rfl)
  have h₂ := h₁.snoc (e := .set 0 5 true) (.inl rfl)
  have h₃ := h₂.snoc (e := .set 0 28 true) (.inl rfl)
  have hraw : ∀ w ∈ [32, 0, 1], isRun w = false :=
    List.forall_mem_cons.mpr
      ⟨rfl, List.forall_mem_cons.mpr ⟨rfl, List.forall_mem_singleton.mpr rfl⟩⟩
  have hc : Compressible ⟨false, 30, [32, 0, 1]⟩ :=
    ⟨fun w hw => .inr (hraw w hw), .inl (by decide)⟩
  exact run_lossless (i := 0) h₃ rfl hc

/-- After the bit at zero is cleared in a bitmap made of ones, its first word is read as a run
of a length that is no multiple of fourteen. -/
theorem compress_loses_set_bits :
    ∃ (s : Bitmaps) (b : Bitmap),
      bitmaps.Run [.create 0 28 255, .set 0 0 false] s ∧ s 0 = some b ∧
        b.get 1 = .ok true ∧ b.compress.uncompress = .error .assertion := by
  have h₀ : bitmaps.Run [] (fun _ => none) := .start rfl
  have h₁ := h₀.snoc (e := .create 0 28 255) (.inl rfl)
  have h₂ := h₁.snoc (e := .set 0 0 false) (.inl rfl)
  refine ⟨_, ⟨false, 28, [0xfffe, 0xffff]⟩, h₂, rfl, rfl, ?_⟩
  have hcompress : compress ⟨false, 28, [0xfffe, 0xffff]⟩ = ⟨true, 28, [0xfffe, 0x3fff]⟩ := rfl
  have hsegs : segments [0xfffe, 0x3fff] = [.run true 0xfffe [], .literal 0x3fff] := by
    have hrun : segments (0xfffe :: ([] ++ [0x3fff])) = _ :=
      segments_run (v := true) rfl (fun w hw => by cases hw) (ends_literal rfl)
    rw [List.nil_append] at hrun
    rw [hrun, segments_literal rfl, segments]
    rfl
  rw [hcompress]
  change (replay _ _ (segments [0xfffe, 0x3fff]) _).map _ = _
  rw [hsegs]
  rfl

end Bitmap

end CIM.ds
