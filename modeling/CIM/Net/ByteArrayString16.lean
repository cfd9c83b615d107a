import CIM.Net.ByteArrayRoundTrip

/-!
# Strings behind a length of sixteen bits

`writeStringF16` narrows the length and writes the string whole. Strings of fewer than 65536
bytes come back, with whatever was written behind them; a longer one is never refused, and its
prefix is not its length.
-/
namespace CIM.ByteArray

open Exec

variable {e : Endian} {α : Type}

def writeStringsF16 : List Str → ByteArrayM Unit
  | [] => return
  | s :: ss => do
      writeStringF16 s
      writeStringsF16 ss

def readStrings16 : Nat → ByteArrayM (List Str)
  | 0 => return []
  | n+1 => do
      let s ← readString16
      let ss ← readStrings16 n
      return s :: ss

/-- The strings and what `w` writes, into an empty array, and back from its start; `r` reads what
follows the strings. -/
def framed (ss : List Str) (w : ByteArrayM Unit) (r : ByteArrayM α) :
    ByteArrayM (List Str × α) := do
  writeStringsF16 ss
  w
  setPosition 0
  let strings ← readStrings16 ss.length
  let a ← r
  return (strings, a)

/-- The prefix is the number of the bytes behind it. -/
def PrefixedF16 (e : Endian) (s : Str) : Prop :=
  ∃ n : UInt16, n.toNat = s.data.length ∧
    Writes e (writeStringF16 s) (fixedBytes e 2 n.toNat ++ s.data)

/-- Whatever values follow the strings: all of them come back, and nothing is left. -/
def ComesBackF16 (e : Endian) (ss : List Str) : Prop :=
  ∀ {base : Nat} (arena : Nat → Nat → UInt8) {α : Type} {w : ByteArrayM Unit} {r : ByteArrayM α}
    {bs : List UInt8} {a : α}, 1 ≤ base → Writes e w bs → Reads e r bs a →
    ∃ ba, framed ss w r { new base arena with endian := e } = .ok (ss, a) ba ∧ ba.getReadSize = 0

/-- The write of one of the strings fails and leaves the array as it was. -/
def RefusedF16 (e : Endian) (ss : List Str) : Prop :=
  ∃ s ∈ ss, ∀ base ba bs, Writing base e ba bs → ∃ fault, writeStringF16 s ba = .error fault ba

theorem writes_pure : Writes e (pure ⟨⟩) [] := by
  intro base ba bs₀ h
  rw [List.append_nil]
  exact ⟨ba, rfl, h⟩

theorem writes_stringF16 (s : Str) : Writes e (writeStringF16 s)
    (fixedBytes e 2 (UInt16.ofNat s.data.length).toNat ++ s.data) :=
  (writes_fixed _ _).bind (writes_write _)

theorem reads_string16 {s : Str} (hs : s.data.length < 65536) :
    Reads e readString16 (fixedBytes e 2 (UInt16.ofNat s.data.length).toNat ++ s.data) s := by
  refine (reads_fuint16 _).bind ?_
  have hlen : (UInt16.ofNat s.data.length).toNat = s.data.length := by
    rw [UInt16.toNat_ofNat']
    omega
  rw [hlen]
  exact reads_chars s

theorem writes_stringsF16 (ss : List Str) : ∃ bs, Writes e (writeStringsF16 ss) bs := by
  induction ss with
  | nil => exact ⟨[], writes_pure⟩
  | cons s ss ih =>
      obtain ⟨bs, hw⟩ := ih
      exact ⟨_, (writes_stringF16 s).bind hw⟩

theorem codec_strings16 {ss : List Str} (hs : ∀ s ∈ ss, s.data.length < 65536) :
    ∃ bs, Writes e (writeStringsF16 ss) bs ∧ Reads e (readStrings16 ss.length) bs ss := by
  induction ss with
  | nil => exact ⟨[], writes_pure, reads_pure []⟩
  | cons s ss ih =>
      obtain ⟨bs, hw, hr⟩ := ih fun t ht => hs t (List.mem_cons_of_mem s ht)
      have hshort := hs s List.mem_cons_self
      refine ⟨_, (writes_stringF16 s).bind hw, (reads_string16 hshort).bind ?_⟩
      exact hr.then_pure

/-- What is read behind a 16-bit length is a string of fewer than 65536 bytes. -/
theorem length_readString16 {ba ba' : ByteArray} {s : Str} (hl : Linked ba)
    (h : readString16 ba = .ok s ba') : Linked ba' ∧ s.data.length < 65536 := by
  obtain ⟨len, ba₁, h₁, h₂⟩ := of_bind_ok h
  obtain ⟨v, ba₀, hv, hlen⟩ := of_bind_ok h₁
  have hfixed : Steady (readFixed 2) :=
    (steady_read 2).bind fun _ => by
      intro ba a ba' hl h
      cases h
      exact ⟨hl, rfl⟩
  obtain ⟨hl₀, -⟩ := hfixed ba v ba₀ hl hv
  cases hlen
  obtain ⟨buffer, ba₂, h₃, h₄⟩ := of_bind_ok h₂
  obtain ⟨hl₂, -⟩ := steady_read _ _ buffer ba₂ hl₀ h₃
  by_cases hb : buffer.length < 9223372036854775808
  · rw [dif_pos hb] at h₄
    cases h₄
    refine ⟨hl₂, ?_⟩
    by_cases hn : (UInt16.ofNat v).toNat ≤ ba₁.getReadSize
    · obtain ⟨b, hr, -⟩ := read_spec hl₀ hn
      rw [hr] at h₃
      cases h₃
      have hlt := (UInt16.ofNat v).toNat_lt
      simp only [Patch.length_slice]
      omega
    · rw [read_short (Nat.lt_of_not_le hn)] at h₃
      cases h₃
  · rw [dif_neg hb] at h₄
    cases h₄

theorem length_readStrings16 {n : Nat} {ba ba' : ByteArray} {ss : List Str} (hl : Linked ba)
    (h : readStrings16 n ba = .ok ss ba') : ∀ s ∈ ss, s.data.length < 65536 := by
  induction n generalizing ba ba' ss with
  | zero =>
      cases h
      simp
  | succ n ih =>
      obtain ⟨s, ba₁, h₁, h₂⟩ := of_bind_ok h
      obtain ⟨ss', ba₂, h₃, h₄⟩ := of_bind_ok h₂
      cases h₄
      obtain ⟨hl₁, hs⟩ := length_readString16 hl h₁
      exact List.forall_mem_cons.mpr ⟨hs, ih hl₁ h₃⟩

theorem comesBackF16_of_short {ss : List Str} (hs : ∀ s ∈ ss, s.data.length < 65536) :
    ComesBackF16 e ss := by
  intro base arena α w r bs a hb hw hr
  obtain ⟨bs₁, hw₁, hr₁⟩ := codec_strings16 (e := e) hs
  obtain ⟨ba₁, hok₁, hf₁⟩ := hw₁ base _ [] (new_writing hb arena e)
  obtain ⟨ba₂, hok₂, hf₂⟩ := hw base ba₁ _ hf₁
  obtain ⟨ba₃, hs, hf₃⟩ := hf₂.rewind
  rw [List.nil_append] at hf₃
  obtain ⟨ba₄, hok₄, hf₄⟩ := hr₁ base ba₃ bs hf₃
  rw [← List.append_nil bs] at hf₄
  obtain ⟨ba₅, hok₅, hf₅⟩ := hr base ba₄ [] hf₄
  refine ⟨ba₅, ?_, ?_⟩
  · exact (bind_ok hok₁).trans ((bind_ok hok₂).trans ((bind_ok hs).trans
      ((bind_ok hok₄).trans (bind_ok hok₅))))
  · rw [getReadSize, hf₅.unread.dataSize, List.length_nil, Nat.add_zero, Nat.sub_self]

theorem prefixedF16_iff {s : Str} : PrefixedF16 e s ↔ s.data.length < 65536 := by
  constructor
  · rintro ⟨n, hn, -⟩
    rw [← hn]
    exact n.toNat_lt
  · intro hs
    have hlen : (UInt16.ofNat s.data.length).toNat = s.data.length := by
      rw [UInt16.toNat_ofNat']
      omega
    exact ⟨UInt16.ofNat s.data.length, hlen, writes_stringF16 s⟩

/-- No string is refused: the writer does not look at the length. -/
theorem not_refusedF16 (ss : List Str) : ¬ RefusedF16 e ss := by
  rintro ⟨s, -, h⟩
  have hnew := new_writing (Nat.le_refl 1) (fun _ _ => 0) e
  obtain ⟨fault, herr⟩ := h 1 _ [] hnew
  obtain ⟨ba, hok, -⟩ := writes_stringF16 s 1 _ [] hnew
  rw [herr] at hok
  cases hok

theorem comesBackF16_iff {ss : List Str} :
    ComesBackF16 e ss ↔ ∀ s ∈ ss, s.data.length < 65536 := by
  refine ⟨fun h => ?_, comesBackF16_of_short⟩
  have hnew := new_writing (Nat.le_refl 1) (fun _ _ => 0) e
  obtain ⟨ba, hok, -⟩ := h (fun _ _ => 0) (Nat.le_refl 1) writes_pure (reads_pure ())
  obtain ⟨bs, hw⟩ := writes_stringsF16 (e := e) ss
  obtain ⟨ba₁, hok₁, hf₁⟩ := hw 1 _ [] hnew
  obtain ⟨ba₂, hok₂, hf₂⟩ := writes_pure 1 ba₁ _ hf₁
  obtain ⟨ba₃, hs, hf₃⟩ := hf₂.rewind
  -- the strings of the result are those that were read
  have hread := ((bind_ok hok₁).trans ((bind_ok hok₂).trans (bind_ok hs))).symm.trans hok
  obtain ⟨strings, ba₄, h₁, h₂⟩ := of_bind_ok hread
  cases h₂
  exact length_readStrings16 hf₃.unread.linked h₁

/-- The prefixes are right, and the strings come back, for the lists whose strings all fit into
their length field. -/
theorem framingF16_iff (e : Endian) (ss : List Str) :
    ((∀ s ∈ ss, PrefixedF16 e s) ↔ ∀ s ∈ ss, s.data.length < 65536) ∧
      (ComesBackF16 e ss ∨ RefusedF16 e ss ↔ ∀ s ∈ ss, s.data.length < 65536) := by
  refine ⟨forall₂_congr fun s _ => prefixedF16_iff, ?_⟩
  rw [comesBackF16_iff, or_iff_left (not_refusedF16 ss)]

/-- A string of 65536 bytes. -/
def string65536 : Str := ⟨List.replicate 65536 0, by rw [List.length_replicate]; decide⟩

/-- It gets the length zero in front: its prefix is wrong and it is not read back. -/
theorem framingF16_long : (¬ PrefixedF16 .big string65536) ∧
    ¬ (ComesBackF16 .big [string65536] ∨ RefusedF16 .big [string65536]) := by
  have hlen : string65536.data.length = 65536 := List.length_replicate
  refine ⟨fun hp => ?_, ?_⟩
  · have hlt := prefixedF16_iff.mp hp
    omega
  · rintro (hback | hrefused)
    · have hlt := comesBackF16_iff.mp hback string65536 List.mem_cons_self
      omega
    · exact not_refusedF16 _ hrefused

end CIM.ByteArray
