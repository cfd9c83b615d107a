import CIM.Net.IPv6Masks
import Mathlib.Data.List.Basic

/-!
# IPv6 text form

The text that `IPv6Address::insert` writes and the literals it is read as: groups of hexadecimal
digits between colons, of which one double colon may stand for a run of zero groups.
-/
namespace CIM

/-- The value of a hexadecimal digit. -/
def hexDigit (c : Char) : Option Nat :=
  if '0' ≤ c ∧ c ≤ '9' then some (c.toNat - '0'.toNat)
  else if 'a' ≤ c ∧ c ≤ 'f' then some (c.toNat - 'a'.toNat + 10)
  else if 'A' ≤ c ∧ c ≤ 'F' then some (c.toNat - 'A'.toNat + 10)
  else none

def hexValue (t : List Char) : Option Nat :=
  t.foldlM (fun n c => (hexDigit c).map (n * 16 + ·)) 0

namespace IPv6Literal

/-- One group of a literal with its value. -/
def Piece (t : List Char) (n : Nat) : Prop := t ≠ [] ∧ t.length ≤ 4 ∧ hexValue t = some n

def join : List (List Char) → List Char
  | [] => []
  | p :: ps => p ++ ps.flatMap (':' :: ·)

/-- The literals without a dotted tail, with the groups they denote. The double colon stands for
at least one group. -/
inductive Denotes : List Char → List Nat → Prop where
  | full (ps : List (List Char)) (ns : List Nat) (hps : List.Forall₂ Piece ps ns)
      (hlen : ns.length = 8) : Denotes (join ps) ns
  | compressed (ls rs : List (List Char)) (ms ns : List Nat) (hls : List.Forall₂ Piece ls ms)
      (hrs : List.Forall₂ Piece rs ns) (hlen : ms.length + ns.length < 8) :
      Denotes (join ls ++ ':' :: ':' :: join rs)
        (ms ++ List.replicate (8 - ms.length - ns.length) 0 ++ ns)

theorem getLast?_join {ps : List (List Char)} (hps : ∀ p ∈ ps, p ≠ [] ∧ ':' ∉ p) :
    (join ps).getLast? ≠ some ':' := by
  cases ps using List.reverseRecOn with
  | nil => simp [join]
  | append_singleton qs p =>
      obtain ⟨hne, hcolon⟩ := hps p (by simp)
      have hend : ∃ front, join (qs ++ [p]) = front ++ p := by
        cases qs with
        | nil => exact ⟨[], by simp [join]⟩
        | cons q qs => exact ⟨q ++ qs.flatMap (':' :: ·) ++ [':'], by simp [join]⟩
      obtain ⟨front, hfront⟩ := hend
      rw [hfront, List.getLast?_append_of_ne_nil _ hne]
      intro hlast
      exact hcolon (List.mem_of_getLast? hlast)

theorem hexValue_append_singleton (t : List Char) (c : Char) :
    hexValue (t ++ [c]) = (hexValue t).bind fun n => (hexDigit c).map (n * 16 + ·) := by
  simp only [hexValue, List.foldlM_append, List.foldlM_cons, List.foldlM_nil]
  cases List.foldlM (fun n c => (hexDigit c).map (n * 16 + ·)) 0 t with
  | none => rfl
  | some n =>
      cases hexDigit c <;> simp

/-- What has a value is made of digits. -/
theorem hexDigit_of_mem {t : List Char} {n : Nat} (h : hexValue t = some n) :
    ∀ c ∈ t, (hexDigit c).isSome := by
  induction t using List.reverseRecOn generalizing n with
  | nil => simp
  | append_singleton t d ih =>
      rw [hexValue_append_singleton] at h
      obtain ⟨m, hm, hd⟩ := Option.bind_eq_some_iff.mp h
      obtain ⟨k, hk, -⟩ := Option.map_eq_some_iff.mp hd
      intro c hc
      rcases List.mem_append.mp hc with hc | hc
      · exact ih hm c hc
      · rw [List.mem_singleton.mp hc, hk]
        rfl

theorem Piece.no_colon {t : List Char} {n : Nat} (h : Piece t n) : t ≠ [] ∧ ':' ∉ t := by
  refine ⟨h.1, fun hmem => ?_⟩
  have hdigit := hexDigit_of_mem h.2.2 ':' hmem
  revert hdigit
  decide

theorem join_of_pieces {ps : List (List Char)} {ns : List Nat} (h : List.Forall₂ Piece ps ns) :
    (join ps).getLast? ≠ some ':' := by
  apply getLast?_join
  induction h with
  | nil => simp
  | cons hp _ ih => simpa using ⟨hp.no_colon, ih⟩

/-- A literal that ends in a colon ends in two. -/
theorem Denotes.two_colons {t : List Char} {ns : List Nat} (h : Denotes (t ++ [':']) ns) :
    t.getLast? = some ':' := by
  generalize hu : t ++ [':'] = u at h
  have hlast : u.getLast? = some ':' := by simp [← hu]
  cases h with
  | full ps ns hps _ => exact absurd hlast (join_of_pieces hps)
  | compressed ls rs ms ns hls hrs _ =>
      cases rs with
      | nil =>
          have hcut : t ++ [':'] = (join ls ++ [':']) ++ [':'] := by simpa [join] using hu
          rw [List.append_cancel_right hcut]
          simp
      | cons r rs =>
          have hne : join (r :: rs) ≠ [] := by
            cases hrs with
            | cons hr _ => simp [join, hr.1]
          rw [← List.singleton_append, List.append_cons, ← List.append_assoc,
            List.getLast?_append_of_ne_nil _ hne] at hlast
          exact absurd hlast (join_of_pieces hrs)

end IPv6Literal

namespace IPv6Address

open IPv6Literal

/-- `std::hex`: digits in lower case without leading zeros. -/
def hex (n : Nat) : List Char := Nat.toDigits 16 n

/-- A group as the host reads the two bytes. -/
def word (lo hi : BitVec 8) : Nat := lo.toNat + hi.toNat * 256

/-- `ntoh` of 16 bits. -/
def ntoh16 (n : Nat) : Nat := n % 256 * 256 + n / 256

def words : List (BitVec 8) → List Nat
  | lo :: hi :: bytes => word lo hi :: words bytes
  | _ => []

/-- The loop over the groups. `prev` is the group before, which there is for `i` above 0. The
result is `used_zeros` with what was written. -/
def insertGroups : Option Nat → Bool → List Char → List Nat → Bool × List Char
  | _, used_zeros, os, [] => (used_zeros, os)
  | prev, used_zeros, os, addr :: rest =>
      if addr = 0 ∧ used_zeros = false then insertGroups (some addr) used_zeros os rest
      else
        let behind_zeros := prev == some 0 && !used_zeros
        let os := if behind_zeros then os ++ [':'] else os
        let os := if prev.isSome then os ++ [':'] else os
        insertGroups (some addr) (used_zeros || behind_zeros) (os ++ hex (ntoh16 addr)) rest

theorem insertGroups_nil (prev : Option Nat) (used_zeros : Bool) (os : List Char) :
    insertGroups prev used_zeros os [] = (used_zeros, os) := rfl

theorem insertGroups_zero (prev : Option Nat) (os : List Char) (rest : List Nat) :
    insertGroups prev false os (0 :: rest) = insertGroups (some 0) false os rest := rfl

/-- A group that is written. -/
theorem insertGroups_cons {addr : Nat} {used_zeros : Bool}
    (haddr : addr ≠ 0 ∨ used_zeros = true) (prev : Option Nat) (os : List Char)
    (rest : List Nat) :
    insertGroups prev used_zeros os (addr :: rest) =
      let behind_zeros := prev == some 0 && !used_zeros
      let os := if behind_zeros then os ++ [':'] else os
      let os := if prev.isSome then os ++ [':'] else os
      insertGroups (some addr) (used_zeros || behind_zeros) (os ++ hex (ntoh16 addr)) rest :=
  if_neg fun h => haddr.elim (absurd h.1) fun hused => by simp [h.2] at hused

/-- What stands between the brackets. -/
def text (addr : List Nat) : List Char :=
  let (used_zeros, os) := insertGroups none false [] addr
  if used_zeros = false ∧ addr.getLast? = some 0 then os ++ [':'] else os

def insert (a : IPv6Address) : List Char :=
  '[' :: text (words a.s6_addr.toList) ++ [']', ':'] ++
    Nat.toDigits 10 (ntoh16 a.sin6_port.toNat)

theorem hexDigit_digitChar {d : Nat} (hd : d < 16) : hexDigit d.digitChar = some d := by
  interval_cases d <;> rfl

theorem hexValue_hex (n : Nat) : hexValue (hex n) = some n := by
  induction n using Nat.strongRecOn with
  | ind n ih =>
      rw [hex, Nat.toDigits_eq_if (by decide)]
      by_cases hn : n < 16
      · rw [if_pos hn, ← List.nil_append [n.digitChar], hexValue_append_singleton,
          hexDigit_digitChar hn]
        simp [hexValue]
      · have hdigit := hexDigit_digitChar (Nat.mod_lt n (by decide : 16 > 0))
        rw [if_neg hn, hexValue_append_singleton, ← hex, ih (n / 16) (by omega), hdigit]
        simp only [Option.bind_some, Option.map_some, Option.some.injEq]
        omega

theorem piece_hex {n : Nat} (hn : n < 65536) : Piece (hex n) n :=
  ⟨Nat.toDigits_ne_nil, (Nat.length_toDigits_le_iff (by decide) (by decide)).mpr hn,
    hexValue_hex n⟩

/-- The groups as pieces of text. -/
def pieces (addr : List Nat) : List (List Char) := addr.map fun g => hex (ntoh16 g)

theorem pieces_denote {addr : List Nat} (h : ∀ g ∈ addr, g < 65536) :
    List.Forall₂ Piece (pieces addr) (addr.map ntoh16) := by
  induction addr with
  | nil => exact .nil
  | cons g rest ih =>
      have hg : ntoh16 g < 65536 := by
        have hlt := h g List.mem_cons_self
        rw [ntoh16]
        omega
      exact .cons (piece_hex hg) (ih fun g' hg' => h g' (List.mem_cons_of_mem g hg'))

/-- After the double colon every group is written behind a colon. -/
theorem insertGroups_used (addr : List Nat) (prev : Nat) (os : List Char) :
    insertGroups (some prev) true os addr = (true, os ++ (pieces addr).flatMap (':' :: ·)) := by
  induction addr generalizing prev os with
  | nil => simp [insertGroups_nil, pieces]
  | cons g rest ih => simp [insertGroups_cons (.inr rfl), ih, pieces]

/-- Groups other than zero are written behind colons, too. -/
theorem insertGroups_nonzero {ls : List Nat} (hls : ∀ g ∈ ls, g ≠ 0) {prev : Nat}
    (hprev : prev ≠ 0) (os : List Char) (rest : List Nat) :
    insertGroups (some prev) false os (ls ++ rest) =
      insertGroups (some (ls.getLast?.getD prev)) false
        (os ++ (pieces ls).flatMap (':' :: ·)) rest := by
  induction ls generalizing prev os with
  | nil => simp [pieces]
  | cons g ls ih =>
      have hg : g ≠ 0 := hls g List.mem_cons_self
      have htail := ih (fun g' hg' => hls g' (List.mem_cons_of_mem g hg')) hg
      have hbehind : (prev == 0) = false := beq_false_of_ne hprev
      simp [insertGroups_cons (.inl hg), hbehind, htail, pieces, List.getLast?_cons]

theorem insertGroups_zeros (k : Nat) (prev : Option Nat) (os : List Char) (rest : List Nat) :
    insertGroups prev false os (List.replicate (k + 1) 0 ++ rest) =
      insertGroups (some 0) false os rest := by
  induction k generalizing prev with
  | zero => exact insertGroups_zero prev os rest
  | succ k ih => rw [List.replicate_succ, List.cons_append, insertGroups_zero, ih]

/-- The groups before the first zero are written as in a literal. -/
theorem insertGroups_front {ls : List Nat} (hls : ∀ g ∈ ls, g ≠ 0) (rest : List Nat) :
    insertGroups none false [] (ls ++ rest) =
      insertGroups ls.getLast? false (join (pieces ls)) rest := by
  cases ls with
  | nil => rfl
  | cons g ls =>
      have hg : g ≠ 0 := hls g List.mem_cons_self
      have htail := insertGroups_nonzero (fun g' hg' => hls g' (List.mem_cons_of_mem g hg')) hg
      simp [insertGroups_cons (.inl hg), htail, pieces, join, List.getLast?_cons]

theorem text_nonzero {ls : List Nat} (hls : ∀ g ∈ ls, g ≠ 0) : text ls = join (pieces ls) := by
  have hrun := insertGroups_front hls []
  have hlast : ls.getLast? ≠ some 0 := fun h => hls 0 (List.mem_of_getLast? h) rfl
  rw [List.append_nil] at hrun
  simp [text, hrun, insertGroups_nil, hlast]

theorem text_zeros {ls : List Nat} (hls : ∀ g ∈ ls, g ≠ 0) (k : Nat) :
    text (ls ++ List.replicate (k + 1) 0) = join (pieces ls) ++ [':'] := by
  have hrun := insertGroups_front hls (List.replicate (k + 1) 0)
  have hzeros := insertGroups_zeros k ls.getLast? (join (pieces ls)) []
  rw [List.append_nil, insertGroups_nil] at hzeros
  rw [hzeros] at hrun
  simp [text, hrun, List.getLast?_append, List.getLast?_replicate]

theorem text_between {ls : List Nat} (hls : ∀ g ∈ ls, g ≠ 0) (k : Nat) {r : Nat} (hr : r ≠ 0)
    (rs : List Nat) : text (ls ++ (List.replicate (k + 1) 0 ++ r :: rs)) =
      join (pieces ls) ++ ':' :: ':' :: join (pieces (r :: rs)) := by
  have hrun := insertGroups_front hls (List.replicate (k + 1) 0 ++ r :: rs)
  rw [insertGroups_zeros] at hrun
  simp [text, hrun, insertGroups_cons (.inl hr), insertGroups_used, pieces, join]

/-- The groups split at the first run of zeros. -/
theorem zero_run (addr : List Nat) : ∃ ls, (∀ g ∈ ls, g ≠ 0) ∧
    (addr = ls ∨ (∃ k, addr = ls ++ List.replicate (k + 1) 0) ∨
      ∃ k r rs, r ≠ 0 ∧ addr = ls ++ (List.replicate (k + 1) 0 ++ r :: rs)) := by
  induction addr with
  | nil => exact ⟨[], by simp, .inl rfl⟩
  | cons g rest ih =>
      obtain ⟨ls, hls, hrest⟩ := ih
      by_cases hg : g = 0
      · subst hg
        refine ⟨[], by simp, .inr ?_⟩
        cases ls with
        | nil =>
            rcases hrest with rfl | ⟨k, rfl⟩ | ⟨k, r, rs, hr, rfl⟩
            · exact .inl ⟨0, rfl⟩
            · exact .inl ⟨k + 1, rfl⟩
            · exact .inr ⟨k + 1, r, rs, hr, rfl⟩
        | cons l ls =>
            have hl : l ≠ 0 := hls l List.mem_cons_self
            rcases hrest with rfl | ⟨k, rfl⟩ | ⟨k, r, rs, hr, rfl⟩
            · exact .inr ⟨0, l, ls, hl, rfl⟩
            · exact .inr ⟨0, l, ls ++ List.replicate (k + 1) 0, hl, rfl⟩
            · exact .inr ⟨0, l, ls ++ (List.replicate (k + 1) 0 ++ r :: rs), hl, rfl⟩
      · refine ⟨g :: ls, by simpa using ⟨hg, hls⟩, ?_⟩
        rcases hrest with rfl | ⟨k, rfl⟩ | ⟨k, r, rs, hr, rfl⟩
        · exact .inl rfl
        · exact .inr (.inl ⟨k, rfl⟩)
        · exact .inr (.inr ⟨k, r, rs, hr, rfl⟩)

/-- If there is a zero group, then some group behind it is not zero. -/
def RunCloses (addr : List Nat) : Prop :=
  0 ∈ addr → ∃ g ∈ addr.dropWhile (· != 0), g ≠ 0

instance (addr : List Nat) : Decidable (RunCloses addr) :=
  inferInstanceAs (Decidable (_ → _))

theorem dropWhile_nonzero {ls : List Nat} (hls : ∀ g ∈ ls, g ≠ 0) (rest : List Nat) :
    (ls ++ rest).dropWhile (· != 0) = rest.dropWhile (· != 0) :=
  List.dropWhile_append_of_pos fun g hg => by simpa using hls g hg

/-- A run of zeros up to the end is written as one colon, with which no literal ends. -/
theorem not_denotes_zeros {ls : List Nat} (hls : ∀ g ∈ ls, g ≠ 0) (h : ∀ g ∈ ls, g < 65536)
    (k : Nat) (ns : List Nat) : ¬ Denotes (text (ls ++ List.replicate (k + 1) 0)) ns := by
  intro hden
  rw [text_zeros hls k] at hden
  exact join_of_pieces (pieces_denote h) hden.two_colons

theorem denotes_text {addr : List Nat} (hlen : addr.length = 8) (h : ∀ g ∈ addr, g < 65536)
    (hrun : RunCloses addr) : Denotes (text addr) (addr.map ntoh16) := by
  obtain ⟨ls, hls, rfl | ⟨k, rfl⟩ | ⟨k, r, rs, hr, rfl⟩⟩ := zero_run addr
  · rw [text_nonzero hls]
    exact .full _ _ (pieces_denote h) (by simpa using hlen)
  · obtain ⟨g, hg, hne⟩ := hrun (by simp)
    rw [dropWhile_nonzero hls] at hg
    exact absurd (List.eq_of_mem_replicate (List.dropWhile_sublist _ |>.mem hg)) hne
  · have hfront : ∀ g ∈ ls, g < 65536 := fun g hg => h g (by simp [hg])
    have hback : ∀ g ∈ r :: rs, g < 65536 := fun g hg =>
      h g (List.mem_append_right _ (List.mem_append_right _ hg))
    simp only [List.length_append, List.length_replicate, List.length_cons] at hlen
    have hcount : 8 - (ls.map ntoh16).length - ((r :: rs).map ntoh16).length = k + 1 := by
      simp only [List.length_map, List.length_cons]
      omega
    have hden := Denotes.compressed _ _ _ _ (pieces_denote hfront) (pieces_denote hback)
      (by simp only [List.length_map, List.length_cons]; omega)
    rw [hcount] at hden
    rw [text_between hls k hr rs]
    simpa [ntoh16] using hden

theorem runCloses_of_denotes {addr ns : List Nat} (h : ∀ g ∈ addr, g < 65536)
    (hden : Denotes (text addr) ns) : RunCloses addr := by
  obtain ⟨ls, hls, rfl | ⟨k, rfl⟩ | ⟨k, r, rs, hr, rfl⟩⟩ := zero_run addr
  · exact fun hzero => absurd rfl (hls 0 hzero)
  · exact absurd hden (not_denotes_zeros hls (fun g hg => h g (List.mem_append_left _ hg)) k ns)
  · intro _
    rw [dropWhile_nonzero hls, List.replicate_succ, List.cons_append,
      List.dropWhile_cons_of_neg (by simp)]
    exact ⟨r, by simp, hr⟩

/-- The two bytes of a group in network order. -/
def bytesOf (n : Nat) : List (BitVec 8) := [BitVec.ofNat 8 (n / 256), BitVec.ofNat 8 n]

/-- The text between the brackets is a literal for the bytes of the address. -/
def ValidText (a : IPv6Address) : Prop :=
  ∃ ns, Denotes (text (words a.s6_addr.toList)) ns ∧ ns.flatMap bytesOf = a.s6_addr.toList

theorem word_lt (lo hi : BitVec 8) : word lo hi < 65536 := by
  have hlo := lo.isLt
  have hhi := hi.isLt
  rw [word]
  omega

theorem bytesOf_ntoh16_word (lo hi : BitVec 8) : bytesOf (ntoh16 (word lo hi)) = [lo, hi] := by
  have hlo := lo.isLt
  have hhi := hi.isLt
  have hswap : ntoh16 (word lo hi) = lo.toNat * 256 + hi.toNat := by
    rw [ntoh16, word]
    omega
  have hhigh : (lo.toNat * 256 + hi.toNat) / 256 = lo.toNat := by omega
  have hlow : BitVec.ofNat 8 (lo.toNat * 256 + hi.toNat) = hi := by
    apply BitVec.eq_of_toNat_eq
    rw [BitVec.toNat_ofNat]
    omega
  rw [bytesOf, hswap, hhigh, hlow, BitVec.ofNat_toNat, BitVec.setWidth_eq]

theorem words_lt (bytes : List (BitVec 8)) : ∀ g ∈ words bytes, g < 65536 := by
  induction bytes using words.induct with
  | case1 lo hi bytes ih => simpa [words] using ⟨word_lt lo hi, ih⟩
  | case2 bytes h => simp [words]

theorem length_words (bytes : List (BitVec 8)) : (words bytes).length = bytes.length / 2 := by
  induction bytes using words.induct with
  | case1 lo hi bytes ih =>
      simp only [words, List.length_cons, ih]
      omega
  | case2 bytes h =>
      rcases bytes with _ | ⟨lo, _ | ⟨hi, bytes⟩⟩
      · rfl
      · simp [words]
      · exact absurd rfl (h lo hi bytes)

/-- Nothing of the bytes is lost in their groups. -/
theorem bytesOf_words (bytes : List (BitVec 8)) (heven : bytes.length % 2 = 0) :
    ((words bytes).map ntoh16).flatMap bytesOf = bytes := by
  induction bytes using words.induct with
  | case1 lo hi bytes ih =>
      simp only [List.length_cons] at heven
      rw [words, List.map_cons, List.flatMap_cons, ih (by omega), bytesOf_ntoh16_word]
      rfl
  | case2 bytes h =>
      rcases bytes with _ | ⟨lo, _ | ⟨hi, bytes⟩⟩
      · rfl
      · cases heven
      · exact absurd rfl (h lo hi bytes)

/-- The text is right exactly where no zero run that comes first lasts to the end. -/
theorem validText_iff (a : IPv6Address) : ValidText a ↔ RunCloses (words a.s6_addr.toList) := by
  have hlt := words_lt a.s6_addr.toList
  constructor
  · rintro ⟨ns, hden, -⟩
    exact runCloses_of_denotes hlt hden
  · intro hrun
    have hlen : (words a.s6_addr.toList).length = 8 := by
      rw [length_words, Vector.length_toList]
    refine ⟨_, denotes_text hlen hlt hrun, ?_⟩
    exact bytesOf_words _ (by rw [Vector.length_toList])

/-- The unspecified address is written as a single colon. -/
theorem validText_unspecified : let a : IPv6Address := ⟨AF_INET6, 0, 0, Vector.replicate 16 0, 0⟩
    text (words a.s6_addr.toList) = [':'] ∧ ¬ ValidText a := by
  refine ⟨rfl, ?_⟩
  rintro ⟨ns, hden, -⟩
  have hnil : ∀ g ∈ ([] : List Nat), g ≠ 0 := by simp
  exact not_denotes_zeros hnil (by simp) 7 ns hden

/-- The loopback address as the words of a little-endian host. -/
example : text [0, 0, 0, 0, 0, 0, 0, 256] = "::1".toList := by decide

end IPv6Address
end CIM
