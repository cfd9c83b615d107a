import Mathlib.Data.List.TakeWhile
import CIM.Lib.Place

/-!
# Address lookup

How `Address::Lookup` splits its text into the node and the service for `getaddrinfo`. Pointers
into the text are places in it. Both arguments are C strings, which end at the first null.
-/
namespace CIM.Lookup

def null : Char := Char.ofNat 0

/-- The place of the first `c` among the `n` places from `start` on. -/
def memchr (s : List Char) (start : Nat) (c : Char) (n : Nat) : Option Nat :=
  (((s.drop start).take n).findIdx? (· == c)).map (start + ·)

/-- `c_str` has a null behind the last place. -/
def charAt (s : List Char) (i : Nat) : Char := s.getD i null

/-- What a callee reads from a pointer to a place. -/
def cString (s : List Char) : List Char := s.takeWhile (· != null)

/-- The search for a bracket. Texts that start with one are left out. -/
def brackets (host : List Char) : List Char × Option Nat :=
  match host with
  | [] => ([], none)
  | c :: _ =>
      if c != '[' then
        match memchr host 1 ']' (host.length - 1) with
        | none => ([], none)
        | some endipv6 =>
            ((host.drop 1).take (endipv6 - 1),
              if charAt host (endipv6 + 1) = ':' then some (endipv6 + 2) else none)
      else ([], none)

/-- The search for a colon. With two of them the service stays at the first. -/
def colons (host : List Char) : List Char × Option Nat :=
  match memchr host 0 ':' host.length with
  | none => ([], none)
  | some service =>
      if (memchr host (service + 1) ':' (host.length - service - 1)).isNone then
        (host.take service, some (service + 1))
      else ([], some service)

/-- The node, and the place of the service where there is one. -/
def split (host : List Char) : List Char × Option Nat :=
  let (node, service) := brackets host
  let (node, service) := if node.isEmpty then colons host else (node, service)
  (if node.isEmpty then host else node, service)

/-- The two strings that `getaddrinfo` reads. -/
def arguments (host : List Char) : List Char × Option (List Char) :=
  (cString (split host).1, (split host).2.map fun i => cString (host.drop i))

/-- The forms of a text. -/
inductive Input where
  | host (h : List Char)
  | hostService (h s : List Char)
  | bracketed (v : List Char)
  | bracketedService (v s : List Char)
  | bare (v : List Char)

namespace Input

def text : Input → List Char
  | host h => h
  | hostService h s => h ++ ':' :: s
  | bracketed v => '[' :: v ++ [']']
  | bracketedService v s => '[' :: v ++ ']' :: ':' :: s
  | bare v => v

def node : Input → List Char
  | host h | hostService h _ => h
  | bracketed v | bracketedService v _ | bare v => v

def service : Input → Option (List Char)
  | hostService _ s | bracketedService _ s => some s
  | host _ | bracketed _ | bare _ => none

/-- A host that no other form starts like. -/
def IsHost (h : List Char) : Prop := h ≠ [] ∧ ':' ∉ h ∧ h.head? ≠ some '['

/-- A literal has at least two colons, a host and a service have none. -/
def WellFormed : Input → Prop
  | host h => IsHost h
  | hostService h s => IsHost h ∧ ':' ∉ s
  | bracketed v | bare v => 2 ≤ v.count ':'
  | bracketedService v s => 2 ≤ v.count ':' ∧ ':' ∉ s

/-- `getaddrinfo` is given exactly the parts of the input. -/
def Right (i : Input) : Prop := arguments i.text = (i.node, i.service)

/-- The forms with a host name. -/
def Named : Input → Prop
  | host _ | hostService _ _ => True
  | bracketed _ | bracketedService _ _ | bare _ => False

end Input

/-- No bracket is found behind the first place, or it leaves nothing between the two. -/
def Unbracketed (t : List Char) : Prop :=
  ∀ e, memchr t 1 ']' (t.length - 1) = some e → e = 1

theorem memchr_none {s : List Char} {start n : Nat} {c : Char}
    (h : c ∉ (s.drop start).take n) : memchr s start c n = none := by
  rw [memchr, Option.map_eq_none_iff, List.findIdx?_eq_none_iff]
  intro d hd
  simp only [beq_eq_false_iff_ne]
  rintro rfl
  exact h hd

theorem memchr_bounds {s : List Char} {start n e : Nat} {c : Char}
    (h : memchr s start c n = some e) : start ≤ e ∧ e < start + n := by
  obtain ⟨i, hi, rfl⟩ := Option.map_eq_some_iff.mp h
  have hlt := (List.findIdx?_eq_some_iff_getElem.mp hi).1
  simp only [List.length_take] at hlt
  omega

theorem findIdx?_append_cons {l r : List Char} {c : Char} (hl : c ∉ l) :
    (l ++ c :: r).findIdx? (· == c) = some l.length := by
  refine Place.first_append (fun d hd hdc => hl ?_) (beq_self_eq_true c)
  rwa [← eq_of_beq hdc]

/-- The first colon is the only one. -/
theorem colons_one {l r : List Char} (hl : ':' ∉ l) (hr : ':' ∉ r) :
    colons (l ++ ':' :: r) = (l, some (l.length + 1)) := by
  have hfirst : memchr (l ++ ':' :: r) 0 ':' (l ++ ':' :: r).length = some l.length := by
    rw [memchr, List.drop_zero, List.take_length, findIdx?_append_cons hl]
    simp
  have hsecond : memchr (l ++ ':' :: r) (l.length + 1) ':'
      ((l ++ ':' :: r).length - l.length - 1) = none := by
    apply memchr_none
    intro hmem
    have hdrop : (l ++ ':' :: r).drop (l.length + 1) = r := by simp
    rw [hdrop] at hmem
    exact hr (List.mem_of_mem_take hmem)
  rw [colons, hfirst]
  simp only [hsecond, Option.isNone_none, if_true, List.take_left]

theorem colons_none {t : List Char} (h : ':' ∉ t) : colons t = ([], none) := by
  rw [colons, memchr_none]
  rw [List.drop_zero, List.take_length]
  exact h

/-- With a second colon there is no node, and the service stays where it was found. -/
theorem colons_two {l r : List Char} (hl : ':' ∉ l) (hr : ':' ∈ r) :
    colons (l ++ ':' :: r) = ([], some l.length) := by
  have hfirst : memchr (l ++ ':' :: r) 0 ':' (l ++ ':' :: r).length = some l.length := by
    rw [memchr, List.drop_zero, List.take_length, findIdx?_append_cons hl]
    simp
  have hdrop : (l ++ ':' :: r).drop (l.length + 1) = r := by simp
  have hcount : (l ++ ':' :: r).length - l.length - 1 = r.length := by
    simp only [List.length_append, List.length_cons]
    omega
  obtain ⟨r₁, r₂, hsplit, hr₁⟩ := List.eq_append_cons_of_mem hr
  have hsecond : memchr (l ++ ':' :: r) (l.length + 1) ':'
      ((l ++ ':' :: r).length - l.length - 1) = some (l.length + 1 + r₁.length) := by
    rw [memchr, hdrop, hcount, List.take_length, hsplit, findIdx?_append_cons hr₁]
    rfl
  rw [colons, hfirst]
  simp only [hsecond, Option.isNone_some, Bool.false_eq_true, if_false]

theorem exists_two_colons {v : List Char} (h : 2 ≤ v.count ':') :
    ∃ l r, v = l ++ ':' :: r ∧ ':' ∉ l ∧ ':' ∈ r := by
  have hmem : ':' ∈ v := List.count_pos_iff.mp (by omega)
  obtain ⟨l, r, rfl, hl⟩ := List.eq_append_cons_of_mem hmem
  refine ⟨l, r, rfl, hl, ?_⟩
  rw [List.count_append, List.count_eq_zero.mpr hl, List.count_cons_self] at h
  exact List.count_pos_iff.mp (by omega)

theorem brackets_unbracketed {t : List Char} (h : Unbracketed t) :
    (brackets t).1 = [] := by
  cases t with
  | nil => rfl
  | cons c t =>
      rw [brackets]
      split_ifs with hc
      · cases he : memchr (c :: t) 1 ']' ((c :: t).length - 1) with
        | none => rfl
        | some e =>
            obtain rfl := h e he
            rfl
      · rfl

/-- What is cut out lies behind the first place. -/
theorem brackets_prefix_of (c : Char) (t : List Char) : (brackets (c :: t)).1 <+: t := by
  rw [brackets]
  split_ifs
  · cases memchr (c :: t) 1 ']' ((c :: t).length - 1) with
    | none => exact List.nil_prefix
    | some e => exact List.take_prefix _ _
  · exact List.nil_prefix

/-- A bracket further behind cuts a piece of text out. -/
theorem brackets_ne_nil {c : Char} {t : List Char} (hc : c ≠ '[')
    (h : ¬ Unbracketed (c :: t)) : (brackets (c :: t)).1 ≠ [] := by
  simp only [Unbracketed, not_forall] at h
  obtain ⟨e, he, hne⟩ := h
  have hbounds := memchr_bounds he
  simp only [List.length_cons] at hbounds
  have hcond : (c != '[') = true := by simpa using hc
  rw [brackets, if_pos hcond, he]
  intro hnil
  have hlen := congrArg List.length hnil
  simp only [List.length_take, List.drop_succ_cons, List.drop_zero, List.length_nil] at hlen
  omega

theorem split_of_brackets_nil {t : List Char} (h : (brackets t).1 = []) :
    split t = (if (colons t).1.isEmpty then t else (colons t).1, (colons t).2) := by
  simp [split, h]

theorem split_of_brackets {t : List Char} (h : (brackets t).1 ≠ []) :
    (split t).1 = (brackets t).1 := by
  simp [split, h]

theorem cString_prefix_of (s : List Char) : cString s <+: s := List.takeWhile_prefix _

theorem cString_eq_iff (s : List Char) : cString s = s ↔ null ∉ s := by
  rw [cString, List.takeWhile_eq_self_iff]
  constructor
  · intro h hmem
    simpa using h null hmem
  · intro h c hc
    simp only [bne_iff_ne, ne_eq]
    rintro rfl
    exact h hc

/-- A text that is no more than what lies behind its first place has lost something, so it is not
the host in front of it. -/
theorem not_host_behind {c : Char} {h rest n : List Char} (hcolon : ':' ∉ c :: h)
    (hrest : rest = [] ∨ ∃ s, rest = ':' :: s) (hn : n <+: h ++ rest) : n ≠ c :: h := by
  rintro rfl
  rcases hrest with rfl | ⟨s, rfl⟩
  · have hle := hn.length_le
    simp only [List.append_nil, List.length_cons] at hle
    omega
  · have htake := List.prefix_iff_eq_take.mp hn
    have hcut : (h ++ ':' :: s).take (c :: h).length = h ++ [':'] := by
      rw [List.length_cons, List.append_cons, ← List.length_singleton (a := ':'),
        ← List.length_append, List.take_left]
    rw [hcut] at htake
    exact hcolon (by rw [htake]; simp)

/-- A named input whose text has a bracket further behind loses its host. -/
theorem node_ne_of_bracketed {h rest : List Char} (hhost : Input.IsHost h)
    (hrest : rest = [] ∨ ∃ s, rest = ':' :: s) (hb : ¬ Unbracketed (h ++ rest)) :
    (arguments (h ++ rest)).1 ≠ h := by
  obtain ⟨hne, hcolon, hhead⟩ := hhost
  cases h with
  | nil => exact absurd rfl hne
  | cons c h =>
      have hc : c ≠ '[' := by
        rintro rfl
        exact hhead rfl
      rw [List.cons_append] at hb
      have hnode := brackets_ne_nil hc hb
      have hbehind := brackets_prefix_of c (h ++ rest)
      change cString (split (c :: (h ++ rest))).1 ≠ c :: h
      rw [split_of_brackets hnode]
      exact not_host_behind hcolon hrest ((cString_prefix_of _).trans hbehind)

theorem arguments_host {h : List Char} (hcolon : ':' ∉ h) (hu : Unbracketed h) :
    arguments h = (cString h, none) := by
  rw [arguments, split_of_brackets_nil (brackets_unbracketed hu), colons_none hcolon]
  rfl

theorem arguments_hostService {h s : List Char} (hne : h ≠ []) (hcolon : ':' ∉ h)
    (hs : ':' ∉ s) (hu : Unbracketed (h ++ ':' :: s)) :
    arguments (h ++ ':' :: s) = (cString h, some (cString s)) := by
  have hempty : h.isEmpty = false := by simpa using hne
  rw [arguments, split_of_brackets_nil (brackets_unbracketed hu), colons_one hcolon hs]
  simp [hempty]

/-- Two colons leave the text whole and the service at the first of them. -/
theorem arguments_two {l r : List Char} (hl : ':' ∉ l) (hr : ':' ∈ r)
    (hb : (brackets (l ++ ':' :: r)).1 = []) :
    arguments (l ++ ':' :: r) =
      (cString (l ++ ':' :: r), some (cString (':' :: r))) := by
  rw [arguments, split_of_brackets_nil hb, colons_two hl hr]
  simp

/-- A literal without brackets never gets through without a service. -/
theorem arguments_bare {v : List Char} (hv : 2 ≤ v.count ':') : arguments v ≠ (v, none) := by
  obtain ⟨l, r, hsplit, hl, hr⟩ := exists_two_colons hv
  intro h
  by_cases hb : (brackets v).1 = []
  · rw [hsplit] at h hb
    rw [arguments_two hl hr hb] at h
    cases congrArg Prod.snd h
  · cases v with
    | nil => exact hb rfl
    | cons c t =>
        have hnode : cString (brackets (c :: t)).1 = c :: t := by
          rw [← split_of_brackets hb]
          exact congrArg Prod.fst h
        have hle := ((cString_prefix_of _).trans (brackets_prefix_of c t)).length_le
        rw [hnode, List.length_cons] at hle
        omega

/-- A literal in brackets is passed with them. -/
theorem arguments_bracketed {v : List Char} (hv : 2 ≤ v.count ':') (rest : List Char) :
    (arguments ('[' :: v ++ ']' :: rest)).1 ≠ v := by
  obtain ⟨l, r, hsplit, hl, hr⟩ := exists_two_colons hv
  have htext : '[' :: v ++ ']' :: rest = ('[' :: l) ++ ':' :: (r ++ ']' :: rest) := by
    simp [hsplit]
  have hl' : ':' ∉ '[' :: l := by simpa using hl
  have hr' : ':' ∈ r ++ ']' :: rest := List.mem_append_left _ hr
  rw [htext, arguments_two hl' hr' rfl, ← htext]
  intro hnode
  have hnull : null ∉ v := by
    intro hmem
    rw [← hnode] at hmem
    simpa using List.mem_takeWhile_imp hmem
  have hwhole : cString ('[' :: v ++ ']' :: rest) = '[' :: v ++ cString (']' :: rest) := by
    apply List.takeWhile_append_of_pos
    intro c hc
    rcases List.mem_cons.mp hc with rfl | hc
    · rfl
    · simp only [bne_iff_ne, ne_eq]
      rintro rfl
      exact hnull hc
  have hlen := congrArg List.length (hwhole.symm.trans hnode)
  simp only [List.length_append, List.length_cons] at hlen
  omega

namespace Input

/-- The parts are right exactly for a host name without or with a service, where no bracket behind
the first two places and no null is in the text. -/
theorem right_iff (i : Input) (hw : i.WellFormed) :
    i.Right ↔ i.Named ∧ Unbracketed i.text ∧ null ∉ i.text := by
  cases i with
  | host h =>
      have hcolon := hw.2.1
      simp only [Right, Named, text, node, service, true_and]
      by_cases hu : Unbracketed h
      · rw [arguments_host hcolon hu]
        simp [hu, cString_eq_iff]
      · have hnode := node_ne_of_bracketed hw (.inl (Eq.refl [])) (by simpa using hu)
        rw [List.append_nil] at hnode
        simp only [hu, false_and, iff_false]
        exact fun h => hnode (congrArg Prod.fst h)
  | hostService h s =>
      obtain ⟨hhost, hs⟩ := hw
      simp only [Right, Named, text, node, service, true_and]
      by_cases hu : Unbracketed (h ++ ':' :: s)
      · have hnull : null ≠ ':' := by decide
        rw [arguments_hostService hhost.1 hhost.2.1 hs hu]
        simp [hu, cString_eq_iff, hnull]
      · have hnode := node_ne_of_bracketed hhost (.inr ⟨s, rfl⟩) hu
        simp only [hu, false_and, iff_false]
        exact fun h => hnode (congrArg Prod.fst h)
  | bracketed v =>
      simp only [Named, false_and, iff_false]
      exact fun h => arguments_bracketed hw [] (congrArg Prod.fst h)
  | bracketedService v s =>
      simp only [Named, false_and, iff_false]
      exact fun h => arguments_bracketed hw.1 (':' :: s) (congrArg Prod.fst h)
  | bare v =>
      simp only [Named, false_and, iff_false]
      exact fun h => arguments_bare hw h

theorem right_iff_localhost : (hostService "localhost".toList "80".toList).WellFormed ∧
    ((hostService "localhost".toList "80".toList).Right ↔
      (hostService "localhost".toList "80".toList).Named ∧
        Unbracketed (hostService "localhost".toList "80".toList).text ∧
        null ∉ (hostService "localhost".toList "80".toList).text) := by
  have hw : (hostService "localhost".toList "80".toList).WellFormed := by
    refine ⟨⟨by decide, by decide, by decide⟩, by decide⟩
  exact ⟨hw, right_iff _ hw⟩

/-- The loopback address in brackets is passed with them, and with all behind its first colon as
the service. -/
theorem not_right_loopback :
    arguments "[::1]:80".toList = ("[::1]:80".toList, some "::1]:80".toList) ∧
      ¬ (bracketedService "::1".toList "80".toList).Right := by
  refine ⟨by decide, ?_⟩
  intro h
  have hnode := congrArg Prod.fst h
  revert hnode
  decide

end Input
end CIM.Lookup
