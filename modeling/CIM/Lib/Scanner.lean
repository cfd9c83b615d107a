import Mathlib.Data.List.Basic
import Mathlib.Tactic.Common

/-!
# Scanners over successive buffers

A generated scanner goes from state to state over the bytes of a buffer and performs actions, which
read the buffer at offsets that earlier actions stored. It is run on one buffer after another, and
an offset means something only in the buffer in which it was stored.
-/
namespace Scanner

/-- What is generated for a grammar: the actions on a byte in order, and the next state. Final
states are entered with `done`, which ends a run behind its byte; an error ends it in front. -/
structure Machine (α : Type) (done : α) where
  start : Nat
  error : Nat
  first_final : Nat
  step : Nat → UInt8 → List α × Nat
  final : ∀ cs b, first_final ≤ (step cs b).2 → done ∈ (step cs b).1 ∨ (step cs b).2 = error

variable {α κ σ : Type} {done : α} [DecidableEq α]

/-- `n` bytes from the offset on. -/
def slice (buf : List UInt8) (off n : Nat) : List UInt8 := (buf.drop off).take n

section Definitions

variable (m : Machine α done)

/-- The bytes of `buf` from `p` on: the state of the machine, that of the actions, the offset at
which the run ends, and whether it was ended. -/
def exec (act : List UInt8 → Nat → σ → α → Option σ) (buf : List UInt8) :
    Nat → List UInt8 → Nat → σ → Option (Nat × σ × Nat × Bool)
  | p, [], cs, s => some (cs, s, p, false)
  | p, b :: rest, cs, s =>
      let r := m.step cs b
      (r.1.foldlM (act buf p) s).bind fun s =>
        if done ∈ r.1 then some (r.2, s, p + 1, true)
        else if r.2 = m.error then some (r.2, s, p, true)
        else exec act buf (p + 1) rest r.2 s

/-- The state after some bytes, how many of them were taken, and whether the run was ended. -/
def Machine.after (m : Machine α done) : Nat → List UInt8 → Nat × Nat × Bool
  | cs, [] => (cs, 0, false)
  | cs, b :: rest =>
      if done ∈ (m.step cs b).1 then ((m.step cs b).2, 1, true)
      else if (m.step cs b).2 = m.error then ((m.step cs b).2, 0, true)
      else
        let r := m.after (m.step cs b).2 rest
        (r.1, r.2.1 + 1, r.2.2)

/-- No action reads an offset of another buffer. `know` says which offsets are known after an
action, and is none where the action reads an unknown one. -/
def Uncut (know : κ → α → Option κ) : Nat → κ → List UInt8 → Prop
  | _, _, [] => True
  | cs, k, b :: rest =>
      ∃ k', (m.step cs b).1.foldlM know k = some k' ∧
        (done ∈ (m.step cs b).1 ∨ (m.step cs b).2 = m.error ∨ Uncut know (m.step cs b).2 k' rest)

instance decidableUncut (know : κ → α → Option κ) : ∀ cs k bs, Decidable (Uncut m know cs k bs)
  | _, _, [] => .isTrue trivial
  | cs, k, b :: rest =>
      match h : (m.step cs b).1.foldlM know k with
      | none => .isFalse fun ⟨_, hk, _⟩ => nomatch h.symm.trans hk
      | some k' =>
          have := decidableUncut know (m.step cs b).2 k' rest
          decidable_of_iff (done ∈ (m.step cs b).1 ∨ (m.step cs b).2 = m.error ∨
              Uncut m know (m.step cs b).2 k' rest)
            ⟨fun hu => ⟨k', h, hu⟩, fun ⟨_, hk, hu⟩ => Option.some.inj (h.symm.trans hk) ▸ hu⟩

end Definitions

variable {m : Machine α done} {act : List UInt8 → Nat → σ → α → Option σ}
  {know : κ → α → Option κ} {R : Nat → Nat → κ → σ → σ → Prop}
  {off p n cs : Nat} {k k' : κ} {s s' t : σ} {pre buf post bs bs' : List UInt8}

theorem Machine.after_cons (cs : Nat) (b : UInt8) (rest : List UInt8) :
    m.after cs (b :: rest) =
      if done ∈ (m.step cs b).1 then ((m.step cs b).2, 1, true)
      else if (m.step cs b).2 = m.error then ((m.step cs b).2, 0, true)
      else
        let r := m.after (m.step cs b).2 rest
        (r.1, r.2.1 + 1, r.2.2) := rfl

theorem slice_middle {a : Nat} (hoff : pre.length = off) (h : a + n ≤ buf.length) :
    slice (pre ++ buf ++ post) (off + a) n = slice buf a n := by
  unfold slice
  rw [List.append_assoc, ← hoff, List.drop_length_add_append,
    List.drop_append_of_le_length (by omega), List.take_append_of_le_length]
  rw [List.length_drop]
  omega

/-- What lies between a mark and the place that is reached. -/
theorem slice_since {mark mark' : Nat} (hoff : pre.length = off) (hmark : mark = off + mark')
    (hle : mark' ≤ n) (hn : n ≤ buf.length) :
    slice (pre ++ buf ++ post) mark (off + n - mark) = slice buf mark' (n - mark') := by
  rw [hmark, Nat.add_sub_add_left]
  exact slice_middle hoff (by omega)

/-- The length of a token that ends at `n` is the same, and it ends there. -/
theorem length_since {start start' : Nat} (hstart : start = off + start') (hle : start' ≤ n) :
    off + n - start = n - start' ∧ start' + (n - start') ≤ n := by
  omega

/-! ## How far a machine comes -/

theorem after_le (cs : Nat) (bs : List UInt8) : (m.after cs bs).2.1 ≤ bs.length := by
  induction bs generalizing cs with
  | nil => exact Nat.le_refl 0
  | cons b bs ih =>
      rw [Machine.after_cons]
      split
      · exact Nat.succ_le_succ (Nat.zero_le _)
      · split
        · exact Nat.zero_le _
        · exact Nat.succ_le_succ (ih _)

/-- A run that is not ended takes every byte and is in no final state. -/
theorem after_live (h : (m.after cs bs).2.2 = false) (hbs : bs ≠ []) :
    (m.after cs bs).2.1 = bs.length ∧ (m.after cs bs).1 ≠ m.error ∧
      (m.after cs bs).1 < m.first_final := by
  induction bs generalizing cs with
  | nil => exact absurd rfl hbs
  | cons b bs ih =>
      rw [Machine.after_cons] at h ⊢
      split at h
      · cases h
      · rename_i hdone
        rw [if_neg hdone]
        split at h
        · cases h
        · rename_i herr
          rw [if_neg herr]
          cases bs with
          | nil =>
              refine ⟨rfl, herr, Nat.lt_of_not_le fun hfinal => ?_⟩
              rcases m.final cs b hfinal with hd | he
              · exact hdone hd
              · exact herr he
          | cons c cs' =>
              obtain ⟨hn, hrest⟩ := ih h (List.cons_ne_nil c cs')
              exact ⟨congrArg (· + 1) hn, hrest⟩

/-- Bytes behind those at which the run is ended do not matter. -/
theorem after_append (h : (m.after cs bs).2.2 = true) :
    m.after cs (bs ++ bs') = m.after cs bs := by
  induction bs generalizing cs with
  | nil => cases h
  | cons b bs ih =>
      rw [List.cons_append, Machine.after_cons, Machine.after_cons]
      rw [Machine.after_cons] at h
      split
      · rfl
      · rename_i hdone
        rw [if_neg hdone] at h
        split
        · rfl
        · rename_i herr
          rw [if_neg herr] at h
          rw [ih h]

/-- A run that is not ended goes on. -/
theorem after_continue (h : (m.after cs bs).2.2 = false) :
    (m.after cs (bs ++ bs')).2.1 = bs.length + (m.after (m.after cs bs).1 bs').2.1 ∧
      (m.after cs (bs ++ bs')).2.2 = (m.after (m.after cs bs).1 bs').2.2 := by
  induction bs generalizing cs with
  | nil => exact ⟨(Nat.zero_add _).symm, rfl⟩
  | cons b bs ih =>
      rw [Machine.after_cons] at h
      rw [List.cons_append, Machine.after_cons, Machine.after_cons, List.length_cons]
      split at h
      · cases h
      · rename_i hdone
        rw [if_neg hdone, if_neg hdone]
        split at h
        · cases h
        · rename_i herr
          rw [if_neg herr, if_neg herr]
          obtain ⟨hn, hstop⟩ := ih h
          refine ⟨?_, hstop⟩
          dsimp only
          rw [hn]
          omega

/-- How far a run comes is decided by the machine alone. -/
theorem exec_after {stop : Bool} {cs' : Nat}
    (h : exec m act buf p bs cs s = some (cs', s', n, stop)) :
    cs' = (m.after cs bs).1 ∧ n = p + (m.after cs bs).2.1 ∧ stop = (m.after cs bs).2.2 := by
  induction bs generalizing p cs s with
  | nil =>
      cases h
      exact ⟨rfl, rfl, rfl⟩
  | cons b bs ih =>
      obtain ⟨s₁, h₁, h⟩ := Option.bind_eq_some_iff.mp h
      rw [Machine.after_cons]
      by_cases hdone : done ∈ (m.step cs b).1
      · rw [if_pos hdone] at h ⊢
        cases h
        exact ⟨rfl, rfl, rfl⟩
      · rw [if_neg hdone] at h ⊢
        by_cases herr : (m.step cs b).2 = m.error
        · rw [if_pos herr] at h ⊢
          cases h
          exact ⟨rfl, rfl, rfl⟩
        · rw [if_neg herr] at h ⊢
          obtain ⟨hcs, hn, hstop⟩ := ih h
          refine ⟨hcs, ?_, hstop⟩
          rw [hn]
          dsimp only
          omega

theorem exec_append (buf bs bs' : List UInt8) (p cs : Nat) (s : σ) :
    exec m act buf p (bs ++ bs') cs s = (exec m act buf p bs cs s).bind fun r =>
      if r.2.2.2 then some r else exec m act buf r.2.2.1 bs' r.1 r.2.1 := by
  induction bs generalizing p cs s with
  | nil => rfl
  | cons b bs ih =>
      rw [List.cons_append, exec, exec]
      cases (m.step cs b).1.foldlM (act buf p) s with
      | none => rfl
      | some s₁ =>
          simp only [Option.bind_some]
          split
          · rfl
          · split
            · rfl
            · exact ih _ _ _

section Keeps

variable {K : σ → σ → Prop}

omit [DecidableEq α] in
/-- What every action keeps is kept by several in a row. -/
theorem foldlM_keeps {as : List α} (hrefl : ∀ s, K s s)
    (htrans : ∀ {s t u}, K s t → K t u → K s u)
    (hact : ∀ {p s a s'}, act buf p s a = some s' → K s s')
    (h : as.foldlM (act buf p) s = some s') : K s s' := by
  induction as generalizing s with
  | nil => exact Option.some.inj h ▸ hrefl s
  | cons a as ih =>
      obtain ⟨s₁, h₁, h⟩ := Option.bind_eq_some_iff.mp h
      exact htrans (hact h₁) (ih h)

/-- What every action keeps is kept by a run. -/
theorem exec_keeps {stop : Bool} {cs' : Nat} (hrefl : ∀ s, K s s)
    (htrans : ∀ {s t u}, K s t → K t u → K s u)
    (hact : ∀ {p s a s'}, act buf p s a = some s' → K s s')
    (h : exec m act buf p bs cs s = some (cs', s', n, stop)) : K s s' := by
  induction bs generalizing p cs s with
  | nil =>
      cases h
      exact hrefl _
  | cons b bs ih =>
      obtain ⟨s₁, h₁, h⟩ := Option.bind_eq_some_iff.mp h
      have hkeeps : K s s₁ := foldlM_keeps hrefl htrans hact h₁
      split at h
      · cases h
        exact hkeeps
      · split at h
        · cases h
          exact hkeeps
        · exact htrans hkeeps (ih h)

end Keeps

/-! ## Buffers that cut no token -/

omit [DecidableEq α] in
theorem uncut_append (h : Uncut m know cs k (bs ++ bs')) : Uncut m know cs k bs := by
  induction bs generalizing cs k with
  | nil => trivial
  | cons b bs ih =>
      obtain ⟨k', hk, h⟩ := h
      exact ⟨k', hk, h.imp_right fun h => h.imp_right ih⟩

/-- Bytes behind those at which the run is ended cut nothing. -/
theorem uncut_stopped (h : Uncut m know cs k bs) (hstop : (m.after cs bs).2.2 = true) :
    Uncut m know cs k (bs ++ bs') := by
  induction bs generalizing cs k with
  | nil => cases hstop
  | cons b bs ih =>
      obtain ⟨k', hk, h⟩ := h
      refine ⟨k', hk, ?_⟩
      rw [Machine.after_cons] at hstop
      by_cases hdone : done ∈ (m.step cs b).1
      · exact .inl hdone
      · rw [if_neg hdone] at hstop
        by_cases herr : (m.step cs b).2 = m.error
        · exact .inr (.inl herr)
        · rw [if_neg herr] at hstop
          rcases h with h | h | h
          · exact absurd h hdone
          · exact absurd h herr
          · exact .inr (.inr (ih h hstop))

/-- More may be known than is needed. -/
def Monotone (know : κ → α → Option κ) (le : κ → κ → Prop) : Prop :=
  ∀ {k k₁ k' a}, le k k₁ → know k a = some k' → ∃ k₁', know k₁ a = some k₁' ∧ le k' k₁'

omit [DecidableEq α] in
theorem Monotone.foldlM {le : κ → κ → Prop} {k₁ : κ} {as : List α} (hmono : Monotone know le)
    (hle : le k k₁) (h : as.foldlM know k = some k') :
    ∃ k₁', as.foldlM know k₁ = some k₁' ∧ le k' k₁' := by
  induction as generalizing k k₁ with
  | nil => exact ⟨k₁, rfl, Option.some.inj h ▸ hle⟩
  | cons a as ih =>
      obtain ⟨k₂, h₂, h⟩ := Option.bind_eq_some_iff.mp h
      obtain ⟨k₃, h₃, hle₃⟩ := hmono hle h₂
      obtain ⟨k₁', h₁, hle₁⟩ := ih hle₃ h
      exact ⟨k₁', Option.bind_eq_some_iff.mpr ⟨k₃, h₃, h₁⟩, hle₁⟩

omit [DecidableEq α] in
theorem Monotone.uncut {le : κ → κ → Prop} {k₁ : κ} (hmono : Monotone know le)
    (h : Uncut m know cs k bs) (hle : le k k₁) : Uncut m know cs k₁ bs := by
  induction bs generalizing cs k k₁ with
  | nil => trivial
  | cons b bs ih =>
      obtain ⟨k', hk, h⟩ := h
      obtain ⟨k₁', hk₁, hle'⟩ := hmono.foldlM hle hk
      exact ⟨k₁', hk₁, h.imp_right fun h => h.imp_right fun h => ih h hle'⟩

/-- Bytes that cut no token in a buffer of their own cut none behind others. -/
theorem Monotone.append {le : κ → κ → Prop} {k₀ : κ} (hmono : Monotone know le)
    (hleast : ∀ k, le k₀ k) (h : Uncut m know cs k bs) (hlive : (m.after cs bs).2.2 = false)
    (h' : Uncut m know (m.after cs bs).1 k₀ bs') : Uncut m know cs k (bs ++ bs') := by
  induction bs generalizing cs k with
  | nil => exact hmono.uncut h' (hleast k)
  | cons b bs ih =>
      obtain ⟨k', hk, h⟩ := h
      rw [Machine.after_cons] at hlive h'
      refine ⟨k', hk, ?_⟩
      split at hlive
      · cases hlive
      · rename_i hdone
        rw [if_neg hdone] at h'
        split at hlive
        · cases hlive
        · rename_i herr
          rw [if_neg herr] at h'
          rcases h with h | h | h
          · exact absurd h hdone
          · exact absurd h herr
          · exact .inr (.inr (ih h hlive h'))

/-! ## One buffer and several -/

/-- `R` relates a run in a buffer, in which another one begins at `off`, to the run in that one:
an action that reads known offsets does the same in both. -/
structure Simulation (act : List UInt8 → Nat → σ → α → Option σ) (know : κ → α → Option κ)
    (R : Nat → Nat → κ → σ → σ → Prop) : Prop where
  act : ∀ {off p k k' s t a} {pre buf post : List UInt8}, R off p k s t → know k a = some k' →
    pre.length = off → p < buf.length →
      ∃ s' t', act (pre ++ buf ++ post) (off + p) s a = some s' ∧ act buf p t a = some t' ∧
        R off p k' s' t'
  le : ∀ {off p q k s t}, R off p k s t → p ≤ q → R off q k s t

omit [DecidableEq α] in
/-- Several actions in a row. -/
theorem Simulation.foldlM (hsim : Simulation act know R) {as : List α} (pre post : List UInt8)
    (h : R off p k s t) (hk : as.foldlM know k = some k') (hoff : pre.length = off)
    (hp : p < buf.length) :
    ∃ s' t', as.foldlM (act (pre ++ buf ++ post) (off + p)) s = some s' ∧
      as.foldlM (act buf p) t = some t' ∧ R off p k' s' t' := by
  induction as generalizing k s t with
  | nil =>
      obtain rfl := Option.some.inj hk
      exact ⟨s, t, rfl, rfl, h⟩
  | cons a as ih =>
      obtain ⟨k₁, hk₁, hk⟩ := Option.bind_eq_some_iff.mp hk
      obtain ⟨s₁, t₁, hs₁, ht₁, h₁⟩ := hsim.act h hk₁ hoff hp
      obtain ⟨s', t', hs, ht, h'⟩ := ih h₁ hk
      refine ⟨s', t', ?_, ?_, h'⟩
      · exact Option.bind_eq_some_iff.mpr ⟨s₁, hs₁, hs⟩
      · exact Option.bind_eq_some_iff.mpr ⟨t₁, ht₁, ht⟩

/-- The bytes of a buffer that cuts no token, in both buffers. -/
theorem Simulation.exec (hsim : Simulation act know R) (pre post : List UInt8)
    (h : R off p k s t) (hu : Uncut m know cs k bs) (hoff : pre.length = off)
    (hp : p + bs.length = buf.length) :
    ∃ s' t' k', exec m act (pre ++ buf ++ post) (off + p) bs cs s = some ((m.after cs bs).1, s',
        off + p + (m.after cs bs).2.1, (m.after cs bs).2.2) ∧
      Scanner.exec m act buf p bs cs t = some ((m.after cs bs).1, t',
        p + (m.after cs bs).2.1, (m.after cs bs).2.2) ∧
      R off buf.length k' s' t' := by
  induction bs generalizing p k cs s t with
  | nil =>
      rw [List.length_nil, Nat.add_zero] at hp
      exact ⟨s, t, k, rfl, rfl, hp ▸ h⟩
  | cons b bs ih =>
      obtain ⟨k₁, hk₁, hu⟩ := hu
      rw [List.length_cons] at hp
      obtain ⟨s₁, t₁, hs₁, ht₁, h₁⟩ :=
        hsim.foldlM pre post h hk₁ hoff (by omega : p < buf.length)
      simp only [Scanner.exec, Machine.after_cons, hs₁, ht₁, Option.bind_some]
      by_cases hdone : done ∈ (m.step cs b).1
      · simp only [if_pos hdone]
        exact ⟨_, _, k₁, rfl, rfl, hsim.le h₁ (by omega)⟩
      · simp only [if_neg hdone]
        by_cases herr : (m.step cs b).2 = m.error
        · simp only [if_pos herr]
          exact ⟨_, _, k₁, rfl, rfl, hsim.le h₁ (by omega)⟩
        · simp only [if_neg herr]
          have hrest : Uncut m know (m.step cs b).2 k₁ bs := by
            rcases hu with hu | hu | hu
            · exact absurd hu hdone
            · exact absurd hu herr
            · exact hu
          obtain ⟨s', t', k', hs, ht, h'⟩ := ih (hsim.le h₁ (Nat.le_succ p)) hrest (by omega)
          refine ⟨s', t', k', hs.trans ?_, ht.trans ?_, h'⟩
          · refine congrArg (fun n => some ((m.after (m.step cs b).2 bs).1, s', n,
              (m.after (m.step cs b).2 bs).2.2)) ?_
            change off + (p + 1) + (m.after (m.step cs b).2 bs).2.1 =
              off + p + ((m.after (m.step cs b).2 bs).2.1 + 1)
            omega
          · refine congrArg (fun n => some ((m.after (m.step cs b).2 bs).1, t', n,
              (m.after (m.step cs b).2 bs).2.2)) ?_
            change p + 1 + (m.after (m.step cs b).2 bs).2.1 =
              p + ((m.after (m.step cs b).2 bs).2.1 + 1)
            omega

end Scanner
