import Mathlib.Logic.Function.Basic
import CIM.Lib.System

/-!
# Configuration variables and their listeners

`setValue` stores the value and copies the listeners under the lock, and calls them after it was
released. Threads take these steps in any order; the state remembers what each listener was
called with last.
-/
namespace CIM

open Transition

/-- The listeners are their ids, in the order of the map. -/
structure ConfigVar (T : Type) where
  m_val : T
  m_cbs : List Nat

namespace ConfigVar

variable {T : Type} [DecidableEq T]

/-- The critical section of `setValue`: the old value and the listeners to call. -/
def setValue (cv : ConfigVar T) (v : T) : Option (T × List Nat) × ConfigVar T :=
  if v = cv.m_val then (none, cv) else (some (cv.m_val, cv.m_cbs), { cv with m_val := v })

/-- A call that is at its listeners; `turn` is the number of its store. -/
structure Notifying (T : Type) where
  old_value : T
  v : T
  cbs : List Nat
  turn : Nat

structure World (T : Type) where
  var : ConfigVar T
  /-- The stores so far. -/
  stores : Nat
  calls : Nat → Option (Notifying T)
  /-- The last old and new value each listener was called with. -/
  seen : Nat → Option (T × T)

inductive Event (T : Type)
  | setValue (thread : Nat) (v : T)
  | callback (thread : Nat)
  | done (thread : Nat)

/-- `setValue` up to the release of the lock. -/
def World.store (w : World T) (thread : Nat) (v : T) : World T :=
  match w.var.setValue v with
  | (none, _) => w
  | (some (old_value, cbs), var) =>
      { w with
        var := var
        stores := w.stores + 1
        calls := Function.update w.calls thread (some ⟨old_value, v, cbs, w.stores + 1⟩) }

/-- `i.second(old_value, v)` for the next listener. -/
def World.notify (w : World T) (thread : Nat) (n : Notifying T) (i : Nat) (rest : List Nat) :
    World T :=
  { w with
    calls := Function.update w.calls thread (some { n with cbs := rest })
    seen := Function.update w.seen i (some (n.old_value, n.v)) }

/-- A thread is in one call at a time. -/
inductive Step : World T → Event T → World T → Prop
  | setValue {w : World T} {t : Nat} {v : T} : w.calls t = none →
      Step w (.setValue t v) (w.store t v)
  | callback {w : World T} {t : Nat} {n : Notifying T} {i : Nat} {rest : List Nat} :
      w.calls t = some n → n.cbs = i :: rest → Step w (.callback t) (w.notify t n i rest)
  | done {w : World T} {t : Nat} {n : Notifying T} : w.calls t = some n → n.cbs = [] →
      Step w (.done t) { w with calls := Function.update w.calls t none }

/-- Any value and listeners that were not called yet. -/
def system (T : Type) [DecidableEq T] : System (World T) (Event T) where
  init w := w.stores = 0 ∧ (∀ t, w.calls t = none) ∧ ∀ i, w.seen i = none
  step := Step

/-- The latest store has its call of listener `i` still to make. -/
def World.Pending (w : World T) (i : Nat) : Prop :=
  ∃ t n, w.calls t = some n ∧ n.turn = w.stores ∧ i ∈ n.cbs

/-- The next call of thread `t` does not put an older value after the newest one. -/
def World.InOrder (w : World T) (t : Nat) : Prop :=
  ∀ n i rest, w.calls t = some n → n.cbs = i :: rest →
    n.turn = w.stores ∨ n.v = w.var.m_val ∨ w.Pending i

def Guard (w : World T) : Event T → Prop
  | .callback t => w.InOrder t
  | _ => True

/-- The listeners know the stored value or will be told. -/
def World.Informed (w : World T) : Prop :=
  ∀ i old v, w.seen i = some (old, v) → v = w.var.m_val ∨ w.Pending i

section Update

variable {α : Type} {f : Nat → Option α} {t t' : Nat} {a b : α}

theorem of_update_some (h : Function.update f t (some a) t' = some b) :
    t' = t ∧ b = a ∨ t' ≠ t ∧ f t' = some b := by
  by_cases htt : t' = t
  · rw [htt, Function.update_self] at h
    exact .inl ⟨htt, (Option.some.inj h).symm⟩
  · rw [Function.update_of_ne htt] at h
    exact .inr ⟨htt, h⟩

theorem of_update_none (h : Function.update f t none t' = some b) : f t' = some b := by
  by_cases htt : t' = t
  · rw [htt, Function.update_self] at h
    cases h
  · rw [Function.update_of_ne htt] at h
    exact h

end Update

structure Inv (w : World T) : Prop where
  turn_le : ∀ t n, w.calls t = some n → n.turn ≤ w.stores
  turn_inj : ∀ t t' n n', w.calls t = some n → w.calls t' = some n' → n.turn = n'.turn → t = t'
  latest : ∀ t n, w.calls t = some n → n.turn = w.stores → n.v = w.var.m_val
  subset : ∀ t n, w.calls t = some n → ∀ i ∈ n.cbs, i ∈ w.var.m_cbs
  registered : ∀ i p, w.seen i = some p → i ∈ w.var.m_cbs
  informed : w.Informed

namespace Inv

variable {w w' : World T} {t : Nat} {n : Notifying T}

theorem setValue (h : Inv w) (t : Nat) (v : T) : Inv (w.store t v) := by
  unfold World.store ConfigVar.setValue
  by_cases hv : v = w.var.m_val
  · rw [if_pos hv]
    exact h
  rw [if_neg hv]
  refine ⟨?_, ?_, ?_, ?_, h.registered, ?_⟩
  · intro t' n' hc
    obtain ⟨-, rfl⟩ | ⟨-, hc⟩ := of_update_some hc
    · exact Nat.le_refl _
    · exact Nat.le_succ_of_le (h.turn_le t' n' hc)
  · intro t₁ t₂ n₁ n₂ h₁ h₂ he
    obtain ⟨ht₁, rfl⟩ | ⟨-, hc₁⟩ := of_update_some h₁
    · obtain ⟨ht₂, -⟩ | ⟨-, hc₂⟩ := of_update_some h₂
      · exact ht₁.trans ht₂.symm
      · have hle := h.turn_le t₂ n₂ hc₂
        rw [← he] at hle
        exact absurd hle (Nat.not_succ_le_self _)
    · obtain ⟨-, rfl⟩ | ⟨-, hc₂⟩ := of_update_some h₂
      · have hle := h.turn_le t₁ n₁ hc₁
        rw [he] at hle
        exact absurd hle (Nat.not_succ_le_self _)
      · exact h.turn_inj t₁ t₂ n₁ n₂ hc₁ hc₂ he
  · intro t' n' hc he
    obtain ⟨-, rfl⟩ | ⟨-, hc⟩ := of_update_some hc
    · rfl
    · have hle := h.turn_le t' n' hc
      rw [he] at hle
      exact absurd hle (Nat.not_succ_le_self _)
  · intro t' n' hc i hi
    obtain ⟨-, rfl⟩ | ⟨-, hc⟩ := of_update_some hc
    · exact hi
    · exact h.subset t' n' hc i hi
  · intro i old v' hs
    exact .inr ⟨t, _, Function.update_self .., rfl, h.registered i _ hs⟩

omit [DecidableEq T] in
/-- Making the next call keeps everything but, where an older value overtakes, the agreement. -/
theorem callback_iff (h : Inv w) (hc : w.calls t = some n) {i : Nat} {rest : List Nat}
    (hcbs : n.cbs = i :: rest) : Inv (w.notify t n i rest) ↔ w.InOrder t := by
  have hmem : i ∈ n.cbs := hcbs ▸ List.mem_cons_self
  constructor
  · intro h' n₁ i₁ rest₁ hn₁ hcbs₁
    obtain rfl := Option.some.inj (hc.symm.trans hn₁)
    obtain ⟨rfl, rfl⟩ := List.cons.inj (hcbs.symm.trans hcbs₁)
    obtain hv | ⟨t', n', hc', hturn, hi⟩ :=
      h'.informed i n.old_value n.v (Function.update_self ..)
    · exact .inr (.inl hv)
    · obtain ⟨-, rfl⟩ | ⟨-, hc'⟩ := of_update_some hc'
      · exact .inl hturn
      · exact .inr (.inr ⟨t', n', hc', hturn, hi⟩)
  · intro hg
    refine ⟨?_, ?_, ?_, ?_, ?_, ?_⟩
    · intro t' n' hc'
      obtain ⟨-, rfl⟩ | ⟨-, hc'⟩ := of_update_some hc'
      · exact h.turn_le t n hc
      · exact h.turn_le t' n' hc'
    · intro t₁ t₂ n₁ n₂ h₁ h₂ he
      obtain ⟨ht₁, rfl⟩ | ⟨-, hc₁⟩ := of_update_some h₁
      · obtain ⟨ht₂, -⟩ | ⟨-, hc₂⟩ := of_update_some h₂
        · exact ht₁.trans ht₂.symm
        · exact ht₁.trans (h.turn_inj t t₂ n n₂ hc hc₂ he)
      · obtain ⟨ht₂, rfl⟩ | ⟨-, hc₂⟩ := of_update_some h₂
        · exact (h.turn_inj t₁ t n₁ n hc₁ hc he).trans ht₂.symm
        · exact h.turn_inj t₁ t₂ n₁ n₂ hc₁ hc₂ he
    · intro t' n' hc' he
      obtain ⟨-, rfl⟩ | ⟨-, hc'⟩ := of_update_some hc'
      · exact h.latest t n hc he
      · exact h.latest t' n' hc' he
    · intro t' n' hc' j hj
      obtain ⟨-, rfl⟩ | ⟨-, hc'⟩ := of_update_some hc'
      · exact h.subset t n hc j (hcbs ▸ List.mem_cons_of_mem i hj)
      · exact h.subset t' n' hc' j hj
    · intro j p hs
      change Function.update w.seen i (some (n.old_value, n.v)) j = some p at hs
      by_cases hji : j = i
      · exact hji ▸ h.subset t n hc i hmem
      · rw [Function.update_of_ne hji] at hs
        exact h.registered j p hs
    · intro j old v hs
      change Function.update w.seen i (some (n.old_value, n.v)) j = some (old, v) at hs
      -- a call that is pending for another listener, or in another thread, is pending still
      have hkeep : w.Pending j → (j ≠ i ∨ n.turn ≠ w.stores) →
          (w.notify t n i rest).Pending j := by
        rintro ⟨t', n', hc', hturn, hj⟩ hne
        by_cases htt : t' = t
        · obtain rfl := Option.some.inj (hc.symm.trans (htt ▸ hc'))
          have hj' : j ∈ rest := by
            rw [hcbs, List.mem_cons] at hj
            exact hj.resolve_left (hne.resolve_right fun hx => hx hturn)
          exact ⟨t, _, Function.update_self .., hturn, hj'⟩
        · exact ⟨t', n', (Function.update_of_ne htt ..).trans hc', hturn, hj⟩
      by_cases hji : j = i
      · rw [hji, Function.update_self] at hs
        obtain ⟨-, rfl⟩ := Prod.mk.inj (Option.some.inj hs)
        by_cases hlast : n.turn = w.stores
        · exact .inl (h.latest t n hc hlast)
        · obtain hl | hv | hp := hg n i rest hc hcbs
          · exact absurd hl hlast
          · exact .inl hv
          · exact .inr (hkeep (hji ▸ hp) (.inr hlast))
      · rw [Function.update_of_ne hji] at hs
        obtain hv | hp := h.informed j old v hs
        · exact .inl hv
        · exact .inr (hkeep hp (.inl hji))

omit [DecidableEq T] in
theorem done (h : Inv w) (hc : w.calls t = some n) (hcbs : n.cbs = []) :
    Inv { w with calls := Function.update w.calls t none } := by
  refine ⟨fun t' n' hc' => h.turn_le t' n' (of_update_none hc'), ?_,
    fun t' n' hc' => h.latest t' n' (of_update_none hc'),
    fun t' n' hc' => h.subset t' n' (of_update_none hc'), h.registered, ?_⟩
  · intro t₁ t₂ n₁ n₂ h₁ h₂
    exact h.turn_inj t₁ t₂ n₁ n₂ (of_update_none h₁) (of_update_none h₂)
  · intro i old v hs
    obtain hv | ⟨t', n', hc', hturn, hi⟩ := h.informed i old v hs
    · exact .inl hv
    · have htt : t' ≠ t := by
        rintro rfl
        obtain rfl := Option.some.inj (hc.symm.trans hc')
        rw [hcbs] at hi
        cases hi
      exact .inr ⟨t', n', (Function.update_of_ne htt ..).trans hc', hturn, hi⟩

theorem init (hi : (system T).init w) : Inv w := by
  obtain ⟨-, hcalls, hseen⟩ := hi
  have hno : ∀ {t n}, w.calls t ≠ some n := fun {t n} hc => nomatch (hcalls t).symm.trans hc
  exact
    { turn_le := fun t n hc => absurd hc hno
      turn_inj := fun t _ n _ hc _ _ => absurd hc hno
      latest := fun t n hc _ => absurd hc hno
      subset := fun t n hc _ _ => absurd hc hno
      registered := fun i p hs => nomatch (hseen i).symm.trans hs
      informed := fun i old v hs => nomatch (hseen i).symm.trans hs }

theorem step {e : Event T} (h : Inv w) (hg : Guard w e) (hs : Step w e w') : Inv w' := by
  cases hs with
  | setValue ht => exact h.setValue _ _
  | callback hc hcbs => exact (h.callback_iff hc hcbs).mpr hg
  | done hc hcbs => exact h.done hc hcbs

end Inv

/-- Along a run whose calls are in order the listeners agree with the variable whenever no call
is under way, and the next call keeps them informed if and only if it is in order too. -/
theorem run_listeners_agree {es : List (Event T)} {w : World T}
    (h : ((system T).restrict Guard).Run es w) :
    ((∀ t, w.calls t = none) → ∀ i old v, w.seen i = some (old, v) → v = w.var.m_val) ∧
      ∀ t n i rest, w.calls t = some n → n.cbs = i :: rest →
        ((w.notify t n i rest).Informed ↔ w.InOrder t) := by
  have hinv : Inv w := by
    refine h.invariant (I := Inv) ?_ ?_
    · intro w₀ hi
      exact Inv.init hi
    · rintro w₁ e w₂ hi ⟨hg, hs⟩
      exact hi.step hg hs
  constructor
  · intro hidle i old v hs
    obtain hv | ⟨t, n, hc, -, -⟩ := hinv.informed i old v hs
    · exact hv
    · exact nomatch (hidle t).symm.trans hc
  · intro t n i rest hc hcbs
    rw [← hinv.callback_iff hc hcbs]
    refine ⟨fun hinf => (hinv.callback_iff hc hcbs).mpr ?_, Inv.informed⟩
    intro n₁ i₁ rest₁ hn₁ hcbs₁
    obtain rfl := Option.some.inj (hc.symm.trans hn₁)
    obtain ⟨rfl, rfl⟩ := List.cons.inj (hcbs.symm.trans hcbs₁)
    obtain hv | ⟨t', n', hc', hturn, hi⟩ := hinf i n.old_value n.v (Function.update_self ..)
    · exact .inr (.inl hv)
    · by_cases htt : t' = t
      · have hn' : some { n with cbs := rest } = some n' := by
          rw [← hc', htt]
          exact (Function.update_self t _ w.calls).symm
        rw [← Option.some.inj hn'] at hturn
        exact .inl hturn
      · exact .inr (.inr ⟨t', n', (Function.update_of_ne htt ..).symm.trans hc', hturn, hi⟩)

/-- Two threads that set two values; the second waits for the first one's call. -/
theorem run_listeners_agree_two_threads :
    ∃ w : World Nat, ((system Nat).restrict Guard).Run
        [.setValue 0 1, .setValue 1 2, .callback 0, .callback 1, .done 0, .done 1] w ∧
      w.seen 7 = some (1, 2) ∧
      ((∀ t, w.calls t = none) → ∀ i old v, w.seen i = some (old, v) → v = w.var.m_val) ∧
      ∀ t n i rest, w.calls t = some n → n.cbs = i :: rest →
        ((w.notify t n i rest).Informed ↔ w.InOrder t) := by
  let w₀ : World Nat := ⟨⟨0, [7]⟩, 0, fun _ => none, fun _ => none⟩
  let w₂ := (w₀.store 0 1).store 1 2
  let w₄ := (w₂.notify 0 ⟨0, 1, [7], 1⟩ 7 []).notify 1 ⟨1, 2, [7], 2⟩ 7 []
  have h₀ : ((system Nat).restrict Guard).Run [] w₀ :=
    .start ⟨rfl, fun _ => rfl, fun _ => rfl⟩
  have h₁ : ((system Nat).restrict Guard).Run _ (w₀.store 0 1) :=
    h₀.snoc (e := Event.setValue 0 1) ⟨trivial, .setValue rfl⟩
  have h₂ : ((system Nat).restrict Guard).Run _ w₂ :=
    h₁.snoc (e := Event.setValue 1 2) ⟨trivial, .setValue rfl⟩
  have hfirst : w₂.InOrder 0 := by
    intro n i rest hn hcbs
    have hw : w₂.calls 0 = some ⟨0, 1, [7], 1⟩ := rfl
    obtain rfl := Option.some.inj (hw.symm.trans hn)
    obtain ⟨rfl, -⟩ := List.cons.inj hcbs
    exact .inr (.inr ⟨1, ⟨1, 2, [7], 2⟩, rfl, rfl, List.mem_cons_self⟩)
  have h₃ : ((system Nat).restrict Guard).Run _ (w₂.notify 0 ⟨0, 1, [7], 1⟩ 7 []) :=
    h₂.snoc (e := Event.callback 0) ⟨hfirst, .callback rfl rfl⟩
  have hsecond : (w₂.notify 0 ⟨0, 1, [7], 1⟩ 7 []).InOrder 1 := by
    intro n i rest hn _
    have hw : (w₂.notify 0 ⟨0, 1, [7], 1⟩ 7 []).calls 1 = some ⟨1, 2, [7], 2⟩ := rfl
    obtain rfl := Option.some.inj (hw.symm.trans hn)
    exact .inl rfl
  have h₄ : ((system Nat).restrict Guard).Run _ w₄ :=
    h₃.snoc (e := Event.callback 1) ⟨hsecond, .callback rfl rfl⟩
  have h₅ := h₄.snoc (e := Event.done 0) ⟨trivial, .done (n := ⟨0, 1, [], 1⟩) rfl rfl⟩
  have h₆ := h₅.snoc (e := Event.done 1) ⟨trivial, .done (n := ⟨1, 2, [], 2⟩) rfl rfl⟩
  exact ⟨_, h₆, rfl, run_listeners_agree h₆⟩

/-- The older value is told last. -/
theorem overtaken_callback_disagrees :
    ∃ w : World Nat, (system Nat).Run
        [.setValue 0 1, .setValue 1 2, .callback 1, .callback 0, .done 0, .done 1] w ∧
      (∀ t, w.calls t = none) ∧ w.seen 7 = some (0, 1) ∧ w.var.m_val = 2 := by
  let w₀ : World Nat := ⟨⟨0, [7]⟩, 0, fun _ => none, fun _ => none⟩
  let w₂ := (w₀.store 0 1).store 1 2
  let w₄ := (w₂.notify 1 ⟨1, 2, [7], 2⟩ 7 []).notify 0 ⟨0, 1, [7], 1⟩ 7 []
  have h₀ : (system Nat).Run [] w₀ := .start ⟨rfl, fun _ => rfl, fun _ => rfl⟩
  have h₁ : (system Nat).Run _ (w₀.store 0 1) :=
    h₀.snoc (e := Event.setValue 0 1) (.setValue rfl)
  have h₂ : (system Nat).Run _ w₂ := h₁.snoc (e := Event.setValue 1 2) (.setValue rfl)
  have h₃ : (system Nat).Run _ (w₂.notify 1 ⟨1, 2, [7], 2⟩ 7 []) :=
    h₂.snoc (e := Event.callback 1) (.callback rfl rfl)
  have h₄ : (system Nat).Run _ w₄ := h₃.snoc (e := Event.callback 0) (.callback rfl rfl)
  have h₅ := h₄.snoc (e := Event.done 0) (.done (n := ⟨0, 1, [], 1⟩) rfl rfl)
  have h₆ := h₅.snoc (e := Event.done 1) (.done (n := ⟨1, 2, [], 2⟩) rfl rfl)
  refine ⟨_, h₆, ?_, rfl, rfl⟩
  intro t
  match t with
  | 0 => rfl
  | 1 => rfl
  | t+2 => rfl

end ConfigVar

end CIM
