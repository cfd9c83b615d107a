import Mathlib.Data.List.Nodup
import Mathlib.Logic.Function.Basic
import CIM.Io.Lock
import CIM.Lib.System

/-!
# Permits of the coroutine semaphore

A coroutine that finds no permit queues itself in one critical section and yields after it; a
`notify` may schedule it in between. The scheduler resumes a coroutine that has yielded.
-/
namespace CIM

open Transition

namespace CoroutineSemaphore

variable {κ : Type}

/-- `EXEC` until the coroutine yields, `HOLD` from then on. -/
inductive Phase
  | exec
  | hold
  deriving DecidableEq

structure World (κ : Type) where
  sem : CoroutineSemaphore κ
  /-- Inside a `wait` that found no permit; none outside. -/
  waiting : κ → Option Phase
  /-- What `schedule` was called with and has not been resumed, oldest first. -/
  scheduled : List κ
  /-- The permits there were at first and the calls of `notify`. -/
  granted : Nat
  /-- The acquisitions that are complete. -/
  acquired : Nat
  /-- The coroutines in the order in which they queued, and in which they were woken. -/
  queued : List κ
  woken : List κ

inductive Event (κ : Type)
  | tryWait (self : κ)
  | wait (self : κ)
  | yieldToHold (self : κ)
  | notify
  | resume (self : κ)

section Steps

variable [DecidableEq κ]

def World.tryWait (w : World κ) : World κ :=
  { w with
    sem := w.sem.tryWait.2
    acquired := if w.sem.tryWait.1 then w.acquired + 1 else w.acquired }

/-- The critical section of `wait`. -/
def World.wait (w : World κ) (self : κ) : World κ :=
  match w.sem.wait self with
  | (true, sem) => { w with sem := sem, acquired := w.acquired + 1 }
  | (false, sem) =>
      { w with
        sem := sem
        waiting := Function.update w.waiting self (some .exec)
        queued := w.queued ++ [self] }

def World.notify (w : World κ) : World κ :=
  match w.sem.notify with
  | (some next, sem) =>
      { w with
        sem := sem
        granted := w.granted + 1
        scheduled := w.scheduled ++ [next]
        woken := w.woken ++ [next] }
  | (none, sem) => { w with sem := sem, granted := w.granted + 1 }

/-- `wait` returns. -/
def World.resume (w : World κ) (self : κ) : World κ :=
  { w with
    waiting := Function.update w.waiting self none
    scheduled := w.scheduled.erase self
    acquired := w.acquired + 1 }

/-- A coroutine calls while it runs; `notify` is called by anyone, a thread or a coroutine. -/
inductive Step : World κ → Event κ → World κ → Prop
  | tryWait {w : World κ} {c : κ} : w.waiting c = none → Step w (.tryWait c) w.tryWait
  | wait {w : World κ} {c : κ} : w.waiting c = none → Step w (.wait c) (w.wait c)
  | yieldToHold {w : World κ} {c : κ} : w.waiting c = some .exec →
      Step w (.yieldToHold c) { w with waiting := Function.update w.waiting c (some .hold) }
  | notify {w : World κ} : Step w .notify w.notify
  | resume {w : World κ} {c : κ} : w.waiting c = some .hold → c ∈ w.scheduled →
      Step w (.resume c) (w.resume c)

end Steps

/-- A new semaphore with any number of permits. -/
def system (κ : Type) [DecidableEq κ] : System (World κ) (Event κ) where
  init w := ∃ permits, w = ⟨⟨permits, []⟩, fun _ => none, [], permits, 0, [], []⟩
  step := Step

/-- Every permit is stored, held or on its way to the coroutine that it was handed to. -/
structure Inv (w : World κ) : Prop where
  permits : w.acquired + w.scheduled.length + w.sem.m_concurrency = w.granted
  idle : 0 < w.sem.m_concurrency → w.sem.m_waiters = []
  order : w.queued = w.woken ++ w.sem.m_waiters
  once : (w.sem.m_waiters ++ w.scheduled).Nodup
  inside : ∀ c, c ∈ w.sem.m_waiters ++ w.scheduled ↔ w.waiting c ≠ none

namespace Inv

variable [DecidableEq κ] {w w' : World κ} {c : κ}

omit [DecidableEq κ] in
theorem tryWait (h : Inv w) : Inv w.tryWait := by
  unfold World.tryWait CoroutineSemaphore.tryWait
  by_cases hc : 0 < w.sem.m_concurrency
  · rw [if_pos hc]
    refine ⟨?_, fun _ => h.idle hc, h.order, h.once, h.inside⟩
    have hp := h.permits
    change w.acquired + 1 + w.scheduled.length + (w.sem.m_concurrency - 1) = w.granted
    omega
  · rw [if_neg hc]
    exact ⟨h.permits, h.idle, h.order, h.once, h.inside⟩

theorem wait (h : Inv w) (hout : w.waiting c = none) : Inv (w.wait c) := by
  unfold World.wait
  by_cases hc : 0 < w.sem.m_concurrency
  · rw [wait_permit c hc]
    refine ⟨?_, fun _ => h.idle hc, h.order, h.once, h.inside⟩
    have hp := h.permits
    change w.acquired + 1 + w.scheduled.length + (w.sem.m_concurrency - 1) = w.granted
    omega
  · rw [wait_queued c hc]
    have hperm : (w.sem.m_waiters ++ [c] ++ w.scheduled).Perm
        (c :: (w.sem.m_waiters ++ w.scheduled)) := by
      rw [List.append_assoc]
      exact List.perm_middle
    have hnew : c ∉ w.sem.m_waiters ++ w.scheduled := fun hm => (h.inside c).mp hm hout
    refine ⟨h.permits, fun hpos => absurd hpos hc, ?_, ?_, ?_⟩
    · change w.queued ++ [c] = w.woken ++ (w.sem.m_waiters ++ [c])
      rw [h.order, List.append_assoc]
    · exact hperm.nodup_iff.mpr (List.nodup_cons.mpr ⟨hnew, h.once⟩)
    · intro d
      change d ∈ w.sem.m_waiters ++ [c] ++ w.scheduled ↔
        Function.update w.waiting c (some .exec) d ≠ none
      rw [hperm.mem_iff, List.mem_cons]
      by_cases hd : d = c
      · rw [hd, Function.update_self]
        exact iff_of_true (.inl rfl) (Option.some_ne_none _)
      · rw [Function.update_of_ne hd, ← h.inside d]
        exact or_iff_right hd

theorem yieldToHold (h : Inv w) (hc : w.waiting c = some .exec) :
    Inv { w with waiting := Function.update w.waiting c (some .hold) } := by
  refine ⟨h.permits, h.idle, h.order, h.once, ?_⟩
  intro d
  change d ∈ w.sem.m_waiters ++ w.scheduled ↔ Function.update w.waiting c (some .hold) d ≠ none
  by_cases hd : d = c
  · rw [hd, Function.update_self, h.inside c, hc]
    exact iff_of_true (Option.some_ne_none _) (Option.some_ne_none _)
  · rw [Function.update_of_ne hd]
    exact h.inside d

omit [DecidableEq κ] in
theorem notify (h : Inv w) : Inv w.notify := by
  unfold World.notify
  cases hw : w.sem.m_waiters with
  | nil =>
      rw [notify_idle hw]
      refine ⟨?_, fun _ => hw, h.order, h.once, h.inside⟩
      change w.acquired + w.scheduled.length + (w.sem.m_concurrency + 1) = w.granted + 1
      rw [← Nat.add_assoc, h.permits]
  | cons next rest =>
      rw [notify_waiter hw]
      have hperm : (rest ++ (w.scheduled ++ [next])).Perm (w.sem.m_waiters ++ w.scheduled) := by
        rw [hw, ← List.append_assoc, List.cons_append]
        exact List.perm_append_singleton next _
      refine ⟨?_, ?_, ?_, hperm.nodup_iff.mpr h.once, ?_⟩
      · change w.acquired + (w.scheduled ++ [next]).length + w.sem.m_concurrency = w.granted + 1
        rw [List.length_append, List.length_singleton, ← h.permits]
        omega
      · intro hpos
        have hnil := h.idle hpos
        rw [hw] at hnil
        cases hnil
      · change w.queued = w.woken ++ [next] ++ rest
        rw [h.order, hw, List.append_assoc, List.singleton_append]
      · intro d
        exact hperm.mem_iff.trans (h.inside d)

theorem resume (h : Inv w) (hs : c ∈ w.scheduled) : Inv (w.resume c) := by
  have hsub : (w.sem.m_waiters ++ w.scheduled.erase c).Sublist (w.sem.m_waiters ++ w.scheduled) :=
    List.erase_sublist.append_left _
  have hpair := List.nodup_append.mp h.once
  have hlen := List.length_erase_of_mem hs
  have hpos := List.length_pos_of_mem hs
  refine ⟨?_, h.idle, h.order, hsub.nodup h.once, ?_⟩
  · change w.acquired + 1 + (w.scheduled.erase c).length + w.sem.m_concurrency = w.granted
    rw [← h.permits]
    omega
  · intro d
    change d ∈ w.sem.m_waiters ++ w.scheduled.erase c ↔ Function.update w.waiting c none d ≠ none
    by_cases hd : d = c
    · rw [hd, Function.update_self]
      refine iff_of_false ?_ (fun hne => hne rfl)
      intro hm
      obtain hm | hm := List.mem_append.mp hm
      · exact hpair.2.2 c hm c hs rfl
      · exact hpair.2.1.not_mem_erase hm
    · rw [Function.update_of_ne hd, ← h.inside d, List.mem_append, List.mem_append,
        List.mem_erase_of_ne hd]

theorem step {e : Event κ} (h : Inv w) (hs : Step w e w') : Inv w' := by
  cases hs with
  | tryWait _ => exact h.tryWait
  | wait hc => exact h.wait hc
  | yieldToHold hc => exact h.yieldToHold hc
  | notify => exact h.notify
  | resume _ hm => exact h.resume hm

end Inv

/-- The resumptions of a run, oldest first. -/
def resumed : List (Event κ) → List κ
  | [] => []
  | .resume c :: es => c :: resumed es
  | _ :: es => resumed es

theorem resumed_append (es fs : List (Event κ)) :
    resumed (es ++ fs) = resumed es ++ resumed fs := by
  induction es with
  | nil => rfl
  | cons e es ih =>
      cases e with
      | resume c => exact congrArg (c :: ·) ih
      | tryWait _ => exact ih
      | wait _ => exact ih
      | yieldToHold _ => exact ih
      | notify => exact ih

/-- Every coroutine that was woken is scheduled once and resumed once. -/
theorem step_resumed [DecidableEq κ] {w w' : World κ} {e : Event κ} {es : List (Event κ)}
    (h : w.woken.Perm (resumed es ++ w.scheduled)) (hs : Step w e w') :
    w'.woken.Perm (resumed (es ++ [e]) ++ w'.scheduled) := by
  rw [resumed_append]
  cases hs with
  | tryWait _ => rw [show resumed [Event.tryWait _] = ([] : List κ) from rfl, List.append_nil]; exact h
  | wait _ =>
      rw [show resumed [Event.wait _] = ([] : List κ) from rfl, List.append_nil, World.wait]
      split
      · exact h
      · exact h
  | yieldToHold _ =>
      rw [show resumed [Event.yieldToHold _] = ([] : List κ) from rfl, List.append_nil]
      exact h
  | notify =>
      rw [show resumed [Event.notify] = ([] : List κ) from rfl, List.append_nil, World.notify]
      split
      · change (w.woken ++ [_]).Perm (resumed es ++ (w.scheduled ++ [_]))
        rw [← List.append_assoc]
        exact h.append_right _
      · exact h
  | resume _ hm =>
      change w.woken.Perm (resumed es ++ [_] ++ w.scheduled.erase _)
      rw [List.append_assoc]
      exact h.trans ((List.perm_cons_erase hm).append_left _)

/-- The acquisitions never exceed the permits that were granted, a stored permit means that nobody
waits, and the coroutines are woken in the order in which they queued, each for its own place in
the queue and resumed once for it. -/
theorem run_permits [DecidableEq κ] {es : List (Event κ)} {w : World κ}
    (h : (system κ).Run es w) :
    w.acquired ≤ w.granted ∧ (0 < w.sem.m_concurrency → w.sem.m_waiters = []) ∧
      w.queued = w.woken ++ w.sem.m_waiters ∧ (w.sem.m_waiters ++ w.scheduled).Nodup ∧
      w.woken.Perm (resumed es ++ w.scheduled) := by
  have hinv : Inv w := by
    refine h.invariant (I := Inv) ?_ ?_
    · rintro w₀ ⟨permits, rfl⟩
      exact ⟨Nat.zero_add _, fun _ => rfl, rfl, List.nodup_nil,
        fun c => iff_of_false List.not_mem_nil fun hne => hne rfl⟩
    · intro w₁ e w₂ hi hs
      exact hi.step hs
  have hres : w.woken.Perm (resumed es ++ w.scheduled) := by
    refine h.history (I := fun es w => w.woken.Perm (resumed es ++ w.scheduled)) ?_ ?_
    · rintro w₀ ⟨permits, rfl⟩
      exact List.Perm.refl _
    · intro es₁ w₁ e w₂ hi hs
      exact step_resumed hi hs
  refine ⟨?_, hinv.idle, hinv.order, hinv.once, hres⟩
  rw [← hinv.permits, Nat.add_assoc]
  exact Nat.le_add_right _ _

/-- A coroutine is woken before it has yielded. -/
theorem run_permits_woken_early :
    ∃ w : World Nat, (system Nat).Run
        [.wait 1, .wait 2, .notify, .yieldToHold 2, .resume 2, .tryWait 1] w ∧ w.acquired = 2 ∧
      w.acquired ≤ w.granted ∧ (0 < w.sem.m_concurrency → w.sem.m_waiters = []) ∧
      w.queued = w.woken ++ w.sem.m_waiters ∧ (w.sem.m_waiters ++ w.scheduled).Nodup ∧
      w.woken.Perm (resumed [.wait 1, .wait 2, .notify, .yieldToHold 2, .resume 2, .tryWait 1] ++
        w.scheduled) := by
  let w₀ : World Nat := ⟨⟨1, []⟩, fun _ => none, [], 1, 0, [], []⟩
  let w₃ := ((w₀.wait 1).wait 2).notify
  have h₀ : (system Nat).Run [] w₀ := .start ⟨1, rfl⟩
  have h₁ : (system Nat).Run _ (w₀.wait 1) := h₀.snoc (e := Event.wait 1) (.wait rfl)
  have h₂ : (system Nat).Run _ ((w₀.wait 1).wait 2) := h₁.snoc (e := Event.wait 2) (.wait rfl)
  have h₃ : (system Nat).Run _ w₃ := h₂.snoc (e := Event.notify) .notify
  have h₄ := h₃.snoc (e := Event.yieldToHold 2) (.yieldToHold rfl)
  have h₅ := h₄.snoc (e := Event.resume 2) (.resume rfl List.mem_cons_self)
  have h₆ := h₅.snoc (e := Event.tryWait 1) (.tryWait rfl)
  exact ⟨_, h₆, rfl, run_permits h₆⟩

end CoroutineSemaphore

end CIM
