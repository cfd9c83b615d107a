import Mathlib.Data.Finset.Card
import CIM.Io.SchedulerTurns

/-!
# The end of the scheduler

An idle loop ends, and its thread with it, when `stopping` says that nothing is left to do. It
looks at the queue and at the number of threads with a task. A thread takes itself out of that
number first, and puts a coroutine that yielded back into the queue afterwards.
-/
namespace CIM

open Transition

/-- The threads in `counted` have added one to `m_activeThreadCount` and not taken it back;
`verdict` is what the idle loop of a thread got from `stopping`, until it yields. -/
structure Drain where
  base : Scheduler
  m_activeThreadCount : Nat
  m_isRunning : Bool
  m_autoStop : Bool
  counted : Finset Nat
  verdict : Nat → Option Bool

namespace Drain

open Scheduler (Leave Pc Point Kind)

/-- It has the lock of the queue, without which the number can only go down. -/
def stopping (s : Drain) : Bool :=
  s.m_autoStop && s.base.m_taskQueue.isEmpty && !s.m_isRunning && s.m_activeThreadCount == 0

/-- A step of a thread, `--m_activeThreadCount`, a call of `stopping` by an idle loop, and the
stores of `start` and `stop`. -/
inductive Step
  | run (e : Scheduler.Step)
  | release (t : Nat)
  | stopping (t : Nat)
  | start
  | autoStop
  | stop

/-- The idle loop yields or ends as `stopping` told it; others leave as they like. -/
def leaves (s : Drain) (t : Nat) (l : Leave) : Option Drain :=
  match s.base.pc t with
  | .has _ .idle _ =>
      match l, s.verdict t with
      | .yieldToHold, some false => some { s with verdict := Function.update s.verdict t none }
      | .term, some true => some s
      | _, _ => none
  | _ => some s

/-- A task that was taken is counted under the lock. -/
def count (s : Drain) (t : Nat) : Drain :=
  if (s.base.picks t).isSome then
    { s with
      m_activeThreadCount := s.m_activeThreadCount + 1
      counted := insert t s.counted }
  else s

/-- Behind `swapIn`, or where the coroutine of the task was over. -/
def releases : Pc → Bool
  | .loop => true
  | .has .left _ _ => true
  | _ => false

/-- None where the action is not the next one of the thread. -/
def exec (n : Nat) (s : Drain) : Step → Option Drain
  | .run (.pick t) =>
      if t ∈ s.counted then none
      else (s.base.exec n (.pick t)).map fun base => { s.count t with base := base }
  | .run (.leave t l) =>
      (s.base.exec n (.leave t l)).bind fun base =>
        (s.leaves t l).map fun s => { s with base := base }
  | .run (.after t) =>
      if t ∈ s.counted then none
      else (s.base.exec n (.after t)).map fun base => { s with base := base }
  | .run e => (s.base.exec n e).map fun base => { s with base := base }
  | .release t =>
      if t ∈ s.counted ∧ releases (s.base.pc t) = true then
        some { s with
          m_activeThreadCount := s.m_activeThreadCount - 1
          counted := s.counted.erase t }
      else none
  | .stopping t =>
      match s.base.pc t, s.verdict t with
      | .has .running .idle _, none =>
          some { s with verdict := Function.update s.verdict t (some s.stopping) }
      | _, _ => none
  | .start => some { s with m_isRunning := true }
  | .autoStop => some { s with m_autoStop := true }
  | .stop => if s.m_autoStop then some { s with m_isRunning := false } else none

end Drain

/-- A scheduler of `n` threads that was not started. -/
def drain (n : Nat) : System Drain Drain.Step where
  init s :=
    (scheduler n).init s.base ∧ s.m_activeThreadCount = 0 ∧ s.m_isRunning = false ∧
      s.m_autoStop = false ∧ s.counted = ∅ ∧ ∀ t, s.verdict t = none
  step s e s' := s.exec n e = some s'

namespace Drain

variable {n : Nat} {s s' : Drain} {t : Nat} {e : Step}

/-! ## What `stopping` says -/

/-- The thread has a task and has not left its coroutine. -/
def AtWork (s : Drain) (t : Nat) : Prop :=
  ∃ p k c, s.base.pc t = .has p k c ∧ k ≠ .idle ∧ p ≠ .left

/-- The thread has left a coroutine that yielded, and not put it back into the queue. -/
def Requeues (s : Drain) (t : Nat) : Prop :=
  ∃ k c, s.base.pc t = .has .left k c ∧ k ≠ .idle ∧ s.base.m_state c = .READY

/-- No task is queued, none is worked at, and no coroutine has yielded. -/
structure Drained (n : Nat) (s : Drain) : Prop where
  queue : s.base.m_taskQueue = []
  work : ∀ t, ¬s.AtWork t
  ready : ∀ c, n ≤ c → s.base.m_state c ≠ .READY

structure Inv (n : Nat) (s : Drain) : Prop where
  ranged : s.base.Ranged n
  held : ∀ c, s.base.m_state c = .READY → s.base.Held c
  count : s.m_activeThreadCount = s.counted.card
  work : ∀ t, s.AtWork t → t ∈ s.counted

theorem leaves_eq {l : Scheduler.Leave} (h : s.leaves t l = some s') :
    ∃ verdict, s' = { s with verdict := verdict } := by
  unfold leaves at h
  split at h
  · split at h
    · cases h
      exact ⟨_, rfl⟩
    · cases h
      exact ⟨_, rfl⟩
    · cases h
  · cases h
    exact ⟨_, rfl⟩

/-- A step of a thread counts the thread where it takes a task, and changes nothing else of what
`stopping` looks at besides the queue. -/
theorem run_cases {e : Scheduler.Step} (he : s.exec n (.run e) = some s') :
    Scheduler.Turn n s.base e s'.base ∧ s'.m_isRunning = s.m_isRunning ∧
      s'.m_autoStop = s.m_autoStop ∧
      ((∃ t, e = .pick t ∧ (s.base.picks t).isSome = true ∧ t ∉ s.counted ∧
          s'.m_activeThreadCount = s.m_activeThreadCount + 1 ∧ s'.counted = insert t s.counted) ∨
        s'.m_activeThreadCount = s.m_activeThreadCount ∧ s'.counted = s.counted ∧
          ∀ t, e = .pick t → (s.base.picks t).isSome = false) := by
  cases e with
  | pick t =>
      simp only [exec] at he
      split at he
      · cases he
      · rename_i hc
        obtain ⟨base, hb, rfl⟩ := Option.map_eq_some_iff.mp he
        have ht := Scheduler.exec_turn hb
        by_cases hp : (s.base.picks t).isSome = true
        · rw [count, if_pos hp]
          exact ⟨ht, rfl, rfl, .inl ⟨t, rfl, hp, hc, rfl, rfl⟩⟩
        · rw [count, if_neg hp]
          refine ⟨ht, rfl, rfl, .inr ⟨rfl, rfl, ?_⟩⟩
          intro t' ht'
          cases ht'
          exact Bool.eq_false_iff.mpr hp
  | leave t l =>
      obtain ⟨base, hb, he⟩ := Option.bind_eq_some_iff.mp he
      obtain ⟨s₁, hs₁, rfl⟩ := Option.map_eq_some_iff.mp he
      obtain ⟨verdict, rfl⟩ := leaves_eq hs₁
      exact ⟨Scheduler.exec_turn hb, rfl, rfl, .inr ⟨rfl, rfl, fun _ h => nomatch h⟩⟩
  | after t =>
      simp only [exec] at he
      split at he
      · cases he
      · obtain ⟨base, hb, rfl⟩ := Option.map_eq_some_iff.mp he
        exact ⟨Scheduler.exec_turn hb, rfl, rfl, .inr ⟨rfl, rfl, fun _ h => nomatch h⟩⟩
  | _ =>
      simp only [exec] at he
      obtain ⟨base, hb, rfl⟩ := Option.map_eq_some_iff.mp he
      exact ⟨Scheduler.exec_turn hb, rfl, rfl, .inr ⟨rfl, rfl, fun _ h => nomatch h⟩⟩

/-- Nobody begins to work but by taking a task. -/
theorem atWork_turn {e : Scheduler.Step} (h : Scheduler.Turn n s.base e s'.base)
    (ht : s'.AtWork t) : s.AtWork t ∨ e = .pick t ∧ (s.base.picks t).isSome = true := by
  obtain ⟨p, k, c, hat, hk, hp⟩ := ht
  rcases h.has hat with ⟨p', hold, hleft⟩ | ⟨he, ⟨hidle, -⟩ | ⟨-, hpicks, -⟩⟩
  · exact .inl ⟨p', k, c, hold, hk, fun h => hp (hleft h)⟩
  · exact absurd hidle hk
  · exact .inr ⟨he, hpicks⟩

theorem Inv.run (h : Inv n s) {e : Scheduler.Step} (he : s.exec n (.run e) = some s') :
    Inv n s' := by
  obtain ⟨hturn, -, -, hcount⟩ := run_cases he
  refine
    { ranged := h.ranged.turn hturn
      held := fun c hc => hturn.ready h.held hc
      count := ?_
      work := ?_ }
  · rcases hcount with ⟨t, -, -, hmem, hadd, hset⟩ | ⟨hsame, hset, -⟩
    · rw [hadd, hset, Finset.card_insert_of_notMem hmem, h.count]
    · rw [hsame, hset, h.count]
  · intro t ht
    rcases hcount with ⟨t', he', -, -, -, hset⟩ | ⟨-, hset, hnone⟩
    · rw [hset]
      rcases atWork_turn hturn ht with hold | ⟨hpick, -⟩
      · exact Finset.mem_insert_of_mem (h.work t hold)
      · cases he'.symm.trans hpick
        exact Finset.mem_insert_self _ _
    · rw [hset]
      rcases atWork_turn hturn ht with hold | ⟨hpick, hsome⟩
      · exact h.work t hold
      · rw [hnone t hpick] at hsome
        cases hsome

theorem Inv.release (h : Inv n s) (he : s.exec n (.release t) = some s') : Inv n s' := by
  simp only [exec] at he
  split at he
  · rename_i hc
    cases he
    refine { ranged := h.ranged, held := h.held, count := ?_, work := ?_ }
    · change s.m_activeThreadCount - 1 = (s.counted.erase t).card
      rw [Finset.card_erase_of_mem hc.1, h.count]
    · intro t' ht'
      have hne : t' ≠ t := by
        rintro rfl
        obtain ⟨p, k, c, hat, -, hp⟩ := ht'
        have hreleases : releases (s.base.pc t') = true := hc.2
        have hat' : s.base.pc t' = .has p k c := hat
        rw [hat'] at hreleases
        cases p with
        | left => exact hp rfl
        | _ => cases hreleases
      exact Finset.mem_erase.mpr ⟨hne, h.work t' ht'⟩
  · cases he

theorem Inv.step (h : Inv n s) (he : s.exec n e = some s') : Inv n s' := by
  cases e with
  | run e => exact h.run he
  | release t => exact h.release he
  | stopping t =>
      simp only [exec] at he
      split at he
      · cases he
        exact ⟨h.ranged, h.held, h.count, h.work⟩
      · cases he
  | start =>
      cases he
      exact ⟨h.ranged, h.held, h.count, h.work⟩
  | autoStop =>
      cases he
      exact ⟨h.ranged, h.held, h.count, h.work⟩
  | stop =>
      simp only [exec] at he
      split at he
      · cases he
        exact ⟨h.ranged, h.held, h.count, h.work⟩
      · cases he

theorem run_inv {es : List Step} (h : (drain n).Run es s) : Inv n s := by
  refine h.invariant (I := Inv n) ?_ fun s e s' hinv he => hinv.step he
  rintro s ⟨⟨hnext, hqueue, hstate, hpc, hcb, hsems⟩, hcount, -, -, hset, -⟩
  have hhas : ∀ t p k c, s.base.pc t ≠ .has p k c := by
    intro t p k c hat
    rw [hpc t] at hat
    cases hat
  refine
    { ranged :=
        { threads := Nat.le_of_eq hnext.symm
          idle := fun t p c hat => absurd hat (hhas t p .idle c)
          other := fun t p k c hat => absurd hat (hhas t p k c)
          cb := ?_
          pending := ?_ }
      held := ?_
      count := ?_
      work := fun t ⟨p, k, c, hat, _⟩ => absurd hat (hhas t p k c) }
  · intro t c hc
    rw [hcb t] at hc
    cases hc
  · rintro c (⟨task, hmem, -⟩ | ⟨i, hmem⟩)
    · rw [hqueue] at hmem
      cases hmem
    · rw [hsems i] at hmem
      cases hmem
  · intro c hc
    rw [hstate c] at hc
    cases hc
  · rw [hcount, hset]
    rfl

/-! ## What is left to do -/

theorem stopping_iff : s.stopping = true ↔ s.m_autoStop = true ∧ s.base.m_taskQueue = [] ∧
    s.m_isRunning = false ∧ s.m_activeThreadCount = 0 := by
  simp only [stopping, Bool.and_eq_true, List.isEmpty_iff, Bool.not_eq_true', beq_iff_eq, and_assoc]

theorem Inv.idle (h : Inv n s) (hs : s.stopping = true) : ∀ t, ¬s.AtWork t := by
  obtain ⟨-, -, -, hcount⟩ := stopping_iff.mp hs
  intro t ht
  have hnone : s.counted = ∅ := Finset.card_eq_zero.mp (h.count.symm.trans hcount)
  have hmem := h.work t ht
  rw [hnone] at hmem
  exact Finset.notMem_empty t hmem

theorem Inv.drained_iff (h : Inv n s) (hs : s.stopping = true) :
    s.Drained n ↔ ∀ t, ¬s.Requeues t := by
  obtain ⟨-, hqueue, -, -⟩ := stopping_iff.mp hs
  constructor
  · rintro hd t ⟨k, c, hat, hk, hready⟩
    exact hd.ready c (h.ranged.other t _ k c hat hk) hready
  · intro hno
    refine ⟨hqueue, h.idle hs, ?_⟩
    intro c hn hready
    rcases h.held c hready with ⟨task, hmem, -⟩ | ⟨t, p, k, hat, -⟩
    · rw [hqueue] at hmem
      cases hmem
    · have hk : k ≠ .idle := by
        rintro rfl
        exact absurd (h.ranged.idle t p c hat) (Nat.not_lt.mpr hn)
      by_cases hp : p = .left
      · rw [hp] at hat
        exact hno t ⟨k, c, hat, hk, hready⟩
      · exact h.idle hs t ⟨p, k, c, hat, hk, hp⟩

/-- Done from outside where no thread is at work. -/
def Step.Outside : Step → Prop
  | .run e => e.Outside
  | .start => True
  | _ => False

theorem Drained.run (hd : s.Drained n) (h : Inv n s) (hs : s.stopping = true)
    {e : Scheduler.Step} (ho : ¬e.Outside) (he : s.exec n (.run e) = some s') :
    s'.stopping = true ∧ s'.Drained n := by
  obtain ⟨hauto, hqueue, hrun, hzero⟩ := stopping_iff.mp hs
  obtain ⟨hturn, hrun', hauto', hcount⟩ := run_cases he
  have hpicks : ∀ t, s.base.picks t = none := by
    intro t
    rw [Scheduler.picks, hqueue]
    rfl
  have hempty : s'.base.m_taskQueue = [] := by
    refine hturn.empty hqueue ho ?_
    intro t k c hat hk
    exact hd.ready c (h.ranged.other t _ k c hat hk)
  have hcount' : s'.m_activeThreadCount = s.m_activeThreadCount := by
    rcases hcount with ⟨t, -, hsome, -⟩ | ⟨hsame, -⟩
    · rw [hpicks t] at hsome
      cases hsome
    · exact hsame
  refine ⟨stopping_iff.mpr ⟨hauto'.trans hauto, hempty, hrun'.trans hrun, hcount'.trans hzero⟩,
    hempty, ?_, ?_⟩
  · intro t ht
    rcases atWork_turn hturn ht with hold | ⟨-, hsome⟩
    · exact hd.work t hold
    · rw [hpicks t] at hsome
      cases hsome
  · intro c hn hready
    rcases hturn.yielded hready with hold | ⟨t, p, k, hat, hexec⟩
    · exact hd.ready c hn hold
    · refine hd.work t ⟨p, k, c, hat, ?_, ?_⟩
      · rintro rfl
        exact absurd (h.ranged.idle t p c hat) (Nat.not_lt.mpr hn)
      · rintro rfl
        cases hexec

theorem Drained.step (hd : s.Drained n) (h : Inv n s) (hs : s.stopping = true)
    (ho : ¬e.Outside) (he : s.exec n e = some s') : s'.stopping = true ∧ s'.Drained n := by
  obtain ⟨hauto, hqueue, hrun, hzero⟩ := stopping_iff.mp hs
  cases e with
  | run e => exact hd.run h hs ho he
  | release t =>
      simp only [exec] at he
      split at he
      · cases he
        refine ⟨stopping_iff.mpr ⟨hauto, hqueue, hrun, ?_⟩, hd.queue, hd.work, hd.ready⟩
        change s.m_activeThreadCount - 1 = 0
        rw [hzero]
      · cases he
  | stopping t =>
      simp only [exec] at he
      split at he
      · cases he
        exact ⟨hs, hd.queue, hd.work, hd.ready⟩
      · cases he
  | start => exact absurd trivial ho
  | autoStop =>
      cases he
      exact ⟨stopping_iff.mpr ⟨rfl, hqueue, hrun, hzero⟩, hd.queue, hd.work, hd.ready⟩
  | stop =>
      rw [exec, if_pos hauto] at he
      cases he
      exact ⟨stopping_iff.mpr ⟨hauto, hqueue, rfl, hzero⟩, hd.queue, hd.work, hd.ready⟩

/-- Where nothing is left to do, it stays so until work comes from outside. -/
theorem Drained.resume (hd : s.Drained n) (h : Inv n s) (hs : s.stopping = true) {es : List Step}
    (hr : (((drain n).resume s).restrict fun _ e => ¬e.Outside).Run es s') :
    s'.stopping = true ∧ s'.Drained n := by
  have hall := hr.invariant (I := fun s => Inv n s ∧ s.stopping = true ∧ s.Drained n) ?_ ?_
  · exact hall.2
  · rintro s rfl
    exact ⟨h, hs, hd⟩
  · rintro s e s' ⟨hinv, hs, hd⟩ ⟨ho, he⟩
    exact ⟨hinv.step he, hd.step hinv hs ho he⟩

/-- In every run: where `stopping` says so, nothing is left to do exactly if no thread has still
to put back a coroutine that yielded; and then nothing will be, whatever the threads do. -/
theorem run_stopping {es : List Step} (h : (drain n).Run es s) (hs : s.stopping = true) :
    (s.Drained n ↔ ∀ t, ¬s.Requeues t) ∧
      ((∀ t, ¬s.Requeues t) → ∀ es' s',
        (((drain n).resume s).restrict fun _ e => ¬e.Outside).Run es' s' →
          s'.stopping = true ∧ s'.Drained n) := by
  have hinv := run_inv h
  have hiff := hinv.drained_iff hs
  exact ⟨hiff, fun hno es' s' hr => (hiff.mpr hno).resume hinv hs hr⟩

/-- Threads before their first turn. -/
def idleThreads (n : Nat) : Drain :=
  ⟨⟨n, fun _ => .INIT, [], fun _ => .loop, fun _ => none, fun _ => ⟨0, []⟩⟩, 0, false, false, ∅,
    fun _ => none⟩

theorem idleThreads_init (n : Nat) : (drain n).init (idleThreads n) :=
  ⟨⟨rfl, rfl, fun _ => rfl, fun _ => rfl, fun _ => rfl, fun _ => rfl⟩, rfl, rfl, rfl, rfl,
    fun _ => rfl⟩

/-- A callback is run to its end, and the scheduler stopped. -/
theorem run_stopping_callback : ∃ es s, (drain 1).Run es s ∧ s.stopping = true ∧ s.Drained 1 := by
  have h₀ : (drain 1).Run [] (idleThreads 1) := .start (idleThreads_init 1)
  have h₁ := h₀.snoc (e := Step.start) rfl
  have h₂ := h₁.snoc (e := Step.run (.schedule .cb none)) rfl
  have h₃ := h₂.snoc (e := Step.run (.pick 0)) rfl
  have h₄ := h₃.snoc (e := Step.run (.swapIn 0)) rfl
  have h₅ := h₄.snoc (e := Step.run (.leave 0 .term)) rfl
  have h₆ := h₅.snoc (e := Step.run (.swapOut 0)) rfl
  have h₇ := h₆.snoc (e := Step.release 0) rfl
  have h₈ := h₇.snoc (e := Step.run (.after 0)) rfl
  have h₉ := h₈.snoc (e := Step.autoStop) rfl
  have h₁₀ := h₉.snoc (e := Step.stop) rfl
  have hs := run_stopping h₁₀ rfl
  refine ⟨_, _, h₁₀, rfl, hs.1.mpr ?_⟩
  rintro t ⟨k, c, hat, -⟩
  cases t with
  | zero => cases hat
  | succ t => cases hat

/-- A coroutine has yielded and its thread is between the two when the idle loop of the other
thread asks, and ends. -/
theorem stopping_early : ∃ es s, (drain 2).Run es s ∧ s.stopping = true ∧ s.verdict 1 = some true ∧
    s.base.m_state 2 = .READY ∧ ¬s.Drained 2 ∧
      ∃ s', (drain 2).Run (es ++ [.run (.leave 1 .term)] ++ [.run (.after 0)]) s' ∧
        s'.base.m_taskQueue = [⟨.coroutine 2, none⟩] := by
  have h₀ : (drain 2).Run [] (idleThreads 2) := .start (idleThreads_init 2)
  have h₁ := h₀.snoc (e := Step.start) rfl
  have h₂ := h₁.snoc (e := Step.run (.pick 1)) rfl
  have h₃ := h₂.snoc (e := Step.run (.swapIn 1)) rfl
  have h₄ := h₃.snoc (e := Step.run .create) rfl
  have h₅ := h₄.snoc (e := Step.run (.schedule (.coroutine 2) none)) rfl
  have h₆ := h₅.snoc (e := Step.run (.pick 0)) rfl
  have h₇ := h₆.snoc (e := Step.run (.check 0)) rfl
  have h₈ := h₇.snoc (e := Step.run (.swapIn 0)) rfl
  have h₉ := h₈.snoc (e := Step.run (.leave 0 .yieldToReady)) rfl
  have h₁₀ := h₉.snoc (e := Step.run (.swapOut 0)) rfl
  have h₁₁ := h₁₀.snoc (e := Step.autoStop) rfl
  have h₁₂ := h₁₁.snoc (e := Step.stop) rfl
  have h₁₃ := h₁₂.snoc (e := Step.release 0) rfl
  have h₁₄ := h₁₃.snoc (e := Step.stopping 1) rfl
  have h₁₅ := h₁₄.snoc (e := Step.run (.leave 1 .term)) rfl
  have h₁₆ := h₁₅.snoc (e := Step.run (.after 0)) rfl
  exact ⟨_, _, h₁₄, rfl, rfl, rfl, fun hd => hd.ready 2 (by decide) rfl, _, h₁₆, rfl⟩

end Drain

end CIM
