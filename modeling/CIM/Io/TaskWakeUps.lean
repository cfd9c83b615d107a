import Mathlib.Data.List.TakeWhile
import CIM.Io.WakeUpRuns

/-!
# Tasks and the threads that sleep

A task is forgotten where it is put behind others, where a thread that takes a task leaves it, and
where it came while a thread was about to sleep.
-/
namespace CIM

open Transition

namespace WakeUp

variable {n : Nat} {s s' : WakeUp} {e : Step}

/-- None of the tasks is for a thread that is blocked. -/
def Unwanted (n : Nat) (s : WakeUp) (tasks : List Scheduler.Task) : Prop :=
  ∀ task ∈ tasks, ∀ b, s.Blocked n b → s.eligible b task = false

/-- Tasks put behind others, tasks left in the queue by a thread that takes one, and tasks there
when a thread falls asleep are not for the threads that sleep, unless somebody else will look. -/
def TasksCovered (n : Nat) (s : WakeUp) : Step → Prop
  | .schedule _ tasks => s.m_taskQueue = [] ∨ s.Looks n ∨ s.Unwanted n tasks.reduceOption
  | .next t _ =>
      (s.pc t = .scan → s.tickleMe t = true ∨ s.OthersLook n t ∨
        s.Unwanted n (s.m_taskQueue.eraseP (s.eligible t))) ∧
      ∀ next_timeout, s.pc t = .epoll next_timeout →
        waitUntil s.clock next_timeout = some s.clock.toNat ∨ s.OthersLook n t ∨
          s.Unwanted n s.m_taskQueue ∧ ∀ task ∈ s.m_taskQueue, s.eligible t task = false
  | _ => True

/-! ## The queue -/

theorem scheduleAll_queue (tasks : List (Option Scheduler.Task)) :
    ∀ queue, (scheduleAll tasks queue).2 = queue ++ tasks.reduceOption := by
  induction tasks with
  | nil => intro queue; exact (List.append_nil _).symm
  | cons task tasks ih =>
      intro queue
      change (scheduleAll tasks (queue ++ task.toList)).2 = _
      rw [ih, List.append_assoc]
      cases task <;> rfl

/-- The first task that is put into an empty queue asks for a wake-up. -/
theorem scheduleAll_quiet {tasks : List (Option Scheduler.Task)} {queue : List Scheduler.Task}
    (h : (scheduleAll tasks queue).1 = false) : tasks = [] ∨ queue ≠ [] := by
  cases tasks with
  | nil => exact .inl rfl
  | cons task tasks =>
      refine .inr ?_
      rintro rfl
      cases h

/-! ## The invariant -/

theorem TaskWaits.of_blocked (h : s'.TaskWaits n) (hblocked : ∀ b, s'.Blocked n b → s.Blocked n b)
    (hqueue : s'.m_taskQueue = s.m_taskQueue)
    (heligible : ∀ b task, s'.eligible b task = true → s.eligible b task = true) :
    s.TaskWaits n := by
  obtain ⟨b, hb, task, htask, he⟩ := h
  exact ⟨b, hblocked b hb, task, hqueue ▸ htask, heligible b task he⟩

/-- A coroutine that runs is not eligible. -/
theorem eligible_enter {t c b : Nat} {task : Scheduler.Task}
    (h : eligible { s.goto t (.exec c) with m_state := Function.update s.m_state c .EXEC } b task =
      true) : s.eligible b task = true := by
  obtain ⟨work, threadId⟩ := task
  cases work with
  | cb => exact h
  | coroutine d =>
      change (_ && (Function.update s.m_state c .EXEC d != .EXEC)) = true at h
      by_cases hd : d = c
      · rw [hd, Function.update_self, Bool.and_eq_true] at h
        cases h.2
      · rw [Function.update_of_ne hd] at h
        exact h

/-- The same coroutines run. -/
theorem eligible_states {states : Nat → Scheduler.State} (hstate : s'.m_state = states)
    (hstates : ∀ d, states d = .EXEC ↔ s.m_state d = .EXEC) (b : Nat) (task : Scheduler.Task) :
    s'.eligible b task = s.eligible b task := by
  obtain ⟨work, threadId⟩ := task
  cases work with
  | cb => rfl
  | coroutine d =>
      have hne : (s'.m_state d != .EXEC) = (s.m_state d != .EXEC) := by
        rw [Bool.eq_iff_iff, bne_iff_ne, bne_iff_ne, hstate]
        exact not_congr (hstates d)
      change (_ && (s'.m_state d != .EXEC)) = (_ && (s.m_state d != .EXEC))
      rw [hne]

theorem silent_tasks (hsilent : Silent n s e s') (hcovered : s.TasksCovered n e)
    (ih : s.TaskWaits n → s.Looks n) (h : s'.TaskWaits n) : s'.Looks n := by
  cases hsilent with
  | enter t c hpc hs' =>
      subst hs'
      have hold := h.of_blocked (s := s)
        (fun b hb => (hb.goto (p := .exec c) (fun _ h => nomatch h) rfl rfl).2) rfl
        fun b task => eligible_enter
      refine ((ih hold).others (t := t) (by rw [hpc]; rfl)).goto (Nat.le_refl _) rfl rfl ?_ ?_
      · exact fun u hu => goto_other s _ hu
      · rw [hpc]
        exact fun _ _ h => nomatch h
  | schedule k tasks he hr hs' =>
      subst he hs'
      have hlooks : s.Looks n := by
        rcases scheduleAll_quiet hr with rfl | hqueue
        · exact ih (h.of_blocked (fun _ hb => hb) rfl fun _ _ he => he)
        · obtain ⟨b, hb, task, htask, helig⟩ := h
          rcases hcovered with hempty | hlooks | hunwanted
          · exact absurd hempty hqueue
          · exact hlooks
          · change task ∈ (scheduleAll tasks s.m_taskQueue).2 at htask
            rw [scheduleAll_queue, List.mem_append] at htask
            rcases htask with htask | htask
            · exact ih ⟨b, hb, task, htask, helig⟩
            · exact absurd helig (Bool.eq_false_iff.mp (hunwanted task htask b hb))
      exact hlooks.same rfl rfl UInt64.le_rfl rfl
  | tickles k queue hs' =>
      subst hs'
      have hcaller : Function.update s.caller (.schedule k) (some .check) (.schedule k) ≠ none := by
        rw [Function.update_self]
        exact Option.some_ne_none _
      exact looks_of_caller hcaller
  | writes call hp hs' =>
      subst hs'
      have hcaller : Function.update s.caller call (some .write) call ≠ none := by
        rw [Function.update_self]
        exact Option.some_ne_none _
      exact looks_of_caller hcaller
  | addTimer k ms cb recurring addr he hr hs' =>
      subst hs'
      exact (ih (h.of_blocked (fun _ hb => hb) rfl fun _ _ he => he)).same rfl rfl UInt64.le_rfl rfl
  | pick t c o ht he hpc hfind p hp states hstates hs' =>
      subst he hs'
      split at hp
      · rw [hp]
        exact looks_of_tickle ht (goto_self s t _)
      next hquiet =>
        subst hp
        obtain ⟨b, hb, left, hleft, helig⟩ := h
        rcases hcovered.1 hpc with htickle | hlooks | hunwanted
        · exact absurd htickle hquiet
        · refine hlooks.goto (Nat.le_refl _) rfl rfl (fun u hu => goto_other s _ hu) ?_
          rw [hpc]
          exact fun _ _ h => nomatch h
        · have hold := (hb.goto (s := s) (p := .has c) (fun _ h => nomatch h) rfl rfl).2
          rw [eligible_states rfl hstates] at helig
          exact absurd helig (Bool.eq_false_iff.mp (hunwanted left hleft b hold))
  | write t ht next hexec hpc hs' =>
      subst hs'
      exact looks_of_tickle ht (goto_self s t _)
  | block t next_timeout ht he hpc hs' =>
      subst he hs'
      rcases hcovered.2 next_timeout hpc with hnow | hlooks | ⟨hunwanted, hown⟩
      · refine .inr ⟨t, ht, ?_, by rw [goto_self]; rfl⟩
        rintro ⟨-, last, hlast, htime⟩
        rw [goto_self, Pc.wait.injEq] at hlast
        exact Nat.lt_irrefl _ (htime _ (hlast.symm.trans hnow))
      · refine hlooks.goto (Nat.le_refl _) rfl rfl (fun u hu => goto_other s _ hu) ?_
        rw [hpc]
        exact fun _ _ h => nomatch h
      · obtain ⟨b, ⟨hb, last, hlast, htime⟩, task, htask, helig⟩ := h
        by_cases hbt : b = t
        · subst hbt
          exact absurd helig (Bool.eq_false_iff.mp (hown task htask))
        · rw [goto_other s _ hbt] at hlast
          exact absurd helig
            (Bool.eq_false_iff.mp (hunwanted task htask b ⟨hb, last, hlast, htime⟩))
  | advance now hnow hs' =>
      subst hs'
      refine (ih (h.of_blocked ?_ rfl fun _ _ he => he)).same rfl rfl hnow rfl
      rintro b ⟨hb, last, hlast, htime⟩
      exact ⟨hb, last, hlast, fun m hm =>
        Nat.lt_of_le_of_lt (UInt64.le_iff_toNat_le.mp hnow) (htime m hm)⟩

/-! ## The condition -/

theorem scheduleAll_behind (tasks : List (Option Scheduler.Task)) :
    ∀ queue : List Scheduler.Task, queue ≠ [] → (scheduleAll tasks queue).1 = false := by
  induction tasks with
  | nil => exact fun _ _ => rfl
  | cons task tasks ih =>
      intro queue hqueue
      change (queue.isEmpty || (scheduleAll tasks (queue ++ task.toList)).1) = false
      rw [ih _ (List.append_ne_nil_of_left_ne_nil hqueue _), Bool.or_false]
      exact List.isEmpty_eq_false_iff.mpr hqueue

/-- Where a thread meets no task that it may take and none for another thread, the coroutines of
all of them run. -/
theorem eligible_of_none {t b : Nat} (hfind : s.m_taskQueue.find? (s.eligible t) = none)
    (htickle : ¬s.tickleMe t = true) {task : Scheduler.Task} (hmem : task ∈ s.m_taskQueue) :
    s.eligible b task = false := by
  have hnot : ∀ task ∈ s.m_taskQueue, s.eligible t task = false :=
    fun task h => Bool.eq_false_iff.mpr (List.find?_eq_none.mp hfind task h)
  have hall : (s.m_taskQueue.takeWhile fun task => !s.eligible t task) = s.m_taskQueue :=
    List.takeWhile_eq_self_iff.mpr fun task h => by rw [hnot task h]; rfl
  have hown : task.threadId.all (fun i => i == t) = true := by
    by_contra hother
    apply htickle
    rw [tickleMe, hall, List.any_eq_true]
    exact ⟨task, hmem, by rw [Bool.not_eq_true] at hother; rw [hother]; rfl⟩
  have hruns := hnot task hmem
  unfold eligible at hruns ⊢
  rw [hown, Bool.true_and] at hruns
  rw [hruns, Bool.and_false]

theorem not_unwanted {tasks : List Scheduler.Task} (h : ¬s.Unwanted n tasks) :
    ∃ task ∈ tasks, ∃ b, s.Blocked n b ∧ s.eligible b task = true := by
  by_contra hnone
  refine h fun task htask b hb => Bool.eq_false_iff.mpr fun he => hnone ⟨task, htask, b, hb, he⟩

theorem scan_sleeps {t c : Nat} (hpc : s.pc t = .scan)
    (hc : Scheduler.canReset (s.m_state c) = true) (htickle : ¬s.tickleMe t = true)
    (hothers : ¬s.OthersLook n t)
    (hleft : ¬s.Unwanted n (s.m_taskQueue.eraseP (s.eligible t))) :
    (s.scan t c).TaskWaits n ∧ ¬(s.scan t c).Looks n := by
  obtain ⟨task, htask, b, hb, helig⟩ := not_unwanted hleft
  have hbt : b ≠ t := hb.ne (by rw [hpc]; rintro _ ⟨⟩)
  cases hfind : s.m_taskQueue.find? (s.eligible t) with
  | none =>
      have hruns := eligible_of_none (b := b) hfind htickle (List.mem_of_mem_eraseP htask)
      cases helig.symm.trans hruns
  | some picked =>
      have hself : (s.scan t c).pc t = .has (coroutineOf picked c) := by
        rw [scan, hfind, if_neg htickle]
        exact goto_self s t _
      constructor
      · refine ⟨b, hb.keep (goto_other s _ hbt) rfl, task, htask, ?_⟩
        rw [eligible_states rfl (resetCb_exec hc _)]
        exact helig
      · intro hlooks
        refine hothers (hlooks.elsewhere rfl rfl rfl (fun u hu => goto_other s _ hu) ?_ ?_)
        · rw [hself]
          rintro _ _ ⟨⟩
        · rintro ⟨-, -, hexec⟩
          rw [hself] at hexec
          cases hexec

theorem block_sleeps {t : Nat} {next_timeout : UInt64} (ht : t < n)
    (hnow : waitUntil s.clock next_timeout ≠ some s.clock.toNat) (hothers : ¬s.OthersLook n t)
    (hwaits : ¬(s.Unwanted n s.m_taskQueue ∧ ∀ task ∈ s.m_taskQueue, s.eligible t task = false))
    (hpc : s.pc t = .epoll next_timeout) :
    (s.goto t (.wait (waitUntil s.clock next_timeout))).TaskWaits n ∧
      ¬(s.goto t (.wait (waitUntil s.clock next_timeout))).Looks n := by
  have hself := goto_self s t (.wait (waitUntil s.clock next_timeout))
  have hblocked := block_blocked ht hnow
  constructor
  · by_cases hunwanted : s.Unwanted n s.m_taskQueue
    · by_contra hnone
      refine hwaits ⟨hunwanted, fun task htask => Bool.eq_false_iff.mpr fun helig => ?_⟩
      exact hnone ⟨t, hblocked, task, htask, helig⟩
    · obtain ⟨task, htask, b, hb, helig⟩ := not_unwanted hunwanted
      have hbt : b ≠ t := hb.ne (by rw [hpc]; exact fun _ h => nomatch h)
      exact ⟨b, hb.keep (goto_other s _ hbt) rfl, task, htask, helig⟩
  · intro hlooks
    refine hothers (hlooks.elsewhere rfl rfl rfl (fun u hu => goto_other s _ hu) ?_ ?_)
    · rw [hself]
      exact fun _ _ h => nomatch h
    · exact fun hway => hway.2.1 hblocked

/-- A step that does not meet the condition leaves a task to the threads that sleep. -/
theorem uncovered_sleeps (h : ¬s.TasksCovered n e) (hexec : s.exec n e = some s') :
    s'.TaskWaits n ∧ ¬s'.Looks n := by
  cases e with
  | schedule k tasks =>
      obtain ⟨hqueue, hlooks, hwanted⟩ : s.m_taskQueue ≠ [] ∧ ¬s.Looks n ∧
          ¬s.Unwanted n tasks.reduceOption := by
        refine ⟨fun hc => h (.inl hc), fun hc => h (.inr (.inl hc)), fun hc => h (.inr (.inr hc))⟩
      obtain ⟨task, htask, b, hb, helig⟩ := not_unwanted hwanted
      rw [exec] at hexec
      split at hexec
      next hk =>
        dsimp only at hexec
        rw [scheduleAll_behind tasks _ hqueue, if_neg Bool.false_ne_true, setCaller_none hk]
          at hexec
        injection hexec with hexec
        subst hexec
        refine ⟨⟨b, hb, task, ?_, helig⟩, fun hc => hlooks (hc.same rfl rfl UInt64.le_rfl rfl)⟩
        change task ∈ (scheduleAll tasks s.m_taskQueue).2
        rw [scheduleAll_queue]
        exact List.mem_append_right _ htask
      next => cases hexec
  | next t o =>
      rw [TasksCovered, not_and_or] at h
      rcases h with hscan | hblock
      · rw [Classical.not_imp, not_or, not_or] at hscan
        obtain ⟨hpc, htickle, hothers, hleft⟩ := hscan
        obtain ⟨c, hc, rfl⟩ := exec_scan hpc hexec
        exact scan_sleeps hpc hc htickle hothers hleft
      · rw [not_forall] at hblock
        obtain ⟨next_timeout, hblock⟩ := hblock
        rw [Classical.not_imp, not_or, not_or] at hblock
        obtain ⟨hpc, hnow, hothers, hwaits⟩ := hblock
        obtain ⟨ht, rfl⟩ := exec_epoll hpc hexec
        exact block_sleeps ht hnow hothers hwaits hpc
  | addTimer k ms cb recurring addr => exact absurd trivial h
  | tickle call => exact absurd trivial h
  | advance now => exact absurd trivial h

/-- The first step that does not meet the condition leaves a task to the threads that sleep. -/
theorem run_tasks_wake {es : List Step}
    (hr : ((wakeUp n).restrict (TasksCovered n)).Run es s) :
    (s.TaskWaits n → s.Looks n) ∧
      ∀ e s', (wakeUp n).step s e s' → ¬s.TasksCovered n e → ¬(s'.TaskWaits n → s'.Looks n) := by
  have hinv : Counted n s ∧ (s.TaskWaits n → s.Looks n) := by
    apply hr.invariant (I := fun s => Counted n s ∧ (s.TaskWaits n → s.Looks n))
    · rintro s ⟨clock, rfl⟩
      refine ⟨create_counted clock, ?_⟩
      rintro ⟨b, -, task, htask, -⟩
      cases htask
    · rintro s e s' ⟨hcount, ih⟩ ⟨hcovered, hstep⟩
      obtain ⟨hcount', hwakes | hsilent⟩ := exec_cases hcount hstep
      · refine ⟨hcount', ?_⟩
        rintro ⟨b, hb, -⟩
        exact hwakes.looks hb
      · exact ⟨hcount', silent_tasks hsilent hcovered ih⟩
  refine ⟨hinv.2, fun e s' hstep huncovered hwakes => ?_⟩
  obtain ⟨hwaits, hlooks⟩ := uncovered_sleeps huncovered hstep
  exact hlooks (hwakes hwaits)

/-- A thread sleeps when the first task comes. -/
theorem run_tasks_wake_one : ∃ es s, ((wakeUp 1).restrict (TasksCovered 1)).Run es s ∧
    s.TaskWaits 1 ∧ s.Looks 1 := by
  have hsleeps : ∀ (s : WakeUp), s.m_taskQueue = [] → ∀ o, TasksCovered 1 s (.next 0 o) := by
    intro s hqueue o
    refine ⟨fun _ => .inr (.inr ?_), fun _ _ => .inr (.inr ⟨?_, ?_⟩)⟩
    all_goals
      rw [hqueue]
      intro task htask
      cases htask
  have h₀ : ((wakeUp 1).restrict (TasksCovered 1)).Run [] (create 0) := .start ⟨0, rfl⟩
  have h₁ := h₀.snoc (e := Step.next 0 (.coroutine 0)) ⟨hsleeps _ rfl _, rfl⟩
  have h₂ := h₁.snoc (e := Step.next 0 .go) ⟨hsleeps _ rfl _, rfl⟩
  have h₃ := h₂.snoc (e := Step.next 0 .go) ⟨hsleeps _ rfl _, rfl⟩
  have h₄ := h₃.snoc (e := Step.next 0 .go) ⟨hsleeps _ rfl _, rfl⟩
  have h₅ := h₄.snoc (e := Step.schedule 0 [some ⟨.cb, none⟩]) ⟨.inl rfl, rfl⟩
  have hlooks := (run_tasks_wake h₅).1
  refine ⟨_, _, h₅, (and_iff_left_of_imp hlooks).mpr ⟨0, ⟨Nat.zero_lt_one, some 3000, rfl, ?_⟩,
    ⟨.cb, none⟩, List.mem_singleton_self _, rfl⟩⟩
  rintro m ⟨⟩
  decide

/-- The thread has found the queue empty and is not counted yet when the task comes. -/
theorem task_sleeps : ∃ es s, (wakeUp 1).Run es s ∧ s.TaskWaits 1 ∧ ¬s.Looks 1 := by
  have h₀ : (wakeUp 1).Run [] (create 0) := .start ⟨0, rfl⟩
  have h₁ := h₀.snoc (e := Step.next 0 (.coroutine 0)) rfl
  have h₂ := h₁.snoc (e := Step.schedule 0 [some ⟨.cb, none⟩]) rfl
  have h₃ := h₂.snoc (e := Step.tickle (.schedule 0)) rfl
  have h₄ := h₃.snoc (e := Step.next 0 .go) rfl
  have h₅ := h₄.snoc (e := Step.next 0 .go) rfl
  have h₆ := h₅.snoc (e := Step.next 0 .go) rfl
  refine ⟨_, _, h₆, ⟨0, ⟨Nat.zero_lt_one, some 3000, rfl, ?_⟩, ⟨.cb, none⟩,
    List.mem_singleton_self _, rfl⟩, ?_⟩
  · rintro m ⟨⟩
    decide
  · rintro ((hb | ⟨k, hk⟩ | ⟨t, p, next, ht, hp⟩) | ⟨t, ht, hblocked, -⟩)
    · cases hb
    · apply hk
      cases k with
      | schedule k => cases k <;> rfl
      | addTimer k => rfl
    · cases Nat.lt_one_iff.mp ht
      cases hp
    · cases Nat.lt_one_iff.mp ht
      apply hblocked
      refine ⟨Nat.zero_lt_one, some 3000, rfl, ?_⟩
      rintro m ⟨⟩
      decide

end WakeUp

end CIM
