import CIM.Io.SemaphoreRuns

/-!
# Worker group

`schedule` takes a permit for a task, the worker that runs the task returns it, and `waitAll` takes
all of them. A task that throws leaves `doWork` before the permit is returned.
-/
namespace CIM.WorkerGroup

open Transition CoroutineSemaphore

variable {κ τ : Type}

/-- A call in whose `m_sem.wait()` a coroutine may be. -/
inductive Call (τ : Type)
  | schedule (cb : τ)
  /-- At the head of the loop, with `i` permits. -/
  | waitAll (i : Nat)

/-- The group with the semaphore and the coroutines that use it. -/
structure World (κ τ : Type) where
  m_sem : CoroutineSemaphore.World κ
  m_finish : Bool
  call : κ → Option (Call τ)
  /-- The calls of `schedule` that have a permit and have not given the task away. -/
  permitted : List (κ × τ)
  /-- What the scheduler was given, and what its workers run. -/
  scheduled : List τ
  running : List τ
  /-- The tasks that returned and that threw. -/
  returned : Nat
  thrown : Nat
  /-- The permits that `waitAll` has. -/
  taken : Nat

inductive Event (κ τ : Type)
  | schedule (self : κ) (cb : τ)
  | submit (self : κ) (cb : τ)
  | waitAll (self : κ)
  | take (self : κ)
  | leave (self : κ)
  | yieldToHold (self : κ)
  | resume (self : κ)
  | start (cb : τ)
  | doWork (cb : τ)
  | throw (cb : τ)

section Steps

variable [DecidableEq κ] [DecidableEq τ]

/-- `m_sem.wait()`, up to the point where it returns or the coroutine yields. -/
def World.schedule (w : World κ τ) (self : κ) (cb : τ) : World κ τ :=
  if (w.m_sem.sem.wait self).1 then
    { w with m_sem := w.m_sem.wait self, permitted := w.permitted ++ [(self, cb)] }
  else
    { w with
      m_sem := w.m_sem.wait self
      call := Function.update w.call self (some (.schedule cb)) }

/-- `m_scheduler->schedule`. -/
def World.submit (w : World κ τ) (self : κ) (cb : τ) : World κ τ :=
  { w with permitted := w.permitted.erase (self, cb), scheduled := w.scheduled ++ [cb] }

/-- Only the first call of `waitAll` has a loop. -/
def World.waitAll (w : World κ τ) (self : κ) : World κ τ :=
  if w.m_finish then w
  else
    { w with
      m_finish := true
      call := Function.update w.call self (some (.waitAll 0)) }

/-- A turn of the loop, with `i` permits before it. -/
def World.take (w : World κ τ) (self : κ) (i : Nat) : World κ τ :=
  if (w.m_sem.sem.wait self).1 then
    { w with
      m_sem := w.m_sem.wait self
      call := Function.update w.call self (some (.waitAll (i + 1)))
      taken := w.taken + 1 }
  else { w with m_sem := w.m_sem.wait self }

def World.leave (w : World κ τ) (self : κ) : World κ τ :=
  { w with call := Function.update w.call self none }

def World.yieldToHold (w : World κ τ) (self : κ) : World κ τ :=
  { w with
    m_sem := { w.m_sem with waiting := Function.update w.m_sem.waiting self (some .hold) } }

/-- `m_sem.wait()` returns to the call. -/
def World.resume (w : World κ τ) (self : κ) : Call τ → World κ τ
  | .schedule cb =>
      { w with
        m_sem := w.m_sem.resume self
        call := Function.update w.call self none
        permitted := w.permitted ++ [(self, cb)] }
  | .waitAll i =>
      { w with
        m_sem := w.m_sem.resume self
        call := Function.update w.call self (some (.waitAll (i + 1)))
        taken := w.taken + 1 }

def World.start (w : World κ τ) (cb : τ) : World κ τ :=
  { w with scheduled := w.scheduled.erase cb, running := w.running ++ [cb] }

/-- `cb(); m_sem.notify();`. -/
def World.doWork (w : World κ τ) (cb : τ) : World κ τ :=
  { w with
    running := w.running.erase cb
    m_sem := w.m_sem.notify
    returned := w.returned + 1 }

/-- `Coroutine::MainFunc` catches what `cb()` throws. -/
def World.throw (w : World κ τ) (cb : τ) : World κ τ :=
  { w with running := w.running.erase cb, thrown := w.thrown + 1 }

/-- The coroutine is in no call. -/
def World.Idle (w : World κ τ) (c : κ) : Prop :=
  w.m_sem.waiting c = none ∧ w.call c = none ∧ ∀ cb, (c, cb) ∉ w.permitted

/-- `m_finish` is read and written without a lock; the first call of `waitAll` is taken to set it
before another one reads it. -/
inductive Step (n : Nat) : World κ τ → Event κ τ → World κ τ → Prop
  | schedule {w : World κ τ} {c : κ} {cb : τ} :
      w.Idle c → Step n w (.schedule c cb) (w.schedule c cb)
  | submit {w : World κ τ} {c : κ} {cb : τ} :
      (c, cb) ∈ w.permitted → Step n w (.submit c cb) (w.submit c cb)
  | waitAll {w : World κ τ} {c : κ} : w.Idle c → Step n w (.waitAll c) (w.waitAll c)
  | take {w : World κ τ} {c : κ} {i : Nat} : w.m_sem.waiting c = none →
      w.call c = some (.waitAll i) → i < n → Step n w (.take c) (w.take c i)
  | leave {w : World κ τ} {c : κ} : w.m_sem.waiting c = none →
      w.call c = some (.waitAll n) → Step n w (.leave c) (w.leave c)
  | yieldToHold {w : World κ τ} {c : κ} : w.m_sem.waiting c = some .exec →
      Step n w (.yieldToHold c) (w.yieldToHold c)
  | resume {w : World κ τ} {c : κ} {call : Call τ} : w.m_sem.waiting c = some .hold →
      c ∈ w.m_sem.scheduled → w.call c = some call → Step n w (.resume c) (w.resume c call)
  | start {w : World κ τ} {cb : τ} : cb ∈ w.scheduled → Step n w (.start cb) (w.start cb)
  | doWork {w : World κ τ} {cb : τ} : cb ∈ w.running → Step n w (.doWork cb) (w.doWork cb)
  | throw {w : World κ τ} {cb : τ} : cb ∈ w.running → Step n w (.throw cb) (w.throw cb)

end Steps

def new (n : Nat) : World κ τ :=
  ⟨⟨⟨n, []⟩, fun _ => none, [], n, 0, [], []⟩, false, fun _ => none, [], [], [], 0, 0, 0⟩

/-- A group of batch size `n`. -/
def system (κ τ : Type) [DecidableEq κ] [DecidableEq τ] (n : Nat) :
    System (World κ τ) (Event κ τ) where
  init w := w = new n
  step := Step n

/-! ## What is wanted -/

def inSchedule (w : World κ τ) (c : κ) : Bool :=
  match w.call c with
  | some (.schedule _) => true
  | _ => false

def inWaitAll (w : World κ τ) (c : κ) : Bool :=
  match w.call c with
  | some (.waitAll _) => true
  | _ => false

/-- The tasks that have a permit, from the one that a `notify` hands to a waiting `schedule` on. -/
def unfinished (w : World κ τ) : Nat :=
  w.m_sem.scheduled.countP (inSchedule w) + w.permitted.length + w.scheduled.length +
    w.running.length

/-- The permits of `waitAll`, with one that is handed to it. -/
def takenAll (w : World κ τ) : Nat := w.taken + w.m_sem.scheduled.countP (inWaitAll w)

/-- The coroutine of an event that is a step of a call. -/
def Event.caller : Event κ τ → Option κ
  | .schedule c _ | .submit c _ | .waitAll c | .take c | .leave c | .yieldToHold c | .resume c =>
      some c
  | .start _ | .doWork _ | .throw _ => none

/-- Once all tasks have ended, the steps of `waitAll` lead to its end. -/
def CanReturn [DecidableEq κ] [DecidableEq τ] (n : Nat) (w : World κ τ) : Prop :=
  ∀ c i, w.call c = some (.waitAll i) → unfinished w = 0 →
    ∃ es w', ((system κ τ n).resume w).Run es w' ∧ w'.call c = none ∧
      ∀ e ∈ es, e.caller = some c

structure Meets [DecidableEq κ] [DecidableEq τ] (n : Nat) (w : World κ τ) : Prop where
  bound : w.scheduled.length + w.running.length ≤ n
  conserved : w.m_sem.sem.m_concurrency + unfinished w + takenAll w = n
  returns : CanReturn n w

def Throws : Event κ τ → Prop
  | .throw _ => True
  | _ => False

/-! ## The invariant -/

/-- Who waits is in a call, and at most one coroutine is in the loop of `waitAll`, with as many
permits as turns behind it. -/
structure Loops (n : Nat) (waiting : κ → Option Phase) (call : κ → Option (Call τ))
    (finish : Bool) (taken : Nat) : Prop where
  calling : ∀ c, waiting c ≠ none → call c ≠ none
  turns : ∀ c i, call c = some (.waitAll i) →
    taken = i ∧ i ≤ n ∧ finish = true ∧ (waiting c ≠ none → i < n)
  single : ∀ c d i j, call c = some (.waitAll i) → call d = some (.waitAll j) → c = d
  fresh : finish = false → taken = 0

/-- Every acquired permit is one of a task, was returned or lost by one, or is one of `waitAll`. -/
structure Inv (n : Nat) (w : World κ τ) : Prop where
  sem : CoroutineSemaphore.Inv w.m_sem
  granted : w.m_sem.granted = n + w.returned
  acquired : w.m_sem.acquired = w.permitted.length + w.scheduled.length + w.running.length +
    w.returned + w.thrown + w.taken
  loops : Loops n w.m_sem.waiting w.call w.m_finish w.taken

namespace Loops

variable [DecidableEq κ] {n : Nat} {waiting waiting' : κ → Option Phase}
  {call : κ → Option (Call τ)} {finish : Bool} {taken : Nat} {c : κ}

theorem rewait (h : Loops n waiting call finish taken)
    (hother : ∀ d, d ≠ c → waiting' d = waiting d)
    (hself : waiting' c ≠ none → call c ≠ none ∧ ∀ i, call c = some (.waitAll i) → i < n) :
    Loops n waiting' call finish taken := by
  refine ⟨fun d hd => ?_, fun d i hd => ?_, h.single, h.fresh⟩
  · by_cases hdc : d = c
    · subst hdc
      exact (hself hd).1
    · exact h.calling d (hother d hdc ▸ hd)
  · obtain ⟨htaken, hle, hfinish, hlt⟩ := h.turns d i hd
    refine ⟨htaken, hle, hfinish, fun hw => ?_⟩
    by_cases hdc : d = c
    · subst hdc
      exact (hself hw).2 i hd
    · exact hlt (hother d hdc ▸ hw)

/-- A coroutine enters or leaves a call that is no loop. -/
theorem update (h : Loops n waiting call finish taken) {x : Option (Call τ)}
    (hx : ∀ i, x ≠ some (.waitAll i)) (hother : ∀ d, d ≠ c → waiting' d = waiting d)
    (hself : waiting' c ≠ none → x ≠ none) :
    Loops n waiting' (Function.update call c x) finish taken := by
  have hcall : ∀ d i, Function.update call c x d = some (.waitAll i) →
      d ≠ c ∧ call d = some (.waitAll i) := by
    intro d i hd
    by_cases hdc : d = c
    · rw [hdc, Function.update_self] at hd
      exact absurd hd (hx i)
    · rw [Function.update_of_ne hdc] at hd
      exact ⟨hdc, hd⟩
  refine ⟨fun d hd => ?_, fun d i hd => ?_, fun d e i j hd he => ?_, h.fresh⟩
  · by_cases hdc : d = c
    · subst hdc
      rw [Function.update_self]
      exact hself hd
    · rw [Function.update_of_ne hdc]
      exact h.calling d (hother d hdc ▸ hd)
  · obtain ⟨hdc, hd⟩ := hcall d i hd
    rw [hother d hdc]
    exact h.turns d i hd
  · exact h.single d e i j (hcall d i hd).2 (hcall e j he).2

/-- The only loop has one turn more. -/
theorem next (h : Loops n waiting call finish taken) {i : Nat} (hc : call c = some (.waitAll i))
    (hi : i < n) (hother : ∀ d, d ≠ c → waiting' d = waiting d) (hself : waiting' c = none) :
    Loops n waiting' (Function.update call c (some (.waitAll (i + 1)))) finish (taken + 1) := by
  obtain ⟨htaken, -, hfinish, -⟩ := h.turns c i hc
  have honly : ∀ d j, Function.update call c (some (.waitAll (i + 1))) d = some (.waitAll j) →
      d = c ∧ j = i + 1 := by
    intro d j hd
    by_cases hdc : d = c
    · rw [hdc, Function.update_self] at hd
      cases hd
      exact ⟨hdc, rfl⟩
    · rw [Function.update_of_ne hdc] at hd
      exact absurd (h.single d c j i hd hc) hdc
  refine ⟨fun d hd => ?_, fun d j hd => ?_, fun d e j k hd he => ?_, fun hno => ?_⟩
  · by_cases hdc : d = c
    · exact absurd (hdc ▸ hself) hd
    · rw [Function.update_of_ne hdc]
      exact h.calling d (hother d hdc ▸ hd)
  · obtain ⟨rfl, rfl⟩ := honly d j hd
    exact ⟨congrArg (· + 1) htaken, hi, hfinish, fun hw => absurd hself hw⟩
  · rw [(honly d j hd).1, (honly e k he).1]
  · rw [hfinish] at hno
    cases hno

/-- The first call of `waitAll`. -/
theorem enter (h : Loops n waiting call false taken) (hc : waiting c = none) :
    Loops n waiting (Function.update call c (some (.waitAll 0))) true taken := by
  have honly : ∀ d i, Function.update call c (some (.waitAll 0)) d = some (.waitAll i) →
      d = c ∧ i = 0 := by
    intro d i hd
    by_cases hdc : d = c
    · rw [hdc, Function.update_self] at hd
      cases hd
      exact ⟨hdc, rfl⟩
    · rw [Function.update_of_ne hdc] at hd
      exact absurd (h.turns d i hd).2.2.1 Bool.false_ne_true
  refine ⟨fun d hd => ?_, fun d i hd => ?_, fun d e i j hd he => ?_, nofun⟩
  · by_cases hdc : d = c
    · exact absurd (hdc ▸ hc) hd
    · rw [Function.update_of_ne hdc]
      exact h.calling d hd
  · obtain ⟨rfl, rfl⟩ := honly d i hd
    exact ⟨h.fresh rfl, Nat.zero_le _, rfl, fun hw => absurd hc hw⟩
  · rw [(honly d i hd).1, (honly e j he).1]

end Loops

/-- What the critical section of `wait` does. -/
theorem wait_spec [DecidableEq κ] (s : CoroutineSemaphore.World κ) (c : κ) :
    (s.wait c).granted = s.granted ∧ (s.wait c).scheduled = s.scheduled ∧
      if (s.sem.wait c).1 then
        (s.wait c).acquired = s.acquired + 1 ∧ (s.wait c).waiting = s.waiting ∧
          (s.wait c).sem.m_concurrency + 1 = s.sem.m_concurrency
      else (s.wait c).acquired = s.acquired ∧
        (s.wait c).waiting = Function.update s.waiting c (some .exec) := by
  unfold CoroutineSemaphore.World.wait
  by_cases hc : 0 < s.sem.m_concurrency
  · rw [wait_permit c hc]
    exact ⟨rfl, rfl, rfl, rfl, Nat.sub_add_cancel hc⟩
  · rw [wait_queued c hc]
    exact ⟨rfl, rfl, rfl, rfl⟩

theorem notify_spec (s : CoroutineSemaphore.World κ) :
    s.notify.granted = s.granted + 1 ∧ s.notify.acquired = s.acquired ∧
      s.notify.waiting = s.waiting := by
  unfold CoroutineSemaphore.World.notify
  split <;> exact ⟨rfl, rfl, rfl⟩

namespace Inv

variable [DecidableEq κ] [DecidableEq τ] {n : Nat} {w w' : World κ τ} {c : κ} {cb : τ}

omit [DecidableEq τ] in
theorem schedule (h : Inv n w) (hc : w.Idle c) : Inv n (w.schedule c cb) := by
  obtain ⟨hgranted, -, hspec⟩ := wait_spec w.m_sem c
  have hsem := h.sem.wait hc.1
  have hacquired := h.acquired
  unfold World.schedule
  split
  · rename_i hpermit
    rw [if_pos hpermit] at hspec
    refine ⟨hsem, hgranted.trans h.granted, ?_, hspec.2.1 ▸ h.loops⟩
    change (w.m_sem.wait c).acquired = (w.permitted ++ [(c, cb)]).length + w.scheduled.length +
      w.running.length + w.returned + w.thrown + w.taken
    rw [hspec.1, List.length_append, List.length_singleton]
    omega
  · rename_i hqueue
    rw [if_neg hqueue] at hspec
    refine ⟨hsem, hgranted.trans h.granted, hspec.1.trans h.acquired,
      h.loops.update (fun _ => nofun) (fun d hd => ?_) fun _ => nofun⟩
    change (w.m_sem.wait c).waiting d = _
    rw [hspec.2, Function.update_of_ne hd]

theorem submit (h : Inv n w) (hc : (c, cb) ∈ w.permitted) : Inv n (w.submit c cb) := by
  refine ⟨h.sem, h.granted, ?_, h.loops⟩
  have hlen := List.length_erase_add_one hc
  change w.m_sem.acquired = (w.permitted.erase (c, cb)).length + (w.scheduled ++ [cb]).length +
    w.running.length + w.returned + w.thrown + w.taken
  rw [h.acquired, List.length_append, List.length_singleton]
  omega

omit [DecidableEq τ] in
theorem waitAll (h : Inv n w) (hc : w.Idle c) : Inv n (w.waitAll c) := by
  unfold World.waitAll
  split
  · exact h
  · rename_i hfinish
    have hloops := h.loops
    rw [Bool.eq_false_iff.mpr hfinish] at hloops
    exact ⟨h.sem, h.granted, h.acquired, hloops.enter hc.1⟩

omit [DecidableEq τ] in
theorem take {i : Nat} (h : Inv n w) (hw : w.m_sem.waiting c = none)
    (hc : w.call c = some (.waitAll i)) (hi : i < n) : Inv n (w.take c i) := by
  obtain ⟨hgranted, -, hspec⟩ := wait_spec w.m_sem c
  have hsem := h.sem.wait hw
  have hacquired := h.acquired
  unfold World.take
  split
  · rename_i hpermit
    rw [if_pos hpermit] at hspec
    refine ⟨hsem, hgranted.trans h.granted, ?_, ?_⟩
    · change (w.m_sem.wait c).acquired = w.permitted.length + w.scheduled.length +
        w.running.length + w.returned + w.thrown + (w.taken + 1)
      omega
    · refine h.loops.next hc hi (fun d _ => ?_) ?_
      · exact congrFun hspec.2.1 d
      · exact (congrFun hspec.2.1 c).trans hw
  · rename_i hqueue
    rw [if_neg hqueue] at hspec
    refine ⟨hsem, hgranted.trans h.granted, hspec.1.trans h.acquired,
      h.loops.rewait (c := c) (fun d hd => ?_) fun _ => ?_⟩
    · change (w.m_sem.wait c).waiting d = _
      rw [hspec.2, Function.update_of_ne hd]
    · rw [hc]
      refine ⟨Option.some_ne_none _, ?_⟩
      rintro j ⟨⟩
      exact hi

omit [DecidableEq τ] in
theorem leave (h : Inv n w) (hw : w.m_sem.waiting c = none) : Inv n (w.leave c) :=
  ⟨h.sem, h.granted, h.acquired,
    h.loops.update (fun _ => nofun) (fun _ _ => rfl) fun hne => absurd hw hne⟩

omit [DecidableEq τ] in
theorem yieldToHold (h : Inv n w) (hw : w.m_sem.waiting c = some .exec) :
    Inv n (w.yieldToHold c) := by
  have hwait : w.m_sem.waiting c ≠ none := by
    rw [hw]
    exact Option.some_ne_none _
  exact ⟨h.sem.yieldToHold hw, h.granted, h.acquired,
    h.loops.rewait (fun d hd => Function.update_of_ne hd _ _) fun _ =>
      ⟨h.loops.calling c hwait, fun i hi => (h.loops.turns c i hi).2.2.2 hwait⟩⟩

omit [DecidableEq τ] in
theorem resume {call : Call τ} (h : Inv n w) (hw : w.m_sem.waiting c = some .hold)
    (hs : c ∈ w.m_sem.scheduled) (hc : w.call c = some call) : Inv n (w.resume c call) := by
  have hsem := h.sem.resume hs
  have hacquired := h.acquired
  have hother : ∀ d, d ≠ c → (w.m_sem.resume c).waiting d = w.m_sem.waiting d := fun d hd =>
    Function.update_of_ne hd _ _
  have hself : (w.m_sem.resume c).waiting c = none := Function.update_self ..
  cases call with
  | schedule cb =>
      refine ⟨hsem, h.granted, ?_,
        h.loops.update (fun _ => nofun) hother fun hne => absurd hself hne⟩
      change w.m_sem.acquired + 1 = (w.permitted ++ [(c, cb)]).length + w.scheduled.length +
        w.running.length + w.returned + w.thrown + w.taken
      rw [List.length_append, List.length_singleton]
      omega
  | waitAll i =>
      have hi : i < n := (h.loops.turns c i hc).2.2.2 (by rw [hw]; exact Option.some_ne_none _)
      refine ⟨hsem, h.granted, ?_, h.loops.next hc hi hother hself⟩
      change w.m_sem.acquired + 1 = w.permitted.length + w.scheduled.length +
        w.running.length + w.returned + w.thrown + (w.taken + 1)
      omega

omit [DecidableEq κ] in
theorem start (h : Inv n w) (hcb : cb ∈ w.scheduled) : Inv n (w.start cb) := by
  refine ⟨h.sem, h.granted, ?_, h.loops⟩
  have hlen := List.length_erase_add_one hcb
  change w.m_sem.acquired = w.permitted.length + (w.scheduled.erase cb).length +
    (w.running ++ [cb]).length + w.returned + w.thrown + w.taken
  rw [h.acquired, List.length_append, List.length_singleton]
  omega

omit [DecidableEq κ] in
theorem doWork (h : Inv n w) (hcb : cb ∈ w.running) : Inv n (w.doWork cb) := by
  obtain ⟨hgranted, hacq, hwaiting⟩ := notify_spec w.m_sem
  have hlen := List.length_erase_add_one hcb
  have hacquired := h.acquired
  refine ⟨h.sem.notify, ?_, ?_, hwaiting.symm ▸ h.loops⟩
  · exact hgranted.trans (congrArg (· + 1) h.granted)
  · change w.m_sem.notify.acquired = w.permitted.length + w.scheduled.length +
      (w.running.erase cb).length + (w.returned + 1) + w.thrown + w.taken
    omega

omit [DecidableEq κ] in
theorem throw (h : Inv n w) (hcb : cb ∈ w.running) : Inv n (w.throw cb) := by
  have hlen := List.length_erase_add_one hcb
  have hacquired := h.acquired
  refine ⟨h.sem, h.granted, ?_, h.loops⟩
  change w.m_sem.acquired = w.permitted.length + w.scheduled.length +
    (w.running.erase cb).length + w.returned + (w.thrown + 1) + w.taken
  omega

theorem step {e : Event κ τ} (h : Inv n w) (hs : Step n w e w') : Inv n w' := by
  cases hs with
  | schedule hc => exact h.schedule hc
  | submit hc => exact h.submit hc
  | waitAll hc => exact h.waitAll hc
  | take hw hc hi => exact h.take hw hc hi
  | leave hw _ => exact h.leave hw
  | yieldToHold hw => exact h.yieldToHold hw
  | resume hw hs hc => exact h.resume hw hs hc
  | start hcb => exact h.start hcb
  | doWork hcb => exact h.doWork hcb
  | throw hcb => exact h.throw hcb

omit [DecidableEq κ] [DecidableEq τ] in
/-- Who is scheduled is in a call of `schedule` or of `waitAll`. -/
theorem handed (h : Inv n w) : w.m_sem.scheduled.countP (inSchedule w) +
    w.m_sem.scheduled.countP (inWaitAll w) = w.m_sem.scheduled.length := by
  rw [List.length_eq_countP_add_countP (inSchedule w)]
  congr 1
  refine List.countP_congr fun c hc => ?_
  have hcall := h.loops.calling c ((h.sem.inside c).mp (List.mem_append_right _ hc))
  unfold inSchedule inWaitAll
  cases hcase : w.call c with
  | none => exact absurd hcase hcall
  | some call => cases call <;> simp

omit [DecidableEq κ] [DecidableEq τ] in
/-- No permit is lost but those of the tasks that threw. -/
theorem conserved (h : Inv n w) :
    w.m_sem.sem.m_concurrency + unfinished w + takenAll w + w.thrown = n := by
  have hpermits := h.sem.permits
  have hgranted := h.granted
  have hacquired := h.acquired
  have hhanded := h.handed
  unfold unfinished takenAll
  omega

end Inv

section Runs

variable [DecidableEq κ] [DecidableEq τ] {n : Nat} {w w' : World κ τ} {c : κ}
  {es : List (Event κ τ)}

/-- With enough permits stored the loop comes to its end. -/
theorem takes (m : Nat) {i : Nat} {w₁ : World κ τ} (h : ((system κ τ n).resume w).Run es w₁)
    (hes : ∀ e ∈ es, e.caller = some c) (hw : w₁.m_sem.waiting c = none)
    (hc : w₁.call c = some (.waitAll i)) (hm : w₁.m_sem.sem.m_concurrency = m) (hn : m + i = n) :
    ∃ es' w', ((system κ τ n).resume w).Run es' w' ∧ w'.call c = none ∧
      ∀ e ∈ es', e.caller = some c := by
  induction m generalizing es w₁ i with
  | zero =>
      obtain rfl : i = n := by omega
      have hleave : ((system κ τ i).resume w).step w₁ (.leave c) (w₁.leave c) := Step.leave hw hc
      refine ⟨_, _, h.snoc hleave, Function.update_self .., ?_⟩
      rw [List.forall_mem_append, List.forall_mem_singleton]
      exact ⟨hes, rfl⟩
  | succ m ih =>
      have hpermit : (w₁.m_sem.sem.wait c).1 = true := by
        rw [wait_permit c (by omega)]
      obtain ⟨-, -, hspec⟩ := wait_spec w₁.m_sem c
      rw [if_pos hpermit] at hspec
      have htake : ((system κ τ n).resume w).step w₁ (.take c) (w₁.take c i) :=
        Step.take hw hc (by omega)
      have hrun := h.snoc htake
      rw [World.take, if_pos hpermit] at hrun
      refine ih hrun ?_ ((congrFun hspec.2.1 c).trans hw) (Function.update_self ..) ?_ (by omega)
      · rw [List.forall_mem_append, List.forall_mem_singleton]
        exact ⟨hes, rfl⟩
      · change (w₁.m_sem.wait c).sem.m_concurrency = m
        omega

theorem run_inv (h : (system κ τ n).Run es w) : Inv n w := by
  refine h.invariant (I := Inv n) ?_ fun _ _ _ hi hs => hi.step hs
  rintro w₀ rfl
  refine ⟨⟨Nat.zero_add _, fun _ => rfl, rfl, List.nodup_nil, fun c => ?_⟩, rfl, rfl,
    fun c hne => absurd rfl hne, fun _ _ => nofun, fun _ _ _ _ => nofun, fun _ => rfl⟩
  exact iff_of_false List.not_mem_nil fun hne => hne rfl

end Runs

end CIM.WorkerGroup
