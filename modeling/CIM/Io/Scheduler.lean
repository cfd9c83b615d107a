import Mathlib.Logic.Function.Basic
import CIM.Io.Lock
import CIM.Lib.System

/-!
# Scheduler

Every thread of the scheduler goes through the loop of `run`: it takes a task, enters its
coroutine, and looks at the state the coroutine has left when it comes back. A coroutine changes
its own state before the switch that takes it off the thread.
-/
namespace CIM

open Transition

namespace Scheduler

inductive State
  | INIT
  | HOLD
  | EXEC
  | TERM
  | READY
  | EXCEPT
  deriving DecidableEq, Repr

/-- What `run` entered the coroutine for. -/
inductive Kind
  | task
  | cb
  | idle
  deriving DecidableEq, Repr

/-- How far a thread is with a coroutine. From `entering`, the call of `swapIn`, to the end of
`swapOut`, which leads to `left`, the stack of the coroutine is in use. -/
inductive Point
  | picked
  | entering
  | running
  | waiting
  | stored
  | left
  deriving DecidableEq, Repr

/-- Between the two stores of the state in `swapIn` and before `swapOut`. -/
def Point.executing : Point → Bool
  | .running => true
  | .waiting => true
  | _ => false

inductive Pc
  | loop
  | has (p : Point) (k : Kind) (c : Nat)
  | exited
  deriving DecidableEq, Repr

inductive Work
  | coroutine (c : Nat)
  | cb
  deriving DecidableEq, Repr

/-- Without a thread id every thread may run the task. -/
structure Task where
  work : Work
  threadId : Option Nat
  deriving DecidableEq, Repr

end Scheduler

open Scheduler

/-- Coroutines are numbered as they are made; that of the idle loop of a thread has the thread's
number. `cb_coroutine` is a variable of `run`. -/
structure Scheduler where
  next : Nat
  m_state : Nat → Scheduler.State
  m_taskQueue : List Scheduler.Task
  pc : Nat → Scheduler.Pc
  cb_coroutine : Nat → Option Nat
  sems : Nat → CoroutineSemaphore Nat

namespace Scheduler

def schedule (s : Scheduler) (work : Work) (threadId : Option Nat) : Scheduler :=
  { s with m_taskQueue := s.m_taskQueue ++ [⟨work, threadId⟩] }

def setPc (s : Scheduler) (t : Nat) (pc : Pc) : Scheduler :=
  { s with pc := Function.update s.pc t pc }

def setState (s : Scheduler) (c : Nat) (state : Scheduler.State) : Scheduler :=
  { s with m_state := Function.update s.m_state c state }

def setCb (s : Scheduler) (t : Nat) (cb : Option Nat) : Scheduler :=
  { s with cb_coroutine := Function.update s.cb_coroutine t cb }

/-- A coroutine that is being executed is skipped. -/
def eligible (s : Scheduler) (t : Nat) (task : Task) : Bool :=
  task.threadId.all (fun i => i == t) &&
    match task.work with
    | .coroutine c => s.m_state c != .EXEC
    | .cb => true

/-- The first task in the queue that the thread may take. -/
def picks (s : Scheduler) (t : Nat) : Option Task := s.m_taskQueue.find? (s.eligible t)

def isOver (state : Scheduler.State) : Bool := state == .TERM || state == .EXCEPT

/-- Where `reset` passes its assertion. -/
def canReset (state : Scheduler.State) : Bool := isOver state || state == .INIT

/-- The part of the loop that takes a task, up to the check of a coroutine's state or the call of
`swapIn`. -/
def pick (s : Scheduler) (t : Nat) : Option Scheduler :=
  match s.picks t with
  | some ⟨.coroutine c, _⟩ =>
      some ({ s with m_taskQueue := s.m_taskQueue.eraseP (s.eligible t) }.setPc t
        (.has .picked .task c))
  | some ⟨.cb, _⟩ =>
      let s := { s with m_taskQueue := s.m_taskQueue.eraseP (s.eligible t) }
      match s.cb_coroutine t with
      | some c =>
          if canReset (s.m_state c) then
            some ((s.setState c .INIT).setPc t (.has .entering .cb c))
          else none
      | none =>
          some ((({ s with next := s.next + 1 }.setState s.next .INIT).setCb t
            (some s.next)).setPc t (.has .entering .cb s.next))
  | none =>
      if s.m_state t = .TERM then some (s.setPc t .exited)
      else some (s.setPc t (.has .entering .idle t))

/-- The part of the loop behind `swapIn`. -/
def after (s : Scheduler) (t : Nat) (k : Kind) (c : Nat) : Scheduler :=
  match k with
  | .task =>
      if s.m_state c = .READY then s.schedule (.coroutine c) none
      else if isOver (s.m_state c) then s
      else s.setState c .HOLD
  | .cb =>
      if s.m_state c = .READY then (s.schedule (.coroutine c) none).setCb t none
      else if isOver (s.m_state c) then s.setState c .INIT
      else (s.setState c .HOLD).setCb t none
  | .idle => if isOver (s.m_state c) then s else s.setState c .HOLD

/-- The state a coroutine stores before `swapOut`: that of `YieldToHold` and `YieldToReady`, that
at its end, or none where it calls `swapOut` itself. -/
inductive Leave
  | yieldToHold
  | yieldToReady
  | swapOut
  | term
  | except
  deriving DecidableEq, Repr

/-- The actions of thread `t`, of the coroutine it runs, and of anyone who makes or schedules
work. -/
inductive Step
  | create
  | schedule (work : Work) (threadId : Option Nat)
  | notify (sem : Nat)
  | pick (t : Nat)
  | check (t : Nat)
  | swapIn (t : Nat)
  | wait (t sem : Nat)
  | leave (t : Nat) (l : Leave)
  | swapOut (t : Nat)
  | after (t : Nat)

/-- What the coroutine `c` stores when it leaves; the assertion of `YieldTo...` is that it is
being executed. -/
def store (s : Scheduler) (c : Nat) : Leave → Option Scheduler
  | .yieldToHold => if s.m_state c = .EXEC then some (s.setState c .HOLD) else none
  | .yieldToReady => if s.m_state c = .EXEC then some (s.setState c .READY) else none
  | .swapOut => some s
  | .term => some (s.setState c .TERM)
  | .except => some (s.setState c .EXCEPT)

/-- None where the action is not the next one of the thread, or fails an assertion. Only
coroutines that were made can be scheduled, and not that of an idle loop; the idle loop does not
wait. -/
def exec (n : Nat) (s : Scheduler) : Step → Option Scheduler
  | .create => some ({ s with next := s.next + 1 }.setState s.next .INIT)
  | .schedule (.coroutine c) threadId =>
      if n ≤ c ∧ c < s.next then some (s.schedule (.coroutine c) threadId) else none
  | .schedule .cb threadId => some (s.schedule .cb threadId)
  | .notify sem =>
      let r := (s.sems sem).notify
      let s := { s with sems := Function.update s.sems sem r.2 }
      match r.1 with
      | some c => some (s.schedule (.coroutine c) none)
      | none => some s
  | .pick t => if t < n ∧ s.pc t = .loop then s.pick t else none
  | .check t =>
      match s.pc t with
      | .has .picked k c =>
          if isOver (s.m_state c) then some (s.setPc t .loop)
          else some (s.setPc t (.has .entering k c))
      | _ => none
  | .swapIn t =>
      match s.pc t with
      | .has .entering k c =>
          if s.m_state c = .EXEC ∨ isOver (s.m_state c) then none
          else some ((s.setState c .EXEC).setPc t (.has .running k c))
      | _ => none
  | .wait t sem =>
      match s.pc t with
      | .has .running k c =>
          if k = .idle then none
          else
            let r := (s.sems sem).wait c
            let s := { s with sems := Function.update s.sems sem r.2 }
            if r.1 then some s else some (s.setPc t (.has .waiting k c))
      | _ => none
  | .leave t l =>
      match s.pc t with
      | .has .running k c => (s.store c l).map fun s => s.setPc t (.has .stored k c)
      | .has .waiting k c =>
          if l = .yieldToHold then (s.store c l).map fun s => s.setPc t (.has .stored k c) else none
      | _ => none
  | .swapOut t =>
      match s.pc t with
      | .has .stored k c => some (s.setPc t (.has .left k c))
      | _ => none
  | .after t =>
      match s.pc t with
      | .has .left k c => some ((s.after t k c).setPc t .loop)
      | _ => none

end Scheduler

/-- `n` threads, each with the coroutine of its idle loop, and semaphores without a waiter. -/
def scheduler (n : Nat) : System Scheduler Scheduler.Step where
  init s :=
    s.next = n ∧ s.m_taskQueue = [] ∧ (∀ c, s.m_state c = .INIT) ∧ (∀ t, s.pc t = .loop) ∧
      (∀ t, s.cb_coroutine t = none) ∧ ∀ i, (s.sems i).m_waiters = []
  step s e s' := s.exec n e = some s'

end CIM
