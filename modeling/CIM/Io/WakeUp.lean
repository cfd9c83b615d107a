import Mathlib.Algebra.Group.Nat.Defs
import CIM.Io.Scheduler
import CIM.Io.Timer

/-!
# Idle threads and their wake-ups

The threads of an `IOManager` scan the queue, run what they find, and otherwise wait in the idle
loop, in `epoll_wait`. Who schedules a task or adds a timer may have to call `tickle`, which writes
a byte to a pipe that the idle threads poll. The scheduler is not being stopped.
-/
namespace CIM

open Transition

namespace WakeUp

/-- The program points of `tickle`. -/
inductive Tickle
  | check
  | write
  deriving DecidableEq, Repr

/-- The program points of a thread; `tickle` has the point it returns to. From `stopping` to `out`
the thread is in its idle loop, with what `epoll_wait` was given as the time it ends, and with
whether the pipe is among the events. -/
inductive Pc
  | scan
  | has (c : Nat)
  | exec (c : Nat)
  | found
  | stopping
  | epoll (next_timeout : UInt64)
  | wait (last : Option Nat)
  | woken (tickled : Bool)
  | expired (cbs : List (Option Nat)) (tickled : Bool)
  | events (tickled : Bool)
  | out
  | tickle (p : Tickle) (next : Pc)
  deriving DecidableEq, Repr

/-- The thread has a task, also while it still calls `tickle`. -/
def Pc.executing : Pc → Bool
  | .has _ => true
  | .exec _ => true
  | .tickle _ next => next.executing
  | _ => false

/-- The thread is counted in `m_idleThreadCount`. -/
def Pc.idle : Pc → Bool
  | .stopping => true
  | .epoll _ => true
  | .wait _ => true
  | .woken _ => true
  | .expired _ _ => true
  | .events _ => true
  | .out => true
  | .tickle _ next => next.idle
  | _ => false

/-- Calls of `schedule` and `addTimer` have a number of their own, whoever makes them. -/
inductive Call
  | schedule (k : Nat)
  | addTimer (k : Nat)
  deriving DecidableEq, Repr

end WakeUp

open WakeUp Scheduler

/-- `bytes` are the unread bytes of the pipe, and `caller` has the calls that are in `tickle`. -/
structure WakeUp where
  m_state : Nat → Scheduler.State
  m_taskQueue : List Scheduler.Task
  m_timers : TimerManager Nat
  m_idleThreadCount : Nat
  bytes : Nat
  clock : UInt64
  pc : Nat → WakeUp.Pc
  caller : WakeUp.Call → Option WakeUp.Tickle

namespace WakeUp

def create (clock : UInt64) : WakeUp :=
  ⟨fun _ => .INIT, [], TimerManager.create clock, 0, 0, clock, fun _ => .scan, fun _ => none⟩

def goto (s : WakeUp) (t : Nat) (pc : Pc) : WakeUp := { s with pc := Function.update s.pc t pc }

def eligible (s : WakeUp) (t : Nat) (task : Scheduler.Task) : Bool :=
  task.threadId.all (fun i => i == t) &&
    match task.work with
    | .coroutine c => s.m_state c != .EXEC
    | .cb => true

/-- A task without a coroutine and a callback is not stored. -/
def scheduleNolock (task : Option Scheduler.Task) (queue : List Scheduler.Task) :
    Bool × List Scheduler.Task :=
  (queue.isEmpty, queue ++ task.toList)

def scheduleAll : List (Option Scheduler.Task) → List Scheduler.Task →
    Bool × List Scheduler.Task
  | [], queue => (false, queue)
  | task :: tasks, queue =>
      let r := scheduleNolock task queue
      let rest := scheduleAll tasks r.2
      (r.1 || rest.1, rest.2)

/-- A thread that schedules goes on at `next`, by way of `tickle` where it has to. -/
def scheduleFrom (s : WakeUp) (t : Nat) (tasks : List (Option Scheduler.Task)) (next : Pc) :
    WakeUp :=
  let r := scheduleAll tasks s.m_taskQueue
  { s.goto t (if r.1 then .tickle .check next else next) with m_taskQueue := r.2 }

/-- The tasks for other threads that a scan meets before it takes one. -/
def tickleMe (s : WakeUp) (t : Nat) : Bool :=
  (s.m_taskQueue.takeWhile fun task => !s.eligible t task).any fun task =>
    !task.threadId.all fun i => i == t

/-- The coroutine of a task; a callback is run in `cb_coroutine`. -/
def coroutineOf (task : Scheduler.Task) (cb_coroutine : Nat) : Nat :=
  match task.work with
  | .coroutine c => c
  | .cb => cb_coroutine

/-- `cb_coroutine` is reset for a callback. -/
def resetCb (s : WakeUp) (cb_coroutine : Nat) : Option Scheduler.Task → Nat → Scheduler.State
  | some ⟨.cb, _⟩ => Function.update s.m_state cb_coroutine .INIT
  | _ => s.m_state

def scan (s : WakeUp) (t cb_coroutine : Nat) : WakeUp :=
  let task := s.m_taskQueue.find? (s.eligible t)
  let next := match task with
    | some task => Pc.has (coroutineOf task cb_coroutine)
    | none => .found
  { s.goto t (if s.tickleMe t then .tickle .check next else next) with
    m_state := s.resetCb cb_coroutine task
    m_taskQueue := s.m_taskQueue.eraseP (s.eligible t) }

/-- What `epoll_wait` is given: the conversion to `int` and the bound of three seconds. -/
def epollTimeout (next_timeout : UInt64) : Int :=
  let timeout := (next_timeout.toNat : Int).bmod (2 ^ 32)
  if next_timeout ≠ 0xffffffffffffffff then (if 3000 < timeout then 3000 else timeout) else 3000

/-- When `epoll_wait` ends; a negative timeout is none. -/
def waitUntil (clock next_timeout : UInt64) : Option Nat :=
  if epollTimeout next_timeout < 0 then none
  else some (clock.toNat + (epollTimeout next_timeout).toNat)

/-- What decides a step: the coroutine for a callback, the state in which a coroutine leaves,
whether the pipe is among the events, the address of a timer, or an epoll event that triggers a
task. -/
inductive Choice
  | go
  | coroutine (c : Nat)
  | state (st : Scheduler.State)
  | events (tickled : Bool)
  | addr (addr : Nat)
  | event (task : Option Scheduler.Task)

/-- One step of thread `t`. A coroutine changes its state and leaves the thread in one step. -/
def run (s : WakeUp) (t : Nat) (o : Choice) : Option WakeUp :=
  match s.pc t, o with
  | .scan, .coroutine c => if canReset (s.m_state c) then some (s.scan t c) else none
  | .has c, .go =>
      if isOver (s.m_state c) then some (s.goto t .scan)
      else some { s.goto t (.exec c) with m_state := Function.update s.m_state c .EXEC }
  | .exec c, .state st =>
      if st = .EXEC then none
      else
        let s := { s with m_state := Function.update s.m_state c st }
        some (if st = .READY then s.scheduleFrom t [some ⟨.coroutine c, none⟩] .scan
          else s.goto t .scan)
  | .found, .go => some { s.goto t .stopping with m_idleThreadCount := s.m_idleThreadCount + 1 }
  | .stopping, .go =>
      let r := s.m_timers.getNextTimer s.clock
      some { s.goto t (.epoll r.2) with m_timers := r.1 }
  | .epoll next_timeout, .go => some (s.goto t (.wait (waitUntil s.clock next_timeout)))
  | .wait _, .events tickled => some (s.goto t (.woken tickled))
  | .woken tickled, .addr addr =>
      let r := s.m_timers.listExpiredCb s.clock addr
      some { s.goto t (.expired r.2 tickled) with m_timers := r.1 }
  | .expired cbs tickled, .go =>
      some (s.scheduleFrom t (cbs.map fun cb => cb.map fun _ => ⟨.cb, none⟩) (.events tickled))
  | .events true, .go => some { s.goto t (.events false) with bytes := 0 }
  | .events tickled, .event task => some (s.scheduleFrom t [task] (.events tickled))
  | .events false, .go => some (s.goto t .out)
  | .out, .go => some { s.goto t .scan with m_idleThreadCount := s.m_idleThreadCount - 1 }
  | .tickle .check next, .go =>
      some (s.goto t (if 0 < s.m_idleThreadCount then .tickle .write next else next))
  | .tickle .write next, .go => some { s.goto t next with bytes := s.bytes + 1 }
  | _, _ => none

inductive Step
  | schedule (k : Nat) (tasks : List (Option Scheduler.Task))
  | addTimer (k : Nat) (ms : UInt64) (cb : Nat) (recurring : Bool) (addr : Nat)
  | tickle (call : Call)
  | advance (now : UInt64)
  | next (t : Nat) (o : Choice)

def setCaller (s : WakeUp) (call : Call) (p : Option Tickle) : WakeUp :=
  { s with caller := Function.update s.caller call p }

/-- The address of a new timer is not that of a timer in the set, and the clock does not go back. -/
def exec (n : Nat) (s : WakeUp) : Step → Option WakeUp
  | .schedule k tasks =>
      match s.caller (.schedule k) with
      | none =>
          let r := scheduleAll tasks s.m_taskQueue
          some { s.setCaller (.schedule k) (if r.1 then some .check else none) with
            m_taskQueue := r.2 }
      | some _ => none
  | .addTimer k ms cb recurring addr =>
      match s.caller (.addTimer k) with
      | none =>
          if ∀ t ∈ s.m_timers.m_timers, (s.m_timers.heap t).map Timer.addr ≠ some addr then
            let r := s.m_timers.addTimer ms cb recurring addr s.clock
            some { s.setCaller (.addTimer k) (if r.2 then some .check else none) with
              m_timers := r.1 }
          else none
      | some _ => none
  | .tickle call =>
      match s.caller call with
      | none => none
      | some .check =>
          some (s.setCaller call (if 0 < s.m_idleThreadCount then some .write else none))
      | some .write => some { s.setCaller call none with bytes := s.bytes + 1 }
  | .advance now => if s.clock ≤ now then some { s with clock := now } else none
  | .next t o => if t < n then s.run t o else none

/-! ## What a wake-up is for -/

variable (n : Nat) (s : WakeUp)

/-- The thread is in `epoll_wait`, and its time has not come. -/
def Blocked (t : Nat) : Prop :=
  t < n ∧ ∃ last, s.pc t = .wait last ∧ ∀ m, last = some m → s.clock.toNat < m

/-- A byte is unread or about to be written. -/
def Tickled : Prop :=
  0 < s.bytes ∨ (∃ call, s.caller call ≠ none) ∨ ∃ t p next, t < n ∧ s.pc t = .tickle p next

/-- The thread neither waits nor has a task. -/
def OnItsWay (t : Nat) : Prop := t < n ∧ ¬s.Blocked n t ∧ (s.pc t).executing = false

/-- Some thread will look at the queue and the timers. -/
def Looks : Prop := s.Tickled n ∨ ∃ t, s.OnItsWay n t

/-- A byte is unread or about to be written by who added a timer, or some thread will look at the
timers. -/
def LooksAtTimers : Prop :=
  0 < s.bytes ∨ (∃ k, s.caller (.addTimer k) ≠ none) ∨ ∃ t, s.OnItsWay n t

/-- A thread that is blocked would run a task of the queue. -/
def TaskWaits : Prop := ∃ b, s.Blocked n b ∧ ∃ task ∈ s.m_taskQueue, s.eligible b task = true

/-- The time of the earliest timer. -/
def deadline : Option UInt64 :=
  (s.m_timers.m_timers.head?.bind s.m_timers.heap).map Timer.m_next

/-- The earliest timer comes before the time of every thread that is blocked, and there is one. -/
def TimerWaits : Prop :=
  (∃ b, s.Blocked n b) ∧ ∃ d, s.deadline = some d ∧
    ∀ b m, s.Blocked n b → s.pc b = .wait (some m) → d.toNat < m

end WakeUp

def wakeUp (n : Nat) : System WakeUp WakeUp.Step where
  init s := ∃ clock, s = WakeUp.create clock
  step s e s' := s.exec n e = some s'

end CIM
