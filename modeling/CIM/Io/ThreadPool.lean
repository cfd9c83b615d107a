import Mathlib.Data.UInt
import Mathlib.Logic.Function.Basic
import CIM.Lib.System

/-!
# Thread pool

Workers take tasks from one queue under one lock. They wait for tasks, the calls of `submitTask`
wait for room, and the destructor waits until the table of threads is empty. What a thread does
between two points at which it gives the lock back is one step.
-/
namespace CIM

open Transition

inductive PoolMode
  | MODE_FIXED
  | MODE_CACHED
  deriving DecidableEq, Repr

def THREAD_MAX_IDLE_TIME : Nat := 60

namespace ThreadPool

/-- The points of `threadFunc`. A worker that waits knows since when; one that was notified has
only to get the lock back. -/
inductive WorkerPc
  | lock
  | waiting (since : Nat)
  | notified (since : Nat)
  | taken (task : Nat)
  | running (task : Nat)
  | exited
  deriving DecidableEq, Repr

structure Worker where
  pc : WorkerPc
  lastTime : Nat
  deriving DecidableEq, Repr

/-- The points of `~ThreadPool`. -/
inductive Destructor
  | alive
  | stopping
  | blocked
  | notified
  | finished
  deriving DecidableEq, Repr

/-- A call of `submitTask` that waits for room. -/
structure Waiting where
  task : Nat
  since : Nat
  deriving DecidableEq, Repr

end ThreadPool

open ThreadPool

/-- Tasks are numbered as they are submitted, and times are milliseconds. `accepted`, `rejected`,
`taken` and `executed` are the tasks so far, in order; `exitNotified` says whether `exitCond_` was
notified after the last thread was taken out of `threads_`. -/
structure ThreadPool where
  threads_ : List Nat
  initThreadSize_ : Nat
  threadMaxSize_ : Nat
  idleThreadSize_ : UInt32
  currentThreadSize_ : UInt32
  taskQue_ : List Nat
  taskQueMaxSize_ : Nat
  currentTaskSize_ : UInt32
  poolMode_ : PoolMode
  poolIsRunning_ : Bool
  clock : Nat
  worker : Nat → Option Worker
  caller : Nat → Option Waiting
  destructor : Destructor
  submitted : Nat
  accepted : List Nat
  rejected : List Nat
  taken : List Nat
  executed : List Nat
  exitNotified : Bool

namespace ThreadPool

/-- A pool whose mode and sizes are set. -/
def create (mode : PoolMode) (taskQueMaxSize threadMaxSize clock : Nat) : ThreadPool where
  threads_ := []
  initThreadSize_ := 0
  threadMaxSize_ := threadMaxSize
  idleThreadSize_ := 0
  currentThreadSize_ := 0
  taskQue_ := []
  taskQueMaxSize_ := taskQueMaxSize
  currentTaskSize_ := 0
  poolMode_ := mode
  poolIsRunning_ := false
  clock := clock
  worker := fun _ => none
  caller := fun _ => none
  destructor := .alive
  submitted := 0
  accepted := []
  rejected := []
  taken := []
  executed := []
  exitNotified := false

def setWorker (s : ThreadPool) (t : Nat) (w : Worker) : ThreadPool :=
  { s with worker := Function.update s.worker t (some w) }

def setCaller (s : ThreadPool) (k : Nat) (c : Option Waiting) : ThreadPool :=
  { s with caller := Function.update s.caller k c }

def WorkerPc.notify : WorkerPc → WorkerPc
  | .waiting since => .notified since
  | pc => pc

/-- `taskQueNotEmpty_.notify_all()`. -/
def notifyNotEmpty (s : ThreadPool) : ThreadPool :=
  { s with worker := fun t => (s.worker t).map fun w => { w with pc := w.pc.notify } }

/-- `start`, with the identifiers its threads got. -/
def start (s : ThreadPool) (ids : List Nat) : ThreadPool :=
  { s with
    threads_ := s.threads_ ++ ids
    initThreadSize_ := ids.length
    currentThreadSize_ := UInt32.ofNat ids.length
    idleThreadSize_ := s.idleThreadSize_ + UInt32.ofNat ids.length
    poolIsRunning_ := true
    worker := fun t => if t ∈ ids then some ⟨.lock, s.clock⟩ else s.worker t }

/-- The new thread of a cached pool, with its identifier; where it cannot be started its entry
stays. -/
def grow (s : ThreadPool) (id : Nat) (started : Bool) : ThreadPool :=
  if s.poolMode_ = .MODE_CACHED ∧ s.idleThreadSize_ < s.currentTaskSize_ ∧
      s.currentThreadSize_.toNat < s.threadMaxSize_ then
    if started then
      { s.setWorker id ⟨.lock, s.clock⟩ with
        threads_ := s.threads_ ++ [id]
        currentThreadSize_ := s.currentThreadSize_ + 1
        idleThreadSize_ := s.idleThreadSize_ + 1 }
    else { s with threads_ := s.threads_ ++ [id] }
  else s

/-- The rest of `submitTask` where there is room. -/
def accept (s : ThreadPool) (task id : Nat) (started : Bool) : ThreadPool :=
  grow (notifyNotEmpty
    { s with
      taskQue_ := s.taskQue_ ++ [task]
      currentTaskSize_ := s.currentTaskSize_ + 1
      accepted := s.accepted ++ [task] }) id started

/-- `threads_.erase(threadId); exitCond_.notify_all();` -/
def exit (s : ThreadPool) (t : Nat) (w : Worker) : ThreadPool :=
  { s.setWorker t { w with pc := .exited } with
    threads_ := s.threads_.erase t
    destructor := if s.destructor = .blocked then .notified else s.destructor
    exitNotified := true }

/-- A worker that was idle for too long. -/
def reclaim (s : ThreadPool) (t : Nat) (w : Worker) : ThreadPool :=
  { s.setWorker t { w with pc := .exited } with
    threads_ := s.threads_.erase t
    currentThreadSize_ := s.currentThreadSize_ - 1
    idleThreadSize_ := s.idleThreadSize_ - 1
    exitNotified := false }

/-- The first task leaves the queue. -/
def pop (s : ThreadPool) (task : Nat) (rest : List Nat) : ThreadPool :=
  { s with
    taskQue_ := rest
    currentTaskSize_ := s.currentTaskSize_ - 1
    taken := s.taken ++ [task] }

/-- The worker has the lock: it takes a task, ends, or waits. -/
def loop (s : ThreadPool) (t : Nat) (w : Worker) : ThreadPool :=
  match s.taskQue_ with
  | [] =>
      if s.poolIsRunning_ then s.setWorker t { w with pc := .waiting s.clock } else s.exit t w
  | task :: rest =>
      (if rest.isEmpty then s.pop task rest else (s.pop task rest).notifyNotEmpty).setWorker t
        { w with pc := .taken task }

/-- The worker was idle for a minute, and there are more threads than at the start. -/
def Expired (s : ThreadPool) (w : Worker) : Prop :=
  s.poolMode_ = .MODE_CACHED ∧ THREAD_MAX_IDLE_TIME ≤ (s.clock - w.lastTime) / 1000 ∧
    s.initThreadSize_ < s.currentThreadSize_.toNat

instance (s : ThreadPool) (w : Worker) : Decidable (s.Expired w) :=
  inferInstanceAs (Decidable (_ ∧ _))

/-- The worker has the lock back, by a notification, by a timeout or by neither. -/
def wake (s : ThreadPool) (t : Nat) (w : Worker) (since : Nat) (timeout : Bool) :
    Option ThreadPool :=
  if timeout then
    if s.poolMode_ = .MODE_CACHED ∧ since + 1000 ≤ s.clock then
      some (if s.Expired w then s.reclaim t w else s.loop t w)
    else none
  else some (s.loop t w)

def stepWorker (s : ThreadPool) (t : Nat) (w : Worker) (timeout : Bool) : Option ThreadPool :=
  match w.pc with
  | .lock => some (s.loop t w)
  | .waiting since => s.wake t w since timeout
  | .notified since => s.wake t w since timeout
  | .taken task =>
      some { s.setWorker t { w with pc := .running task } with
        idleThreadSize_ := s.idleThreadSize_ - 1
        executed := s.executed ++ [task] }
  | .running _ =>
      some { s.setWorker t ⟨.lock, s.clock⟩ with idleThreadSize_ := s.idleThreadSize_ + 1 }
  | .exited => none

/-- The test that ends the wait of the destructor. -/
def awaitExit (s : ThreadPool) : ThreadPool :=
  { s with destructor := if s.threads_ = [] then .finished else .blocked }

/-- `start` and a call of `submitTask` that may need a new thread have identifiers that the table
does not hold. -/
inductive Step
  | start (ids : List Nat)
  | submit (k id : Nat) (started : Bool)
  | retry (k id : Nat) (started : Bool)
  | worker (t : Nat) (timeout : Bool)
  | destroy
  | destructor
  | advance (now : Nat)

def hasRoom (s : ThreadPool) : Bool := decide (s.taskQue_.length < s.taskQueMaxSize_)

def exec (s : ThreadPool) : Step → Option ThreadPool
  | .start ids =>
      if s.poolIsRunning_ then some s
      else if s.destructor = .alive ∧ ids.Nodup ∧ ∀ t ∈ ids, t ∉ s.threads_ then some (s.start ids)
      else none
  | .submit k id started =>
      match s.caller k with
      | some _ => none
      | none =>
          if id ∈ s.threads_ then none
          else
            let s' := { s with submitted := s.submitted + 1 }
            if s.hasRoom then some (s'.accept s.submitted id started)
            else some (s'.setCaller k (some ⟨s.submitted, s.clock⟩))
  | .retry k id started =>
      match s.caller k with
      | none => none
      | some c =>
          if id ∈ s.threads_ then none
          else if s.hasRoom then some ((s.setCaller k none).accept c.task id started)
          else if c.since + 1000 ≤ s.clock then
            some { s.setCaller k none with rejected := s.rejected ++ [c.task] }
          else some s
  | .worker t timeout => (s.worker t).bind fun w => s.stepWorker t w timeout
  | .destroy =>
      if s.destructor = .alive then some { s with poolIsRunning_ := false, destructor := .stopping }
      else none
  | .destructor =>
      match s.destructor with
      | .stopping => some s.notifyNotEmpty.awaitExit
      | .blocked => some s.awaitExit
      | .notified => some s.awaitExit
      | _ => none
  | .advance now => if s.clock ≤ now then some { s with clock := now } else none

end ThreadPool

def threadPool (mode : PoolMode) : System ThreadPool ThreadPool.Step where
  init s := ∃ taskQueMaxSize threadMaxSize clock,
    s = ThreadPool.create mode taskQueMaxSize threadMaxSize clock
  step s e s' := s.exec e = some s'

end CIM
