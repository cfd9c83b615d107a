import CIM.Io.Lock
import CIM.Lib.System

/-!
# The loops of a stream

`AsyncSocketStream::start` takes both permits of `m_waitSem`, connects, and hands them to the loops
`doRead` and `doWrite`, which give them back at their ends. Every call of `start` and of `close` and
every loop is a coroutine of its own; `disconnects` counts the calls of `m_disconnectCb` that the
loops have made since they were started.
-/
namespace CIM

open Transition

namespace StreamLoops

/-- Who calls `innerClose`: `doRecv` on a failed parse, `doRead` at its end, `doWrite` on a failed
`doSend`, or `start` where it gives up. -/
inductive Caller
  | doRecv
  | doRead
  | doWrite
  | start
  deriving DecidableEq, Repr

/-- The program points of `innerClose`; the socket is closed with or without a call of the
callback before. -/
inductive Closing
  | check
  | callback
  | close (called : Bool)
  | notify
  deriving DecidableEq, Repr

inductive Coroutine
  | waitFiber (second : Bool)
  | waiting (second : Bool)
  | cancelTimer
  | isConnected
  | connectCb
  | startRead
  | startWrite
  | release (both : Bool)
  | retry
  | doRead
  | doRecv
  | readOut
  | readTimer
  | doWrite
  | writeWait
  | writeWaiting
  | doSend
  | writeOut
  | closeSocket
  | innerClose (c : Caller) (p : Closing)
  | out
  deriving DecidableEq, Repr

/-- Where a coroutine goes on with a permit of `m_waitSem`. -/
def Coroutine.granted : Bool → Coroutine
  | false => .waitFiber true
  | true => .cancelTimer

/-- Where `innerClose` returns to. -/
def Caller.back : Caller → Coroutine
  | .doRecv => .doRead
  | .doRead => .readOut
  | .doWrite => .doWrite
  | .start => .release true

/-- What a call that is no part of the stream does: it succeeds, fails, throws, or has nothing
left to do. -/
inductive Outcome
  | ok
  | fail
  | throw
  | done
  deriving DecidableEq, Repr

end StreamLoops

open StreamLoops

/-- The coroutines keep their places when they are out. -/
structure StreamLoops where
  connected : Bool
  m_autoConnect : Bool
  m_waitSem : CoroutineSemaphore Nat
  m_sem : CoroutineSemaphore Nat
  m_timer : Option Nat
  timers : List Nat
  made : Nat
  coroutines : List Coroutine
  started : Bool
  disconnects : Nat

namespace StreamLoops

def create (connected autoConnect : Bool) : StreamLoops :=
  ⟨connected, autoConnect, ⟨2, []⟩, ⟨0, []⟩, none, [], 0, [], false, 0⟩

def goto (s : StreamLoops) (i : Nat) (c : Coroutine) : StreamLoops :=
  { s with coroutines := s.coroutines.set i c }

def spawn (s : StreamLoops) (c : Coroutine) : StreamLoops :=
  { s with coroutines := s.coroutines ++ [c] }

/-- `m_waitSem.notify`; the waiter that is scheduled has the permit. -/
def notifyWait (s : StreamLoops) : StreamLoops :=
  match s.m_waitSem.notify with
  | (some j, sem) =>
      match s.coroutines[j]? with
      | some (.waiting second) => { s with m_waitSem := sem }.goto j (.granted second)
      | _ => { s with m_waitSem := sem }
  | (none, sem) => { s with m_waitSem := sem }

/-- `m_sem.notify`. -/
def notifySend (s : StreamLoops) : StreamLoops :=
  match s.m_sem.notify with
  | (some j, sem) =>
      match s.coroutines[j]? with
      | some .writeWaiting => { s with m_sem := sem }.goto j .doSend
      | _ => { s with m_sem := sem }
  | (none, sem) => { s with m_sem := sem }

/-- `m_timer->cancel`. -/
def disarm (s : StreamLoops) : StreamLoops :=
  { s with timers := s.m_timer.elim s.timers s.timers.erase }

def cancelTimer (s : StreamLoops) : StreamLoops := { s.disarm with m_timer := none }

/-- The timer that calls `start` again. -/
def addTimer (s : StreamLoops) : StreamLoops :=
  { s with timers := s.timers ++ [s.made], made := s.made + 1 }

/-- One step of `innerClose`. -/
def closeStep (s : StreamLoops) (i : Nat) (c : Caller) : Closing → StreamLoops
  | .check => s.goto i (.innerClose c (if s.connected then .callback else .close false))
  | .callback =>
      { s.goto i (.innerClose c (.close true)) with
        disconnects := s.disconnects + if c = .start then 0 else 1 }
  | .close _ => { s.goto i (.innerClose c .notify) with connected := false }
  | .notify => (s.goto i c.back).notifySend

/-- One step of coroutine `i`. -/
def run (s : StreamLoops) (i : Nat) (o : Outcome) : Coroutine → Option StreamLoops
  | .waitFiber second =>
      let r := s.m_waitSem.wait i
      some ({ s with m_waitSem := r.2 }.goto i (if r.1 then .granted second else .waiting second))
  | .waiting _ => none
  | .cancelTimer => some (s.cancelTimer.goto i .isConnected)
  | .isConnected =>
      if s.connected then some (s.goto i .connectCb)
      else
        match o with
        | .ok => some ({ s with connected := true }.goto i .connectCb)
        | _ => some (s.goto i (.innerClose .start .check))
  | .connectCb =>
      match o with
      | .ok => some (s.goto i .startRead)
      | _ => some (s.goto i (.innerClose .start .check))
  | .startRead =>
      some { (s.goto i .startWrite).spawn .doRead with started := true, disconnects := 0 }
  | .startWrite => some ((s.goto i .out).spawn .doWrite)
  | .release true => some (s.goto i (.release false)).notifyWait
  | .release false => some (s.goto i .retry).notifyWait
  | .retry =>
      some (if s.m_autoConnect then
        { s.cancelTimer.addTimer with m_timer := some s.made }.goto i .out
      else s.goto i .out)
  | .doRead => some (s.goto i (if s.connected then .doRecv else .innerClose .doRead .check))
  | .doRecv =>
      match o with
      | .fail => some (s.goto i (.innerClose .doRecv .check))
      | .throw => some (s.goto i (.innerClose .doRead .check))
      | _ => some (s.goto i .doRead)
  | .readOut => some (s.goto i .readTimer).notifyWait
  | .readTimer => some (if s.m_autoConnect then s.addTimer.goto i .out else s.goto i .out)
  | .doWrite => some (s.goto i (if s.connected then .writeWait else .writeOut))
  | .writeWait =>
      let r := s.m_sem.wait i
      some ({ s with m_sem := r.2 }.goto i (if r.1 then .doSend else .writeWaiting))
  | .writeWaiting => none
  | .doSend =>
      match o with
      | .ok => some s
      | .fail => some (s.goto i (.innerClose .doWrite .check))
      | .throw => some (s.goto i .writeOut)
      | .done => some (s.goto i .doWrite)
  | .writeOut => some (s.goto i .out).notifyWait
  | .closeSocket => some { s.disarm.goto i .out with connected := false }
  | .innerClose c p => some (s.closeStep i c p)
  | .out => none

/-- `start` is called by a user or by a timer, and `enqueue` notifies `m_sem` for a message. -/
inductive Step
  | start
  | fire (timer : Nat)
  | close
  | enqueue
  | next (i : Nat) (o : Outcome)
  deriving DecidableEq, Repr

def exec (s : StreamLoops) : Step → Option StreamLoops
  | .start => some (s.spawn (.waitFiber false))
  | .fire timer =>
      if timer ∈ s.timers then
        some ({ s with timers := s.timers.erase timer }.spawn (.waitFiber false))
      else none
  | .close => some ({ s with m_autoConnect := false }.spawn .closeSocket)
  | .enqueue => some s.notifySend
  | .next i o => s.coroutines[i]?.bind (s.run i o)

end StreamLoops

end CIM
