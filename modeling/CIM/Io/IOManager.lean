import Mathlib.Logic.Function.Basic
import CIM.Lib.System

/-!
# IO manager

Each file descriptor has a context with the events it waits for. The operations on a context and
the idle loop's work on an epoll event are sections under the lock of the context; before them a
thread looks the context up, or takes it from the epoll events it harvested earlier.
-/
namespace CIM

open Transition

namespace IOManager

inductive Event
  | READ
  | WRITE
  deriving DecidableEq, Repr

/-- A set of events, by its bits. -/
structure Events where
  read : Bool
  write : Bool
  deriving DecidableEq, Repr

namespace Events

def has (es : Events) : Event → Bool
  | .READ => es.read
  | .WRITE => es.write

def put (es : Events) (e : Event) (v : Bool) : Events :=
  match e with
  | .READ => { es with read := v }
  | .WRITE => { es with write := v }

end Events

/-- What runs when an event is triggered. -/
inductive Handler
  | cb (f : Nat)
  | coroutine (c : Nat)
  deriving DecidableEq, Repr

structure EventContext where
  scheduler : Option Nat
  coroutine : Option Nat
  cb : Option Nat
  deriving DecidableEq, Repr

def resetContext : EventContext := ⟨none, none, none⟩

structure FdContext where
  fd : Nat
  read : EventContext
  write : EventContext
  events : Events
  deriving DecidableEq, Repr

namespace FdContext

/-- A new context for the file descriptor. -/
def create (fd : Nat) : FdContext := ⟨fd, resetContext, resetContext, ⟨false, false⟩⟩

def getContext (c : FdContext) : Event → EventContext
  | .READ => c.read
  | .WRITE => c.write

/-- The context of the event and its bit are written. -/
def setEvent (c : FdContext) (e : Event) (event_ctx : EventContext) (v : Bool) : FdContext :=
  match e with
  | .READ => { c with read := event_ctx, events := c.events.put .READ v }
  | .WRITE => { c with write := event_ctx, events := c.events.put .WRITE v }

end FdContext

/-- What is handed to a scheduler: the callback, or else the coroutine. -/
abbrev Job := Option Nat × Option Handler

def EventContext.job (c : EventContext) : Job :=
  (c.scheduler,
    match c.cb with
    | some f => some (.cb f)
    | none => c.coroutine.map .coroutine)

/-- What became of an event: it was registered, or triggered or deleted. -/
inductive Change
  | registered
  | ended
  deriving DecidableEq, Repr

/-- What a section under the lock of a context works on; the log is not part of the program. -/
structure Locked where
  ctx : FdContext
  m_pendingEventCount : Int
  jobs : List Job
  log : List (Event × Change)

namespace Locked

/-- `CIM_ASSERT(events & event)` comes first. -/
def triggerEvent (e : Event) (l : Locked) : Option Locked :=
  if l.ctx.events.has e then
    some { l with
      ctx := l.ctx.setEvent e resetContext false
      jobs := l.jobs ++ [(l.ctx.getContext e).job]
      log := l.log ++ [(e, .ended)] }
  else none

/-- `triggerEvent` and the count after it. -/
def fire (e : Event) (l : Locked) : Option Locked :=
  (l.triggerEvent e).map fun l => { l with m_pendingEventCount := l.m_pendingEventCount - 1 }

def fireIf (l : Locked) (b : Bool) (e : Event) : Option Locked := if b then l.fire e else some l

/-- With what `epoll_ctl` returned, and the scheduler of the thread. -/
def addEvent (e : Event) (scheduler : Option Nat) (handler : Handler) (ok : Bool) (l : Locked) :
    Bool × Locked :=
  if l.ctx.events.has e then (true, l)
  else if ok then
    let old := l.ctx.getContext e
    let event_ctx : EventContext :=
      match handler with
      | .cb f => { old with scheduler := scheduler, cb := some f }
      | .coroutine c => { old with scheduler := scheduler, coroutine := some c }
    (true,
      { l with
        ctx := l.ctx.setEvent e event_ctx true
        m_pendingEventCount := l.m_pendingEventCount + 1
        log := l.log ++ [(e, .registered)] })
  else (false, l)

def delEvent (e : Event) (ok : Bool) (l : Locked) : Bool × Locked :=
  if !l.ctx.events.has e then (false, l)
  else if ok then
    (true,
      { l with
        ctx := l.ctx.setEvent e resetContext false
        m_pendingEventCount := l.m_pendingEventCount - 1
        log := l.log ++ [(e, .ended)] })
  else (false, l)

def cancelEvent (e : Event) (ok : Bool) (l : Locked) : Option (Bool × Locked) :=
  if !l.ctx.events.has e then some (false, l)
  else if ok then (l.fire e).map fun l => (true, l)
  else some (false, l)

/-- The last assertion is that no event is left. -/
def cancelAll (ok : Bool) (l : Locked) : Option (Bool × Locked) :=
  if l.ctx.events = ⟨false, false⟩ then some (false, l)
  else if ok then do
    let l ← l.fireIf l.ctx.events.read .READ
    let l ← l.fireIf l.ctx.events.write .WRITE
    if l.ctx.events = ⟨false, false⟩ then some (true, l) else none
  else some (false, l)

end Locked

/-- The bits of an epoll event. -/
structure EpollEvents where
  inp : Bool
  out : Bool
  err : Bool
  hup : Bool
  deriving DecidableEq, Repr

/-- An error or a hangup stands for every event that is waited for. -/
def realEvents (event : EpollEvents) (events : Events) : Events :=
  if event.err || event.hup then ⟨event.inp || events.read, event.out || events.write⟩
  else ⟨event.inp, event.out⟩

/-- The idle loop on one epoll event of a context. -/
def Locked.process (event : EpollEvents) (ok : Bool) (l : Locked) : Option Locked :=
  let real_events := realEvents event l.ctx.events
  if !(l.ctx.events.read && real_events.read) && !(l.ctx.events.write && real_events.write) then
    some l
  else if ok then do
    let l ← l.fireIf real_events.read .READ
    l.fireIf real_events.write .WRITE
  else some l

/-! ## Threads -/

inductive Op
  | addEvent (e : Event) (scheduler : Option Nat) (handler : Handler)
  | delEvent (e : Event)
  | cancelEvent (e : Event)
  | cancelAll

def Op.run (op : Op) (ok : Bool) (l : Locked) : Option (Bool × Locked) :=
  match op with
  | .addEvent e scheduler handler => some (l.addEvent e scheduler handler ok)
  | .delEvent e => some (l.delEvent e ok)
  | .cancelEvent e => l.cancelEvent e ok
  | .cancelAll => l.cancelAll ok

/-- A call that waits for the write lock of the table, or for the lock of its context. -/
inductive Call
  | resize (fd : Nat) (op : Op)
  | locked (ctx : Nat) (op : Op)

inductive Harvested
  | tickle
  | context (ctx : Nat) (event : EpollEvents)

end IOManager

open IOManager

/-- The contexts are never freed while there are threads: `heap` has every one that was made, by
its pointer, and `m_fdContexts` the pointers of the table. -/
structure IOManager where
  heap : List FdContext
  m_fdContexts : List Nat
  m_pendingEventCount : Int
  jobs : List Job
  log : List (Nat × Event × Change)
  calls : Nat → Option Call
  harvested : Nat → List Harvested

namespace IOManager

/-- A table that becomes shorter loses its last pointers. -/
def contextResize (s : IOManager) (size : Nat) : IOManager :=
  let kept := s.m_fdContexts.take size
  { s with
    heap := s.heap ++ (List.range' kept.length (size - kept.length)).map FdContext.create
    m_fdContexts := kept ++ List.range' s.heap.length (size - kept.length) }

def create : IOManager :=
  contextResize ⟨[], [], 0, [], [], fun _ => none, fun _ => []⟩ 64

/-- A section under the lock of the context. -/
def lock {α : Type} (s : IOManager) (ctx : Nat) (f : Locked → Option (α × Locked)) :
    Option IOManager :=
  s.heap[ctx]?.bind fun c =>
    (f ⟨c, s.m_pendingEventCount, s.jobs, []⟩).map fun r =>
      { s with
        heap := s.heap.set ctx r.2.ctx
        m_pendingEventCount := r.2.m_pendingEventCount
        jobs := r.2.jobs
        log := s.log ++ r.2.log.map fun x => (ctx, x) }

/-- The steps of a thread `t`: the lookup of a call, its turn with the table, its section with
the result of `epoll_ctl`; `epoll_wait`, and the next epoll event of the idle loop. -/
inductive Step
  | call (t fd : Nat) (op : Op)
  | resize (t : Nat)
  | locked (t : Nat) (ok : Bool)
  | harvest (t : Nat) (events : List Harvested)
  | process (t : Nat) (ok : Bool)

/-- None where an assertion fails. Only `addEvent` makes room for a file descriptor. -/
def exec (s : IOManager) : Step → Option IOManager
  | .call t fd op =>
      match s.m_fdContexts[fd]?, op with
      | some ctx, op => some { s with calls := Function.update s.calls t (some (.locked ctx op)) }
      | none, .addEvent e scheduler handler =>
          some { s with
            calls := Function.update s.calls t (some (.resize fd (.addEvent e scheduler handler))) }
      | none, _ => some s
  | .resize t =>
      match s.calls t with
      | some (.resize fd op) =>
          (s.contextResize (fd * 3 / 2)).m_fdContexts[fd]?.map fun ctx =>
            { s.contextResize (fd * 3 / 2) with
              calls := Function.update s.calls t (some (.locked ctx op)) }
      | _ => some s
  | .locked t ok =>
      match s.calls t with
      | some (.locked ctx op) =>
          (s.lock ctx (op.run ok)).map fun s =>
            { s with calls := Function.update s.calls t none }
      | _ => some s
  | .harvest t events => some { s with harvested := Function.update s.harvested t events }
  | .process t ok =>
      match s.harvested t with
      | [] => some s
      | .tickle :: rest => some { s with harvested := Function.update s.harvested t rest }
      | .context ctx event :: rest =>
          (s.lock ctx fun l => (l.process event ok).map fun l => ((), l)).map fun s =>
            { s with harvested := Function.update s.harvested t rest }

/-- A thread makes one call at a time; `epoll_wait` returns pointers to contexts. -/
def Enabled (s : IOManager) : Step → Prop
  | .call t _ _ => s.calls t = none
  | .harvest t events =>
      s.harvested t = [] ∧ ∀ ctx event, .context ctx event ∈ events → ctx < s.heap.length
  | _ => True

end IOManager

def ioManager : System IOManager IOManager.Step where
  init s := s = IOManager.create
  step s e s' := s.Enabled e ∧ s.exec e = some s'

end CIM
