import Mathlib.Data.List.AList
import Mathlib.Logic.Function.Basic
import CIM.Lib.System
import CIM.Io.Lock

/-!
# Asynchronous socket stream

Requesting coroutines, the reader's responses, the timers and the closing path run as numbered
coroutines that interleave at each critical section, each atomic operation and each use of a
context's fields; the writer is a coroutine of its own. `scheduled`, `enqueued` and `written`
record what was woken, queued and sent.
-/
namespace CIM

/-- `AsyncSocketStream::Error`, as the `uint32_t` that the context's `result` holds. -/
def asyncOk : UInt32 := 0
def asyncTimeout : UInt32 := 4294967295
def asyncIoError : UInt32 := 4294967294

/-- A request's context; `fiber` and `scheduler` are null pointers where they are `none`. -/
structure Ctx where
  sn : UInt32
  request : List UInt8
  result : UInt32
  response : Option (List UInt8)
  timed : Bool
  scheduler : Option Nat
  fiber : Option Nat
  timer : Bool

inductive SendCtx
  | request (c : Nat)
  | message (msg : List UInt8)
  deriving DecidableEq

/-- The program points of `Ctx::doRsp`. -/
inductive DoRsp
  | load
  | compareAndSwap (scd : Option Nat)
  | cancelTimer (scd : Nat)
  | setResult (scd : Nat)
  | schedule (scd : Nat)

/-- The program points of a coroutine: those of `request`, of a matched response, of `onTimeOut`,
of `doRsp` with the contexts that are answered after it, and of `innerClose`. -/
inductive Task
  | idle
  | addCtx (c : Nat)
  | addTimer (c : Nat)
  | setTimer (c : Nat)
  | enqueue (ctx : SendCtx)
  | notify
  | answer (c : Nat) (result : UInt32) (response : List UInt8)
  | eraseCtx (c : Nat)
  | setTimed (c : Nat)
  | doRsp (p : DoRsp) (c : Nat) (rest : List Nat)
  | closeSocket
  | closeNotify
  | closeSwap
  | clearQueue (ctxs : List Nat)
  | closeLoop (ctxs : List Nat)

/-- The program points of `doWrite`. -/
inductive Writer
  | check
  | wait
  | held
  | acquired
  | writing (ctxs : List SendCtx)
  | closing (i : Nat)
  | clear
  | out

structure AsyncSocketStream where
  connected : Bool
  m_sem : CoroutineSemaphore Unit
  m_queue : List SendCtx
  m_ctxs : AList (fun _ : UInt32 => Nat)
  ctx : Nat → Ctx
  count : Nat
  armed : Nat → Bool
  task : Nat → Task
  writer : Writer
  scheduled : List (Nat × Nat)
  enqueued : List SendCtx
  written : List SendCtx

inductive AsyncEvent
  | start
  | request (i : Nat) (sn : UInt32) (req : List UInt8) (scd fiber : Nat)
  | sendMessage (i : Nat) (msg : List UInt8)
  | response (i : Nat) (sn result : UInt32) (rsp : List UInt8)
  | fire (i c : Nat)
  | shutdown
  | innerClose (i : Nat)
  | task (i : Nat)
  | swap (i : Nat) (ctxs : List Nat)
  | writer
  | sendFails (i : Nat)

/-- The value a new `Ctx` has before `request` fills it in. -/
def Ctx.empty : Ctx := ⟨0, [], 0, none, false, none, none, false⟩

namespace AsyncSocketStream

/-- The stream before its first `start`; only `doWrite` waits on `m_sem`. -/
def init : AsyncSocketStream :=
  ⟨false, ⟨0, []⟩, [], ∅, fun _ => Ctx.empty, 0, fun _ => false, fun _ => .idle, .out, [], [], []⟩

def goto (s : AsyncSocketStream) (i : Nat) (t : Task) : AsyncSocketStream :=
  { s with task := Function.update s.task i t }

def setCtx (s : AsyncSocketStream) (c : Nat) (v : Ctx) : AsyncSocketStream :=
  { s with ctx := Function.update s.ctx c v }

/-- `insert` leaves an entry that is there. -/
def addCtx (s : AsyncSocketStream) (c : Nat) : AsyncSocketStream :=
  match s.m_ctxs.lookup (s.ctx c).sn with
  | some _ => s
  | none => { s with m_ctxs := s.m_ctxs.insert (s.ctx c).sn c }

def eraseCtx (s : AsyncSocketStream) (sn : UInt32) : AsyncSocketStream :=
  { s with m_ctxs := s.m_ctxs.erase sn }

def getAndDelCtx (s : AsyncSocketStream) (sn : UInt32) : Option Nat × AsyncSocketStream :=
  match s.m_ctxs.lookup sn with
  | some c => (some c, s.eraseCtx sn)
  | none => (none, s)

/-- Appends under the queue lock; whether the queue was empty. -/
def enqueue (s : AsyncSocketStream) (ctx : SendCtx) : Bool × AsyncSocketStream :=
  (s.m_queue.isEmpty,
    { s with m_queue := s.m_queue ++ [ctx], enqueued := s.enqueued ++ [ctx] })

/-- The writer is the only coroutine that waits, so it is the one that is handed the permit. -/
def notify (s : AsyncSocketStream) : AsyncSocketStream :=
  match s.m_sem.notify with
  | (some _, sem) => { s with m_sem := sem, writer := .acquired }
  | (none, sem) => { s with m_sem := sem }

/-- One step of `Ctx::doRsp`, with the point it goes on at. -/
def doRsp (s : AsyncSocketStream) (c : Nat) : DoRsp → Option DoRsp × AsyncSocketStream
  | .load => (some (.compareAndSwap (s.ctx c).scheduler), s)
  | .compareAndSwap scd =>
      if (s.ctx c).scheduler = scd then
        (match scd, (s.ctx c).fiber with
          | some scd, some _ => some (.cancelTimer scd)
          | _, _ => none,
          s.setCtx c { s.ctx c with scheduler := none })
      else
        (none, s)
  | .cancelTimer scd =>
      (some (.setResult scd),
        if (s.ctx c).timer then
          { s with
            armed := Function.update s.armed c false
            ctx := Function.update s.ctx c { s.ctx c with timer := false } }
        else s)
  | .setResult scd =>
      (some (.schedule scd),
        if (s.ctx c).timed then s.setCtx c { s.ctx c with result := asyncTimeout } else s)
  | .schedule scd =>
      (none,
        { s with
          scheduled := s.scheduled ++ [(c, scd)]
          ctx := Function.update s.ctx c { s.ctx c with fiber := none } })

/-- The point after a step of `doRsp`. -/
def Task.afterRsp (c : Nat) (rest : List Nat) : Option DoRsp → Task
  | some p => .doRsp p c rest
  | none => .closeLoop rest

/-- One step of coroutine `i`. -/
def taskStep (s : AsyncSocketStream) (i : Nat) : Option AsyncSocketStream :=
  match s.task i with
  | .idle => none
  | .addCtx c => some ((s.addCtx c).goto i (.addTimer c))
  | .addTimer c =>
      some ({ s with armed := Function.update s.armed c true }.goto i (.setTimer c))
  | .setTimer c =>
      some ((s.setCtx c { s.ctx c with timer := true }).goto i (.enqueue (.request c)))
  | .enqueue ctx =>
      some ((s.enqueue ctx).2.goto i (if (s.enqueue ctx).1 then .notify else .idle))
  | .notify => some (s.notify.goto i .idle)
  | .answer c result response =>
      some ((s.setCtx c { s.ctx c with result := result, response := some response }).goto i
        (.doRsp .load c []))
  | .eraseCtx c => some ((s.eraseCtx (s.ctx c).sn).goto i (.setTimed c))
  | .setTimed c =>
      some ((s.setCtx c { s.ctx c with timed := true }).goto i (.doRsp .load c []))
  | .doRsp p c rest => some ((s.doRsp c p).2.goto i (Task.afterRsp c rest (s.doRsp c p).1))
  | .closeSocket => some ({ s with connected := false }.goto i .closeNotify)
  | .closeNotify => some (s.notify.goto i .closeSwap)
  | .closeSwap => none
  | .clearQueue ctxs => some ({ s with m_queue := [] }.goto i (.closeLoop ctxs))
  | .closeLoop [] => some (s.goto i .idle)
  | .closeLoop (c :: rest) =>
      some ((s.setCtx c { s.ctx c with result := asyncIoError }).goto i (.doRsp .load c rest))

/-- One step of `doWrite`; a step from `writing` is a `doSend` that succeeds. -/
def writerStep (s : AsyncSocketStream) : Option AsyncSocketStream :=
  match s.writer with
  | .check => some { s with writer := if s.connected then .wait else .clear }
  | .wait =>
      some { s with
        m_sem := (s.m_sem.wait ()).2
        writer := if (s.m_sem.wait ()).1 then .acquired else .held }
  | .held => none
  | .acquired => some { s with m_queue := [], writer := .writing s.m_queue }
  | .writing [] => some { s with writer := .check }
  | .writing (ctx :: rest) =>
      some { s with written := s.written ++ [ctx], writer := .writing rest }
  | .closing i =>
      match s.task i with
      | .idle => some { s with writer := .check }
      | _ => none
  | .clear => some { s with m_queue := [], writer := .out }
  | .out => none

/-- A new coroutine takes a number that is idle. -/
def spawn (s : AsyncSocketStream) (i : Nat) (t : Task) : Option AsyncSocketStream :=
  match s.task i with
  | .idle => some (s.goto i t)
  | _ => none

def exec (s : AsyncSocketStream) : AsyncEvent → Option AsyncSocketStream
  | .start =>
      match s.writer with
      | .out => some { s with connected := true, writer := .check }
      | _ => none
  | .request i sn req scd fiber =>
      if s.connected then
        { s with
          ctx := Function.update s.ctx s.count
            ⟨sn, req, 0, none, false, some scd, some fiber, false⟩
          count := s.count + 1 }.spawn i (.addCtx s.count)
      else none
  | .sendMessage i msg => if s.connected then s.spawn i (.enqueue (.message msg)) else none
  | .response i sn result rsp =>
      match s.getAndDelCtx sn with
      | (some c, s') => s'.spawn i (.answer c result rsp)
      | (none, s') => some s'
  | .fire i c =>
      if s.armed c then
        { s with armed := Function.update s.armed c false }.spawn i (.eraseCtx c)
      else none
  | .shutdown => some { s with connected := false }
  | .innerClose i => s.spawn i .closeSocket
  | .task i => s.taskStep i
  | .swap i ctxs =>
      match s.task i with
      | .closeSwap =>
          if ctxs.Perm (s.m_ctxs.entries.map Sigma.snd) then
            some ({ s with m_ctxs := ∅ }.goto i (.clearQueue ctxs))
          else none
      | _ => none
  | .writer => s.writerStep
  | .sendFails i =>
      match s.writer with
      | .writing (_ :: _) => { s with writer := .closing i }.spawn i .closeSocket
      | _ => none

/-- The contexts that were scheduled for resumption, in order. -/
def woken (s : AsyncSocketStream) : List Nat := s.scheduled.map Prod.fst

/-- The messages the writer has swapped out and not yet sent. -/
def pending (s : AsyncSocketStream) : List SendCtx :=
  match s.writer with
  | .writing ctxs => ctxs
  | _ => []

end AsyncSocketStream

open Transition in
def asyncSystem : System AsyncSocketStream AsyncEvent where
  init s := s = AsyncSocketStream.init
  step s e s' := s.exec e = some s'

end CIM
