import CIM.Streams.AsyncSocketStream

/-!
# Requests of a `RockStream`

`doRecv` assigns the result and the response of a context one after the other, and `request` makes
a `RockResult` of the two when its coroutine has been resumed. `removed` records what took a
context out of `m_ctxs`.
-/
namespace CIM

open Transition

/-- What takes a context out of `m_ctxs`: a response with its result code, a timeout, or the close
of the stream. -/
inductive Removal
  | response (result : UInt32) (response : List UInt8)
  | timeout
  | close

/-- The result and the response that it gives. -/
def Removal.gives : Removal → UInt32 × Option (List UInt8)
  | .response result rsp => (result, some rsp)
  | .timeout => (asyncTimeout, none)
  | .close => (asyncIoError, none)

/-- `assigned` says which coroutines have assigned the result of the response they have; `result`
and `response` are what the requesting coroutine of each context has read. -/
structure RockStream where
  stream : AsyncSocketStream
  assigned : Nat → Bool
  result : Nat → Option UInt32
  response : Nat → Option (Option (List UInt8))
  removed : Nat → Option Removal

inductive RockEvent
  | stream (e : AsyncEvent)
  | readResult (c : Nat)
  | readResponse (c : Nat)

namespace RockStream

def init : RockStream :=
  ⟨AsyncSocketStream.init, fun _ => false, fun _ => none, fun _ => none, fun _ => none⟩

/-- The two assignments of `doRecv`, after which `doRead` calls `doRsp`. -/
def doRecv (s : RockStream) (i c : Nat) (result : UInt32) (response : List UInt8) : RockStream :=
  if s.assigned i then
    { s with
      stream := (s.stream.setCtx c { s.stream.ctx c with response := some response }).goto i
        (.doRsp .load c []) }
  else
    { s with
      stream := s.stream.setCtx c { s.stream.ctx c with result := result }
      assigned := Function.update s.assigned i true }

/-- The record after the context at a serial number, if there is one, was removed. -/
def remove (s : RockStream) (sn : UInt32) (r : Removal) : Nat → Option Removal :=
  match s.stream.m_ctxs.lookup sn with
  | some c => Function.update s.removed c (some r)
  | none => s.removed

/-- The record after the timeout of context `c`, which removes what is at its serial number. A
context that never came into `m_ctxs`, where its number was taken, is removed by its timeout. -/
def timeout (s : RockStream) (c : Nat) : Nat → Option Removal :=
  let removed := s.remove (s.stream.ctx c).sn .timeout
  Function.update removed c (some ((removed c).getD .timeout))

/-- One step of coroutine `i`. -/
def taskStep (s : RockStream) (i : Nat) : Option RockStream :=
  match s.stream.task i with
  | .answer c result response => some (s.doRecv i c result response)
  | .eraseCtx c =>
      (s.stream.taskStep i).map fun stream =>
        { s with stream := stream, removed := s.timeout c }
  | _ => (s.stream.taskStep i).map fun stream => { s with stream := stream }

def exec (s : RockStream) : RockEvent → Option RockStream
  | .stream (.task i) => s.taskStep i
  | .stream (.response i sn result rsp) =>
      (s.stream.exec (.response i sn result rsp)).map fun stream =>
        { s with
          stream := stream
          assigned :=
            if (s.stream.m_ctxs.lookup sn).isSome then Function.update s.assigned i false
            else s.assigned
          removed := s.remove sn (.response result rsp) }
  | .stream (.swap i ctxs) =>
      (s.stream.exec (.swap i ctxs)).map fun stream =>
        { s with
          stream := stream
          removed := fun c => if c ∈ ctxs then some .close else s.removed c }
  | .stream e => (s.stream.exec e).map fun stream => { s with stream := stream }
  | .readResult c =>
      if c ∈ s.stream.woken ∧ s.result c = none then
        some { s with result := Function.update s.result c (some (s.stream.ctx c).result) }
      else none
  | .readResponse c =>
      if c ∈ s.stream.woken ∧ s.response c = none then
        some { s with response := Function.update s.response c (some (s.stream.ctx c).response) }
      else none

/-- The `RockResult` of a request is that of the event that removed its context, and it has no
response where its result is that of a timeout or of a close. -/
def Belongs (s : RockStream) (c : Nat) (result : UInt32) (response : Option (List UInt8)) : Prop :=
  (∃ removal, s.removed c = some removal ∧ (result, response) = removal.gives) ∧
    (result = asyncTimeout ∨ result = asyncIoError → response = none)

end RockStream

def rockStream : System RockStream RockEvent where
  init s := s = RockStream.init
  step s e s' := s.exec e = some s'

end CIM
