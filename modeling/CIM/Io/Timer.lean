import CIM.Lib.SortedSet
import CIM.Lib.System
import Mathlib.Data.Prod.Lex
import Mathlib.Logic.Function.Basic

/-!
# `Timer` and `TimerManager`

A timer is named by the order of its creation, and `heap` holds the objects. `m_timers` is ordered
by the time and the address that the objects have at the moment of the comparison. Every function
runs under the lock of the manager, and `now` is the clock it reads.
-/
namespace CIM

open Transition

structure Timer (β : Type) where
  m_recurring : Bool
  m_ms : UInt64
  m_next : UInt64
  m_cb : Option β
  addr : Nat
  deriving DecidableEq, Repr

structure TimerManager (β : Type) where
  heap : Nat → Option (Timer β)
  count : Nat
  m_timers : List Nat
  m_tickled : Bool
  m_previouseTime : UInt64

namespace TimerManager

variable {β : Type}

def create (now : UInt64) : TimerManager β := ⟨fun _ => none, 0, [], false, now⟩

/-- `Timer::Comparator` on two pointers. -/
def less : Option (Timer β) → Option (Timer β) → Bool
  | none, none => false
  | none, some _ => true
  | some _, none => false
  | some lhs, some rhs =>
      if lhs.m_next < rhs.m_next then true
      else if lhs.m_next > rhs.m_next then false
      else decide (lhs.addr < rhs.addr)

def comparator (heap : Nat → Option (Timer β)) (lhs rhs : Nat) : Bool :=
  less (heap lhs) (heap rhs)

/-- `m_timers.find(shared_from_this())`. -/
def find (t : Nat) (m : TimerManager β) : Option Nat :=
  SortedSet.find (comparator m.heap) t m.m_timers

def put (t : Nat) (timer : Timer β) (m : TimerManager β) : TimerManager β :=
  { m with heap := Function.update m.heap t (some timer) }

/-- The private `addTimer`: the insertion, and whether `onTimerInsertedAtFront` is called. -/
def insertTimer (t : Nat) (m : TimerManager β) : TimerManager β × Bool :=
  let m_timers := SortedSet.insert (comparator m.heap) t m.m_timers
  let at_front :=
    decide (SortedSet.find (comparator m.heap) t m_timers = m_timers.head?) && !m.m_tickled
  ({ m with m_timers := m_timers, m_tickled := m.m_tickled || at_front }, at_front)

/-- The new object is at the address `addr`. -/
def addTimer (ms : UInt64) (cb : β) (recurring : Bool) (addr : Nat) (now : UInt64)
    (m : TimerManager β) : TimerManager β × Bool :=
  insertTimer m.count
    (put m.count ⟨recurring, ms, now + ms, some cb, addr⟩ { m with count := m.count + 1 })

def cancel (t : Nat) (m : TimerManager β) : TimerManager β × Bool :=
  match m.heap t with
  | none => (m, false)
  | some timer =>
      if timer.m_cb.isSome then
        let m := put t { timer with m_cb := none } m
        match find t m with
        | some it => ({ m with m_timers := m.m_timers.erase it }, true)
        | none => (m, false)
      else (m, false)

def refresh (t : Nat) (now : UInt64) (m : TimerManager β) : TimerManager β × Bool :=
  match m.heap t with
  | none => (m, false)
  | some timer =>
      if timer.m_cb.isSome then
        match find t m with
        | some it =>
            let m := { m with m_timers := m.m_timers.erase it }
            let m := put t { timer with m_next := now + timer.m_ms } m
            ({ m with m_timers := SortedSet.insert (comparator m.heap) t m.m_timers }, true)
        | none => (m, false)
      else (m, false)

def reset (t : Nat) (ms : UInt64) (from_now : Bool) (now : UInt64) (m : TimerManager β) :
    TimerManager β × Bool :=
  match m.heap t with
  | none => (m, false)
  | some timer =>
      if ms = timer.m_ms ∧ from_now = false then (m, true)
      else if timer.m_cb.isNone then (m, false)
      else
        match find t m with
        | none => (m, false)
        | some it =>
            let m := { m with m_timers := m.m_timers.erase it }
            let start := if from_now then now else timer.m_next - timer.m_ms
            ((insertTimer t (put t { timer with m_ms := ms, m_next := start + ms } m)).1, true)

def getNextTimer (now : UInt64) (m : TimerManager β) : TimerManager β × UInt64 :=
  let next := match m.m_timers.head?.bind m.heap with
    | none => 0xffffffffffffffff
    | some timer => if now ≥ timer.m_next then 0 else timer.m_next - now
  ({ m with m_tickled := false }, next)

def detectClockRollover (now_ms : UInt64) (m : TimerManager β) : Bool :=
  decide (now_ms < m.m_previouseTime ∧ now_ms < m.m_previouseTime - 60 * 60 * 1000)

/-- One turn of the loop over the expired timers. -/
def fire (now_ms : UInt64) (t : Nat) (timer : Timer β) (m : TimerManager β) : TimerManager β :=
  if timer.m_recurring then
    let m := put t { timer with m_next := now_ms + timer.m_ms } m
    { m with m_timers := SortedSet.insert (comparator m.heap) t m.m_timers }
  else put t { timer with m_cb := none } m

def fireLoop (now_ms : UInt64) : List Nat → TimerManager β → TimerManager β × List (Option β)
  | [], m => (m, [])
  | t :: expired, m =>
      match m.heap t with
      | none => (m, [])
      | some timer =>
          let (m', cbs) := fireLoop now_ms expired (fire now_ms t timer m)
          (m', timer.m_cb :: cbs)

/-- `m_next == now_ms`. -/
def dueNow (m : TimerManager β) (now_ms : UInt64) (t : Nat) : Bool :=
  match m.heap t with
  | some timer => timer.m_next == now_ms
  | none => false

/-- Where `it` divides `m_timers`. `addr` is where the timer `now_timer` was made. -/
def partition (rollover : Bool) (now_ms : UInt64) (addr : Nat) (m : TimerManager β) :
    List Nat × List Nat :=
  if rollover then (m.m_timers, [])
  else
    let before := fun t => less (m.heap t) (some ⟨false, 0, now_ms, none, addr⟩)
    let rest := m.m_timers.dropWhile before
    (m.m_timers.takeWhile before ++ rest.takeWhile (dueNow m now_ms),
      rest.dropWhile (dueNow m now_ms))

def listExpiredCb (now_ms : UInt64) (addr : Nat) (m : TimerManager β) :
    TimerManager β × List (Option β) :=
  match m.m_timers with
  | [] => (m, [])
  | first :: _ =>
      let rollover := detectClockRollover now_ms m
      let m := { m with m_previouseTime := now_ms }
      let early := match m.heap first with
        | some timer => decide (timer.m_next > now_ms)
        | none => false
      if !rollover && early then (m, [])
      else
        let (expired, rest) := partition rollover now_ms addr m
        fireLoop now_ms expired { m with m_timers := rest }

inductive Op (β : Type) where
  | addTimer (ms : UInt64) (cb : β) (recurring : Bool) (addr : Nat) (now : UInt64)
  | cancel (t : Nat)
  | refresh (t : Nat) (now : UInt64)
  | reset (t : Nat) (ms : UInt64) (from_now : Bool) (now : UInt64)
  | getNextTimer (now : UInt64)
  | listExpiredCb (now : UInt64) (addr : Nat)

inductive Outcome (β : Type) where
  | flag (b : Bool)
  | time (next : UInt64)
  | cbs (cbs : List (Option β))

def call (m : TimerManager β) : Op β → Outcome β × TimerManager β
  | .addTimer ms cb recurring addr now =>
      (.flag (m.addTimer ms cb recurring addr now).2, (m.addTimer ms cb recurring addr now).1)
  | .cancel t => (.flag (m.cancel t).2, (m.cancel t).1)
  | .refresh t now => (.flag (m.refresh t now).2, (m.refresh t now).1)
  | .reset t ms from_now now =>
      (.flag (m.reset t ms from_now now).2, (m.reset t ms from_now now).1)
  | .getNextTimer now => (.time (m.getNextTimer now).2, (m.getNextTimer now).1)
  | .listExpiredCb now addr =>
      (.cbs (m.listExpiredCb now addr).2, (m.listExpiredCb now addr).1)

/-- A new object is not where a timer in the set is. -/
def Allocates (m : TimerManager β) : Op β → Prop
  | .addTimer _ _ _ addr _ => ∀ t ∈ m.m_timers, (m.heap t).map Timer.addr ≠ some addr
  | _ => True

def machine (β : Type) : System (TimerManager β) (Op β × Outcome β) where
  init m := ∃ now, m = create now
  step m e m' := Allocates m e.1 ∧ m.call e.1 = (e.2, m')

end TimerManager

end CIM
