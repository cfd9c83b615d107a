import Mathlib.Logic.Function.Basic
import CIM.Lib.System

/-!
# HTTP connection pool

Connections are numbered as they are made, and `heap` has the ones that exist. A connection is in
the idle list, or held by the user that has its shared pointers, whose deleter is `ReleasePtr`.
-/
namespace CIM.http

open Transition

structure HttpConnection where
  m_createTime : UInt64
  m_request : UInt64
  m_isConnected : Bool

/-- `held` has the users with their connections, and `now` is the clock. -/
structure HttpConnectionPool where
  m_maxSize : UInt32
  m_maxAliveTime : UInt32
  m_maxRequest : UInt32
  m_conns : List Nat
  m_total : Int32
  heap : Nat → Option HttpConnection
  made : Nat
  held : List (Nat × Nat)
  now : UInt64

namespace HttpConnectionPool

/-- How far a new connection comes. -/
inductive Dial
  | getAddrFail
  | createSockFail
  | connectFail
  | connected
  deriving DecidableEq, Repr

def create (max_size max_alive_time max_request : UInt32) (now : UInt64) : HttpConnectionPool :=
  ⟨max_size, max_alive_time, max_request, [], 0, fun _ => none, 0, [], now⟩

def expired (s : HttpConnectionPool) (conn : HttpConnection) : Bool :=
  conn.m_createTime + s.m_maxAliveTime.toUInt64 < s.now

/-- The loop over the idle list: the invalid connections, the one that was found, and what is
left. None where a connection does not exist any more. -/
def findConn (s : HttpConnectionPool) : List Nat → Option (List Nat × Option Nat × List Nat)
  | [] => some ([], none, [])
  | c :: conns =>
      (s.heap c).bind fun conn =>
        if !conn.m_isConnected then (s.findConn conns).map fun r => (c :: r.1, r.2)
        else if s.expired conn then (s.findConn conns).map fun r => (c :: r.1, r.2)
        else some ([], some c, conns)

/-- Only a connection that exists can be deleted. -/
def delete (s : HttpConnectionPool) (c : Nat) : Option HttpConnectionPool :=
  (s.heap c).map fun _ => { s with heap := Function.update s.heap c none }

def deleteAll (s : HttpConnectionPool) : List Nat → Option HttpConnectionPool
  | [] => some s
  | c :: conns => (s.delete c).bind fun s => s.deleteAll conns

/-- The connection that the user is given, if there is one. -/
def give (s : HttpConnectionPool) (user c : Nat) : HttpConnectionPool :=
  { s with held := s.held ++ [(user, c)] }

/-- A new connection, where the address, the socket and its connect are there. -/
def connect (s : HttpConnectionPool) (user : Nat) : Dial → Option Nat × HttpConnectionPool
  | .getAddrFail => (none, s)
  | .createSockFail => (none, s)
  | .connectFail => (none, s)
  | .connected =>
      (some s.made,
        { s with
          heap := Function.update s.heap s.made (some ⟨s.now, 0, true⟩)
          made := s.made + 1
          m_total := s.m_total + 1 }.give user s.made)

/-- The call ends at `done`. -/
def getConnection (s : HttpConnectionPool) (user : Nat) (dial : Dial) (done : UInt64) :
    Option (Option Nat × HttpConnectionPool) :=
  (s.findConn s.m_conns).bind fun r =>
    ({ s with m_conns := r.2.2 }.deleteAll r.1).map fun s : HttpConnectionPool =>
      let s := { s with m_total := s.m_total - Int32.ofNat r.1.length, now := done }
      match r.2.1 with
      | some c => (some c, s.give user c)
      | none => s.connect user dial

def releasePtr (s : HttpConnectionPool) (c : Nat) : Option HttpConnectionPool :=
  (s.heap c).bind fun conn =>
    let conn := { conn with m_request := conn.m_request + 1 }
    let s := { s with heap := Function.update s.heap c (some conn) }
    if !conn.m_isConnected || s.expired conn || s.m_maxRequest.toUInt64 ≤ conn.m_request then
      (s.delete c).map fun s => { s with m_total := s.m_total - 1 }
    else some { s with m_conns := s.m_conns ++ [c] }

/-- `release` is the end of the last shared pointer. A connection is disconnected at any time. -/
inductive Event
  | getConnection (user : Nat) (dial : Dial) (done : UInt64)
  | release (user c : Nat)
  | disconnect (c : Nat)
  | advance (now : UInt64)
  deriving DecidableEq, Repr

def exec (s : HttpConnectionPool) : Event → Option HttpConnectionPool
  | .getConnection user dial done => (s.getConnection user dial done).map Prod.snd
  | .release user c => { s with held := s.held.erase (user, c) }.releasePtr c
  | .disconnect c =>
      (s.heap c).map fun conn =>
        { s with heap := Function.update s.heap c (some { conn with m_isConnected := false }) }
  | .advance now => some { s with now := now }

/-- The clock does not go back, and a user releases what it holds. -/
def Enabled (s : HttpConnectionPool) : Event → Prop
  | .getConnection _ _ done => s.now ≤ done
  | .release user c => (user, c) ∈ s.held
  | .disconnect c => (s.heap c).isSome = true
  | .advance now => s.now ≤ now

/-- The connections that are held. -/
def out (s : HttpConnectionPool) : List Nat := s.held.map Prod.snd

/-- The connections of the pool. -/
def all (s : HttpConnectionPool) : List Nat := s.m_conns ++ s.out

end HttpConnectionPool

open HttpConnectionPool in
def httpConnectionPool (max_size max_alive_time max_request : UInt32) :
    System HttpConnectionPool HttpConnectionPool.Event where
  init s := ∃ now, s = create max_size max_alive_time max_request now
  step s e s' := s.Enabled e ∧ s.exec e = some s'

end CIM.http
