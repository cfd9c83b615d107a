import Mathlib.Data.List.AList
import Mathlib.Logic.Function.Basic
import CIM.Lib.Delta
import CIM.Lib.System

/-!
# Service discovery and its load balancers

Each thread runs `ZKServiceDiscovery::getChildren` from the answer of ZooKeeper on: it swaps the
stored service info under the lock, and calls `SDLoadBalance::onServiceChange` with the old and
the new value outside it. `changes` records, for each pair of domain and service, the swaps whose
change has not reached a balancer, the oldest first.
-/
namespace CIM

open Change

abbrev ServiceKey : Type := String × String

structure ServiceItemInfo where
  m_id : UInt64
  m_ip : String
  m_port : UInt16
  m_data : String

abbrev ServiceInfos : Type := AList fun _ : UInt64 => ServiceItemInfo

/-- `ILoadBalance::Type`. -/
inductive LoadBalanceType
  | roundRobin
  | weight
  | fair

/-- The stream is known by its number; `fair` marks a `FairLoadBalanceItem`. -/
structure LoadBalanceItem where
  m_id : UInt64
  m_stream : Nat
  m_weight : Int
  fair : Bool

structure LoadBalance where
  kind : LoadBalanceType
  m_datas : AList fun _ : UInt64 => LoadBalanceItem

/-- The set of keys of a map. -/
def ids {β : Type} (m : AList fun _ : UInt64 => β) : Set UInt64 := {id | id ∈ m}

structure ServiceChange where
  thread : Nat
  old : ServiceInfos
  new : ServiceInfos

def ServiceChange.delta (c : ServiceChange) : Delta UInt64 := Delta.between (ids c.old) (ids c.new)

inductive DiscoveryTask
  | idle
  | swap (key : ServiceKey) (infos : ServiceInfos)
  | lookup (key : ServiceKey) (old new : ServiceInfos)
  | store (key : ServiceKey) (old new : ServiceInfos)
  | update (key : ServiceKey) (old new : ServiceInfos) (lb : Nat)
  | close (items : List LoadBalanceItem)

structure Discovery where
  m_datas : ServiceKey → ServiceInfos
  m_types : ServiceKey → Option LoadBalanceType
  balancers : ServiceKey → Option Nat
  lb : Nat → LoadBalance
  lbCount : Nat
  task : Nat → DiscoveryTask
  changes : ServiceKey → List ServiceChange
  closed : List LoadBalanceItem

inductive DiscoveryEvent
  | children (t : Nat) (key : ServiceKey) (vals : List ServiceItemInfo)
  | task (t : Nat)

/-- The children that `ServiceItemInfo::Create` accepts, by their ids. -/
def collectInfos (vals : List ServiceItemInfo) : ServiceInfos :=
  vals.foldl (fun infos info => infos.insert info.m_id info) ∅

def createLoadBalance : LoadBalanceType → LoadBalance
  | .roundRobin => ⟨.roundRobin, ∅⟩
  | .weight => ⟨.weight, ∅⟩
  | .fair => ⟨.weight, ∅⟩

def createLoadBalanceItem (type : LoadBalanceType) (id : UInt64) (stream : Nat) :
    LoadBalanceItem :=
  match type with
  | .roundRobin => ⟨id, stream, 10000, false⟩
  | .weight => ⟨id, stream, 10000, false⟩
  | .fair => ⟨id, stream, 10000, true⟩

namespace LoadBalance

/-- The deletions of `update`, with the items that were there. -/
def eraseAll (m : AList fun _ : UInt64 => LoadBalanceItem) :
    List UInt64 → List LoadBalanceItem × AList fun _ : UInt64 => LoadBalanceItem
  | [] => ([], m)
  | id :: dels =>
      match m.lookup id with
      | some item => (item :: (eraseAll (m.erase id) dels).1, (eraseAll (m.erase id) dels).2)
      | none => eraseAll m dels

def insertAll (m : AList fun _ : UInt64 => LoadBalanceItem) (adds : List LoadBalanceItem) :
    AList fun _ : UInt64 => LoadBalanceItem :=
  adds.foldl (fun m item => m.insert item.m_id item) m

def update (lb : LoadBalance) (adds : List LoadBalanceItem) (dels : List UInt64) :
    List LoadBalanceItem × LoadBalance :=
  ((eraseAll lb.m_datas dels).1,
    { lb with m_datas := insertAll (eraseAll lb.m_datas dels).2 adds })

end LoadBalance

/-- The ids of `del_infos`. -/
def delIds (old new : ServiceInfos) : List UInt64 := old.keys.filter fun id => id ∉ new

/-- The services of `add_values`. -/
def addValues (old new : ServiceInfos) : List (UInt64 × ServiceItemInfo) :=
  (new.entries.map fun e => (e.1, e.2)).filter fun e => e.1 ∉ old

/-- `add_infos`; a service whose stream is not created is left out. -/
def addItems (m_cb : ServiceItemInfo → Option Nat) (type : LoadBalanceType)
    (adds : List (UInt64 × ServiceItemInfo)) : List LoadBalanceItem :=
  adds.filterMap fun e => (m_cb e.2).map fun stream => createLoadBalanceItem type e.1 stream

namespace Discovery

def init (types : ServiceKey → Option LoadBalanceType) : Discovery :=
  ⟨fun _ => ∅, types, fun _ => none, fun _ => createLoadBalance .fair, 0, fun _ => .idle,
    fun _ => [], []⟩

/-- `m_defaultType` is `FAIR`. -/
def getType (s : Discovery) (key : ServiceKey) : LoadBalanceType := (s.m_types key).getD .fair

def goto (s : Discovery) (t : Nat) (u : DiscoveryTask) : Discovery :=
  { s with task := Function.update s.task t u }

/-- The swap of the stored info under the lock. -/
def swapDatas (s : Discovery) (t : Nat) (key : ServiceKey) (infos : ServiceInfos) : Discovery :=
  { s with
    m_datas := Function.update s.m_datas key infos
    changes := Function.update s.changes key
      (s.changes key ++ [⟨t, s.m_datas key, infos⟩])
    task := Function.update s.task t (.lookup key (s.m_datas key) infos) }

/-- The second half of `SDLoadBalance::get`: it stores a new balancer without looking again. -/
def storeBalancer (s : Discovery) (key : ServiceKey) : Discovery :=
  { s with
    balancers := Function.update s.balancers key (some s.lbCount)
    lb := Function.update s.lb s.lbCount (createLoadBalance (s.getType key))
    lbCount := s.lbCount + 1 }

/-- `lb->update`, after which the change of thread `t` has reached the balancer. -/
def updateBalancer (m_cb : ServiceItemInfo → Option Nat) (s : Discovery) (t : Nat)
    (key : ServiceKey) (old new : ServiceInfos) (b : Nat) : Discovery :=
  let r := (s.lb b).update (addItems m_cb (s.getType key) (addValues old new)) (delIds old new)
  { s with
    lb := Function.update s.lb b r.2
    changes := Function.update s.changes key ((s.changes key).filter fun c => c.thread ≠ t)
    task := Function.update s.task t (.close r.1) }

/-- One step of thread `t`. -/
def taskStep (m_cb : ServiceItemInfo → Option Nat) (s : Discovery) (t : Nat) :
    Option Discovery :=
  match s.task t with
  | .idle => none
  | .swap key infos => some (s.swapDatas t key infos)
  | .lookup key old new =>
      match s.balancers key with
      | some b => some (s.goto t (.update key old new b))
      | none => some (s.goto t (.store key old new))
  | .store key old new => some ((s.storeBalancer key).goto t (.update key old new s.lbCount))
  | .update key old new b => some (s.updateBalancer m_cb t key old new b)
  | .close items => some ({ s with closed := s.closed ++ items }.goto t .idle)

def exec (m_cb : ServiceItemInfo → Option Nat) (s : Discovery) :
    DiscoveryEvent → Option Discovery
  | .children t key vals =>
      match s.task t with
      | .idle => some (s.goto t (.swap key (collectInfos vals)))
      | _ => none
  | .task t => s.taskStep m_cb t

/-- All started updates have finished. -/
def Quiescent (s : Discovery) : Prop := ∀ t, s.task t = .idle

/-- Every balancer holds the services that are stored for its pair. -/
def Converged (s : Discovery) : Prop :=
  ∀ key b, s.balancers key = some b → ids (s.lb b).m_datas = ids (s.m_datas key)

/-- The changes of the pair that were swapped in before that of thread `t` and are still on
their way. -/
def ahead (s : Discovery) (key : ServiceKey) (t : Nat) : List ServiceChange :=
  (s.changes key).takeWhile fun c => c.thread ≠ t

/-- An update overtakes only changes that neither add what it deletes nor delete what it adds,
and a new balancer is stored only where there is none. -/
def InOrder (s : Discovery) : DiscoveryEvent → Prop
  | .children _ _ _ => True
  | .task t =>
      match s.task t with
      | .update key old new _ =>
          ∀ c ∈ s.ahead key t, Delta.Independent c.delta (Delta.between (ids old) (ids new))
      | .store key _ _ => s.balancers key = none
      | _ => True

end Discovery

open Transition in
def discoverySystem (m_cb : ServiceItemInfo → Option Nat) : System Discovery DiscoveryEvent where
  init s := ∃ types, s = Discovery.init types
  step s e s' := s.exec m_cb e = some s'

end CIM
