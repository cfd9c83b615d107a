import CIM.Ds.LruCacheRuns
import Mathlib.Algebra.GroupWithZero.Nat
import Mathlib.Algebra.Order.BigOperators.Group.Finset
import Mathlib.Logic.Function.Basic

/-!
# `HashLruCache`

The keys are spread over several caches by their hash. All of them count into one `CacheStatus`.
`clear` goes from cache to cache, and other calls come in between.
-/
namespace CIM.ds

open Transition

structure HashLruCache (K V : Type) (bucket : Nat) where
  m_datas : Fin bucket → LruCache K V
  m_maxSize : UInt64
  m_elasticity : UInt64
  m_status : CacheStatus

namespace HashLruCache

variable {K V : Type} [DecidableEq K] {bucket : Nat} [NeZero bucket]

/-- `std::ceil(v * 1.0 / bucket)`; below 2^53 the quotient is exact enough for it. -/
def perBucket (v : UInt64) (bucket : Nat) : UInt64 :=
  UInt64.ofNat ((v.toNat + (bucket - 1)) / bucket)

def create (max_size elasticity : UInt64) : HashLruCache K V bucket where
  m_datas _ := LruCache.create (perBucket max_size bucket) (perBucket elasticity bucket)
  m_maxSize := perBucket max_size bucket * UInt64.ofNat bucket
  m_elasticity := perBucket elasticity bucket * UInt64.ofNat bucket
  m_status := {}

/-- `m_hash(k) % m_bucket`. -/
def bucketOf (hash : K → UInt64) (k : K) : Fin bucket := Fin.ofNat bucket (hash k).toNat

def size (c : HashLruCache K V bucket) : Nat := ∑ i, (c.m_datas i).size

/-- The calls on one key, and the one of `clear` on one cache. -/
inductive Call (K V : Type) (bucket : Nat)
  | set (k : K) (v : V)
  | get (k : K)
  | exists (k : K)
  | del (k : K)
  | clear (i : Fin bucket)

def Call.index (hash : K → UInt64) : Call K V bucket → Fin bucket
  | .set k _ => bucketOf hash k
  | .get k => bucketOf hash k
  | .exists k => bucketOf hash k
  | .del k => bucketOf hash k
  | .clear i => i

def Call.op : Call K V bucket → LruCache.Op K V
  | .set k v => .set k v
  | .get k => .get k
  | .exists k => .exists k
  | .del k => .del k
  | .clear _ => .clear

/-- A call of one cache, which counts into the status it is given. -/
def callIn (c : HashLruCache K V bucket) (i : Fin bucket) (op : LruCache.Op K V) :
    LruCache.Outcome K V × HashLruCache K V bucket :=
  let r := LruCache.call { c.m_datas i with m_status := c.m_status } op
  (r.1, { c with m_datas := Function.update c.m_datas i r.2, m_status := r.2.m_status })

def call (hash : K → UInt64) (c : HashLruCache K V bucket) (e : Call K V bucket) :
    LruCache.Outcome K V × HashLruCache K V bucket :=
  c.callIn (e.index hash) e.op

def machine (hash : K → UInt64) (max_size elasticity : UInt64) :
    System (HashLruCache K V bucket) (Call K V bucket × LruCache.Outcome K V) where
  init c := c = create max_size elasticity
  step c e c' := c.call hash e.1 = (e.2, c')

/-! ## What a history says -/

/-- The history of one cache. -/
def part (hash : K → UInt64) (i : Fin bucket) (es : List (Call K V bucket × LruCache.Outcome K V)) :
    List (LruCache.Op K V × LruCache.Outcome K V) :=
  es.filterMap fun e => if e.1.index hash = i then some (e.1.op, e.2) else none

/-- What an operation with its outcome adds to the counters. -/
def record (s : CacheStatus) : LruCache.Op K V × LruCache.Outcome K V → CacheStatus
  | (.set _ _, .pruned cbs) => { s with m_set := s.m_set + 1, m_prune := s.m_prune + cbs.length }
  | (.get _, .value v) =>
      { s with m_get := s.m_get + 1, m_hit := s.m_hit + if v.isSome then 1 else 0 }
  | (.del _, _) => { s with m_del := s.m_del + 1 }
  | _ => s

def recorded (es : List (Call K V bucket × LruCache.Outcome K V)) : CacheStatus :=
  es.foldl (fun s e => record s (e.1.op, e.2)) {}

end HashLruCache

namespace LruCache

variable {K V : Type} [DecidableEq K] {c : LruCache K V} {max_size elasticity : UInt64}
  {es : List (Op K V × Outcome K V)}

theorem Good.setStatus (h : Good max_size elasticity es c) (s : CacheStatus) :
    Good max_size elasticity es { c with m_status := s } where
  linked := ⟨h.linked.index, h.linked.fresh⟩
  recent := h.recent
  history := h.history
  below := h.below
  maxSize := h.maxSize
  elasticity := h.elasticity

theorem pruneLoop_status (turns : Nat) (c : LruCache K V) :
    (pruneLoop turns c).1.m_status = c.m_status := by
  induction turns generalizing c with
  | zero => rfl
  | succ turns ih =>
      rw [pruneLoop]
      split
      · split
        · rfl
        · exact ih _
      · rfl

theorem prune_status (c : LruCache K V) :
    (prune c).1.m_status =
      { c.m_status with m_prune := c.m_status.m_prune + (prune c).2.length } := by
  unfold prune
  split
  · rfl
  · change CacheStatus.incPrune (pruneLoop _ c).1.m_status _ = _
    rw [pruneLoop_status]
    rfl

/-- A call counts itself and what came of it. -/
theorem call_status (h : Linked c) (op : Op K V) :
    (c.call op).2.m_status = HashLruCache.record c.m_status (op, (c.call op).1) := by
  cases op with
  | set k v =>
      change (c.set k v).1.m_status = _
      cases hk : c.m_cache.lookup k with
      | some it =>
          simp only [call, set, hk]
          rfl
      | none =>
          change _ = HashLruCache.record c.m_status (.set k v, .pruned (c.set k v).2)
          rw [set_miss hk, prune_status]
          rfl
  | get k =>
      change (c.get k).1.m_status = HashLruCache.record c.m_status (.get k, .value (c.get k).2)
      cases hk : c.m_cache.lookup k with
      | none =>
          simp only [get, hk]
          rfl
      | some it =>
          obtain ⟨v, hn⟩ := h.lookup_some hk
          rw [get_hit h hk hn]
          rfl
  | «exists» k => rfl
  | del k =>
      change (c.del k).1.m_status = _
      cases hk : c.m_cache.lookup k with
      | none =>
          simp only [call, del, hk]
          rfl
      | some it =>
          simp only [call, del, hk]
          rfl
  | clear => rfl

end LruCache

namespace HashLruCache

variable {K V : Type} [DecidableEq K] {bucket : Nat} [NeZero bucket] {hash : K → UInt64}
  {max_size elasticity : UInt64} {c : HashLruCache K V bucket} {i : Fin bucket}
  {es : List (Call K V bucket × LruCache.Outcome K V)} {e : Call K V bucket × LruCache.Outcome K V}

theorem perBucket_pos (h : 0 < max_size) : 0 < perBucket max_size bucket := by
  have hb : 0 < bucket := Nat.pos_of_neZero bucket
  have hmax : 0 < max_size.toNat := UInt64.lt_iff_toNat_lt.mp h
  have hpos : 0 < (max_size.toNat + (bucket - 1)) / bucket := Nat.div_pos (by omega) hb
  have hle : (max_size.toNat + (bucket - 1)) / bucket ≤ max_size.toNat := by
    have hone : (bucket - 1) * 1 ≤ (bucket - 1) * max_size.toNat :=
      Nat.mul_le_mul_left _ hmax
    have hmul : bucket * max_size.toNat = (bucket - 1) * max_size.toNat + max_size.toNat := by
      conv_lhs => rw [← Nat.sub_add_cancel hb, Nat.add_mul, Nat.one_mul]
    apply Nat.div_le_of_le_mul
    omega
  rw [UInt64.lt_iff_toNat_lt, perBucket, UInt64.toNat_ofNat',
    Nat.mod_eq_of_lt (lt_of_le_of_lt hle max_size.toNat_lt)]
  exact hpos

/-- Each cache is as its own history has left it, and the counters count them all. -/
structure Good (hash : K → UInt64) (max_size elasticity : UInt64)
    (es : List (Call K V bucket × LruCache.Outcome K V)) (c : HashLruCache K V bucket) : Prop where
  datas : ∀ i, LruCache.Good (perBucket max_size bucket) (perBucket elasticity bucket)
    (part hash i es) (c.m_datas i)
  status : c.m_status = recorded es

omit [DecidableEq K] in
theorem part_snoc_self (es : List (Call K V bucket × LruCache.Outcome K V))
    (h : e.1.index hash = i) : part hash i (es ++ [e]) = part hash i es ++ [(e.1.op, e.2)] := by
  simp [part, List.filterMap_append, h]

omit [DecidableEq K] in
theorem part_snoc_ne (es : List (Call K V bucket × LruCache.Outcome K V))
    (h : e.1.index hash ≠ i) : part hash i (es ++ [e]) = part hash i es := by
  simp [part, List.filterMap_append, h]

theorem Good.step (hmax : 0 < max_size) (h : Good hash max_size elasticity es c)
    {c' : HashLruCache K V bucket} (hstep : c.call hash e.1 = (e.2, c')) :
    Good hash max_size elasticity (es ++ [e]) c' := by
  obtain ⟨op, out⟩ := e
  obtain ⟨hout, rfl⟩ := Prod.mk.inj hstep
  obtain rfl : (c.call hash op).1 = out := hout
  have hgood := (h.datas (op.index hash)).setStatus c.m_status
  refine ⟨fun i => ?_, ?_⟩
  · by_cases hi : op.index hash = i
    · subst hi
      rw [part_snoc_self (e := (op, _)) es rfl]
      change LruCache.Good _ _ _ (Function.update c.m_datas (op.index hash) _ (op.index hash))
      rw [Function.update_self]
      exact LruCache.step_good (LruCache.ne_zero_of_pos (perBucket_pos hmax)) hgood
        rfl
    · rw [part_snoc_ne (e := (op, _)) es hi]
      change LruCache.Good _ _ _ (Function.update c.m_datas (op.index hash) _ i)
      rw [Function.update_of_ne (Ne.symm hi)]
      exact h.datas i
  · rw [recorded, List.foldl_append]
    change _ = record (recorded es) (op.op, _)
    rw [← h.status]
    exact LruCache.call_status hgood.linked op.op

theorem run_good (hmax : 0 < max_size) (h : (machine hash max_size elasticity).Run es c) :
    Good hash max_size elasticity es c := by
  apply h.history
  · rintro c rfl
    exact ⟨fun i => LruCache.create_good (perBucket_pos hmax), rfl⟩
  · intro es c e c' hgood hstep
    exact hgood.step hmax hstep

end HashLruCache

end CIM.ds
