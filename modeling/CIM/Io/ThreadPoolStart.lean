import Mathlib.Data.List.Nodup
import Mathlib.Data.List.Range
import CIM.Io.ThreadPool

/-!
# Starting a thread pool

The identifiers of threads come from one counter of the process, and `start` looks for its threads
under the numbers from zero on.
-/
namespace CIM

open Transition

namespace ThreadPools

/-- What `start` reads of a pool: an entry of the table is a thread's identifier with how often
the thread was started. -/
structure Pool where
  threads_ : List (Nat × Nat)
  poolMode_ : PoolMode
  poolIsRunning_ : Bool
  deriving DecidableEq, Repr

end ThreadPools

open ThreadPools

/-- The pools of a process; `created` counts the threads they have made. -/
structure ThreadPools where
  generateId_ : UInt32
  created : Nat
  pools : Nat → Option Pool

namespace ThreadPools

def keys (threads : List (Nat × Nat)) : List Nat := threads.map Prod.fst

/-- `threads_.emplace(id, ...)` of a thread that was not started. -/
def emplace (threads : List (Nat × Nat)) (id : Nat) : List (Nat × Nat) :=
  if id ∈ keys threads then threads else threads ++ [(id, 0)]

/-- `threads_[id]->start()`; a missing entry is made with a null pointer. -/
def startThread (threads : List (Nat × Nat)) (id : Nat) : Option (List (Nat × Nat)) :=
  if id ∈ keys threads then
    some (threads.map fun e => if e.1 = id then (e.1, e.2 + 1) else e)
  else none

/-- The first loop of `start`; the counter wraps around. -/
def register : Nat → UInt32 → List (Nat × Nat) → List (Nat × Nat)
  | 0, _, threads => threads
  | n + 1, generateId_, threads =>
      register n (generateId_ + 1) (emplace threads generateId_.toNat)

/-- The second loop. -/
def startAll (threads : List (Nat × Nat)) (n : Nat) : Option (List (Nat × Nat)) :=
  (List.range n).foldlM startThread threads

/-- `start`, as long as the system can make threads; the `int` that counts them must not
overflow. -/
def start (s : ThreadPools) (p n : Nat) : Option ThreadPools :=
  (s.pools p).bind fun pool =>
    if pool.poolIsRunning_ then some s
    else if 2147483648 ≤ n then none
    else
      (startAll (register n s.generateId_ pool.threads_) n).map fun threads =>
        { generateId_ := s.generateId_ + UInt32.ofNat n
          created := s.created + n
          pools := Function.update s.pools p (some ⟨threads, pool.poolMode_, true⟩) }

/-- The new thread of a call of `submitTask`; where the system cannot start it its entry stays. -/
def grow (s : ThreadPools) (p : Nat) (started : Bool) : Option ThreadPools :=
  (s.pools p).bind fun pool =>
    if pool.poolMode_ = .MODE_CACHED then
      let threads := emplace pool.threads_ s.generateId_.toNat
      (if started then startThread threads s.generateId_.toNat else some threads).map
        fun threads =>
          { generateId_ := s.generateId_ + 1
            created := s.created + 1
            pools := Function.update s.pools p (some { pool with threads_ := threads }) }
    else none

/-- `exit` is a worker that takes itself out of the table. -/
inductive Step
  | create (p : Nat) (mode : PoolMode)
  | start (p n : Nat)
  | grow (p : Nat) (started : Bool)
  | exit (p id : Nat)
  | destroy (p : Nat)

def exec (s : ThreadPools) : Step → Option ThreadPools
  | .create p mode =>
      if s.pools p = none then
        some { s with pools := Function.update s.pools p (some ⟨[], mode, false⟩) }
      else none
  | .start p n => s.start p n
  | .grow p started => s.grow p started
  | .exit p id =>
      (s.pools p).map fun pool =>
        { s with
          pools := Function.update s.pools p
            (some { pool with threads_ := pool.threads_.filter fun e => e.1 != id }) }
  | .destroy p => some { s with pools := Function.update s.pools p none }

end ThreadPools

def threadPools : System ThreadPools ThreadPools.Step where
  init s := s = ⟨0, 0, fun _ => none⟩
  step s e s' := s.exec e = some s'

namespace ThreadPools

variable {s s' : ThreadPools} {e : Step} {threads threads' : List (Nat × Nat)} {pool : Pool}
  {g : UInt32} {n p id : Nat}

/-! ## The table -/

theorem mem_keys_emplace {k : Nat} : k ∈ keys (emplace threads id) ↔ k ∈ keys threads ∨ k = id := by
  unfold emplace
  split
  next h =>
    constructor
    · exact .inl
    · rintro (hk | rfl)
      · exact hk
      · exact h
  next =>
    unfold keys
    rw [List.map_append, List.mem_append]
    exact or_congr Iff.rfl List.mem_singleton

theorem nodup_emplace (h : (keys threads).Nodup) : (keys (emplace threads id)).Nodup := by
  unfold emplace
  split
  · exact h
  next hid =>
    unfold keys at *
    rw [List.map_append]
    refine List.nodup_append.mpr ⟨h, List.nodup_singleton _, fun a ha b hb hab => hid ?_⟩
    have hb : b = id := List.mem_singleton.mp hb
    rw [← hb, ← hab]
    exact ha

theorem mem_emplace {x : Nat × Nat} (h : x ∈ emplace threads id) : x ∈ threads ∨ x = (id, 0) := by
  unfold emplace at h
  split at h
  · exact .inl h
  · exact (List.mem_append.mp h).imp_right List.mem_singleton.mp

theorem subset_emplace : threads ⊆ emplace threads id := by
  intro x hx
  unfold emplace
  split
  · exact hx
  · exact List.mem_append_left _ hx

theorem add_ofNat_zero : g + UInt32.ofNat 0 = g :=
  UInt32.add_zero g

/-- The identifiers that follow are in the table. -/
theorem mem_keys_register {k : Nat} : k ∈ keys (register n g threads) ↔
    k ∈ keys threads ∨ ∃ i < n, k = (g + UInt32.ofNat i).toNat := by
  induction n generalizing g threads with
  | zero => simp [register]
  | succ n ih =>
      rw [register, ih, mem_keys_emplace, or_assoc]
      refine or_congr Iff.rfl ⟨?_, ?_⟩
      · rintro (rfl | ⟨i, hi, rfl⟩)
        · exact ⟨0, Nat.succ_pos n, by rw [add_ofNat_zero]⟩
        · refine ⟨i + 1, Nat.succ_lt_succ hi, ?_⟩
          rw [UInt32.ofNat_add, UInt32.add_assoc, UInt32.add_comm 1]
          rfl
      · rintro ⟨i, hi, rfl⟩
        cases i with
        | zero => exact .inl (by rw [add_ofNat_zero])
        | succ i =>
            refine .inr ⟨i, Nat.lt_of_succ_lt_succ hi, ?_⟩
            rw [UInt32.ofNat_add, UInt32.add_assoc, UInt32.add_comm 1]
            rfl

theorem nodup_register (h : (keys threads).Nodup) : (keys (register n g threads)).Nodup := by
  induction n generalizing g threads with
  | zero => exact h
  | succ n ih => exact ih (nodup_emplace h)

theorem mem_register {x : Nat × Nat} (h : x ∈ register n g threads) : x ∈ threads ∨ x.2 = 0 := by
  induction n generalizing g threads with
  | zero => exact .inl h
  | succ n ih =>
      rcases ih h with hx | hx
      · rcases mem_emplace hx with hx | rfl
        · exact .inl hx
        · exact .inr rfl
      · exact .inr hx

theorem subset_register : threads ⊆ register n g threads := by
  induction n generalizing g threads with
  | zero => exact fun _ hx => hx
  | succ n ih => exact fun _ hx => ih (subset_emplace hx)

/-- Every thread below `n` is started once more. -/
def bump (n : Nat) (threads : List (Nat × Nat)) : List (Nat × Nat) :=
  threads.map fun e => if e.1 < n then (e.1, e.2 + 1) else e

theorem keys_bump : keys (bump n threads) = keys threads := by
  unfold keys bump
  rw [List.map_map]
  refine List.map_congr_left fun x _ => ?_
  change (if x.1 < n then (x.1, x.2 + 1) else x).1 = x.1
  split <;> rfl

theorem startThread_bump (h : n ∈ keys threads) :
    startThread (bump n threads) n = some (bump (n + 1) threads) := by
  unfold startThread
  rw [keys_bump, if_pos h]
  unfold bump
  rw [List.map_map]
  refine congrArg some (List.map_congr_left fun x _ => ?_)
  change (if (if x.1 < n then (x.1, x.2 + 1) else x).1 = n then _ else _) = _
  by_cases hlt : x.1 < n
  · rw [if_pos hlt, if_neg (Nat.ne_of_lt hlt), if_pos (Nat.lt_succ_of_lt hlt)]
  · rw [if_neg hlt]
    by_cases heq : x.1 = n
    · rw [if_pos heq, if_pos (Nat.lt_succ_of_le (Nat.le_of_eq heq))]
      change ((if x.1 < n then (x.1, x.2 + 1) else x).1,
        (if x.1 < n then (x.1, x.2 + 1) else x).2 + 1) = _
      rw [if_neg hlt]
    · rw [if_neg heq, if_neg (by omega)]

/-- The second loop succeeds where the numbers below `n` are identifiers of the table. -/
theorem startAll_eq_some : startAll threads n = some threads' ↔
    (∀ i < n, i ∈ keys threads) ∧ threads' = bump n threads := by
  induction n generalizing threads' with
  | zero =>
      have hbump : bump 0 threads = threads := List.map_id' threads
      rw [hbump]
      constructor
      · intro h
        exact ⟨fun i hi => absurd hi (Nat.not_lt_zero i), (Option.some.inj h).symm⟩
      · rintro ⟨-, rfl⟩
        rfl
  | succ n ih =>
      have hsplit : startAll threads (n + 1) =
          (startAll threads n).bind fun threads => startThread threads n := by
        unfold startAll
        rw [List.range_succ, List.foldlM_append]
        refine congrArg _ (funext fun r => ?_)
        exact bind_pure _
      rw [hsplit, Option.bind_eq_some_iff]
      constructor
      · rintro ⟨r, hr, hstart⟩
        obtain ⟨hall, rfl⟩ := ih.mp hr
        have hn : n ∈ keys threads := by
          unfold startThread at hstart
          split at hstart
          next h => exact keys_bump ▸ h
          next => cases hstart
        refine ⟨fun i hi => ?_, ?_⟩
        · rcases Nat.lt_succ_iff_lt_or_eq.mp hi with hi | rfl
          · exact hall i hi
          · exact hn
        · exact (Option.some.inj ((startThread_bump hn).symm.trans hstart)).symm
      · rintro ⟨hall, rfl⟩
        exact ⟨_, ih.mpr ⟨fun i hi => hall i (Nat.lt_succ_of_lt hi), rfl⟩,
          startThread_bump (hall n (Nat.lt_succ_self n))⟩

/-! ## Runs -/

structure Inv (s : ThreadPools) : Prop where
  counter : s.generateId_ = UInt32.ofNat s.created
  nodup : ∀ p pool, s.pools p = some pool → (keys pool.threads_).Nodup

theorem nodup_startThread (h : (keys threads).Nodup)
    (hs : startThread threads id = some threads') : (keys threads').Nodup := by
  unfold startThread at hs
  split at hs
  · cases hs
    have hkeys : keys (threads.map fun e => if e.1 = id then (e.1, e.2 + 1) else e) =
        keys threads := by
      unfold keys
      rw [List.map_map]
      refine List.map_congr_left fun x _ => ?_
      change (if x.1 = id then (x.1, x.2 + 1) else x).1 = x.1
      split <;> rfl
    rw [hkeys]
    exact h
  · cases hs

/-- One pool gets another table. -/
theorem Inv.update (h : Inv s) {created : Nat} (hg : g = UInt32.ofNat created)
    (hnodup : (keys pool.threads_).Nodup) :
    Inv ⟨g, created, Function.update s.pools p (some pool)⟩ where
  counter := hg
  nodup := by
    intro q pool' hq
    by_cases hqp : q = p
    · change Function.update s.pools p (some pool) q = _ at hq
      rw [hqp, Function.update_self] at hq
      cases hq
      exact hnodup
    · change Function.update s.pools p (some pool) q = _ at hq
      rw [Function.update_of_ne hqp] at hq
      exact h.nodup q pool' hq

theorem Inv.step (h : Inv s) (hs : s.exec e = some s') : Inv s' := by
  cases e with
  | create p mode =>
      rw [exec] at hs
      split at hs
      · cases hs
        exact h.update h.counter List.nodup_nil
      · cases hs
  | start p n =>
      obtain ⟨pool, hp, hs⟩ := Option.bind_eq_some_iff.mp hs
      split at hs
      · cases hs
        exact h
      · split at hs
        · cases hs
        · obtain ⟨threads, hall, rfl⟩ := Option.map_eq_some_iff.mp hs
          obtain ⟨-, rfl⟩ := startAll_eq_some.mp hall
          refine h.update ?_ ?_
          · rw [h.counter]
            exact (UInt32.ofNat_add _ _).symm
          · change (keys (bump n _)).Nodup
            rw [keys_bump]
            exact nodup_register (h.nodup p pool hp)
  | grow p started =>
      obtain ⟨pool, hp, hs⟩ := Option.bind_eq_some_iff.mp hs
      split at hs
      · obtain ⟨threads, hstart, rfl⟩ := Option.map_eq_some_iff.mp hs
        have hemplace : (keys (emplace pool.threads_ s.generateId_.toNat)).Nodup :=
          nodup_emplace (h.nodup p pool hp)
        refine h.update ?_ ?_
        · rw [h.counter]
          exact (UInt32.ofNat_add _ 1).symm
        · split at hstart
          · exact nodup_startThread hemplace hstart
          · cases hstart
            exact hemplace
      · cases hs
  | exit p id =>
      obtain ⟨pool, hp, rfl⟩ := Option.map_eq_some_iff.mp hs
      refine h.update h.counter ?_
      exact (h.nodup p pool hp).sublist (List.filter_sublist.map _)
  | destroy p =>
      cases hs
      refine ⟨h.counter, fun q pool hq => ?_⟩
      change Function.update s.pools p none q = _ at hq
      by_cases hqp : q = p
      · rw [hqp, Function.update_self] at hq
        cases hq
      · rw [Function.update_of_ne hqp] at hq
        exact h.nodup q pool hq

theorem run_inv {es : List Step} (h : threadPools.Run es s) : Inv s := by
  refine h.invariant (I := Inv) ?_ ?_
  · rintro s rfl
    exact ⟨rfl, fun p pool hp => nomatch hp⟩
  · intro s e s' hi hs
    exact hi.step hs

/-! ## A start -/

/-- The table has `n` threads, each started once. -/
def Started (s : ThreadPools) (p n : Nat) : Prop :=
  ∃ pool, s.pools p = some pool ∧ pool.threads_.length = n ∧ ∀ x ∈ pool.threads_, x.2 = 1

/-- The identifiers that come are those below `n`. -/
theorem consecutive (hn : n < 2147483648) (hpos : n ≠ 0)
    (h : ∀ i < n, (g + UInt32.ofNat i).toNat < n) : g = 0 := by
  have hg : g.toNat < n := by
    have h0 := h 0 (Nat.pos_of_ne_zero hpos)
    rw [add_ofNat_zero] at h0
    exact h0
  by_contra hne
  have hgpos : g.toNat ≠ 0 := fun h0 => hne (UInt32.toNat_inj.mp h0)
  have hlast := h (n - g.toNat) (by omega)
  rw [UInt32.toNat_add, UInt32.toNat_ofNat'] at hlast
  omega

/-- A table with `n` different identifiers that holds those below `n` holds no others. -/
theorem keys_lt (hlen : threads.length = n)
    (hall : ∀ i < n, i ∈ keys threads) : ∀ k ∈ keys threads, k < n := by
  have hsub : List.range n ⊆ keys threads := fun i hi => hall i (List.mem_range.mp hi)
  have hperm := (List.nodup_range.subperm hsub).perm_of_length_le (by
    rw [List.length_range, keys, List.length_map, hlen])
  intro k hk
  exact List.mem_range.mp (hperm.mem_iff.mpr hk)

/-- A pool starts well if the counter stands at zero, and its table has at most threads below `n`
that could not be started. -/
theorem start_iff {es : List Step} (h : threadPools.Run es s) (hp : s.pools p = some pool)
    (hrun : pool.poolIsRunning_ = false) :
    (∃ s', s.start p n = some s' ∧ s'.Started p n) ↔
      n < 2147483648 ∧ (n = 0 ∨ s.created % 4294967296 = 0) ∧
        ∀ x ∈ pool.threads_, x.1 < n ∧ x.2 = 0 := by
  have hinv := run_inv h
  have hzero : s.generateId_ = 0 ↔ s.created % 4294967296 = 0 := by
    rw [hinv.counter, ← UInt32.toNat_inj, UInt32.toNat_ofNat']
    exact Iff.rfl
  have hstart : s.start p n = if 2147483648 ≤ n then none else
      (startAll (register n s.generateId_ pool.threads_) n).map fun threads =>
        { generateId_ := s.generateId_ + UInt32.ofNat n
          created := s.created + n
          pools := Function.update s.pools p (some ⟨threads, pool.poolMode_, true⟩) } := by
    rw [start, hp, Option.bind_some, if_neg (by rw [hrun]; exact Bool.false_ne_true)]
  have hnodup : (keys (register n s.generateId_ pool.threads_)).Nodup :=
    nodup_register (hinv.nodup p pool hp)
  rw [hstart]
  constructor
  · rintro ⟨s', hs, hstarted⟩
    split at hs
    · cases hs
    next hn =>
      obtain ⟨threads, hall, rfl⟩ := Option.map_eq_some_iff.mp hs
      obtain ⟨hpresent, rfl⟩ := startAll_eq_some.mp hall
      obtain ⟨pool', hpool, hlen, hone⟩ := hstarted
      change Function.update s.pools p _ p = _ at hpool
      rw [Function.update_self] at hpool
      cases hpool
      have hlen' : (register n s.generateId_ pool.threads_).length = n :=
        (List.length_map _).symm.trans hlen
      have hlt := keys_lt hlen' hpresent
      refine ⟨Nat.not_le.mp hn, ?_, fun x hx => ?_⟩
      · by_cases hn0 : n = 0
        · exact .inl hn0
        · refine .inr (hzero.mp (consecutive (Nat.not_le.mp hn) hn0 fun i hi => hlt _ ?_))
          exact mem_keys_register.mpr (.inr ⟨i, hi, rfl⟩)
      · have hx' := subset_register (n := n) (g := s.generateId_) hx
        have hxn : x.1 < n := hlt _ (List.mem_map_of_mem hx')
        have hx1 := hone _ (List.mem_map_of_mem hx')
        rw [if_pos hxn] at hx1
        exact ⟨hxn, Nat.succ.inj hx1⟩
  · rintro ⟨hn, hcounter, hold⟩
    have hid : ∀ i < n, (s.generateId_ + UInt32.ofNat i).toNat = i := by
      intro i hi
      have hg : s.generateId_ = 0 :=
        hzero.mpr (hcounter.resolve_left (Nat.ne_of_gt (Nat.zero_lt_of_lt hi)))
      rw [hg, UInt32.zero_add, UInt32.toNat_ofNat']
      omega
    have hkeys : ∀ k, k ∈ keys (register n s.generateId_ pool.threads_) ↔ k < n := by
      intro k
      rw [mem_keys_register]
      constructor
      · rintro (hk | ⟨i, hi, rfl⟩)
        · obtain ⟨x, hx, rfl⟩ := List.mem_map.mp hk
          exact (hold x hx).1
        · rw [hid i hi]
          exact hi
      · exact fun hk => .inr ⟨k, hk, (hid k hk).symm⟩
    have hperm : (keys (register n s.generateId_ pool.threads_)).Perm (List.range n) :=
      (List.perm_ext_iff_of_nodup hnodup List.nodup_range).mpr fun k =>
        (hkeys k).trans List.mem_range.symm
    have hall : ∀ i < n, i ∈ keys (register n s.generateId_ pool.threads_) :=
      fun i hi => (hkeys i).mpr hi
    rw [if_neg (Nat.not_le.mpr hn), startAll_eq_some.mpr ⟨hall, rfl⟩]
    refine ⟨_, rfl, _, Function.update_self _ _ _, ?_, ?_⟩
    · have hlen := hperm.length_eq
      rw [List.length_range, keys, List.length_map] at hlen
      exact (List.length_map _).trans hlen
    · intro x hx
      obtain ⟨y, hy, rfl⟩ := List.mem_map.mp hx
      have hlt : y.1 < n := (hkeys _).mp (List.mem_map_of_mem hy)
      have hy0 : y.2 = 0 := by
        rcases mem_register hy with hy | hy
        · exact (hold y hy).2
        · exact hy
      rw [if_pos hlt, hy0]

theorem start_iff_first : ∃ es s, threadPools.Run es s ∧
    ((∃ s', s.start 0 2 = some s' ∧ s'.Started 0 2) ↔
      2 < 2147483648 ∧ (2 = 0 ∨ s.created % 4294967296 = 0) ∧
        ∀ x ∈ ([] : List (Nat × Nat)), x.1 < 2 ∧ x.2 = 0) := by
  have h₀ : threadPools.Run [] ⟨0, 0, fun _ => none⟩ := .start rfl
  have h₁ := h₀.snoc (e := Step.create 0 .MODE_FIXED) rfl
  have hpool : Function.update (fun _ => none) 0 (some ⟨[], .MODE_FIXED, false⟩) 0 =
      some (⟨[], .MODE_FIXED, false⟩ : Pool) := rfl
  have hiff := start_iff (p := 0) (n := 2) h₁ hpool (by rfl)
  exact ⟨_, _, h₁, hiff⟩

/-- The second pool of a process looks for its thread under the number of the first one's. -/
theorem start_second : ∃ es s, threadPools.Run es s ∧
    s.pools 1 = some ⟨[], .MODE_FIXED, false⟩ ∧ s.start 1 1 = none := by
  have h₀ : threadPools.Run [] ⟨0, 0, fun _ => none⟩ := .start rfl
  have h₁ := h₀.snoc (e := Step.create 0 .MODE_FIXED) rfl
  have h₂ := h₁.snoc (e := Step.create 1 .MODE_FIXED) rfl
  have h₃ := h₂.snoc (e := Step.start 0 1) rfl
  exact ⟨_, _, h₃, rfl, rfl⟩

end ThreadPools

end CIM
