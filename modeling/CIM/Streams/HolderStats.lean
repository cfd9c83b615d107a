import Mathlib.Algebra.BigOperators.Group.Finset.Piecewise
import Mathlib.Data.List.Count
import Mathlib.Data.UInt
import Mathlib.Logic.Function.Basic
import CIM.Lib.System

/-!
# Requests in flight in the statistics of a balanced item

`RockSDLoadBalance::request` takes a reference to the ring slot of the current second, counts
itself there, and takes the count back through the same reference when the answer has come.
Between the two the ring goes on.
-/
namespace CIM

open Transition

structure HolderStats where
  m_usedTime : UInt32 := 0
  m_total : UInt32 := 0
  m_doing : UInt32 := 0
  m_timeouts : UInt32 := 0
  m_oks : UInt32 := 0
  m_errs : UInt32 := 0
  deriving DecidableEq

/-- The slots from `size` on are not read. -/
structure HolderStatsSet where
  m_lastUpdateTime : UInt32
  size : Nat
  m_stats : Nat → HolderStats

namespace HolderStatsSet

def create (size : Nat) : HolderStatsSet := ⟨0, size, fun _ => {}⟩

/-- The slots that `for (t = ..., i = 0; t <= now && i < size; ++t, ++i)` clears; the first
argument counts down from `size - i`. -/
def passed (size : Nat) (now : UInt32) : Nat → UInt32 → List Nat
  | 0, _ => []
  | i+1, t => if t ≤ now then t.toNat % size :: passed size now i (t + 1) else []

/-- What `init` clears. -/
def stale (s : HolderStatsSet) (now : UInt32) : List Nat :=
  if s.m_lastUpdateTime < now then passed s.size now s.size (s.m_lastUpdateTime + 1) else []

def init (s : HolderStatsSet) (now : UInt32) : HolderStatsSet :=
  if s.m_lastUpdateTime < now then
    { s with
      m_stats := (s.stale now).foldl (fun st k => Function.update st k {}) s.m_stats
      m_lastUpdateTime := now }
  else s

/-- The slot that `get` refers to. -/
def slot (s : HolderStatsSet) (now : UInt32) : Nat := now.toNat % s.size

def modify (s : HolderStatsSet) (k : Nat) (f : HolderStats → HolderStats) : HolderStatsSet :=
  { s with m_stats := Function.update s.m_stats k (f (s.m_stats k)) }

end HolderStatsSet

namespace RockSDLoadBalance

/-- The result of a request, as far as `request` tells it apart. -/
inductive Result
  | ok
  | timeout
  | error
  | other

/-- A call of `request` that has counted itself; `kept` tells whether its slot still counts it. -/
structure Request where
  thread : Nat
  ts : UInt64
  slot : Nat
  kept : Bool
  deriving DecidableEq

structure World where
  stats : HolderStatsSet
  clock : UInt64
  /-- The references taken and not counted at yet: thread, clock and slot. -/
  taken : Nat → Option (UInt64 × Nat)
  doing : List Request

inductive Event
  | get (thread : Nat) (ts : UInt64)
  | incDoing (thread : Nat)
  | decDoing (r : Request) (ts₂ : UInt64) (result : Result)
  | getWeight (ts : UInt64)

/-- `init(ts / 1000)`, and what it does to the requests whose slots it clears. -/
def World.advance (w : World) (ts : UInt64) : World :=
  let now := (ts / 1000).toUInt32
  { w with
    clock := ts
    stats := w.stats.init now
    doing := w.doing.map fun r => { r with kept := r.kept && !(w.stats.stale now).contains r.slot } }

def World.get (w : World) (thread : Nat) (ts : UInt64) : World :=
  { w.advance ts with
    taken := Function.update w.taken thread
      (some (ts, w.stats.slot (ts / 1000).toUInt32)) }

def World.incDoing (w : World) (thread : Nat) (ts : UInt64) (k : Nat) : World :=
  { w with
    stats := w.stats.modify k fun s => { s with m_doing := s.m_doing + 1, m_total := s.m_total + 1 }
    taken := Function.update w.taken thread none
    doing := ⟨thread, ts, k, true⟩ :: w.doing }

/-- The counters of the outcome, then `decDoing(1)`. -/
def finish (r : Request) (ts₂ : UInt64) (result : Result) (s : HolderStats) : HolderStats :=
  let s := match result with
    | .ok => { s with m_oks := s.m_oks + 1, m_usedTime := s.m_usedTime + (ts₂ - r.ts).toUInt32 }
    | .timeout => { s with m_timeouts := s.m_timeouts + 1 }
    | .error => { s with m_errs := s.m_errs + 1 }
    | .other => s
  { s with m_doing := s.m_doing - 1 }

def World.decDoing (w : World) (r : Request) (ts₂ : UInt64) (result : Result) : World :=
  { w with
    clock := ts₂
    stats := w.stats.modify r.slot (finish r ts₂ result)
    doing := w.doing.erase r }

inductive Step : World → Event → World → Prop
  | get {w : World} {t : Nat} {ts : UInt64} : w.clock ≤ ts → w.taken t = none →
      (∀ r ∈ w.doing, r.thread ≠ t) → Step w (.get t ts) (w.get t ts)
  | incDoing {w : World} {t : Nat} {ts : UInt64} {k : Nat} : w.taken t = some (ts, k) →
      Step w (.incDoing t) (w.incDoing t ts k)
  | decDoing {w : World} {r : Request} {ts₂ : UInt64} {result : Result} : w.clock ≤ ts₂ →
      r ∈ w.doing → Step w (.decDoing r ts₂ result) (w.decDoing r ts₂ result)
  | getWeight {w : World} {ts : UInt64} : w.clock ≤ ts → Step w (.getWeight ts) (w.advance ts)

/-- A new item; its ring has the default size. -/
def system : System World Event where
  init w := w = ⟨.create 5, 0, fun _ => none, []⟩
  step := Step

/-- A request is finished while its slot counts it, and the counters have room for one more. -/
def Guard (w : World) : Event → Prop
  | .incDoing _ => w.doing.length + 1 < 4294967296
  | .decDoing r _ _ => r.kept = true
  | _ => True

/-- The requests in flight that slot `k` is to count. -/
def World.inFlight (w : World) (k : Nat) : Nat := w.doing.countP fun r => r.slot = k ∧ r.kept

/-- Every slot counts its requests. -/
def World.Counted (w : World) : Prop := ∀ k, (w.stats.m_stats k).m_doing.toNat = w.inFlight k

structure Inv (w : World) : Prop where
  size : w.stats.size = 5
  taken_lt : ∀ t ts k, w.taken t = some (ts, k) → k < 5
  slot_lt : ∀ r ∈ w.doing, r.slot < 5
  room : w.doing.length < 4294967296
  counted : w.Counted

theorem foldl_clear (l : List Nat) (st : Nat → HolderStats) (k : Nat) :
    l.foldl (fun st k => Function.update st k {}) st k = if k ∈ l then {} else st k := by
  induction l generalizing st with
  | nil => rfl
  | cons j l ih =>
      rw [List.foldl_cons, ih]
      by_cases hk : k ∈ l
      · rw [if_pos hk, if_pos (List.mem_cons_of_mem j hk)]
      · rw [if_neg hk]
        by_cases hj : k = j
        · rw [hj, Function.update_self, if_pos List.mem_cons_self]
        · rw [Function.update_of_ne hj, if_neg fun hm => (List.mem_cons.mp hm).elim hj hk]

theorem init_stats (s : HolderStatsSet) (now : UInt32) (k : Nat) :
    (s.init now).m_stats k = if k ∈ s.stale now then {} else s.m_stats k := by
  unfold HolderStatsSet.init
  by_cases h : s.m_lastUpdateTime < now
  · rw [if_pos h]
    exact foldl_clear _ _ _
  · rw [if_neg h, HolderStatsSet.stale, if_neg h, if_neg List.not_mem_nil]

theorem init_size (s : HolderStatsSet) (now : UInt32) : (s.init now).size = s.size := by
  unfold HolderStatsSet.init
  split <;> rfl

/-- The requests whose slot is cleared are not counted any more, the others are. -/
theorem inFlight_advance (w : World) (ts : UInt64) (k : Nat) :
    (w.advance ts).inFlight k =
      if k ∈ w.stats.stale (ts / 1000).toUInt32 then 0 else w.inFlight k := by
  unfold World.inFlight World.advance
  rw [List.countP_map]
  by_cases hk : k ∈ w.stats.stale (ts / 1000).toUInt32
  · rw [if_pos hk, List.countP_eq_zero]
    rintro r - hr
    simp only [Function.comp_apply, Bool.and_eq_true, Bool.not_eq_true', decide_eq_true_eq] at hr
    obtain ⟨rfl, -, hno⟩ := hr
    rw [List.contains_iff_mem.mpr hk] at hno
    cases hno
  · rw [if_neg hk]
    refine List.countP_congr ?_
    intro r _
    simp only [Function.comp_apply, Bool.and_eq_true, Bool.not_eq_true', decide_eq_true_eq]
    constructor
    · rintro ⟨rfl, hr, -⟩
      exact ⟨rfl, hr⟩
    · rintro ⟨rfl, hr⟩
      exact ⟨rfl, hr, by simpa using hk⟩

namespace Inv

variable {w w' : World} {t k : Nat} {ts : UInt64}

theorem advance (h : Inv w) (ts : UInt64) : Inv (w.advance ts) where
  size := (init_size _ _).trans h.size
  taken_lt := h.taken_lt
  slot_lt := by
    intro r hr
    obtain ⟨r₀, hr₀, rfl⟩ := List.mem_map.mp hr
    exact h.slot_lt r₀ hr₀
  room := by
    rw [World.advance, List.length_map]
    exact h.room
  counted := by
    intro k
    rw [inFlight_advance, World.advance, init_stats]
    by_cases hk : k ∈ w.stats.stale (ts / 1000).toUInt32
    · rw [if_pos hk, if_pos hk]
      rfl
    · rw [if_neg hk, if_neg hk]
      exact h.counted k

theorem get (h : Inv w) (t : Nat) (ts : UInt64) : Inv (w.get t ts) where
  size := (h.advance ts).size
  taken_lt := by
    intro t' ts' k' hk
    change Function.update w.taken t (some (ts, w.stats.slot _)) t' = _ at hk
    by_cases ht : t' = t
    · rw [ht, Function.update_self] at hk
      obtain ⟨-, rfl⟩ := Prod.mk.inj (Option.some.inj hk)
      rw [HolderStatsSet.slot, h.size]
      exact Nat.mod_lt _ (by decide)
    · rw [Function.update_of_ne ht] at hk
      exact h.taken_lt t' ts' k' hk
  slot_lt := (h.advance ts).slot_lt
  room := (h.advance ts).room
  counted := (h.advance ts).counted

theorem toNat_succ {x : UInt32} {n : Nat} (h : x.toNat = n) (hn : n + 1 < 4294967296) :
    (x + 1).toNat = n + 1 := by
  rw [UInt32.toNat_add, h]
  exact Nat.mod_eq_of_lt hn

theorem toNat_pred {x : UInt32} {n : Nat} (h : x.toNat = n + 1) : (x - 1).toNat = n := by
  have hle : (1 : UInt32) ≤ x := by
    rw [UInt32.le_iff_toNat_le, h]
    exact Nat.succ_le_succ (Nat.zero_le n)
  rw [UInt32.toNat_sub_of_le _ _ hle, h]
  rfl

theorem incDoing (h : Inv w) (ht : w.taken t = some (ts, k))
    (hroom : w.doing.length + 1 < 4294967296) : Inv (w.incDoing t ts k) where
  size := h.size
  taken_lt := by
    intro t' ts' k' hk
    change Function.update w.taken t none t' = _ at hk
    by_cases htt : t' = t
    · rw [htt, Function.update_self] at hk
      cases hk
    · rw [Function.update_of_ne htt] at hk
      exact h.taken_lt t' ts' k' hk
  slot_lt := by
    intro r hr
    obtain rfl | hr := List.mem_cons.mp hr
    · exact h.taken_lt t ts k ht
    · exact h.slot_lt r hr
  room := hroom
  counted := by
    intro j
    have hle : w.inFlight j ≤ w.doing.length := List.countP_le_length
    change (Function.update w.stats.m_stats k _ j).m_doing.toNat =
      List.countP _ (⟨t, ts, k, true⟩ :: w.doing)
    rw [List.countP_cons]
    by_cases hj : j = k
    · rw [hj, Function.update_self, if_pos (by simp)]
      exact toNat_succ (h.counted k) (Nat.lt_of_le_of_lt (Nat.succ_le_succ (hj ▸ hle)) hroom)
    · rw [Function.update_of_ne hj, if_neg (by simpa using fun hkj => hj hkj.symm)]
      exact h.counted j

theorem finish_doing (r : Request) (ts₂ : UInt64) (result : Result) (s : HolderStats) :
    (finish r ts₂ result s).m_doing = s.m_doing - 1 := by
  cases result <;> rfl

/-- The counts stay right exactly where the slot of the request still counts it. -/
theorem decDoing_counted (h : Inv w) {r : Request} (hr : r ∈ w.doing) (ts₂ : UInt64)
    (result : Result) : (w.decDoing r ts₂ result).Counted ↔ r.kept = true := by
  have hcount : ∀ j, w.inFlight j =
      (if r.slot = j ∧ r.kept then 1 else 0) + (w.decDoing r ts₂ result).inFlight j := by
    intro j
    unfold World.inFlight World.decDoing
    rw [(List.perm_cons_erase hr).countP_eq, List.countP_cons, Nat.add_comm]
    simp only [decide_eq_true_eq]
  have hslot : ((w.decDoing r ts₂ result).stats.m_stats r.slot).m_doing =
      (w.stats.m_stats r.slot).m_doing - 1 := by
    change (Function.update w.stats.m_stats r.slot _ r.slot).m_doing = _
    rw [Function.update_self, finish_doing]
  constructor
  · intro hc
    cases hk : r.kept with
    | true => rfl
    | false =>
        -- the slot lost one, and none of the requests it counts has gone
        have h₁ := hc r.slot
        have h₂ := h.counted r.slot
        rw [hcount, if_neg (by rw [hk]; simp), Nat.zero_add] at h₂
        rw [hslot, ← h₂] at h₁
        have hself := UInt32.toNat_inj.mp h₁
        have hone : (1 : UInt32) = 0 := by
          have hsub := congrArg (fun x => (w.stats.m_stats r.slot).m_doing - x) hself
          simp only [sub_sub_cancel, sub_self] at hsub
          exact hsub
        exact absurd hone (by decide)
  · intro hk j
    by_cases hj : r.slot = j
    · rw [← hj, hslot]
      refine toNat_pred ?_
      rw [h.counted, hcount r.slot, if_pos ⟨rfl, hk⟩, Nat.add_comm]
    · have hother : (w.decDoing r ts₂ result).stats.m_stats j = w.stats.m_stats j :=
        Function.update_of_ne (fun he => hj he.symm) ..
      rw [hother, h.counted j, hcount j, if_neg (fun he => hj he.1), Nat.zero_add]

theorem decDoing (h : Inv w) {r : Request} (hr : r ∈ w.doing) (ts₂ : UInt64)
    (result : Result) (hk : r.kept = true) : Inv (w.decDoing r ts₂ result) where
  size := h.size
  taken_lt := h.taken_lt
  slot_lt := fun r' hr' => h.slot_lt r' (List.mem_of_mem_erase hr')
  room := Nat.lt_of_le_of_lt List.length_erase_le h.room
  counted := (h.decDoing_counted hr ts₂ result).mpr hk

theorem step {e : Event} (h : Inv w) (hg : Guard w e) (hs : Step w e w') : Inv w' := by
  cases hs with
  | get _ _ _ => exact h.get _ _
  | incDoing ht => exact h.incDoing ht hg
  | decDoing _ hr => exact h.decDoing hr _ _ hg
  | getWeight _ => exact h.advance _

/-- The slots together count every request once. -/
theorem sum_doing (h : Inv w) :
    ∑ k ∈ Finset.range 5, (w.stats.m_stats k).m_doing.toNat = w.doing.countP fun r => r.kept := by
  rw [Finset.sum_congr rfl fun k _ => h.counted k]
  have hlt := h.slot_lt
  unfold World.inFlight
  generalize w.doing = l at hlt ⊢
  induction l with
  | nil => rfl
  | cons r l ih =>
      have hr : r.slot < 5 := hlt r List.mem_cons_self
      rw [List.countP_cons, ← ih fun r' hr' => hlt r' (List.mem_cons_of_mem r hr')]
      simp only [List.countP_cons, Finset.sum_add_distrib]
      congr 1
      cases hk : r.kept with
      | false => simp
      | true =>
          simp only [and_true, decide_eq_true_eq, if_true]
          rw [Finset.sum_ite_eq, if_pos (Finset.mem_range.mpr hr)]

end Inv

/-- The seconds that the loop of `init` passes, as long as they fit 32 bits. -/
theorem of_mem_passed {size : Nat} {now : UInt32} (hnow : now.toNat < 4294967295) {k i : Nat}
    {t : UInt32} (h : k ∈ HolderStatsSet.passed size now i t) :
    ∃ j, t.toNat ≤ j ∧ j ≤ now.toNat ∧ k = j % size := by
  induction i generalizing t with
  | zero => cases h
  | succ i ih =>
      unfold HolderStatsSet.passed at h
      split at h
      · rename_i hle
        have hle' := UInt32.le_iff_toNat_le.mp hle
        obtain rfl | h := List.mem_cons.mp h
        · exact ⟨t.toNat, Nat.le_refl _, hle', rfl⟩
        · obtain ⟨j, htj, hj, hk⟩ := ih h
          rw [Inv.toNat_succ rfl (Nat.lt_of_le_of_lt (Nat.succ_le_succ hle') (by omega))] at htj
          exact ⟨j, Nat.le_of_succ_le htj, hj, hk⟩
      · cases h

theorem toNat_seconds {ts : UInt64} (h : ts.toNat / 1000 < 4294967295) :
    (ts / 1000).toUInt32.toNat = ts.toNat / 1000 := by
  rw [UInt64.toNat_toUInt32, UInt64.toNat_div]
  exact Nat.mod_eq_of_lt (by change ts.toNat / 1000 < 4294967296; omega)

/-- Where a second's slot is and that the ring has reached that second. -/
def OnRing (w : World) (ts : UInt64) (k : Nat) : Prop :=
  k = ts.toNat / 1000 % 5 ∧ ts.toNat / 1000 ≤ w.stats.m_lastUpdateTime.toNat

/-- The ring counts the requests of its last five seconds. -/
structure Recent (w : World) : Prop where
  last_le : w.stats.m_lastUpdateTime.toNat ≤ w.clock.toNat / 1000
  taken : ∀ t ts k, w.taken t = some (ts, k) → OnRing w ts k
  doing : ∀ r ∈ w.doing, OnRing w r.ts r.slot
  kept : ∀ r ∈ w.doing, w.stats.m_lastUpdateTime.toNat < r.ts.toNat / 1000 + 5 → r.kept = true

namespace Recent

variable {w w' : World} {ts : UInt64}

theorem last_advance (h : Recent w) (hle : w.clock ≤ ts)
    (hts : ts.toNat / 1000 < 4294967295) :
    (w.advance ts).stats.m_lastUpdateTime.toNat = ts.toNat / 1000 := by
  have hclock := UInt64.le_iff_toNat_le.mp hle
  have hsec := toNat_seconds hts
  change (w.stats.init (ts / 1000).toUInt32).m_lastUpdateTime.toNat = ts.toNat / 1000
  unfold HolderStatsSet.init
  by_cases hlt : w.stats.m_lastUpdateTime < (ts / 1000).toUInt32
  · rw [if_pos hlt]
    exact hsec
  · rw [if_neg hlt]
    have hge : ¬ w.stats.m_lastUpdateTime.toNat < (ts / 1000).toUInt32.toNat :=
      fun hx => hlt (UInt32.lt_iff_toNat_lt.mpr hx)
    have hmono := Nat.div_le_div_right (c := 1000) hclock
    have hlast := h.last_le
    change w.stats.m_lastUpdateTime.toNat = _
    omega

theorem advance (h : Recent w) (hsize : w.stats.size = 5) (hle : w.clock ≤ ts)
    (hts : ts.toNat / 1000 < 4294967295) : Recent (w.advance ts) := by
  have hlast := h.last_advance hle hts
  have hold : w.stats.m_lastUpdateTime.toNat ≤ ts.toNat / 1000 :=
    h.last_le.trans (Nat.div_le_div_right (UInt64.le_iff_toNat_le.mp hle))
  have hring : ∀ {u k}, OnRing w u k → OnRing (w.advance ts) u k := by
    rintro u k ⟨hk, hu⟩
    exact ⟨hk, by rw [hlast]; exact hu.trans hold⟩
  refine ⟨hlast.le, fun t u k hk => hring (h.taken t u k hk), ?_, ?_⟩
  · intro r hr
    obtain ⟨r₀, hr₀, rfl⟩ := List.mem_map.mp hr
    exact hring (h.doing r₀ hr₀)
  · intro r hr hrec
    obtain ⟨r₀, hr₀, rfl⟩ := List.mem_map.mp hr
    rw [hlast] at hrec
    change ts.toNat / 1000 < r₀.ts.toNat / 1000 + 5 at hrec
    obtain ⟨hslot, hreached⟩ := h.doing r₀ hr₀
    have hkept := h.kept r₀ hr₀ (Nat.lt_of_le_of_lt hold hrec)
    -- a cleared slot is that of a later second, at least five behind the request's
    have hno : r₀.slot ∉ w.stats.stale (ts / 1000).toUInt32 := by
      unfold HolderStatsSet.stale
      split
      · rename_i hlt
        intro hm
        have hsec := toNat_seconds hts
        have hlt' := UInt32.lt_iff_toNat_lt.mp hlt
        obtain ⟨j, hj, hjn, hk⟩ := of_mem_passed (by omega) hm
        rw [Inv.toNat_succ rfl (by omega)] at hj
        rw [hsize] at hk
        omega
      · exact List.not_mem_nil
    change (r₀.kept && !(w.stats.stale (ts / 1000).toUInt32).contains r₀.slot) = true
    rw [hkept, Bool.true_and, Bool.not_eq_true', List.contains_eq_mem, decide_eq_false hno]

theorem step {e : Event} (h : w.clock.toNat / 1000 < 4294967295 → Recent w)
    (hsize : w.stats.size = 5) (hs : Step w e w') (hc : w'.clock.toNat / 1000 < 4294967295) :
    Recent w' := by
  have hback : w.clock ≤ w'.clock → Recent w := by
    intro hle
    refine h ?_
    have hmono := Nat.div_le_div_right (c := 1000) (UInt64.le_iff_toNat_le.mp hle)
    omega
  cases hs with
  | @get t ts hle _ _ =>
      have hr := (hback hle).advance hsize hle hc
      refine ⟨hr.last_le, ?_, hr.doing, hr.kept⟩
      intro t' u k hk
      change Function.update w.taken t (some (ts, w.stats.slot _)) t' = _ at hk
      by_cases ht : t' = t
      · rw [ht, Function.update_self] at hk
        obtain ⟨rfl, rfl⟩ := Prod.mk.inj (Option.some.inj hk)
        refine ⟨?_, ((hback hle).last_advance hle hc).ge⟩
        rw [HolderStatsSet.slot, hsize]
        exact congrArg (· % 5) (toNat_seconds hc)
      · rw [Function.update_of_ne ht] at hk
        exact hr.taken t' u k hk
  | @incDoing t ts k ht =>
      have hr := hback (UInt64.le_refl _)
      refine ⟨hr.last_le, ?_, ?_, ?_⟩
      · intro t' u k' hk
        change Function.update w.taken t none t' = _ at hk
        by_cases htt : t' = t
        · rw [htt, Function.update_self] at hk
          cases hk
        · rw [Function.update_of_ne htt] at hk
          exact hr.taken t' u k' hk
      · intro r hm
        obtain rfl | hm := List.mem_cons.mp hm
        · exact hr.taken t ts k ht
        · exact hr.doing r hm
      · intro r hm hrec
        obtain rfl | hm := List.mem_cons.mp hm
        · rfl
        · exact hr.kept r hm hrec
  | @decDoing r ts₂ result hle _ =>
      have hr := hback hle
      refine ⟨hr.last_le.trans (Nat.div_le_div_right (UInt64.le_iff_toNat_le.mp hle)), hr.taken,
        fun r' hm => hr.doing r' (List.mem_of_mem_erase hm),
        fun r' hm => hr.kept r' (List.mem_of_mem_erase hm)⟩
  | getWeight hle => exact (hback hle).advance hsize hle hc

end Recent

theorem inv_init {w : World} (h : system.init w) : Inv w := by
  obtain rfl := h
  exact ⟨rfl, nofun, nofun, by decide, fun _ => rfl⟩

/-- Along a run in which every request finishes while its slot counts it, every slot counts its
requests in flight, all of them together the requests that are kept, and the next request to
finish leaves the counts right if and only if its slot counts it; before the seconds outgrow 32
bits a slot counts its requests at least for the last five seconds of the ring. -/
theorem run_in_flight {es : List Event} {w : World} (h : (system.restrict Guard).Run es w) :
    w.Counted ∧
      ∑ k ∈ Finset.range 5, (w.stats.m_stats k).m_doing.toNat = (w.doing.countP fun r => r.kept) ∧
      (∀ r ∈ w.doing, ∀ ts₂ result, (w.decDoing r ts₂ result).Counted ↔ r.kept = true) ∧
      (w.clock.toNat / 1000 < 4294967295 → ∀ r ∈ w.doing,
        w.stats.m_lastUpdateTime.toNat < r.ts.toNat / 1000 + 5 → r.kept = true) := by
  have hinv : Inv w ∧ (w.clock.toNat / 1000 < 4294967295 → Recent w) := by
    refine h.invariant
      (I := fun w => Inv w ∧ (w.clock.toNat / 1000 < 4294967295 → Recent w)) ?_ ?_
    · rintro w₀ hi
      refine ⟨inv_init hi, fun _ => ?_⟩
      obtain rfl := hi
      exact ⟨Nat.le_refl _, nofun, nofun, nofun⟩
    · rintro w₁ e w₂ ⟨hi, hr⟩ ⟨hg, hs⟩
      exact ⟨hi.step hg hs, Recent.step hr hi.size hs⟩
  exact ⟨hinv.1.counted, hinv.1.sum_doing,
    fun r hr ts₂ result => hinv.1.decDoing_counted hr ts₂ result,
    fun hc => (hinv.2 hc).kept⟩

/-- A request that takes two seconds. -/
theorem run_in_flight_two_seconds :
    ∃ w, (system.restrict Guard).Run
        [.get 1 10000, .incDoing 1, .getWeight 11000, .decDoing ⟨1, 10000, 0, true⟩ 12000 .ok] w ∧
      w.Counted ∧
      ∑ k ∈ Finset.range 5, (w.stats.m_stats k).m_doing.toNat = (w.doing.countP fun r => r.kept) ∧
      (∀ r ∈ w.doing, ∀ ts₂ result, (w.decDoing r ts₂ result).Counted ↔ r.kept = true) ∧
      (w.clock.toNat / 1000 < 4294967295 → ∀ r ∈ w.doing,
        w.stats.m_lastUpdateTime.toNat < r.ts.toNat / 1000 + 5 → r.kept = true) := by
  let w₀ : World := ⟨.create 5, 0, fun _ => none, []⟩
  let w₂ := (w₀.get 1 10000).incDoing 1 10000 0
  have h₀ : (system.restrict Guard).Run [] w₀ := .start rfl
  have h₁ : (system.restrict Guard).Run _ (w₀.get 1 10000) :=
    h₀.snoc (e := Event.get 1 10000) ⟨trivial, .get (by decide) rfl nofun⟩
  have htaken : (w₀.get 1 10000).taken 1 = some (10000, 0) := by decide
  have hroom : (w₀.get 1 10000).doing.length + 1 < 4294967296 := by decide
  have h₂ : (system.restrict Guard).Run _ w₂ :=
    h₁.snoc (e := Event.incDoing 1) ⟨hroom, .incDoing htaken⟩
  have h₃ : (system.restrict Guard).Run _ (w₂.advance 11000) :=
    h₂.snoc (e := Event.getWeight 11000) ⟨trivial, .getWeight (by decide)⟩
  have hmem : (⟨1, 10000, 0, true⟩ : Request) ∈ (w₂.advance 11000).doing := by decide
  have h₄ := h₃.snoc (e := Event.decDoing ⟨1, 10000, 0, true⟩ 12000 .ok)
    ⟨rfl, .decDoing (by decide) hmem⟩
  exact ⟨_, h₄, run_in_flight h₄⟩

/-- The request is finished after its slot was cleared. -/
theorem late_request_wraps :
    ∃ w, system.Run
        [.get 1 10000, .incDoing 1, .getWeight 15000, .decDoing ⟨1, 10000, 0, false⟩ 16000 .ok] w ∧
      w.doing = [] ∧ (w.stats.m_stats 0).m_doing = 4294967295 := by
  let w₀ : World := ⟨.create 5, 0, fun _ => none, []⟩
  let w₂ := (w₀.get 1 10000).incDoing 1 10000 0
  have h₀ : system.Run [] w₀ := .start rfl
  have h₁ : system.Run _ (w₀.get 1 10000) :=
    h₀.snoc (e := Event.get 1 10000) (.get (by decide) rfl nofun)
  have htaken : (w₀.get 1 10000).taken 1 = some (10000, 0) := by decide
  have h₂ : system.Run _ w₂ := h₁.snoc (e := Event.incDoing 1) (.incDoing htaken)
  have h₃ : system.Run _ (w₂.advance 15000) :=
    h₂.snoc (e := Event.getWeight 15000) (.getWeight (by decide))
  have hmem : (⟨1, 10000, 0, false⟩ : Request) ∈ (w₂.advance 15000).doing := by decide
  have h₄ := h₃.snoc (e := Event.decDoing ⟨1, 10000, 0, false⟩ 16000 .ok)
    (.decDoing (by decide) hmem)
  exact ⟨_, h₄, by decide, by decide⟩

end RockSDLoadBalance

end CIM
