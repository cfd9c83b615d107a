import CIM.Lib.Selection
import CIM.Net.Endian
import CIM.Streams.LoadBalance

/-!
# `WeightLoadBalance`

`initNolock` records the valid items with the sums of their weights, and `get` chooses one by a
number modulo the total and walks on from it to the first item that is still valid.
-/
namespace CIM

open Transition Selection

structure WeightLoadBalance where
  m_datas : AList fun _ : UInt64 => LoadBalanceItem
  m_lastInitTime : UInt64
  m_items : List LoadBalanceItem
  m_weights : List Int

/-- What the items answer at one moment: whether the stream is connected, and the weight, which
depends on the statistics for a `FairLoadBalanceItem`. -/
structure Answers where
  isValid : LoadBalanceItem → Bool
  getWeight : LoadBalanceItem → Int32

namespace WeightLoadBalance

def create : WeightLoadBalance := ⟨∅, 0, [], []⟩

/-- The loop of `initNolock`; `total` is an `int64_t`. -/
def addWeights (total : Int) : List Int32 → List Int
  | [] => []
  | w :: ws => int64 (total + w.toInt) :: addWeights (int64 (total + w.toInt)) ws

def initNolock (a : Answers) (lb : WeightLoadBalance) : WeightLoadBalance :=
  let items := (lb.m_datas.entries.map Sigma.snd).filter a.isValid
  { lb with
    m_items := items
    m_weights := addWeights 0 (items.map a.getWeight) }

def checkInit (a : Answers) (now : UInt64) (lb : WeightLoadBalance) : WeightLoadBalance :=
  if now - lb.m_lastInitTime > 500 then { initNolock a lb with m_lastInitTime := now } else lb

/-- The end of the search is where the assertion fails, which is `none` here. -/
def getIdx (rand v : UInt64) (lb : WeightLoadBalance) : Option Int :=
  match lb.m_weights.getLast? with
  | none => some (-1)
  | some total =>
      let dis := (if v = 0xffffffffffffffff then rand else v).toNat % uint64 total
      let greater i := (lb.m_weights[i]?).all fun w => decide (dis < uint64 w)
      let it := bisect greater 0 lb.m_weights.length
      if it = lb.m_weights.length then none else some (int32 it)

/-- `get`, where `isValid` is what the items answer during the walk. -/
def get (a : Answers) (now : UInt64) (isValid : LoadBalanceItem → Bool) (rand v : UInt64)
    (lb : WeightLoadBalance) : WeightLoadBalance × Option (Option LoadBalanceItem) :=
  let lb := checkInit a now lb
  let n := lb.m_items.length
  (lb, (lb.getIdx rand v).map fun idx =>
    if idx = -1 then none
    else (List.range n).findSome? fun i : Nat => (lb.m_items[uint64 (idx + i) % n]?).filter isValid)

/-- The changes of the items, each of which ends with `initNolock`, and the calls of `get`. -/
inductive Event
  | update (datas : AList fun _ : UInt64 => LoadBalanceItem) (a : Answers)
  | get (a : Answers) (now : UInt64)

def exec (lb : WeightLoadBalance) : Event → WeightLoadBalance
  | .update datas a => initNolock a { lb with m_datas := datas }
  | .get a now => checkInit a now lb

end WeightLoadBalance

def weightLoadBalance : System WeightLoadBalance WeightLoadBalance.Event where
  init lb := lb = WeightLoadBalance.create
  step lb e lb' := lb.exec e = lb'

namespace WeightLoadBalance

variable {lb : WeightLoadBalance} {ws : List Int32} {a : Answers} {now : UInt64}

/-- The items stand beside the sums of the weights they had at the last `initNolock`. -/
structure Recorded (lb : WeightLoadBalance) (ws : List Int32) : Prop where
  weights : lb.m_weights = addWeights 0 ws
  length : lb.m_items.length = ws.length

/-- Positive weights as numbers. -/
def sizes (ws : List Int32) : List Nat := ws.map fun w => w.toInt.toNat

/-- What is promised of a `get` that finds the recorded items: the place in whose slot the number
falls, as often as the weight says over all numbers, and from there the first valid item. -/
structure Selects (a : Answers) (now : UInt64) (lb : WeightLoadBalance) (ws : List Int32) :
    Prop where
  chosen : ∀ rand v, v ≠ 0xffffffffffffffff → ∃ i, i < ws.length ∧
    (checkInit a now lb).getIdx rand v = some (i : Int) ∧
    start (sizes ws) i ≤ v.toNat % (sizes ws).sum ∧
    v.toNat % (sizes ws).sum < start (sizes ws) (i + 1) ∧
    ∀ isValid, get a now isValid rand v lb =
      (checkInit a now lb, some (((checkInit a now lb).m_items.rotate i).find? isValid))
  counted : ∀ rand i, (hi : i < (sizes ws).length) →
    ((Finset.range (sizes ws).sum).filter fun v =>
      (checkInit a now lb).getIdx rand (UInt64.ofNat v) = some (i : Int)).card = (sizes ws)[i]
  lost : ∀ rand v isValid, v ≠ 0xffffffffffffffff →
    ((get a now isValid rand v lb).2 = some none ↔
      ∀ item ∈ (checkInit a now lb).m_items, isValid item = false)

/-- The weights that `initNolock` sums up. -/
def weightsAt (a : Answers) (lb : WeightLoadBalance) : List Int32 :=
  ((lb.m_datas.entries.map Sigma.snd).filter a.isValid).map a.getWeight

theorem recorded_initNolock (a : Answers) (lb : WeightLoadBalance) :
    Recorded (initNolock a lb) (weightsAt a lb) :=
  ⟨rfl, (List.length_map _).symm⟩

theorem recorded_checkInit (h : Recorded lb ws) (a : Answers) (now : UInt64) :
    ∃ ws', Recorded (checkInit a now lb) ws' := by
  unfold checkInit
  split
  · have hr := recorded_initNolock a lb
    exact ⟨_, hr.weights, hr.length⟩
  · exact ⟨ws, h⟩

theorem run_recorded {es : List Event} (hr : weightLoadBalance.Run es lb) :
    ∃ ws, Recorded lb ws := by
  apply hr.invariant (I := fun lb => ∃ ws, Recorded lb ws)
  · rintro lb rfl
    exact ⟨[], rfl, rfl⟩
  · rintro lb e lb' ⟨ws, h⟩ rfl
    cases e with
    | update datas a => exact ⟨_, recorded_initNolock a _⟩
    | get a now => exact recorded_checkInit h a now

theorem int64_of_lt {n : Nat} (h : n < 9223372036854775808) : int64 n = n := by
  simp only [int64, uint64]
  omega

theorem uint64_of_lt {n : Nat} (h : n < 18446744073709551616) : uint64 n = n := by
  simp only [uint64]
  omega

theorem sizes_pos (hpos : ∀ w ∈ ws, 0 < w) : ∀ n ∈ sizes ws, 0 < n := by
  intro n hn
  obtain ⟨w, hw, rfl⟩ := List.mem_map.mp hn
  have h := Int32.lt_iff_toInt_lt.mp (hpos w hw)
  have hzero : (0 : Int32).toInt = 0 := rfl
  omega

theorem sizes_le (ws : List Int32) : ∀ n ∈ sizes ws, n ≤ 2147483647 := by
  intro n hn
  obtain ⟨w, -, rfl⟩ := List.mem_map.mp hn
  have h := Int32.toInt_lt w
  omega

/-- As long as the sums fit, each one is the end of its slot. -/
theorem getElem?_addWeights {total : Nat} (hpos : ∀ w ∈ ws, 0 < w)
    (hfit : total + (sizes ws).sum < 9223372036854775808) {i : Nat} (hi : i < ws.length) :
    (addWeights total ws)[i]? = some (((total + start (sizes ws) (i + 1) : Nat)) : Int) := by
  induction ws generalizing total i with
  | nil => simp at hi
  | cons w ws ih =>
      have hw := Int32.lt_iff_toInt_lt.mp (hpos w List.mem_cons_self)
      have hzero : (0 : Int32).toInt = 0 := rfl
      have hsum : (sizes (w :: ws)).sum = w.toInt.toNat + (sizes ws).sum := List.sum_cons
      have hnext : int64 (total + w.toInt) = ((total + w.toInt.toNat : Nat) : Int) := by
        rw [← int64_of_lt (n := total + w.toInt.toNat) (by omega)]
        congr 1
        omega
      have hstart : ∀ j, start (sizes (w :: ws)) (j + 1) = w.toInt.toNat + start (sizes ws) j :=
        fun j => List.sum_cons
      rw [addWeights, hnext]
      cases i with
      | zero =>
          rw [List.getElem?_cons_zero, hstart]
          rfl
      | succ i =>
          rw [List.getElem?_cons_succ, ih (fun w' hw' => hpos w' (List.mem_cons_of_mem w hw'))
            (by omega) (by simpa using hi), hstart (i + 1), Nat.add_assoc]

theorem length_addWeights (total : Int) (ws : List Int32) :
    (addWeights total ws).length = ws.length := by
  induction ws generalizing total with
  | nil => rfl
  | cons w ws ih => rw [addWeights, List.length_cons, ih, List.length_cons]

theorem sum_sizes_le (ws : List Int32) : (sizes ws).sum ≤ ws.length * 2147483647 := by
  have h := start_le (sizes_le ws) ws.length
  have hlen : (sizes ws).length = ws.length := List.length_map _
  rwa [← hlen, start_length, hlen] at h

/-- The search finds the slot of the number. -/
theorem getIdx_eq (h : Recorded lb ws) (hpos : ∀ w ∈ ws, 0 < w) (hn : ws.length ≤ 2147483648)
    {rand v : UInt64} (hv : v ≠ 0xffffffffffffffff) {i : Nat} (hi : i < ws.length)
    (hle : start (sizes ws) i ≤ v.toNat % (sizes ws).sum)
    (hlt : v.toNat % (sizes ws).sum < start (sizes ws) (i + 1)) :
    lb.getIdx rand v = some (i : Int) := by
  have htotal := sum_sizes_le ws
  have hfit : 0 + (sizes ws).sum < 9223372036854775808 := by omega
  have hlen : lb.m_weights.length = ws.length := by rw [h.weights, length_addWeights]
  have hget : ∀ {j}, j < ws.length →
      lb.m_weights[j]? = some ((start (sizes ws) (j + 1) : Nat) : Int) := by
    intro j hj
    have hj' := getElem?_addWeights hpos hfit hj
    rw [Nat.zero_add] at hj'
    rw [h.weights]
    exact hj'
  have hsizes : (sizes ws).length = ws.length := List.length_map _
  have hlast : lb.m_weights.getLast? = some (((sizes ws).sum : Nat) : Int) := by
    rw [List.getLast?_eq_getElem?, hlen, hget (by omega), Nat.sub_add_cancel (by omega), ← hsizes,
      start_length]
  have hbound : ∀ j, start (sizes ws) (j + 1) ≤ (sizes ws).sum := by
    intro j
    by_cases hj : j + 1 ≤ (sizes ws).length
    · exact start_length (sizes ws) ▸ start_mono (sizes ws) hj
    · rw [start, List.take_of_length_le (by omega)]
  have hsearch : bisect (fun j => (lb.m_weights[j]?).all fun w =>
      decide (v.toNat % (sizes ws).sum < uint64 w)) 0 lb.m_weights.length = i := by
    refine bisect_eq (Nat.zero_le _) (by omega) ?_ ?_
    · intro j hj
      have hmono : start (sizes ws) (j + 1) ≤ start (sizes ws) i := start_mono (sizes ws) hj
      have hb := hbound j
      rw [hget (Nat.lt_trans hj hi), Option.all_some, uint64_of_lt (by omega),
        decide_eq_false_iff_not]
      omega
    · intro j hj
      by_cases hjn : j < ws.length
      · have hmono : start (sizes ws) (i + 1) ≤ start (sizes ws) (j + 1) :=
          start_mono (sizes ws) (Nat.succ_le_succ hj)
        have hb := hbound j
        rw [hget hjn, Option.all_some, uint64_of_lt (by omega), decide_eq_true_eq]
        omega
      · rw [List.getElem?_eq_none (by omega)]
        rfl
  rw [getIdx, hlast]
  dsimp only
  rw [if_neg hv, uint64_of_lt (by omega), hsearch, if_neg (by omega), int32_of_lt (by omega)]

/-- The result is an `int32_t`. -/
theorem getIdx_lt {rand v : UInt64} {idx : Int} (h : lb.getIdx rand v = some idx) :
    idx < 2147483648 := by
  unfold getIdx at h
  cases hlast : lb.m_weights.getLast? with
  | none =>
      rw [hlast] at h
      cases h
      decide
  | some total =>
      rw [hlast] at h
      dsimp only at h
      generalize bisect _ _ _ = it at h
      by_cases hend : it = lb.m_weights.length
      · rw [if_pos hend] at h
        cases h
      · rw [if_neg hend, Option.some.injEq] at h
        rw [← h]
        simp only [int32, uint32]
        omega

/-- The walk takes the items in cyclic order. -/
theorem get_eq (h : Recorded (checkInit a now lb) ws) (hn : ws.length ≤ 2147483648)
    {isValid : LoadBalanceItem → Bool} {rand v : UInt64} {i : Nat} (hi : i < ws.length)
    (hidx : (checkInit a now lb).getIdx rand v = some (i : Int)) :
    get a now isValid rand v lb =
      (checkInit a now lb, some (((checkInit a now lb).m_items.rotate i).find? isValid)) := by
  have hlen := h.length
  have hplace : ∀ k, k < (checkInit a now lb).m_items.length →
      uint64 ((i : Int) + (k : Int)) % (checkInit a now lb).m_items.length =
        (i + k) % (checkInit a now lb).m_items.length := by
    intro k hk
    rw [← Int.natCast_add, uint64_of_lt (by omega)]
  rw [get, hidx, Option.map_some, if_neg (by omega), walk_rotate isValid _ i hplace]

theorem exists_getIdx (h : Recorded lb ws) (hne : ws ≠ []) (hpos : ∀ w ∈ ws, 0 < w)
    (hn : ws.length ≤ 2147483648) (rand : UInt64) {v : UInt64} (hv : v ≠ 0xffffffffffffffff) :
    ∃ i, i < ws.length ∧ lb.getIdx rand v = some (i : Int) ∧
      start (sizes ws) i ≤ v.toNat % (sizes ws).sum ∧
      v.toNat % (sizes ws).sum < start (sizes ws) (i + 1) := by
  have hlen : (sizes ws).length = ws.length := List.length_map _
  have hsum : 0 < (sizes ws).sum := by
    have hge := start_ge (sizes_pos hpos) (Nat.le_refl (sizes ws).length)
    rw [start_length] at hge
    have hlp := List.length_pos_of_ne_nil hne
    omega
  obtain ⟨i, hi, hle, hlt⟩ := exists_slot (Nat.mod_lt v.toNat hsum)
  rw [hlen] at hi
  exact ⟨i, hi, getIdx_eq h hpos hn hv hi hle hlt, hle, hlt⟩

theorem selects_of_few (h : Recorded (checkInit a now lb) ws) (hne : ws ≠ [])
    (hpos : ∀ w ∈ ws, 0 < w) (hn : ws.length ≤ 2147483648) : Selects a now lb ws where
  chosen := by
    intro rand v hv
    obtain ⟨i, hi, hidx, hle, hlt⟩ := exists_getIdx h hne hpos hn rand hv
    exact ⟨i, hi, hidx, hle, hlt, fun isValid => get_eq h hn hi hidx⟩
  counted := by
    intro rand i hi
    rw [← card_slot hi]
    congr 1
    apply Finset.filter_congr
    intro v hmem
    have hlt := Finset.mem_range.mp hmem
    have htotal := sum_sizes_le ws
    have hv : (UInt64.ofNat v).toNat = v := by
      rw [UInt64.toNat_ofNat']
      omega
    have hmax : UInt64.ofNat v ≠ 0xffffffffffffffff := by
      intro he
      have hn' := congrArg UInt64.toNat he
      rw [hv] at hn'
      have hlit : (0xffffffffffffffff : UInt64).toNat = 18446744073709551615 := rfl
      omega
    obtain ⟨j, -, hidx, hle, hlt'⟩ := exists_getIdx h hne hpos hn rand hmax
    rw [hv, Nat.mod_eq_of_lt hlt] at hle hlt'
    rw [hidx]
    constructor
    · intro he
      obtain rfl : j = i := by simpa using he
      exact ⟨hle, hlt'⟩
    · rintro ⟨hi', hi''⟩
      rw [slot_unique hle hlt' hi' hi'']
  lost := by
    intro rand v isValid hv
    obtain ⟨i, hi, hidx, -⟩ := exists_getIdx h hne hpos hn rand hv
    rw [get_eq h hn hi hidx, Option.some.injEq, List.find?_eq_none]
    simp only [List.mem_rotate, Bool.not_eq_true]

/-- With more items there is one whose index is no `int32_t`. -/
theorem not_selects_of_many (hpos : ∀ w ∈ ws, 0 < w) (hmany : 2147483648 < ws.length) :
    ¬ Selects a now lb ws := by
  intro hs
  have hmem : 2147483648 < (sizes ws).length := by
    rw [sizes, List.length_map]
    exact hmany
  -- the first number in the slot of the item at `2 ^ 31`
  have hle := start_le (sizes_le ws) 2147483648
  have hnext := start_succ hmem
  have hsize := sizes_pos hpos _ (List.getElem_mem hmem)
  have hsum : start (sizes ws) (2147483648 + 1) ≤ start (sizes ws) (sizes ws).length :=
    start_mono (sizes ws) hmem
  rw [start_length] at hsum
  have hv : (UInt64.ofNat (start (sizes ws) 2147483648)).toNat = start (sizes ws) 2147483648 := by
    rw [UInt64.toNat_ofNat']
    omega
  have hmax : UInt64.ofNat (start (sizes ws) 2147483648) ≠ 0xffffffffffffffff := by
    intro he
    have hn := congrArg UInt64.toNat he
    rw [hv] at hn
    have hlit : (0xffffffffffffffff : UInt64).toNat = 18446744073709551615 := rfl
    omega
  obtain ⟨i, -, hidx, hge, hlt, -⟩ := hs.chosen 0 _ hmax
  rw [hv, Nat.mod_eq_of_lt (by omega)] at hge hlt
  have hi := slot_unique hge hlt (Nat.le_refl _) (by omega)
  have hbound := getIdx_lt hidx
  omega

/-- The choice is by weight as long as the index of the last item is an `int32_t`. -/
theorem selects_iff (h : Recorded (checkInit a now lb) ws) (hne : ws ≠ [])
    (hpos : ∀ w ∈ ws, 0 < w) : Selects a now lb ws ↔ ws.length ≤ 2147483648 := by
  refine ⟨fun hs => ?_, selects_of_few h hne hpos⟩
  by_contra hmany
  exact not_selects_of_many hpos (Nat.lt_of_not_le hmany) hs

/-- Two items of the weights 3 and 1. -/
def twoItems : WeightLoadBalance :=
  ⟨∅, 0, [⟨1, 10, 3, false⟩, ⟨2, 20, 1, false⟩], [3, 4]⟩

theorem selects_two_items : Selects ⟨fun _ => true, fun _ => 1⟩ 0 twoItems [3, 1] ↔
    [(3 : Int32), 1].length ≤ 2147483648 := by
  apply selects_iff ⟨rfl, rfl⟩ (List.cons_ne_nil _ _)
  intro w hw
  rcases List.mem_pair.mp hw with rfl | rfl
  · decide
  · decide

/-- `n` services with the ids from 0 on, whose items all have the weight 1. -/
def services (n : Nat) (hn : n ≤ 18446744073709551616) :
    AList fun _ : UInt64 => LoadBalanceItem where
  entries := (List.range n).map fun k => ⟨UInt64.ofNat k, ⟨UInt64.ofNat k, k, 1, false⟩⟩
  nodupKeys := by
    rw [List.NodupKeys, List.keys, List.map_map]
    refine (List.nodup_map_iff_inj_on List.nodup_range).mpr ?_
    intro x hx y hy he
    have hx := List.mem_range.mp hx
    have hy := List.mem_range.mp hy
    have hnat := congrArg UInt64.toNat he
    simp only [Function.comp_apply, UInt64.toNat_ofNat'] at hnat
    omega

/-- All streams are connected, and all weights are 1. -/
def equals : Answers := ⟨fun _ => true, fun _ => 1⟩

theorem weightsAt_services (n : Nat) (hn : n ≤ 18446744073709551616) :
    (weightsAt equals { create with m_datas := services n hn }).length = n := by
  simp [weightsAt, equals, services]

/-- With one service more than an `int32_t` can count, one of them is never chosen. -/
theorem last_service_lost : ∃ lb ws, weightLoadBalance.Reachable lb ∧ Recorded lb ws ∧
    ws.length = 2147483649 ∧ (∀ w ∈ ws, 0 < w) ∧ ¬ Selects equals 0 lb ws := by
  have hlen := weightsAt_services 2147483649 (by decide)
  generalize services 2147483649 (by decide) = datas at hlen
  have hpos : ∀ w ∈ weightsAt equals { create with m_datas := datas }, 0 < w := by
    intro w hw
    obtain ⟨item, -, rfl⟩ := List.mem_map.mp hw
    exact (by decide : (0 : Int32) < 1)
  have hrun : weightLoadBalance.Run [.update datas equals]
      (initNolock equals { create with m_datas := datas }) := .snoc (.start rfl) (Eq.refl _)
  refine ⟨_, _, ⟨_, hrun⟩, recorded_initNolock equals _, hlen, hpos, not_selects_of_many hpos ?_⟩
  rw [hlen]
  decide

end WeightLoadBalance

end CIM
