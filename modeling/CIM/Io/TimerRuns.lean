import CIM.Io.Timer
import Mathlib.Order.WithBot

/-!
# Runs of a `TimerManager`

The set stays in its order and holds exactly the timers that have a callback. `listExpiredCb`
fires those whose time has come, and a timer that has lost its callback never fires again.
-/
namespace CIM.TimerManager

open Transition

variable {β : Type} {heap heap' : Nat → Option (Timer β)} {l pending : List Nat} {t : Nat}
  {timer : Timer β} {m m' : TimerManager β}

/-- What the comparator compares. -/
def timerKey (heap : Nat → Option (Timer β)) (t : Nat) : WithBot (Nat ×ₗ Nat) :=
  (heap t).map fun x => toLex (x.m_next.toNat, x.addr)

/-- A timer that still has its callback. -/
def Live (heap : Nat → Option (Timer β)) (t : Nat) : Prop :=
  ∃ x, heap t = some x ∧ x.m_cb.isSome = true

theorem timerKey_some (h : heap t = some timer) :
    timerKey heap t = ((toLex (timer.m_next.toNat, timer.addr) : Nat ×ₗ Nat) :
      WithBot (Nat ×ₗ Nat)) := by
  rw [timerKey, h]
  rfl

theorem less_eq_true (x y : Timer β) : less (some x) (some y) = true ↔
    x.m_next.toNat < y.m_next.toNat ∨ x.m_next.toNat = y.m_next.toNat ∧ x.addr < y.addr := by
  rw [less]
  by_cases hlt : x.m_next < y.m_next
  · have hlt' := UInt64.lt_iff_toNat_lt.mp hlt
    simp [hlt, hlt']
  · by_cases hgt : x.m_next > y.m_next
    · have hgt' := UInt64.lt_iff_toNat_lt.mp hgt
      simp only [hlt, hgt, if_true, if_false, Bool.false_eq_true, false_iff]
      omega
    · rw [UInt64.lt_iff_toNat_lt] at hlt
      rw [gt_iff_lt, UInt64.lt_iff_toNat_lt] at hgt
      have heq : x.m_next.toNat = y.m_next.toNat := by omega
      simp [UInt64.lt_iff_toNat_lt, heq]

theorem comparator_compares (heap : Nat → Option (Timer β)) :
    SortedSet.Compares (comparator heap) (timerKey heap) (Live heap) := by
  rintro a b ⟨x, hx, -⟩ ⟨y, hy, -⟩
  rw [timerKey_some hx, timerKey_some hy, WithBot.coe_lt_coe, Prod.Lex.toLex_lt_toLex, comparator,
    hx, hy, less_eq_true]

/-- The set and the timers taken out of it for the moment are those with a callback; no two of
them share an address, and the set is in its order. -/
structure Linked (heap : Nat → Option (Timer β)) (l pending : List Nat) : Prop where
  live : ∀ t, t ∈ l ∨ t ∈ pending ↔ Live heap t
  addrs : ∀ t u x y, heap t = some x → heap u = some y → x.m_cb.isSome = true →
    y.m_cb.isSome = true → x.addr = y.addr → t = u
  sorted : SortedSet.Sorted (timerKey heap) l

theorem Linked.mem_live (h : Linked heap l pending) (ht : t ∈ l) : Live heap t :=
  (h.live t).mp (.inl ht)

theorem Linked.nodup (h : Linked heap l pending) : l.Nodup := by
  apply List.Pairwise.imp _ h.sorted
  rintro a b hlt rfl
  exact lt_irrefl _ hlt

/-- The order does not depend on the timers out of the set. -/
theorem sorted_update (h : SortedSet.Sorted (timerKey heap) l) (ht : t ∉ l)
    (x : Option (Timer β)) : SortedSet.Sorted (timerKey (Function.update heap t x)) l := by
  apply h.congr
  intro u hu
  have hne : u ≠ t := by
    rintro rfl
    exact ht hu
  rw [timerKey, timerKey, Function.update_of_ne hne]

theorem Linked.find (h : Linked heap l pending) (ht : t ∈ l) :
    SortedSet.find (comparator heap) t l = some t :=
  (SortedSet.find_key h.sorted (comparator_compares heap) (h.mem_live ht)
    (fun _ hu => h.mem_live hu) ht rfl).1

theorem Linked.insert (h : Linked heap l (t :: pending)) (ht : t ∉ l) :
    Linked heap (SortedSet.insert (comparator heap) t l) pending := by
  have hcompares := comparator_compares heap
  have hlive : Live heap t := (h.live t).mp (.inr List.mem_cons_self)
  have hall : ∀ u ∈ l, Live heap u := fun u hu => h.mem_live hu
  have hne : ∀ u ∈ l, timerKey heap u ≠ timerKey heap t := by
    intro u hu he
    obtain ⟨x, hx, hxcb⟩ := hlive
    obtain ⟨y, hy, hycb⟩ := hall u hu
    rw [timerKey_some hx, timerKey_some hy, WithBot.coe_inj] at he
    have haddr : y.addr = x.addr := congrArg (fun p => (ofLex p).2) he
    obtain rfl := h.addrs u t y x hy hx hycb hxcb haddr
    exact ht hu
  refine ⟨?_, h.addrs, h.sorted.insert hcompares hlive hall⟩
  intro u
  rw [SortedSet.mem_insert hcompares hlive hall hne, ← h.live, List.mem_cons]
  tauto

theorem Linked.erase (h : Linked heap l pending) (ht : t ∈ l) :
    Linked heap (l.erase t) (t :: pending) := by
  refine ⟨?_, h.addrs, List.Pairwise.sublist List.erase_sublist h.sorted⟩
  intro u
  rw [h.nodup.mem_erase_iff, ← h.live, List.mem_cons]
  by_cases hu : u = t
  · subst hu
    simp [ht]
  · simp [hu]

/-- A timer out of the set gets a new time. -/
theorem Linked.update (h : Linked heap l (t :: pending)) (ht : t ∉ l) (hx : heap t = some timer)
    {x : Timer β} (haddr : x.addr = timer.addr) (hcb : x.m_cb = timer.m_cb) :
    Linked (Function.update heap t (some x)) l (t :: pending) := by
  have hsome : timer.m_cb.isSome = true := by
    obtain ⟨y, hy, hycb⟩ := (h.live t).mp (.inr List.mem_cons_self)
    rw [hx, Option.some.injEq] at hy
    exact hy ▸ hycb
  -- the objects before the change, with the same address and callback
  have hold : ∀ u y, Function.update heap t (some x) u = some y →
      ∃ z, heap u = some z ∧ z.addr = y.addr ∧ z.m_cb = y.m_cb := by
    intro u y hy
    by_cases hu : u = t
    · subst hu
      rw [Function.update_self, Option.some.injEq] at hy
      subst hy
      exact ⟨timer, hx, haddr.symm, hcb.symm⟩
    · rw [Function.update_of_ne hu] at hy
      exact ⟨y, hy, rfl, rfl⟩
  refine ⟨?_, ?_, ?_⟩
  · intro u
    rw [h.live]
    by_cases hu : u = t
    · subst hu
      constructor
      · intro _
        exact ⟨x, Function.update_self .., by rw [hcb]; exact hsome⟩
      · intro _
        exact ⟨timer, hx, hsome⟩
    · simp only [Live, Function.update_of_ne hu]
  · intro u v y z hy hz hycb hzcb he
    obtain ⟨y', hy', ha, hc⟩ := hold u y hy
    obtain ⟨z', hz', ha', hc'⟩ := hold v z hz
    exact h.addrs u v y' z' hy' hz' (hc ▸ hycb) (hc' ▸ hzcb) (by rw [ha, ha', he])
  · exact sorted_update h.sorted ht _

/-- A timer out of the set loses its callback. -/
theorem Linked.clear (h : Linked heap l (t :: pending)) (ht : t ∉ l) (htp : t ∉ pending)
    {x : Timer β} (hcb : x.m_cb = none) :
    Linked (Function.update heap t (some x)) l pending := by
  refine ⟨?_, ?_, ?_⟩
  · intro u
    by_cases hu : u = t
    · subst hu
      simp only [ht, htp, or_self, false_iff, Live, Function.update_self]
      rintro ⟨y, hy, hycb⟩
      rw [Option.some.injEq] at hy
      rw [← hy, hcb] at hycb
      cases hycb
    · have hlive := h.live u
      simp only [List.mem_cons, hu, false_or] at hlive
      simp only [Live, Function.update_of_ne hu]
      exact hlive
  · intro u v y z hy hz hycb hzcb he
    have hne : ∀ u y, Function.update heap t (some x) u = some y → y.m_cb.isSome = true →
        u ≠ t := by
      rintro u y hy hycb rfl
      rw [Function.update_self, Option.some.injEq] at hy
      rw [← hy, hcb] at hycb
      cases hycb
    rw [Function.update_of_ne (hne u y hy hycb)] at hy
    rw [Function.update_of_ne (hne v z hz hzcb)] at hz
    exact h.addrs u v y z hy hz hycb hzcb he
  · exact sorted_update h.sorted ht _

/-- A new timer, still out of the set. -/
theorem Linked.alloc (h : Linked heap l []) (hnone : heap t = none) {x : Timer β}
    (hcb : x.m_cb.isSome = true) (haddr : ∀ u ∈ l, (heap u).map Timer.addr ≠ some x.addr) :
    Linked (Function.update heap t (some x)) l [t] := by
  have hnot : t ∉ l := by
    intro ht
    obtain ⟨y, hy, -⟩ := h.mem_live ht
    rw [hnone] at hy
    cases hy
  have hfresh : ∀ u y, heap u = some y → y.m_cb.isSome = true → y.addr ≠ x.addr := by
    intro u y hy hycb he
    have hmem := ((h.live u).mpr ⟨y, hy, hycb⟩).resolve_right List.not_mem_nil
    exact haddr u hmem (by rw [hy, Option.map_some, he])
  refine ⟨?_, ?_, ?_⟩
  · intro u
    by_cases hu : u = t
    · subst hu
      simp only [List.mem_singleton, or_true, true_iff]
      exact ⟨x, Function.update_self .., hcb⟩
    · have hlive := h.live u
      simp only [List.not_mem_nil, or_false] at hlive
      simp only [List.mem_singleton, hu, or_false, Live, Function.update_of_ne hu]
      exact hlive
  · intro u v y z hy hz hycb hzcb he
    by_cases hu : u = t
    · subst hu
      rw [Function.update_self, Option.some.injEq] at hy
      by_cases hv : v = u
      · exact hv.symm
      · rw [Function.update_of_ne hv] at hz
        exact absurd (by rw [← he, hy]) (hfresh v z hz hzcb)
    · rw [Function.update_of_ne hu] at hy
      by_cases hv : v = t
      · subst hv
        rw [Function.update_self, Option.some.injEq] at hz
        exact absurd (by rw [he, hz]) (hfresh u y hy hycb)
      · rw [Function.update_of_ne hv] at hz
        exact h.addrs u v y z hy hz hycb hzcb he
  · exact sorted_update h.sorted hnot _

structure Good (m : TimerManager β) : Prop where
  linked : Linked m.heap m.m_timers []
  fresh : ∀ t, m.count ≤ t → m.heap t = none

theorem Good.mem_iff (h : Good m) (t : Nat) : t ∈ m.m_timers ↔ Live m.heap t := by
  rw [← h.linked.live]
  simp

theorem Good.lt_count (h : Good m) (hx : m.heap t = some timer) : t < m.count := by
  by_contra hle
  rw [h.fresh t (Nat.le_of_not_lt hle)] at hx
  cases hx

/-- A heap that differs at a timer that is there. -/
theorem Good.fresh_update (h : Good m) (hx : m.heap t = some timer) (x : Timer β) (u : Nat)
    (hu : m.count ≤ u) : Function.update m.heap t (some x) u = none := by
  have hne : u ≠ t := Nat.ne_of_gt (Nat.lt_of_lt_of_le (h.lt_count hx) hu)
  rw [Function.update_of_ne hne, h.fresh u hu]

/-! ## What each operation leaves -/

theorem addTimer_good (h : Good m) {ms : UInt64} {cb : β} {recurring : Bool} {addr : Nat}
    {now : UInt64} (halloc : Allocates m (.addTimer ms cb recurring addr now)) :
    Good (m.addTimer ms cb recurring addr now).1 := by
  have hnone := h.fresh m.count (Nat.le_refl _)
  have hout : m.count ∉ m.m_timers := by
    intro ht
    obtain ⟨y, hy, -⟩ := (h.mem_iff _).mp ht
    rw [hnone] at hy
    cases hy
  have halloced := h.linked.alloc (x := ⟨recurring, ms, now + ms, some cb, addr⟩) hnone rfl halloc
  refine ⟨halloced.insert hout, ?_⟩
  intro t ht
  have hne : t ≠ m.count := Nat.ne_of_gt (Nat.lt_of_succ_le ht)
  have hold := h.fresh t (Nat.le_of_succ_le ht)
  simp only [addTimer, insertTimer, put, Function.update_of_ne hne]
  exact hold

theorem cancel_eq (h : Good m) (hx : m.heap t = some timer) (hcb : timer.m_cb.isSome = true) :
    m.cancel t = ({ m with
      heap := Function.update m.heap t (some { timer with m_cb := none })
      m_timers := m.m_timers.erase t }, true) := by
  have hmem := (h.mem_iff t).mpr ⟨timer, hx, hcb⟩
  -- the lost callback does not show in the comparisons
  have hcmp : comparator (Function.update m.heap t (some { timer with m_cb := none })) =
      comparator m.heap := by
    have hless : ∀ u, ∃ y, Function.update m.heap t (some { timer with m_cb := none }) u = y ∧
        ∀ z : Option (Timer β), less y z = less (m.heap u) z ∧ less z y = less z (m.heap u) := by
      intro u
      by_cases hu : u = t
      · subst hu
        refine ⟨_, Function.update_self .., ?_⟩
        intro z
        rw [hx]
        cases z <;> exact ⟨rfl, rfl⟩
      · exact ⟨_, Function.update_of_ne hu _ _, fun z => ⟨rfl, rfl⟩⟩
    funext a b
    obtain ⟨y, hy, hleft⟩ := hless a
    obtain ⟨z, hz, hright⟩ := hless b
    rw [comparator, comparator, hy, hz, (hleft z).1, (hright (m.heap a)).2]
  have hfind := h.linked.find hmem
  simp only [TimerManager.cancel, hx, hcb, if_true, TimerManager.find, put, hcmp, hfind]

theorem refresh_eq (h : Good m) (hx : m.heap t = some timer) (hcb : timer.m_cb.isSome = true)
    (now : UInt64) :
    m.refresh t now = ({ m with
      heap := Function.update m.heap t (some { timer with m_next := now + timer.m_ms })
      m_timers := SortedSet.insert
        (comparator (Function.update m.heap t (some { timer with m_next := now + timer.m_ms })))
        t (m.m_timers.erase t) }, true) := by
  have hfind := h.linked.find ((h.mem_iff t).mpr ⟨timer, hx, hcb⟩)
  simp only [TimerManager.refresh, hx, hcb, if_true, TimerManager.find, hfind, put]

theorem moved (h : Good m) (hx : m.heap t = some timer) (hcb : timer.m_cb.isSome = true)
    {x : Timer β} (haddr : x.addr = timer.addr) (hxcb : x.m_cb = timer.m_cb) :
    Linked (Function.update m.heap t (some x))
      (SortedSet.insert (comparator (Function.update m.heap t (some x))) t (m.m_timers.erase t))
      [] := by
  have hmem := (h.mem_iff t).mpr ⟨timer, hx, hcb⟩
  have hout : t ∉ m.m_timers.erase t := fun ht => (h.linked.nodup.mem_erase_iff.mp ht).1 rfl
  exact ((h.linked.erase hmem).update hout hx haddr hxcb).insert hout

/-- What firing makes of a timer. -/
def afterFire (now : UInt64) (timer : Timer β) : Timer β :=
  if timer.m_recurring then { timer with m_next := now + timer.m_ms }
  else { timer with m_cb := none }

/-- What the loop over the expired timers leaves and hands out. -/
structure Fired (now : UInt64) (expired : List Nat) (m m' : TimerManager β)
    (cbs : List (Option β)) : Prop where
  cbs : cbs = expired.map fun t => (m.heap t).bind Timer.m_cb
  heap : ∀ t, m'.heap t = if t ∈ expired then (m.heap t).map (afterFire now) else m.heap t
  linked : Linked m'.heap m'.m_timers []
  count : m'.count = m.count

theorem fire_heap (now : UInt64) (t : Nat) (timer : Timer β) (m : TimerManager β) :
    (fire now t timer m).heap = Function.update m.heap t (some (afterFire now timer)) := by
  rw [fire, afterFire]
  split <;> rfl

theorem fire_linked (now : UInt64) (h : Linked m.heap m.m_timers (t :: pending))
    (hx : m.heap t = some timer) (hnodup : (m.m_timers ++ t :: pending).Nodup) :
    Linked (fire now t timer m).heap (fire now t timer m).m_timers pending ∧
      ((fire now t timer m).m_timers ++ pending).Nodup ∧ (fire now t timer m).count = m.count := by
  rw [List.nodup_append, List.nodup_cons] at hnodup
  obtain ⟨hnodup, ⟨htp, hpending⟩, hdisjoint⟩ := hnodup
  have ht : t ∉ m.m_timers := fun hm => hdisjoint t hm t List.mem_cons_self rfl
  by_cases hrec : timer.m_recurring = true
  · have hins := (h.update ht hx (x := { timer with m_next := now + timer.m_ms }) rfl rfl).insert ht
    rw [fire, if_pos hrec]
    refine ⟨hins, List.nodup_append.mpr ⟨hins.nodup, hpending, ?_⟩, rfl⟩
    rintro u hu v hv rfl
    rcases SortedSet.mem_insert_subset hu with rfl | hu
    · exact htp hv
    · exact hdisjoint u hu u (List.mem_cons_of_mem t hv) rfl
  · rw [fire, if_neg hrec]
    refine ⟨h.clear ht htp rfl, List.nodup_append.mpr ⟨hnodup, hpending, ?_⟩, rfl⟩
    intro u hu v hv
    exact hdisjoint u hu v (List.mem_cons_of_mem t hv)

theorem fireLoop_fired (now : UInt64) (expired : List Nat) : ∀ {m : TimerManager β},
    Linked m.heap m.m_timers expired → (m.m_timers ++ expired).Nodup →
    Fired now expired m (fireLoop now expired m).1 (fireLoop now expired m).2 := by
  induction expired with
  | nil =>
      intro m h _
      exact ⟨rfl, fun t => (if_neg List.not_mem_nil).symm, h, rfl⟩
  | cons t expired ih =>
      intro m h hnodup
      obtain ⟨timer, hx, hcb⟩ := (h.live t).mp (.inr List.mem_cons_self)
      have htp : t ∉ expired := (List.nodup_cons.mp (List.nodup_append.mp hnodup).2.1).1
      obtain ⟨hlinked, hnodup₁, hcount⟩ := fire_linked now h hx hnodup
      have hheap := fire_heap now t timer m
      obtain ⟨hcbs, hrest, hlinked', hcount'⟩ := ih hlinked hnodup₁
      simp only [fireLoop, hx]
      refine ⟨?_, ?_, hlinked', hcount'.trans hcount⟩
      · rw [hcbs, List.map_cons, hx]
        apply congrArg (List.cons timer.m_cb)
        apply List.map_congr_left
        intro u hu
        have hne : u ≠ t := by
          rintro rfl
          exact htp hu
        rw [hheap, Function.update_of_ne hne]
      · intro u
        rw [hrest, hheap]
        by_cases hut : u = t
        · subst hut
          rw [if_neg htp, if_pos List.mem_cons_self, Function.update_self, hx]
          rfl
        · rw [Function.update_of_ne hut]
          simp only [List.mem_cons, hut, false_or]

/-- `m_next <= now`. -/
def due (heap : Nat → Option (Timer β)) (now : UInt64) (t : Nat) : Bool :=
  match heap t with
  | some x => decide (x.m_next ≤ now)
  | none => false

/-- The timers that a call of `listExpiredCb` is to fire, in the order of the set. -/
def expiredAt (now : UInt64) (m : TimerManager β) : List Nat :=
  if detectClockRollover now m then m.m_timers else m.m_timers.filter (due m.heap now)

theorem pairwise_next (h : Linked heap l pending) :
    l.Pairwise fun a b => ∀ x y, heap a = some x → heap b = some y →
      x.m_next.toNat < y.m_next.toNat ∨ x.m_next.toNat = y.m_next.toNat ∧ x.addr < y.addr := by
  apply List.Pairwise.imp _ h.sorted
  intro a b hab x y hx hy
  rw [timerKey_some hx, timerKey_some hy, WithBot.coe_lt_coe, Prod.Lex.toLex_lt_toLex] at hab
  exact hab

theorem partition_spec (h : Linked m.heap m.m_timers []) (rollover : Bool) (now : UInt64)
    (addr : Nat) :
    (partition rollover now addr m).1 =
        (if rollover then m.m_timers else m.m_timers.filter (due m.heap now)) ∧
      (partition rollover now addr m).1 ++ (partition rollover now addr m).2 = m.m_timers := by
  cases rollover with
  | true => exact ⟨rfl, List.append_nil _⟩
  | false =>
      simp only [partition, Bool.false_eq_true, if_false]
      refine ⟨?_, by rw [List.append_assoc, List.takeWhile_append_dropWhile,
        List.takeWhile_append_dropWhile]⟩
      have hnext := pairwise_next h
      have hlive : ∀ t ∈ m.m_timers, ∃ x, m.heap t = some x := fun t ht =>
        (h.mem_live ht).imp fun _ hx => hx.1
      rw [SortedSet.takeWhile_append (r := due m.heap now), SortedSet.takeWhile_eq_filter]
      · apply List.Pairwise.imp_of_mem _ hnext
        intro a b ha hb hab hdue
        obtain ⟨x, hx⟩ := hlive a ha
        obtain ⟨y, hy⟩ := hlive b hb
        have hlt := hab x y hx hy
        simp only [due, hx, hy, decide_eq_true_eq, UInt64.le_iff_toNat_le] at hdue ⊢
        omega
      · apply List.Pairwise.imp_of_mem _ hnext
        intro a b ha hb hab hless
        obtain ⟨x, hx⟩ := hlive a ha
        obtain ⟨y, hy⟩ := hlive b hb
        have hlt := hab x y hx hy
        simp only [hx, hy, less_eq_true] at hless ⊢
        omega
      · intro t ht
        obtain ⟨x, hx⟩ := hlive t ht
        rw [Bool.eq_iff_iff, Bool.or_eq_true]
        simp only [due, dueNow, hx, less_eq_true, decide_eq_true_eq, beq_iff_eq,
          UInt64.le_iff_toNat_le, ← UInt64.toNat_inj]
        omega

/-- The first timer of the set is the earliest. -/
theorem Good.first_le (h : Good m) {first t : Nat} {rest : List Nat} {x y : Timer β}
    (htimers : m.m_timers = first :: rest) (hx : m.heap first = some x) (ht : t ∈ m.m_timers)
    (hy : m.heap t = some y) : x.m_next.toNat ≤ y.m_next.toNat := by
  rw [htimers] at ht
  rcases List.mem_cons.mp ht with rfl | ht
  · rw [hx, Option.some.injEq] at hy
    rw [hy]
  · have hnext := pairwise_next h.linked
    rw [htimers] at hnext
    have hlt := (List.pairwise_cons.mp hnext).1 t ht x y hx hy
    omega

/-- Nothing is due when the first timer is not. -/
theorem expiredAt_nil (h : Good m) {first : Nat} {rest : List Nat}
    (htimers : m.m_timers = first :: rest) {now : UInt64} {x : Timer β}
    (hx : m.heap first = some x) (hrollover : detectClockRollover now m = false)
    (hgt : now < x.m_next) : expiredAt now m = [] := by
  rw [expiredAt, hrollover, if_neg Bool.false_ne_true]
  apply List.filter_eq_nil_iff.mpr
  intro t ht
  obtain ⟨y, hy, -⟩ := h.linked.mem_live ht
  have hgt' := UInt64.lt_iff_toNat_lt.mp hgt
  have hle := h.first_le htimers hx ht hy
  simp only [due, hy, decide_eq_true_eq, UInt64.le_iff_toNat_le]
  omega

theorem fire_partition (h : Good m) (now : UInt64) (rest : List Nat)
    (happ : expiredAt now m ++ rest = m.m_timers) :
    Fired now (expiredAt now m) m
      (fireLoop now (expiredAt now m) { m with m_previouseTime := now, m_timers := rest }).1
      (fireLoop now (expiredAt now m) { m with m_previouseTime := now, m_timers := rest }).2 := by
  have hsorted := h.linked.sorted
  have hnodup := h.linked.nodup
  rw [← happ] at hsorted hnodup
  have hpending : Linked m.heap rest (expiredAt now m) := by
    refine ⟨?_, h.linked.addrs, (List.pairwise_append.mp hsorted).2.1⟩
    intro t
    rw [← h.mem_iff, ← happ, List.mem_append, or_comm]
  have hloop := fireLoop_fired now (expiredAt now m)
    (m := { m with m_previouseTime := now, m_timers := rest }) hpending
    (List.perm_append_comm.nodup_iff.mp hnodup)
  exact ⟨hloop.cbs, hloop.heap, hloop.linked, hloop.count⟩

/-- What a call of `listExpiredCb` leaves and hands out. -/
theorem listExpiredCb_fired (h : Good m) (now : UInt64) (addr : Nat) :
    Fired now (expiredAt now m) m (m.listExpiredCb now addr).1 (m.listExpiredCb now addr).2 := by
  unfold TimerManager.listExpiredCb
  split
  · rename_i htimers
    have hempty : expiredAt now m = [] := by
      rw [expiredAt, htimers]
      split <;> rfl
    rw [hempty]
    exact ⟨rfl, fun t => (if_neg List.not_mem_nil).symm, h.linked, rfl⟩
  · rename_i first rest htimers
    obtain ⟨x, hx, -⟩ := h.linked.mem_live (t := first) (by rw [htimers]; exact List.mem_cons_self)
    simp only [hx]
    by_cases hearly : (!detectClockRollover now m && decide (x.m_next > now)) = true
    · rw [if_pos hearly]
      simp only [Bool.and_eq_true, Bool.not_eq_true', decide_eq_true_eq] at hearly
      rw [expiredAt_nil h htimers hx hearly.1 hearly.2]
      exact ⟨rfl, fun t => (if_neg List.not_mem_nil).symm, h.linked, rfl⟩
    · rw [if_neg hearly]
      obtain ⟨hfst, happ⟩ := partition_spec (m := { m with m_previouseTime := now }) h.linked
        (detectClockRollover now m) now addr
      have hfired : (partition (detectClockRollover now m) now addr
          { m with m_previouseTime := now }).1 = expiredAt now m := hfst
      rw [hfired] at happ ⊢
      exact fire_partition h now _ happ

theorem expiredAt_subset (ht : t ∈ expiredAt (β := β) now m) : t ∈ m.m_timers := by
  rw [expiredAt] at ht
  split at ht
  · exact ht
  · exact (List.mem_filter.mp ht).1

/-- A timer without a callback stays as it is. -/
def Spent (m : TimerManager β) (t : Nat) : Prop :=
  t ∉ m.m_timers ∧ ∃ x, m.heap t = some x ∧ x.m_cb = none

theorem Good.spent (h : Good m) {x : Timer β} (hx : m.heap t = some x) (hcb : x.m_cb = none) :
    Spent m t := by
  refine ⟨?_, x, hx, hcb⟩
  intro ht
  obtain ⟨y, hy, hycb⟩ := (h.mem_iff t).mp ht
  rw [hx, Option.some.injEq] at hy
  rw [← hy, hcb] at hycb
  cases hycb

/-- One step keeps the invariant, and every object that has lost its callback. -/
theorem step_good (h : Good m) {e : Op β × Outcome β} (hstep : (machine β).step m e m') :
    Good m' ∧ ∀ t x, m.heap t = some x → x.m_cb = none → m'.heap t = some x := by
  obtain ⟨halloc, hcall⟩ := hstep
  obtain ⟨op, out⟩ := e
  have hkeep : ∀ t y z, m.heap t = some y → y.m_cb.isSome = true → ∀ u x, m.heap u = some x →
      x.m_cb = none → Function.update m.heap t (some z) u = some x := by
    intro t y z hy hycb u x hx hxcb
    have hne : u ≠ t := by
      rintro rfl
      rw [hx, Option.some.injEq] at hy
      rw [← hy, hxcb] at hycb
      cases hycb
    rw [Function.update_of_ne hne, hx]
  cases op with
  | addTimer ms cb recurring addr now =>
      obtain ⟨rfl, rfl⟩ := Prod.mk.inj hcall
      refine ⟨addTimer_good h halloc, ?_⟩
      intro t x hx hcb
      have hne : t ≠ m.count := Nat.ne_of_lt (h.lt_count hx)
      simp only [addTimer, insertTimer, put, Function.update_of_ne hne]
      exact hx
  | cancel t =>
      obtain ⟨rfl, rfl⟩ := Prod.mk.inj hcall
      cases hx : m.heap t with
      | none =>
          simp only [TimerManager.cancel, hx]
          exact ⟨h, fun _ _ hx _ => hx⟩
      | some timer =>
          by_cases hcb : timer.m_cb.isSome = true
          · rw [cancel_eq h hx hcb]
            have hmem := (h.mem_iff t).mpr ⟨timer, hx, hcb⟩
            have hout : t ∉ m.m_timers.erase t := fun ht =>
              (h.linked.nodup.mem_erase_iff.mp ht).1 rfl
            refine ⟨⟨(h.linked.erase hmem).clear hout List.not_mem_nil rfl,
              h.fresh_update hx _⟩, hkeep t timer _ hx hcb⟩
          · simp only [TimerManager.cancel, hx, hcb]
            exact ⟨h, fun _ _ hx _ => hx⟩
  | refresh t now =>
      obtain ⟨rfl, rfl⟩ := Prod.mk.inj hcall
      cases hx : m.heap t with
      | none =>
          simp only [TimerManager.refresh, hx]
          exact ⟨h, fun _ _ hx _ => hx⟩
      | some timer =>
          by_cases hcb : timer.m_cb.isSome = true
          · rw [refresh_eq h hx hcb now]
            exact ⟨⟨moved h hx hcb rfl rfl, h.fresh_update hx _⟩, hkeep t timer _ hx hcb⟩
          · simp only [TimerManager.refresh, hx, hcb]
            exact ⟨h, fun _ _ hx _ => hx⟩
  | reset t ms from_now now =>
      obtain ⟨rfl, rfl⟩ := Prod.mk.inj hcall
      cases hx : m.heap t with
      | none =>
          simp only [TimerManager.reset, hx]
          exact ⟨h, fun _ _ hx _ => hx⟩
      | some timer =>
          by_cases hsame : ms = timer.m_ms ∧ from_now = false
          · simp only [TimerManager.reset, hx, if_pos hsame]
            exact ⟨h, fun _ _ hx _ => hx⟩
          · by_cases hcb : timer.m_cb.isSome = true
            · have hnone : timer.m_cb.isNone = false := by
                rw [← Option.not_isSome, hcb]
                rfl
              have hfind := h.linked.find ((h.mem_iff t).mpr ⟨timer, hx, hcb⟩)
              simp only [TimerManager.reset, hx, if_neg hsame, hnone, Bool.false_eq_true, if_false,
                TimerManager.find, hfind]
              exact ⟨⟨moved h hx hcb rfl rfl, h.fresh_update hx _⟩, hkeep t timer _ hx hcb⟩
            · have hnone : timer.m_cb.isNone = true := by
                rw [← Option.not_isSome, Bool.eq_false_iff.mpr hcb]
                rfl
              simp only [TimerManager.reset, hx, if_neg hsame, hnone, if_true]
              exact ⟨h, fun _ _ hx _ => hx⟩
  | getNextTimer now =>
      obtain ⟨rfl, rfl⟩ := Prod.mk.inj hcall
      exact ⟨⟨h.linked, h.fresh⟩, fun _ _ hx _ => hx⟩
  | listExpiredCb now addr =>
      obtain ⟨rfl, rfl⟩ := Prod.mk.inj hcall
      have hfired := listExpiredCb_fired h now addr
      refine ⟨⟨hfired.linked, ?_⟩, ?_⟩
      · intro t ht
        have hnone := h.fresh t (hfired.count ▸ ht)
        rw [hfired.heap, hnone]
        split <;> rfl
      · intro t x hx hcb
        have hspent := h.spent hx hcb
        rw [hfired.heap, if_neg fun ht => hspent.1 (expiredAt_subset ht), hx]

theorem run_good {es : List (Op β × Outcome β)} (hr : (machine β).Run es m) : Good m := by
  apply hr.invariant
  · rintro m ⟨now, rfl⟩
    refine ⟨⟨?_, ?_, List.Pairwise.nil⟩, fun _ _ => rfl⟩
    · intro t
      simp [create, Live]
    · intro t u x y hx
      cases hx
  · intro m e m' h hstep
    exact (step_good h hstep).1

/-- What a call of `listExpiredCb` does to every timer, due or not. -/
structure Fires (now : UInt64) (m m' : TimerManager β) (cbs : List (Option β)) : Prop where
  handed : cbs = (expiredAt now m).map fun t => (m.heap t).bind Timer.m_cb
  present : none ∉ cbs
  recurring : ∀ t ∈ expiredAt now m, ∀ x, m.heap t = some x → x.m_recurring = true →
    m'.heap t = some { x with m_next := now + x.m_ms } ∧ t ∈ m'.m_timers
  oneShot : ∀ t ∈ expiredAt now m, ∀ x, m.heap t = some x → x.m_recurring = false →
    m'.heap t = some { x with m_cb := none } ∧ t ∉ m'.m_timers
  others : ∀ t, t ∉ expiredAt now m →
    m'.heap t = m.heap t ∧ (t ∈ m'.m_timers ↔ t ∈ m.m_timers)

theorem Fired.fires (h : Good m) {now : UInt64} {cbs : List (Option β)}
    (hf : Fired now (expiredAt now m) m m' cbs) : Fires now m m' cbs := by
  have hmem : ∀ t, t ∈ m'.m_timers ↔ Live m'.heap t := by
    intro t
    rw [← hf.linked.live]
    simp
  refine ⟨hf.cbs, ?_, ?_, ?_, ?_⟩
  · rw [hf.cbs]
    intro hnone
    obtain ⟨t, ht, he⟩ := List.mem_map.mp hnone
    obtain ⟨x, hx, hcb⟩ := h.linked.mem_live (expiredAt_subset ht)
    rw [hx, Option.bind_some] at he
    rw [he] at hcb
    cases hcb
  · intro t ht x hx hrec
    have hafter : m'.heap t = some { x with m_next := now + x.m_ms } := by
      rw [hf.heap, if_pos ht, hx, Option.map_some, afterFire, if_pos hrec]
    obtain ⟨y, hy, hcb⟩ := h.linked.mem_live (expiredAt_subset ht)
    rw [hx, Option.some.injEq] at hy
    exact ⟨hafter, (hmem t).mpr ⟨_, hafter, hy ▸ hcb⟩⟩
  · intro t ht x hx hrec
    have hafter : m'.heap t = some { x with m_cb := none } := by
      rw [hf.heap, if_pos ht, hx, Option.map_some, afterFire, hrec, if_neg Bool.false_ne_true]
    refine ⟨hafter, ?_⟩
    rw [hmem]
    rintro ⟨y, hy, hcb⟩
    rw [hafter, Option.some.injEq] at hy
    rw [← hy] at hcb
    cases hcb
  · intro t ht
    have hsame : m'.heap t = m.heap t := by rw [hf.heap, if_neg ht]
    refine ⟨hsame, ?_⟩
    rw [hmem, h.mem_iff, Live, Live, hsame]

/-- The machine from a state on. -/
def machineFrom (m : TimerManager β) : System (TimerManager β) (Op β × Outcome β) :=
  { machine β with init := fun m' => m' = m }

theorem spent_run (h : Good m) {x : Timer β} (hx : m.heap t = some x) (hcb : x.m_cb = none)
    {es : List (Op β × Outcome β)} (hr : (machineFrom m).Run es m') : Spent m' t := by
  have hkept : Good m' ∧ m'.heap t = some x := by
    apply hr.invariant (I := fun m' => Good m' ∧ m'.heap t = some x)
    · rintro m' rfl
      exact ⟨h, hx⟩
    · rintro m₁ e m₂ ⟨h₁, hx₁⟩ hstep
      obtain ⟨h₂, hkeep⟩ := step_good h₁ hstep
      exact ⟨h₂, hkeep t x hx₁ hcb⟩
  exact hkept.1.spent hkept.2 hcb

/-- In every run the set stays in its order with no timer twice, `listExpiredCb` fires what is due
and nothing else, and a timer that has lost its callback never comes back. -/
theorem run_timer_set {es : List (Op β × Outcome β)} (hr : (machine β).Run es m) :
    SortedSet.Sorted (timerKey m.heap) m.m_timers ∧ m.m_timers.Nodup ∧
      (∀ now addr, Fires now m (m.listExpiredCb now addr).1 (m.listExpiredCb now addr).2) ∧
      ∀ t x, m.heap t = some x → x.m_cb = none →
        ∀ es' m', (machineFrom m).Run es' m' → Spent m' t := by
  have h := run_good hr
  refine ⟨h.linked.sorted, h.linked.nodup, ?_, ?_⟩
  · intro now addr
    exact (listExpiredCb_fired h now addr).fires h
  · intro t x hx hcb es' m' hr'
    exact spent_run h hx hcb hr'

/-- A recurring timer behind a one-shot timer. -/
def twoTimers : List (Op Nat × Outcome Nat) :=
  [(.addTimer 5 70 true 8 0, .flag true), (.addTimer 3 71 false 4 0, .flag false)]

theorem run_timer_set_two_timers :
    ∃ m, (machine Nat).Run twoTimers m ∧ m.m_timers = [1, 0] ∧
      (m.listExpiredCb 5 6).2 = [some 71, some 70] ∧
      Fires 5 m (m.listExpiredCb 5 6).1 (m.listExpiredCb 5 6).2 := by
  have h₀ : (machine Nat).Run [] (create 0) := .start ⟨0, rfl⟩
  have h₁ := h₀.snoc (e := (Op.addTimer 5 70 true 8 0, Outcome.flag true))
    ⟨fun t ht => absurd ht List.not_mem_nil, Eq.refl _⟩
  have h₂ := h₁.snoc (e := (Op.addTimer 3 71 false 4 0, Outcome.flag false))
    ⟨fun t ht => (by rw [List.mem_singleton.mp ht]; decide), Eq.refl _⟩
  exact ⟨_, h₂, rfl, rfl, (run_timer_set h₂).2.2.1 5 6⟩

end CIM.TimerManager
