import CIM.Streams.HolderStats

/-!
# The ring of statistics

Each slot of the ring counts for the seconds that are one and the same modulo its size. The slots
of the seconds that have passed since the last call are cleared by the next one, so every slot
counts for the last of its seconds alone.
-/
namespace CIM.HolderStatsSet

open Transition RockSDLoadBalance

/-- What is added to a slot. -/
inductive Count
  | incUsedTime (v : UInt32)
  | incTotal (v : UInt32)
  | incDoing (v : UInt32)
  | incTimeouts (v : UInt32)
  | incOks (v : UInt32)
  | incErrs (v : UInt32)
  | decDoing (v : UInt32)

def Count.apply (s : HolderStats) : Count → HolderStats
  | .incUsedTime v => { s with m_usedTime := s.m_usedTime + v }
  | .incTotal v => { s with m_total := s.m_total + v }
  | .incDoing v => { s with m_doing := s.m_doing + v }
  | .incTimeouts v => { s with m_timeouts := s.m_timeouts + v }
  | .incOks v => { s with m_oks := s.m_oks + v }
  | .incErrs v => { s with m_errs := s.m_errs + v }
  | .decDoing v => { s with m_doing := s.m_doing - v }

/-- The ring, and the second of the last `get`, whose slot was returned. -/
structure World where
  stats : HolderStatsSet
  returned : Option UInt32

inductive Event
  | get (now : UInt32)
  | count (c : Count)
  | getWeight (now : UInt32)

def World.get (w : World) (now : UInt32) : World := ⟨w.stats.init now, some now⟩

def World.count (w : World) (now : UInt32) (c : Count) : World :=
  { w with stats := w.stats.modify (w.stats.slot now) (Count.apply · c) }

/-- The weight itself is read from the slots and changes nothing. -/
def World.getWeight (w : World) (now : UInt32) : World := { w with stats := w.stats.init now }

/-- The clock does not go back and has not reached the last of its seconds. -/
def Passes (s : HolderStatsSet) (now : UInt32) : Prop :=
  s.m_lastUpdateTime ≤ now ∧ now.toNat < 4294967295

/-- A count goes to the slot that `get` returned last, before the ring has gone round. -/
inductive Step : World → Event → World → Prop
  | get {w : World} {now : UInt32} : Passes w.stats now → Step w (.get now) (w.get now)
  | count {w : World} {now : UInt32} {c : Count} : w.returned = some now →
      w.stats.m_lastUpdateTime.toNat < now.toNat + w.stats.size →
      Step w (.count c) (w.count now c)
  | getWeight {w : World} {now : UInt32} : Passes w.stats now →
      Step w (.getWeight now) (w.getWeight now)

def ring (size : Nat) : System World Event where
  init w := w = ⟨.create size, none⟩
  step := Step

/-! ## What was counted -/

/-- The second of the last `get`, from the one before the events. -/
def lastGet (r : Option UInt32) : List Event → Option UInt32
  | [] => r
  | .get now :: es => lastGet (some now) es
  | .count _ :: es => lastGet r es
  | .getWeight _ :: es => lastGet r es

/-- What was counted behind a `get` of that second. -/
def counts (second : Nat) (r : Option UInt32) : List Event → List Count
  | [] => []
  | .get now :: es => counts second (some now) es
  | .count c :: es =>
      if r.map UInt32.toNat = some second then c :: counts second r es else counts second r es
  | .getWeight _ :: es => counts second r es

def recorded (es : List Event) (second : Nat) : HolderStats :=
  (counts second none es).foldl Count.apply {}

theorem lastGet_snoc (r : Option UInt32) (es : List Event) (e : Event) :
    lastGet r (es ++ [e]) = lastGet (lastGet r es) [e] := by
  induction es generalizing r with
  | nil => rfl
  | cons e' es ih => cases e' <;> exact ih _

theorem counts_snoc (second : Nat) (r : Option UInt32) (es : List Event) (e : Event) :
    counts second r (es ++ [e]) = counts second r es ++ counts second (lastGet r es) [e] := by
  induction es generalizing r with
  | nil => rfl
  | cons e' es ih =>
      cases e' with
      | get now => exact ih _
      | getWeight now => exact ih _
      | count c =>
          change (if _ then c :: counts second r (es ++ [e]) else counts second r (es ++ [e])) =
            (if _ then c :: counts second r es else counts second r es) ++ _
          rw [ih]
          split_ifs <;> rfl

variable {es : List Event} {w w' : World} {now : UInt32} {size : Nat}

theorem recorded_get (second : Nat) : recorded (es ++ [.get now]) second = recorded es second := by
  rw [recorded, counts_snoc, counts, counts, List.append_nil, recorded]

theorem recorded_getWeight (second : Nat) :
    recorded (es ++ [.getWeight now]) second = recorded es second := by
  rw [recorded, counts_snoc, counts, counts, List.append_nil, recorded]

theorem recorded_count (c : Count) (second : Nat) (h : lastGet none es = some now) :
    recorded (es ++ [.count c]) second =
      if now.toNat = second then Count.apply (recorded es second) c else recorded es second := by
  rw [recorded, counts_snoc, h, counts, counts, Option.map_some]
  by_cases hs : now.toNat = second
  · rw [if_pos (congrArg some hs), if_pos hs, List.foldl_append]
    rfl
  · rw [if_neg fun he => hs (Option.some.inj he), if_neg hs, List.append_nil]
    rfl

/-! ## The slots that are cleared -/

theorem mem_passed_iff (hnow : now.toNat < 4294967295) {k i : Nat} {t : UInt32} :
    k ∈ passed size now i t ↔
      ∃ j, t.toNat ≤ j ∧ j ≤ now.toNat ∧ j < t.toNat + i ∧ k = j % size := by
  induction i generalizing t with
  | zero =>
      refine iff_of_false List.not_mem_nil ?_
      rintro ⟨j, hj, -, hlt, -⟩
      omega
  | succ i ih =>
      unfold passed
      split_ifs with hle
      · have hle' := UInt32.le_iff_toNat_le.mp hle
        have hsucc : (t + 1).toNat = t.toNat + 1 := Inv.toNat_succ rfl (by omega)
        rw [List.mem_cons, ih, hsucc]
        constructor
        · rintro (rfl | ⟨j, hj, hjn, hlt, hk⟩)
          · exact ⟨t.toNat, by omega, hle', by omega, rfl⟩
          · exact ⟨j, by omega, hjn, by omega, hk⟩
        · rintro ⟨j, hj, hjn, hlt, hk⟩
          rcases Nat.eq_or_lt_of_le hj with rfl | hj
          · exact .inl hk
          · exact .inr ⟨j, by omega, hjn, by omega, hk⟩
      · have hlt' : now.toNat < t.toNat := by
          rw [UInt32.le_iff_toNat_le] at hle
          omega
        refine iff_of_false List.not_mem_nil ?_
        rintro ⟨j, hj, hjn, -⟩
        omega

/-- The slots of the first `size` seconds behind the last call. -/
theorem mem_stale_iff {s : HolderStatsSet} (h : Passes s now) {k : Nat} :
    k ∈ s.stale now ↔ ∃ j, s.m_lastUpdateTime.toNat < j ∧ j ≤ now.toNat ∧
      j ≤ s.m_lastUpdateTime.toNat + s.size ∧ k = j % s.size := by
  obtain ⟨hle, hnow⟩ := h
  have hle' := UInt32.le_iff_toNat_le.mp hle
  unfold stale
  split_ifs with hlt
  · have hlt' := UInt32.lt_iff_toNat_lt.mp hlt
    have hsucc : (s.m_lastUpdateTime + 1).toNat = s.m_lastUpdateTime.toNat + 1 :=
      Inv.toNat_succ rfl (by omega)
    rw [mem_passed_iff hnow, hsucc]
    constructor
    · rintro ⟨j, hj, hjn, hjs, hk⟩
      exact ⟨j, by omega, hjn, by omega, hk⟩
    · rintro ⟨j, hj, hjn, hjs, hk⟩
      exact ⟨j, by omega, hjn, by omega, hk⟩
  · have hnlt : ¬ s.m_lastUpdateTime.toNat < now.toNat :=
      fun hx => hlt (UInt32.lt_iff_toNat_lt.mpr hx)
    refine iff_of_false List.not_mem_nil ?_
    rintro ⟨j, hj, hjn, -⟩
    omega

/-- Two seconds of one slot that are less than a round apart are the same. -/
theorem eq_of_slot_eq {j second : Nat} (hmod : j % size = second % size)
    (hlt : j < second + size) (hlt' : second < j + size) : j = second := by
  rcases Nat.le_total second j with hle | hle
  · have hd := (Nat.modEq_iff_dvd' hle).mp hmod.symm
    have := Nat.eq_zero_of_dvd_of_lt hd (by omega)
    omega
  · have hd := (Nat.modEq_iff_dvd' hle).mp hmod
    have := Nat.eq_zero_of_dvd_of_lt hd (by omega)
    omega

/-- Of the seconds that the ring holds at `now`, those behind the last call are cleared. -/
theorem slot_mem_stale_iff {s : HolderStatsSet} (h : Passes s now) {second : Nat}
    (hle : second ≤ now.toNat) (hring : now.toNat < second + s.size) :
    second % s.size ∈ s.stale now ↔ s.m_lastUpdateTime.toNat < second := by
  rw [mem_stale_iff h]
  constructor
  · rintro ⟨j, hj, hjn, -, hk⟩
    by_contra hback
    have := eq_of_slot_eq hk.symm (by omega) (by omega)
    omega
  · intro hlast
    -- the same slot within the first round behind the last call
    refine ⟨s.m_lastUpdateTime.toNat + 1 + (second - (s.m_lastUpdateTime.toNat + 1)) % s.size,
      by omega, ?_, ?_, ?_⟩
    · have := Nat.mod_le (second - (s.m_lastUpdateTime.toNat + 1)) s.size
      omega
    · have := Nat.mod_lt (second - (s.m_lastUpdateTime.toNat + 1)) (show 0 < s.size by omega)
      omega
    · rw [Nat.add_mod_mod]
      congr 1
      omega

theorem early_not_stale {s : HolderStatsSet} (h : Passes s now) {k : Nat} (hk : now.toNat < k) :
    k ∉ s.stale now := by
  rw [mem_stale_iff h]
  rintro ⟨j, -, hjn, -, rfl⟩
  have := Nat.mod_le j s.size
  omega

/-! ## The invariant -/

/-- At its last second the ring holds what was counted in each of the seconds of one round. -/
structure Holds (size : Nat) (es : List Event) (w : World) : Prop where
  size_eq : w.stats.size = size
  returned : lastGet none es = w.returned
  returned_le : ∀ now, w.returned = some now → now.toNat ≤ w.stats.m_lastUpdateTime.toNat
  later : ∀ second, w.stats.m_lastUpdateTime.toNat < second → recorded es second = {}
  held : ∀ second, second ≤ w.stats.m_lastUpdateTime.toNat →
    w.stats.m_lastUpdateTime.toNat < second + size →
    w.stats.m_stats (second % size) = recorded es second
  early : ∀ k, w.stats.m_lastUpdateTime.toNat < k → k < size → w.stats.m_stats k = {}

theorem last_init {s : HolderStatsSet} (h : Passes s now) :
    (s.init now).m_lastUpdateTime = now := by
  unfold init
  split_ifs with hlt
  · rfl
  · exact UInt32.le_antisymm h.1 (UInt32.not_lt.mp hlt)

namespace Holds

theorem empty : Holds size [] ⟨.create size, none⟩ where
  size_eq := rfl
  returned := rfl
  returned_le := nofun
  later _ _ := rfl
  held _ _ _ := rfl
  early _ _ _ := rfl

/-- `init`, whatever is recorded in the history besides. -/
theorem init (h : Holds size es w) (hp : Passes w.stats now) {es' : List Event}
    {returned : Option UInt32} (hrec : ∀ second, recorded es' second = recorded es second)
    (hlast : lastGet none es' = returned)
    (hreturned : ∀ t, returned = some t → t.toNat ≤ now.toNat) :
    Holds size es' ⟨w.stats.init now, returned⟩ where
  size_eq := (init_size _ _).trans h.size_eq
  returned := hlast
  returned_le := by
    change ∀ t, returned = some t → t.toNat ≤ (w.stats.init now).m_lastUpdateTime.toNat
    rw [last_init hp]
    exact hreturned
  later second hlt := by
    change (w.stats.init now).m_lastUpdateTime.toNat < second at hlt
    rw [last_init hp] at hlt
    rw [hrec]
    exact h.later second (Nat.lt_of_le_of_lt (UInt32.le_iff_toNat_le.mp hp.1) hlt)
  held second hle hring := by
    change second ≤ (w.stats.init now).m_lastUpdateTime.toNat at hle
    change (w.stats.init now).m_lastUpdateTime.toNat < second + size at hring
    rw [last_init hp] at hle hring
    have hmono := UInt32.le_iff_toNat_le.mp hp.1
    have hstale := slot_mem_stale_iff hp hle (h.size_eq.symm ▸ hring)
    rw [h.size_eq] at hstale
    change (w.stats.init now).m_stats (second % size) = recorded es' second
    rw [init_stats, hrec]
    split_ifs with hcleared
    · exact (h.later second (hstale.mp hcleared)).symm
    · exact h.held second (Nat.not_lt.mp fun hx => hcleared (hstale.mpr hx)) (by omega)
  early k hlt hk := by
    change (w.stats.init now).m_lastUpdateTime.toNat < k at hlt
    rw [last_init hp] at hlt
    have hmono := UInt32.le_iff_toNat_le.mp hp.1
    change (w.stats.init now).m_stats k = {}
    rw [init_stats, if_neg (early_not_stale hp hlt)]
    exact h.early k (by omega) hk

theorem count (h : Holds size es w) (hreturned : w.returned = some now)
    (hring : w.stats.m_lastUpdateTime.toNat < now.toNat + size) (c : Count) :
    Holds size (es ++ [.count c]) (w.count now c) where
  size_eq := h.size_eq
  returned := by
    rw [lastGet_snoc]
    exact h.returned
  returned_le := h.returned_le
  later second hlt := by
    have hle := h.returned_le now hreturned
    change w.stats.m_lastUpdateTime.toNat < second at hlt
    rw [recorded_count c second (h.returned.trans hreturned), if_neg (by omega)]
    exact h.later second hlt
  held second hle hwithin := by
    have hback := h.returned_le now hreturned
    change second ≤ w.stats.m_lastUpdateTime.toNat at hle
    change w.stats.m_lastUpdateTime.toNat < second + size at hwithin
    change Function.update w.stats.m_stats (w.stats.slot now) _ (second % size) = _
    rw [recorded_count c second (h.returned.trans hreturned), slot, h.size_eq]
    by_cases hs : now.toNat = second
    · rw [if_pos hs, hs, Function.update_self, h.held second hle hwithin]
    · rw [if_neg hs, Function.update_of_ne]
      · exact h.held second hle hwithin
      · exact fun hmod => hs (eq_of_slot_eq hmod.symm (by omega) (by omega))
  early k hlt hk := by
    have hback := h.returned_le now hreturned
    change w.stats.m_lastUpdateTime.toNat < k at hlt
    change Function.update w.stats.m_stats (w.stats.slot now) _ k = {}
    rw [slot, h.size_eq, Function.update_of_ne]
    · exact h.early k hlt hk
    · rw [Nat.mod_eq_of_lt (by omega)]
      omega

theorem step {e : Event} (h : Holds size es w) (hs : Step w e w') :
    Holds size (es ++ [e]) w' := by
  cases hs with
  | get hp =>
      refine h.init hp recorded_get (lastGet_snoc none es _) ?_
      rintro t ⟨⟩
      exact Nat.le_refl _
  | count hreturned hring => exact h.count hreturned (h.size_eq ▸ hring) _
  | getWeight hp =>
      refine h.init hp recorded_getWeight ?_ fun t ht =>
        (h.returned_le t ht).trans (UInt32.le_iff_toNat_le.mp hp.1)
      rw [lastGet_snoc]
      exact h.returned

end Holds

/-- The last second of a slot is less than a round back. -/
theorem exists_last_second {k last : Nat} (hk : k < size) (hle : k ≤ last) :
    ∃ second, second ≤ last ∧ last < second + size ∧ second % size = k := by
  have hmod := Nat.mod_lt (last - k) (show 0 < size by omega)
  have hback := Nat.mod_le (last - k) size
  have hdiv := Nat.div_add_mod (last - k) size
  refine ⟨last - (last - k) % size, Nat.sub_le .., by omega, ?_⟩
  have hsecond : last - (last - k) % size = k + size * ((last - k) / size) := by omega
  rw [hsecond, Nat.add_mul_mod_self_left, Nat.mod_eq_of_lt hk]

/-- In every run `get` finds in its slot what was counted in the same second before, and each slot
holds what was counted in the last of its seconds of the round, or nothing where there is none. -/
theorem ring_counts (hsize : 1 ≤ size) (h : (ring size).Run es w) :
    (∀ now, Passes w.stats now → w.stats.slot now < size ∧
      (w.get now).stats.m_stats (w.stats.slot now) = recorded es now.toNat) ∧
    ∀ k < size,
      (∃ second, second ≤ w.stats.m_lastUpdateTime.toNat ∧
        w.stats.m_lastUpdateTime.toNat < second + size ∧ second % size = k ∧
        w.stats.m_stats k = recorded es second) ∨
      w.stats.m_lastUpdateTime.toNat < k ∧ w.stats.m_stats k = {} := by
  have hholds : Holds size es w :=
    h.history (fun _ hi => hi ▸ .empty) fun _ _ _ _ hes hs => hes.step hs
  refine ⟨fun now hp => ?_, fun k hk => ?_⟩
  · have hget := hholds.step (.get hp)
    have hlast : (w.get now).stats.m_lastUpdateTime.toNat = now.toNat :=
      congrArg UInt32.toNat (last_init hp)
    rw [slot, hholds.size_eq, hget.held now.toNat (Nat.le_of_eq hlast.symm) (by omega),
      recorded_get]
    exact ⟨Nat.mod_lt _ hsize, rfl⟩
  · rcases Nat.lt_or_ge w.stats.m_lastUpdateTime.toNat k with hlt | hle
    · exact .inr ⟨hlt, hholds.early k hlt hk⟩
    · obtain ⟨second, hback, hring, hmod⟩ := exists_last_second hk hle
      exact .inl ⟨second, hback, hring, hmod, hmod ▸ hholds.held second hback hring⟩

/-- Counts in the seconds 10 and 13. -/
def twoSeconds : List Event :=
  [.get 10, .count (.incTotal 3), .getWeight 11, .get 13, .count (.incOks 1)]

theorem ring_counts_two_seconds :
    ∃ w, (ring 2).Run twoSeconds w ∧
      (∀ now, Passes w.stats now → w.stats.slot now < 2 ∧
        (w.get now).stats.m_stats (w.stats.slot now) = recorded twoSeconds now.toNat) ∧
      w.stats.m_stats 0 = {} := by
  have h₀ : (ring 2).Run [] ⟨.create 2, none⟩ := .start rfl
  have h₁ := h₀.snoc (e := Event.get 10) (.get ⟨by decide, by decide⟩)
  have h₂ := h₁.snoc (e := Event.count (.incTotal 3)) (.count rfl (by decide))
  have h₃ := h₂.snoc (e := Event.getWeight 11) (.getWeight ⟨by decide, by decide⟩)
  have h₄ := h₃.snoc (e := Event.get 13) (.get ⟨by decide, by decide⟩)
  have h₅ := h₄.snoc (e := Event.count (.incOks 1)) (.count rfl (by decide))
  exact ⟨_, h₅, (ring_counts (by decide) h₅).1, by decide⟩

end CIM.HolderStatsSet
