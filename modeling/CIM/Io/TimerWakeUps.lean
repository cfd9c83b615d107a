import CIM.Io.WakeUpRuns

/-!
# Timers and the threads that sleep

A timer is forgotten where it is inserted in front while the flag of an earlier notification is
set, where a thread that was to look at the timers takes a task, and where a thread falls asleep
for longer.
-/
namespace CIM

open Transition

namespace TimerManager

variable {β : Type} {m : TimerManager β}

/-- The time of the first timer of the set. -/
def front (m : TimerManager β) : Option UInt64 :=
  (m.m_timers.head?.bind m.heap).map Timer.m_next

/-- A new timer that comes before the others is announced, unless the flag is set. -/
theorem addTimer_front (hgood : Good m) (ms : UInt64) (cb : β) (recurring : Bool) (addr : Nat)
    (now : UInt64) :
    (m.addTimer ms cb recurring addr now).1.front = m.front ∧
        (∃ d, m.front = some d ∧ d ≤ now + ms) ∨
      (m.addTimer ms cb recurring addr now).1.front = some (now + ms) ∧
        (∀ d, m.front = some d → now + ms < d) ∧
        (m.addTimer ms cb recurring addr now).2 = !m.m_tickled := by
  obtain ⟨heap, count, m_timers, m_tickled, m_previouseTime⟩ := m
  obtain ⟨heap', hheap⟩ : ∃ heap', heap' = Function.update heap count
      (some ⟨recurring, ms, now + ms, some cb, addr⟩) := ⟨_, rfl⟩
  have hnew : heap' count = some ⟨recurring, ms, now + ms, some cb, addr⟩ := by
    rw [hheap, Function.update_self]
  have hself : ¬comparator heap' count count = true := by
    rw [comparator, hnew, less_eq_true]
    rintro (h | ⟨-, h⟩)
    · exact Nat.lt_irrefl _ h
    · exact Nat.lt_irrefl _ h
  have hfront : (addTimer ms cb recurring addr now
      ⟨heap, count, m_timers, m_tickled, m_previouseTime⟩).1.front =
        ((SortedSet.insert (comparator heap') count m_timers).head?.bind heap').map
          Timer.m_next := by
    rw [hheap]
    rfl
  have hnotified : (addTimer ms cb recurring addr now
      ⟨heap, count, m_timers, m_tickled, m_previouseTime⟩).2 =
        (decide (SortedSet.find (comparator heap') count
          (SortedSet.insert (comparator heap') count m_timers) =
            (SortedSet.insert (comparator heap') count m_timers).head?) && !m_tickled) := by
    rw [hheap]
    rfl
  rw [hfront, hnotified]
  cases m_timers with
  | nil =>
      refine .inr ⟨?_, ?_, ?_⟩
      · change Option.map Timer.m_next (heap' count) = _
        rw [hnew]
        rfl
      · intro d hd
        cases hd
      · rw [SortedSet.insert, SortedSet.find, if_neg hself, if_neg hself]
        change (decide (some count = some count) && _) = _
        rw [decide_eq_true rfl, Bool.true_and]
  | cons first rest =>
      obtain ⟨y, hy, -⟩ := hgood.linked.mem_live (t := first) List.mem_cons_self
      have hy' : heap' first = some y := by
        rw [hheap, Function.update_of_ne (Nat.ne_of_lt (hgood.lt_count hy))]
        exact hy
      have hold : (⟨heap, count, first :: rest, m_tickled, m_previouseTime⟩ :
          TimerManager β).front = some y.m_next := by
        change Option.map Timer.m_next (heap first) = _
        rw [show heap first = some y from hy]
        rfl
      rw [hold]
      by_cases hlt : comparator heap' count first = true
      · rw [SortedSet.insert, if_pos hlt, SortedSet.find, if_neg hself, if_neg hself]
        change Option.map Timer.m_next (heap' count) = _ ∧ _ ∨
          Option.map Timer.m_next (heap' count) = _ ∧ _
        rw [hnew]
        rw [comparator, hnew, hy', less_eq_true] at hlt
        rcases hlt with hlt | ⟨heq, -⟩
        · refine .inr ⟨rfl, ?_, ?_⟩
          · rintro d ⟨⟩
            exact UInt64.lt_iff_toNat_lt.mpr hlt
          · change (decide (some count = some count) && _) = _
            rw [decide_eq_true rfl, Bool.true_and]
        · have heq' : now + ms = y.m_next := UInt64.toNat_inj.mp heq
          exact .inl ⟨congrArg some heq', y.m_next, rfl, heq'.symm ▸ UInt64.le_rfl⟩
      · have hle : y.m_next ≤ now + ms := by
          have hless := hlt
          rw [comparator, hnew, hy', less_eq_true] at hless
          exact UInt64.le_iff_toNat_le.mpr (Nat.le_of_not_lt fun h => hless (.inl h))
        refine .inl ⟨?_, y.m_next, rfl, hle⟩
        have hhead : (SortedSet.insert (comparator heap') count (first :: rest)).head? =
            some first := by
          rw [SortedSet.insert, if_neg hlt]
          split <;> rfl
        rw [hhead]
        change Option.map Timer.m_next (heap' first) = _
        rw [hy']
        rfl

end TimerManager

namespace WakeUp

variable {n : Nat} {s s' : WakeUp} {e : Step}

/-- A thread that is blocked wakes up by the given time. -/
def OnTime (n : Nat) (s : WakeUp) (d : UInt64) : Prop :=
  ∃ b m, s.Blocked n b ∧ s.pc b = .wait (some m) ∧ m ≤ d.toNat

/-- Somebody but thread `t` will look at the timers, or has a byte to write for one. -/
def OthersLookAtTimers (n : Nat) (s : WakeUp) (t : Nat) : Prop :=
  0 < s.bytes ∨ (∃ k, s.caller (.addTimer k) ≠ none) ∨ ∃ u, u ≠ t ∧ s.OnItsWay n u

/-- Some thread will look, or one that is blocked wakes up in time, when a timer is inserted in
front and the flag of an earlier notification is set, when a thread takes a task, and when a thread
falls asleep. -/
def TimersCovered (n : Nat) (s : WakeUp) : Step → Prop
  | .addTimer _ ms _ _ _ => s.m_timers.m_tickled = false ∨
      (∃ d, s.deadline = some d ∧ d ≤ s.clock + ms) ∨ (∀ b, ¬s.Blocked n b) ∨
        s.LooksAtTimers n ∨ s.OnTime n (s.clock + ms)
  | .next t _ =>
      (s.pc t = .scan → s.m_taskQueue.find? (s.eligible t) = none ∨ s.OthersLookAtTimers n t ∨
        ¬s.TimerWaits n) ∧
      ∀ next_timeout, s.pc t = .epoll next_timeout →
        waitUntil s.clock next_timeout = some s.clock.toNat ∨ s.OthersLookAtTimers n t ∨
          ∀ d, s.deadline = some d →
            (∃ m, waitUntil s.clock next_timeout = some m ∧ m ≤ d.toNat) ∨ s.OnTime n d
  | _ => True

/-! ## The timers of a run -/

theorem run_timers {t : Nat} {o : Choice} (hgood : s.m_timers.Good) (h : s.run t o = some s') :
    s'.m_timers.Good := by
  unfold run at h
  split at h
  case h_5 =>
    injection h with h
    subst h
    exact (TimerManager.step_good hgood
      (e := (.getNextTimer s.clock, .time (s.m_timers.getNextTimer s.clock).2))
      ⟨trivial, rfl⟩).1
  case h_8 tickled addr _ =>
    injection h with h
    subst h
    exact (TimerManager.step_good hgood
      (e := (.listExpiredCb s.clock addr, .cbs (s.m_timers.listExpiredCb s.clock addr).2))
      ⟨trivial, rfl⟩).1
  case h_1 =>
    split at h
    · injection h with h
      subst h
      exact hgood
    · cases h
  case h_2 =>
    split at h <;> injection h with h <;> subst h <;> exact hgood
  case h_3 =>
    split at h
    · cases h
    · injection h with h
      subst h
      split <;> exact hgood
  case h_16 => cases h
  all_goals
    injection h with h
    subst h
    exact hgood

theorem exec_timers (hgood : s.m_timers.Good) (h : s.exec n e = some s') : s'.m_timers.Good := by
  cases e with
  | schedule k tasks =>
      rw [exec] at h
      split at h
      · injection h with h
        subst h
        exact hgood
      · cases h
  | addTimer k ms cb recurring addr =>
      rw [exec] at h
      split at h
      · split at h
        next haddr =>
          injection h with h
          subst h
          exact (TimerManager.step_good hgood
            (e := (.addTimer ms cb recurring addr s.clock, .flag _)) ⟨haddr, rfl⟩).1
        next => cases h
      · cases h
  | tickle k =>
      rw [exec] at h
      split at h
      · cases h
      all_goals
        injection h with h
        subst h
        exact hgood
  | advance now =>
      rw [exec] at h
      split at h
      · injection h with h
        subst h
        exact hgood
      · cases h
  | next t o =>
      rw [exec] at h
      split at h
      · exact run_timers hgood h
      · cases h

/-! ## The invariant -/

theorem timerWaits_iff : s.TimerWaits n ↔
    (∃ b, s.Blocked n b) ∧ ∃ d, s.deadline = some d ∧ ¬s.OnTime n d := by
  refine and_congr_right fun _ => exists_congr fun d => and_congr_right fun _ => ?_
  constructor
  · rintro h ⟨b, m, hb, hpc, hle⟩
    exact Nat.not_lt_of_le hle (h b m hb hpc)
  · intro h b m hb hpc
    by_contra hlt
    exact h ⟨b, m, hb, hpc, Nat.le_of_not_lt hlt⟩

/-- A thread that goes on from where it does not wait leaves the others as they are. -/
theorem OnTime.goto {t : Nat} {d : UInt64} (h : s.OnTime n d) (ht : ∀ last, s.pc t ≠ .wait last)
    (hpc : ∀ u, u ≠ t → s'.pc u = s.pc u) (hclock : s'.clock = s.clock) : s'.OnTime n d := by
  obtain ⟨b, m, ⟨hb, last, hlast, htime⟩, hm, hle⟩ := h
  have hne : b ≠ t := by
    rintro rfl
    exact ht _ hm
  exact ⟨b, m, ⟨hb, last, (hpc b hne).trans hlast, hclock ▸ htime⟩, (hpc b hne).trans hm, hle⟩

theorem OthersLookAtTimers.goto {t : Nat} (h : s.OthersLookAtTimers n t)
    (hbytes : s'.bytes = s.bytes) (hcaller : s'.caller = s.caller) (hclock : s'.clock = s.clock)
    (hpc : ∀ u, u ≠ t → s'.pc u = s.pc u) : s'.LooksAtTimers n := by
  rcases h with hb | ⟨k, hk⟩ | ⟨u, hut, hway⟩
  · exact .inl (hbytes ▸ hb)
  · exact .inr (.inl ⟨k, hcaller ▸ hk⟩)
  · exact .inr (.inr ⟨u, hway.keep (hclock ▸ UInt64.le_rfl) (hpc u hut)⟩)

/-- A thread that has a task is not the one that looks. -/
theorem LooksAtTimers.others {t : Nat} (h : s.LooksAtTimers n)
    (hexec : (s.pc t).executing = true) : s.OthersLookAtTimers n t := by
  rcases h with hb | hk | ⟨u, hway⟩
  · exact .inl hb
  · exact .inr (.inl hk)
  · exact .inr (.inr ⟨u, hway.ne hexec, hway⟩)

/-- The threads, the pipe and the calls of `addTimer` as they were. -/
theorem LooksAtTimers.same (h : s.LooksAtTimers n) (hbytes : s'.bytes = s.bytes)
    (hcaller : ∀ k, s'.caller (.addTimer k) = s.caller (.addTimer k))
    (hclock : s.clock ≤ s'.clock) (hpc : s'.pc = s.pc) : s'.LooksAtTimers n := by
  rcases h with hb | ⟨k, hk⟩ | ⟨u, hway⟩
  · exact .inl (hbytes ▸ hb)
  · exact .inr (.inl ⟨k, (hcaller k).symm ▸ hk⟩)
  · exact .inr (.inr ⟨u, hway.keep hclock (by rw [hpc])⟩)

theorem Wakes.looksAtTimers (h : Wakes n s) (hwaits : s.TimerWaits n) : s.LooksAtTimers n := by
  cases h with
  | byte h => exact .inl h
  | inserts k h => exact .inr (.inl ⟨k, h⟩)
  | way t h => exact .inr (.inr ⟨t, h⟩)
  | nobody h =>
      obtain ⟨b, hb⟩ := hwaits.1
      exact absurd hb (h b)

theorem setCaller_schedule (s : WakeUp) (k j : Nat) (p : Option Tickle) :
    (s.setCaller (.schedule k) p).caller (.addTimer j) = s.caller (.addTimer j) := by
  have hne : Call.addTimer j ≠ Call.schedule k := by
    intro h
    cases h
  exact Function.update_of_ne hne p s.caller

/-- Where thread `t` does not look, the others do. -/
theorem LooksAtTimers.elsewhere {t : Nat} (h : s'.LooksAtTimers n) (hbytes : s'.bytes = s.bytes)
    (hcaller : s'.caller = s.caller) (hclock : s'.clock = s.clock)
    (hpc : ∀ u, u ≠ t → s'.pc u = s.pc u) (hway : ¬s'.OnItsWay n t) :
    s.OthersLookAtTimers n t := by
  rcases h with hb | ⟨k, hk⟩ | ⟨u, hlook⟩
  · exact .inl (hbytes ▸ hb)
  · exact .inr (.inl ⟨k, hcaller ▸ hk⟩)
  · have hut : u ≠ t := by
      rintro rfl
      exact hway hlook
    exact .inr (.inr ⟨u, hut, hlook.keep (hclock ▸ UInt64.le_rfl) (hpc u hut).symm⟩)

/-- A thread that goes on from where it does not wait to where it does not wait does not matter. -/
theorem TimerWaits.goto {t : Nat} (h : s'.TimerWaits n) (ht : ∀ last, s.pc t ≠ .wait last)
    (ht' : ∀ last, s'.pc t ≠ .wait last) (hpc : ∀ u, u ≠ t → s'.pc u = s.pc u)
    (hclock : s'.clock = s.clock) (htimers : s'.m_timers = s.m_timers) : s.TimerWaits n := by
  obtain ⟨⟨b, hb⟩, d, hd, hlate⟩ := timerWaits_iff.mp h
  have hbt : b ≠ t := hb.ne ht'
  refine timerWaits_iff.mpr ⟨⟨b, hb.keep (hpc b hbt).symm hclock.symm⟩, d, ?_, ?_⟩
  · rw [deadline, ← htimers]
    exact hd
  · exact fun hontime => hlate (hontime.goto ht hpc hclock)

theorem silent_timers (hgood : s.m_timers.Good) (hsilent : Silent n s e s')
    (hcovered : s.TimersCovered n e) (ih : s.TimerWaits n → s.LooksAtTimers n)
    (h : s'.TimerWaits n) : s'.LooksAtTimers n := by
  cases hsilent with
  | enter t c hpc hs' =>
      subst hs'
      have hold : s.TimerWaits n :=
        h.goto (t := t) (by rw [hpc]; exact fun _ h => nomatch h)
          (fun _ h => nomatch (goto_self s t (.exec c)).symm.trans h)
          (fun u hu => goto_other s _ hu) rfl rfl
      exact ((ih hold).others (t := t) (by rw [hpc]; rfl)).goto rfl rfl rfl
        fun u hu => goto_other s _ hu
  | schedule k tasks he hr hs' =>
      subst hs'
      exact (ih h).same rfl (fun _ => rfl) UInt64.le_rfl rfl
  | tickles k queue hs' =>
      subst hs'
      exact (ih h).same rfl (fun j => setCaller_schedule s k j (some .check)) UInt64.le_rfl rfl
  | writes call hp hs' =>
      subst hs'
      cases call with
      | schedule k =>
          exact (ih h).same rfl (fun j => setCaller_schedule s k j _) UInt64.le_rfl rfl
      | addTimer k =>
          refine .inr (.inl ⟨k, ?_⟩)
          change Function.update s.caller (.addTimer k) _ (.addTimer k) ≠ none
          rw [Function.update_self]
          exact Option.some_ne_none _
  | addTimer k ms cb recurring addr he hr hs' =>
      subst he hs'
      obtain ⟨⟨b, hb⟩, d, hd, hlate⟩ := timerWaits_iff.mp h
      have hlooks : s.LooksAtTimers n := by
        rcases TimerManager.addTimer_front hgood ms cb recurring addr s.clock with
          ⟨hsame, -⟩ | ⟨hfront, hfirst, hnotified⟩
        · exact ih (timerWaits_iff.mpr ⟨⟨b, hb⟩, d, hsame.symm.trans hd, hlate⟩)
        · rw [hr] at hnotified
          rcases hcovered with hflag | ⟨old, hold, hle⟩ | hnone | hlooks | hontime
          · rw [hflag] at hnotified
            cases hnotified
          · exact absurd hle (UInt64.not_le.mpr (hfirst old hold))
          · exact absurd hb (hnone b)
          · exact hlooks
          · have hd' : some (s.clock + ms) = some d := hfront.symm.trans hd
            cases hd'
            exact absurd hontime hlate
      exact hlooks.same rfl (fun _ => rfl) UInt64.le_rfl rfl
  | pick t c o ht he hpc hfind p hp states hstates hs' =>
      subst he hs'
      rcases hcovered.1 hpc with hnone | hlooks | hwaits
      · exact absurd hnone hfind
      · exact hlooks.goto rfl rfl rfl fun u hu => goto_other s _ hu
      · have hpwait : ∀ last, p ≠ .wait last := by
          rw [hp]
          split <;> exact fun _ h => nomatch h
        exact absurd (h.goto (s := s) (t := t) (by rw [hpc]; exact fun _ h => nomatch h)
          (fun last h => hpwait last ((goto_self s t p).symm.trans h))
          (fun u hu => goto_other s _ hu) rfl rfl) hwaits
  | write t ht next hexec hpc hs' =>
      subst hs'
      have hold : s.TimerWaits n :=
        h.goto (t := t) (by rw [hpc]; exact fun _ h => nomatch h)
          (fun _ h => nomatch (goto_self s t (.tickle .write next)).symm.trans h)
          (fun u hu => goto_other s _ hu) rfl rfl
      exact ((ih hold).others (t := t) (by rw [hpc]; exact hexec)).goto rfl rfl rfl
        fun u hu => goto_other s _ hu
  | block t next_timeout ht he hpc hs' =>
      subst he hs'
      obtain ⟨⟨b, hb⟩, d, hd, hlate⟩ := timerWaits_iff.mp h
      have hwait : ∀ last, s.pc t ≠ .wait last := by
        rw [hpc]
        exact fun _ h => nomatch h
      -- the thread looks at once where its time is over as it begins to wait
      have hover : ∀ m, waitUntil s.clock next_timeout = some m → m ≤ s.clock.toNat →
          (s.goto t (.wait (waitUntil s.clock next_timeout))).LooksAtTimers n := by
        intro m hm hle
        refine .inr (.inr ⟨t, ht, ?_, by rw [goto_self]; rfl⟩)
        rintro ⟨-, last, hlast, htime⟩
        rw [goto_self, Pc.wait.injEq] at hlast
        exact Nat.not_lt_of_le hle (htime m (hlast.symm.trans hm))
      rcases hcovered.2 next_timeout hpc with hnow | hlooks | hontime
      · exact hover _ hnow (Nat.le_refl _)
      · exact hlooks.goto rfl rfl rfl fun u hu => goto_other s _ hu
      · rcases hontime d hd with ⟨m, hm, hle⟩ | hontime
        · by_cases hlt : s.clock.toNat < m
          · have hself : (s.goto t (.wait (waitUntil s.clock next_timeout))).pc t =
                .wait (some m) := by rw [goto_self, hm]
            refine absurd ⟨t, m, ⟨ht, some m, hself, ?_⟩, hself, hle⟩ hlate
            rintro m' ⟨⟩
            exact hlt
          · exact hover m hm (Nat.le_of_not_lt hlt)
        · exact absurd (hontime.goto hwait (fun u hu => goto_other s _ hu) rfl) hlate
  | advance now hnow hs' =>
      subst hs'
      obtain ⟨⟨b, hb⟩, d, hd, hlate⟩ := timerWaits_iff.mp h
      have hle := UInt64.le_iff_toNat_le.mp hnow
      by_cases hover : ∃ u, s.Blocked n u ∧ ¬Blocked n { s with clock := now } u
      · obtain ⟨u, ⟨hu, last, hlast, -⟩, hnot⟩ := hover
        exact .inr (.inr ⟨u, hu, hnot, congrArg Pc.executing hlast⟩)
      · refine (ih (timerWaits_iff.mpr ⟨⟨b, ?_⟩, d, hd, ?_⟩)).same rfl (fun _ => rfl) hnow rfl
        · obtain ⟨hbn, last, hlast, htime⟩ := hb
          exact ⟨hbn, last, hlast, fun m hm => Nat.lt_of_le_of_lt hle (htime m hm)⟩
        · rintro ⟨u, m, hu, hm, hmd⟩
          exact hlate ⟨u, m, not_not.mp fun hnot => hover ⟨u, hu, hnot⟩, hm, hmd⟩

/-! ## The condition -/

theorem addTimer_sleeps (hgood : s.m_timers.Good) {k : Nat} {ms : UInt64} {cb : Nat}
    {recurring : Bool} {addr : Nat} (h : ¬s.TimersCovered n (.addTimer k ms cb recurring addr))
    (hexec : s.exec n (.addTimer k ms cb recurring addr) = some s') :
    s'.TimerWaits n ∧ ¬s'.LooksAtTimers n := by
  rw [TimersCovered, not_or, not_or, not_or, not_or] at h
  obtain ⟨hflag, hlater, hblocked, hlooks, hontime⟩ := h
  rcases TimerManager.addTimer_front hgood ms cb recurring addr s.clock with
    ⟨-, hfirst⟩ | ⟨hfront, -, hnotified⟩
  · exact absurd hfirst hlater
  · rw [Bool.eq_true_of_not_eq_false hflag] at hnotified
    rw [exec] at hexec
    split at hexec
    next hk =>
      split at hexec
      next =>
        dsimp only at hexec
        rw [hnotified, Bool.not_true, if_neg Bool.false_ne_true, setCaller_none hk] at hexec
        injection hexec with hexec
        subst hexec
        refine ⟨timerWaits_iff.mpr ⟨not_forall_not.mp hblocked, s.clock + ms, hfront, hontime⟩, ?_⟩
        exact fun hc => hlooks (hc.same rfl (fun _ => rfl) UInt64.le_rfl rfl)
      next => cases hexec
    next => cases hexec

theorem scan_forgets {t c : Nat} (hpc : s.pc t = .scan)
    (hfind : s.m_taskQueue.find? (s.eligible t) ≠ none) (hothers : ¬s.OthersLookAtTimers n t)
    (hwaits : s.TimerWaits n) : (s.scan t c).TimerWaits n ∧ ¬(s.scan t c).LooksAtTimers n := by
  have hexec : ((s.scan t c).pc t).executing = true := by
    obtain ⟨task, htask⟩ := Option.ne_none_iff_exists'.mp hfind
    rw [scan, htask]
    refine (congrArg Pc.executing (goto_self s t _)).trans ?_
    split <;> rfl
  constructor
  · refine hwaits.goto (t := t) ?_ ?_ (fun u hu => (goto_other s _ hu).symm) rfl rfl
    · intro last hlast
      rw [hlast] at hexec
      cases hexec
    · rw [hpc]
      rintro _ ⟨⟩
  · intro hlooks
    refine hothers (hlooks.elsewhere rfl rfl rfl (fun u hu => goto_other s _ hu) fun hway => ?_)
    cases hexec.symm.trans hway.2.2

theorem block_forgets {t : Nat} {next_timeout d : UInt64} (ht : t < n)
    (hnow : waitUntil s.clock next_timeout ≠ some s.clock.toNat)
    (hothers : ¬s.OthersLookAtTimers n t) (hd : s.deadline = some d)
    (hlate : ¬∃ m, waitUntil s.clock next_timeout = some m ∧ m ≤ d.toNat)
    (hontime : ¬s.OnTime n d) :
    (s.goto t (.wait (waitUntil s.clock next_timeout))).TimerWaits n ∧
      ¬(s.goto t (.wait (waitUntil s.clock next_timeout))).LooksAtTimers n := by
  have hself := goto_self s t (.wait (waitUntil s.clock next_timeout))
  have hblocked := block_blocked ht hnow
  constructor
  · refine timerWaits_iff.mpr ⟨⟨t, hblocked⟩, d, hd, ?_⟩
    rintro ⟨b, m, hb, hm, hle⟩
    by_cases hbt : b = t
    · subst hbt
      rw [hself, Pc.wait.injEq] at hm
      exact hlate ⟨m, hm, hle⟩
    · have hkeep := (goto_other s (.wait (waitUntil s.clock next_timeout)) hbt).symm
      exact hontime ⟨b, m, hb.keep hkeep rfl, hkeep.trans hm, hle⟩
  · intro hlooks
    exact hothers (hlooks.elsewhere rfl rfl rfl (fun u hu => goto_other s _ hu)
      fun hway => hway.2.1 hblocked)

/-- A step that does not meet the condition leaves a timer to the threads that sleep. -/
theorem uncovered_forgets (hgood : s.m_timers.Good) (h : ¬s.TimersCovered n e)
    (hexec : s.exec n e = some s') : s'.TimerWaits n ∧ ¬s'.LooksAtTimers n := by
  cases e with
  | addTimer k ms cb recurring addr => exact addTimer_sleeps hgood h hexec
  | next t o =>
      rw [TimersCovered, not_and_or] at h
      rcases h with hscan | hblock
      · rw [Classical.not_imp, not_or, not_or, not_not] at hscan
        obtain ⟨hpc, hfind, hothers, hwaits⟩ := hscan
        obtain ⟨c, -, rfl⟩ := exec_scan hpc hexec
        exact scan_forgets hpc hfind hothers hwaits
      · rw [not_forall] at hblock
        obtain ⟨next_timeout, hblock⟩ := hblock
        rw [Classical.not_imp, not_or, not_or, not_forall] at hblock
        obtain ⟨hpc, hnow, hothers, d, hlate⟩ := hblock
        rw [Classical.not_imp, not_or] at hlate
        obtain ⟨ht, rfl⟩ := exec_epoll hpc hexec
        exact block_forgets ht hnow hothers hlate.1 hlate.2.1 hlate.2.2
  | schedule k tasks => exact absurd trivial h
  | tickle call => exact absurd trivial h
  | advance now => exact absurd trivial h

/-- The first step that does not meet the condition leaves a timer to the threads that sleep. -/
theorem run_timers_wake {es : List Step}
    (hr : ((wakeUp n).restrict (TimersCovered n)).Run es s) :
    (s.TimerWaits n → s.LooksAtTimers n) ∧
      ∀ e s', (wakeUp n).step s e s' → ¬s.TimersCovered n e →
        ¬(s'.TimerWaits n → s'.LooksAtTimers n) := by
  have hinv : Counted n s ∧ s.m_timers.Good ∧ (s.TimerWaits n → s.LooksAtTimers n) := by
    apply hr.invariant
      (I := fun s => Counted n s ∧ s.m_timers.Good ∧ (s.TimerWaits n → s.LooksAtTimers n))
    · rintro s ⟨clock, rfl⟩
      refine ⟨create_counted clock, TimerManager.run_good (.start ⟨clock, rfl⟩), ?_⟩
      rintro ⟨-, d, hd, -⟩
      cases hd
    · rintro s e s' ⟨hcount, hgood, ih⟩ ⟨hcovered, hstep⟩
      have hgood' := exec_timers hgood hstep
      obtain ⟨hcount', hwakes | hsilent⟩ := exec_cases hcount hstep
      · exact ⟨hcount', hgood', hwakes.looksAtTimers⟩
      · exact ⟨hcount', hgood', silent_timers hgood hsilent hcovered ih⟩
  refine ⟨hinv.2.2, fun e s' hstep huncovered hwakes => ?_⟩
  obtain ⟨hwaits, hlooks⟩ := uncovered_forgets hinv.2.1 huncovered hstep
  exact hlooks (hwakes hwaits)

/-- A thread sleeps for three seconds when a timer of two comes. -/
theorem run_timers_wake_one : ∃ es s, ((wakeUp 1).restrict (TimersCovered 1)).Run es s ∧
    s.TimerWaits 1 ∧ s.LooksAtTimers 1 := by
  have hnone : ∀ (s : WakeUp), s.m_taskQueue = [] → s.deadline = none →
      ∀ o, TimersCovered 1 s (.next 0 o) := by
    intro s hqueue hdeadline o
    refine ⟨fun _ => .inl (by rw [hqueue]; rfl), fun _ _ => .inr (.inr ?_)⟩
    intro d hd
    rw [hdeadline] at hd
    cases hd
  have h₀ : ((wakeUp 1).restrict (TimersCovered 1)).Run [] (create 0) := .start ⟨0, rfl⟩
  have h₁ := h₀.snoc (e := Step.next 0 (.coroutine 0)) ⟨hnone _ rfl rfl _, rfl⟩
  have h₂ := h₁.snoc (e := Step.next 0 .go) ⟨hnone _ rfl rfl _, rfl⟩
  have h₃ := h₂.snoc (e := Step.next 0 .go) ⟨hnone _ rfl rfl _, rfl⟩
  have h₄ := h₃.snoc (e := Step.next 0 .go) ⟨hnone _ rfl rfl _, rfl⟩
  have h₅ := h₄.snoc (e := Step.addTimer 0 2000 0 false 0) ⟨.inl rfl, rfl⟩
  have hlooks := (run_timers_wake h₅).1
  refine ⟨_, _, h₅, (and_iff_left_of_imp hlooks).mpr (timerWaits_iff.mpr
    ⟨⟨0, Nat.zero_lt_one, some 3000, rfl, ?_⟩, 2000, rfl, ?_⟩)⟩
  · rintro m ⟨⟩
    decide
  · rintro ⟨b, m, ⟨hb, -⟩, hpc, hle⟩
    cases Nat.lt_one_iff.mp hb
    cases hpc
    exact absurd hle (by decide)

/-- Two threads sleep for three seconds, and a timer of two is announced; the thread that reads the
bytes goes on to take a task. -/
theorem timer_sleeps : ∃ es s, (wakeUp 2).Run es s ∧ s.TimerWaits 2 ∧ ¬s.LooksAtTimers 2 := by
  have h₀ : (wakeUp 2).Run [] (create 0) := .start ⟨0, rfl⟩
  have h₁ := h₀.snoc (e := Step.next 0 (.coroutine 0)) rfl
  have h₂ := h₁.snoc (e := Step.next 0 .go) rfl
  have h₃ := h₂.snoc (e := Step.next 0 .go) rfl
  have h₄ := h₃.snoc (e := Step.next 0 .go) rfl
  have h₅ := h₄.snoc (e := Step.next 1 (.coroutine 1)) rfl
  have h₆ := h₅.snoc (e := Step.next 1 .go) rfl
  have h₇ := h₆.snoc (e := Step.next 1 .go) rfl
  have h₈ := h₇.snoc (e := Step.next 1 .go) rfl
  have h₉ := h₈.snoc (e := Step.addTimer 0 2000 0 false 0) rfl
  have h₁₀ := h₉.snoc (e := Step.tickle (.addTimer 0)) rfl
  have h₁₁ := h₁₀.snoc (e := Step.tickle (.addTimer 0)) rfl
  have h₁₂ := h₁₁.snoc (e := Step.schedule 0 [some ⟨.cb, none⟩]) rfl
  have h₁₃ := h₁₂.snoc (e := Step.tickle (.schedule 0)) rfl
  have h₁₄ := h₁₃.snoc (e := Step.tickle (.schedule 0)) rfl
  have h₁₅ := h₁₄.snoc (e := Step.next 0 (.events true)) rfl
  have h₁₆ := h₁₅.snoc (e := Step.next 0 (.addr 1)) rfl
  have h₁₇ := h₁₆.snoc (e := Step.next 0 .go) rfl
  have h₁₈ := h₁₇.snoc (e := Step.next 0 .go) rfl
  have h₁₉ := h₁₈.snoc (e := Step.next 0 .go) rfl
  have h₂₀ := h₁₉.snoc (e := Step.next 0 .go) rfl
  have h₂₁ := h₂₀.snoc (e := Step.next 0 (.coroutine 0)) rfl
  refine ⟨_, _, h₂₁, timerWaits_iff.mpr
    ⟨⟨1, Nat.one_lt_two, some 3000, rfl, ?_⟩, 2000, rfl, ?_⟩, ?_⟩
  · rintro m ⟨⟩
    decide
  · rintro ⟨b, m, ⟨hb, -⟩, hpc, hle⟩
    obtain rfl | rfl : b = 0 ∨ b = 1 := by omega
    · cases hpc
    · cases hpc
      exact absurd hle (by decide)
  · rintro (hb | ⟨k, hk⟩ | ⟨t, ht, hblocked, hexec⟩)
    · cases hb
    · apply hk
      cases k <;> rfl
    · obtain rfl | rfl : t = 0 ∨ t = 1 := by omega
      · cases hexec
      · apply hblocked
        refine ⟨Nat.one_lt_two, some 3000, rfl, ?_⟩
        rintro m ⟨⟩
        decide

end WakeUp

end CIM
