import CIM.Streams.LoadBalance

/-!
# Convergence of the load balancers

The changes that are on their way to a balancer, applied in the order of their swaps to what it
holds, give what is stored. Each step keeps this where a change overtakes only independent ones.
-/
namespace CIM

open Change Transition

namespace LoadBalance

theorem mem_eraseAll {m : AList fun _ : UInt64 => LoadBalanceItem} {dels : List UInt64}
    {id : UInt64} : id ∈ (eraseAll m dels).2 ↔ id ∈ m ∧ id ∉ dels := by
  induction dels generalizing m with
  | nil => simp [eraseAll]
  | cons d dels ih =>
      rw [eraseAll, List.mem_cons, not_or]
      cases hl : m.lookup d with
      | some item =>
          change id ∈ (eraseAll (m.erase d) dels).2 ↔ _
          rw [ih, AList.mem_erase]
          tauto
      | none =>
          have hd : d ∉ m := AList.lookup_eq_none.mp hl
          change id ∈ (eraseAll m dels).2 ↔ _
          rw [ih]
          constructor
          · rintro ⟨hm, hdels⟩
            exact ⟨hm, fun he => hd (he ▸ hm), hdels⟩
          · rintro ⟨hm, -, hdels⟩
            exact ⟨hm, hdels⟩

theorem mem_insertAll {adds : List LoadBalanceItem} {m : AList fun _ : UInt64 => LoadBalanceItem}
    {id : UInt64} : id ∈ insertAll m adds ↔ id ∈ m ∨ id ∈ adds.map LoadBalanceItem.m_id := by
  induction adds generalizing m with
  | nil => simp [insertAll]
  | cons item adds ih =>
      change id ∈ insertAll (m.insert item.m_id item) adds ↔ _
      rw [ih, AList.mem_insert, List.map_cons, List.mem_cons]
      tauto

theorem ids_update (lb : LoadBalance) (adds : List LoadBalanceItem) (dels : List UInt64) :
    ids (lb.update adds dels).2.m_datas =
      Delta.apply ⟨{id | id ∈ dels}, {id | id ∈ adds.map LoadBalanceItem.m_id}⟩
        (ids lb.m_datas) := by
  ext id
  change id ∈ insertAll (eraseAll lb.m_datas dels).2 adds ↔ _
  rw [mem_insertAll, mem_eraseAll]
  rfl

end LoadBalance

theorem mem_delIds {old new : ServiceInfos} {id : UInt64} :
    id ∈ delIds old new ↔ id ∈ old ∧ id ∉ new := by
  rw [delIds, List.mem_filter, decide_eq_true_iff]
  exact Iff.rfl

theorem mem_addValues {old new : ServiceInfos} {e : UInt64 × ServiceItemInfo} :
    e ∈ addValues old new ↔ ⟨e.1, e.2⟩ ∈ new.entries ∧ e.1 ∉ old := by
  rw [addValues, List.mem_filter, decide_eq_true_iff, List.mem_map]
  refine and_congr_left fun _ => ?_
  constructor
  · rintro ⟨d, hd, rfl⟩
    exact hd
  · intro hd
    exact ⟨_, hd, rfl⟩

theorem createLoadBalanceItem_id (type : LoadBalanceType) (id : UInt64) (stream : Nat) :
    (createLoadBalanceItem type id stream).m_id = id := by
  cases type <;> rfl

theorem mem_addItems {m_cb : ServiceItemInfo → Option Nat} {type : LoadBalanceType}
    {old new : ServiceInfos} {id : UInt64} (hcb : ∀ info, (m_cb info).isSome) :
    id ∈ (addItems m_cb type (addValues old new)).map LoadBalanceItem.m_id ↔
      id ∈ new ∧ id ∉ old := by
  constructor
  · intro h
    obtain ⟨item, hitem, rfl⟩ := List.mem_map.mp h
    obtain ⟨e, he, hmk⟩ := List.mem_filterMap.mp hitem
    obtain ⟨stream, -, rfl⟩ := Option.map_eq_some_iff.mp hmk
    obtain ⟨hnew, hold⟩ := mem_addValues.mp he
    rw [createLoadBalanceItem_id]
    exact ⟨List.mem_keys_of_mem hnew, hold⟩
  · rintro ⟨hnew, hold⟩
    obtain ⟨info, hinfo⟩ := List.exists_of_mem_keys hnew
    obtain ⟨stream, hstream⟩ := Option.isSome_iff_exists.mp (hcb info)
    refine List.mem_map.mpr ⟨createLoadBalanceItem type id stream, ?_,
      createLoadBalanceItem_id type id stream⟩
    refine List.mem_filterMap.mpr ⟨(id, info), mem_addValues.mpr ⟨hinfo, hold⟩, ?_⟩
    change (m_cb info).map _ = _
    rw [hstream]
    rfl

namespace Discovery

/-- With every stream created, the balancer's set changes as the stored one did. -/
theorem ids_change {m_cb : ServiceItemInfo → Option Nat} (hcb : ∀ info, (m_cb info).isSome)
    (lb : LoadBalance) (type : LoadBalanceType) (old new : ServiceInfos) :
    ids (lb.update (addItems m_cb type (addValues old new)) (delIds old new)).2.m_datas =
      (Delta.between (ids old) (ids new)).apply (ids lb.m_datas) := by
  rw [LoadBalance.ids_update]
  congr 1
  unfold Delta.between
  congr 1
  · ext id
    exact mem_delIds
  · ext id
    exact mem_addItems hcb

end Discovery

/-- The pair and the values that a thread carries from its swap to its update. -/
def DiscoveryTask.carries : DiscoveryTask → Option (ServiceKey × ServiceInfos × ServiceInfos)
  | .lookup key old new | .store key old new | .update key old new _ => some (key, old, new)
  | _ => none

/-- A change is taken out of the queue at its thread's place. -/
theorem changes_split {l : List ServiceChange} {c : ServiceChange}
    (hnodup : (l.map ServiceChange.thread).Nodup) (hc : c ∈ l) :
    ∃ l₁ l₂, l = l₁ ++ c :: l₂ ∧ (l.takeWhile fun d => d.thread ≠ c.thread) = l₁ ∧
      (l.filter fun d => d.thread ≠ c.thread) = l₁ ++ l₂ := by
  obtain ⟨l₁, l₂, rfl⟩ := List.append_of_mem hc
  rw [List.map_append, List.map_cons, List.nodup_append] at hnodup
  obtain ⟨-, htail, hdisj⟩ := hnodup
  have h₁ : ∀ d ∈ l₁, decide (d.thread ≠ c.thread) = true := by
    intro d hd
    exact decide_eq_true (hdisj _ (List.mem_map_of_mem hd) _ List.mem_cons_self)
  have h₂ : ∀ d ∈ l₂, decide (d.thread ≠ c.thread) = true := by
    intro d hd
    refine decide_eq_true fun heq => (List.nodup_cons.mp htail).1 ?_
    rw [← heq]
    exact List.mem_map_of_mem hd
  have hself : decide (c.thread ≠ c.thread) = false := decide_eq_false fun h => h rfl
  refine ⟨l₁, l₂, rfl, ?_, ?_⟩
  · rw [List.takeWhile_append_of_pos h₁,
      List.takeWhile_cons_of_neg (by rw [hself]; exact Bool.false_ne_true),
      List.append_nil]
  · rw [List.filter_append, List.filter_eq_self.mpr h₁,
      List.filter_cons_of_neg (by rw [hself]; exact Bool.false_ne_true),
      List.filter_eq_self.mpr h₂]

namespace Discovery

/-- The set that the balancer of the pair holds. -/
def view (s : Discovery) (key : ServiceKey) : Set UInt64 :=
  match s.balancers key with
  | some b => ids (s.lb b).m_datas
  | none => ∅

structure Good (s : Discovery) : Prop where
  carried : ∀ t key old new, (s.task t).carries = some (key, old, new) →
    ⟨t, old, new⟩ ∈ s.changes key
  queued : ∀ key, ∀ c ∈ s.changes key, (s.task c.thread).carries = some (key, c.old, c.new)
  once : ∀ key, ((s.changes key).map ServiceChange.thread).Nodup
  target : ∀ t key old new b, s.task t = .update key old new b → s.balancers key = some b
  fresh : ∀ key b, s.balancers key = some b → b < s.lbCount
  distinct : ∀ key key' b, s.balancers key = some b → s.balancers key' = some b → key = key'
  agree : ∀ key, Delta.applyAll ((s.changes key).map ServiceChange.delta) (s.view key) =
    ids (s.m_datas key)

variable {m_cb : ServiceItemInfo → Option Nat} {s s' : Discovery} {t : Nat} {u : DiscoveryTask}
  {key : ServiceKey} {old new : ServiceInfos} {b : Nat}

/-- A thread goes on without a change of what it carries. -/
theorem Good.goto (h : Good s) (hu : u.carries = (s.task t).carries)
    (htarget : ∀ key old new b, u = .update key old new b → s.balancers key = some b) :
    Good (s.goto t u) := by
  have hcarries : ∀ t', ((s.goto t u).task t').carries = (s.task t').carries := by
    intro t'
    change (Function.update s.task t u t').carries = (s.task t').carries
    by_cases ht : t' = t
    · rw [ht, Function.update_self, hu]
    · rw [Function.update_of_ne ht]
  exact
    { carried := fun t' key old new hc => h.carried t' key old new (hcarries t' ▸ hc)
      queued := fun key c hc => (hcarries c.thread).trans (h.queued key c hc)
      once := h.once
      target := by
        intro t' key old new b ht'
        change Function.update s.task t u t' = .update key old new b at ht'
        by_cases ht : t' = t
        · rw [ht, Function.update_self] at ht'
          exact htarget key old new b ht'
        · rw [Function.update_of_ne ht] at ht'
          exact h.target t' key old new b ht'
      fresh := h.fresh
      distinct := h.distinct
      agree := h.agree }

/-- The swap queues the change from the old value to the new one. -/
theorem Good.swapDatas {infos : ServiceInfos} (h : Good s) (ht : s.task t = .swap key infos) :
    Good (s.swapDatas t key infos) := by
  have hnone : (s.task t).carries = none := by rw [ht]; rfl
  have hfree : ∀ key', ∀ c ∈ s.changes key', c.thread ≠ t := by
    intro key' c hc he
    have hq := h.queued key' c hc
    rw [he, hnone] at hq
    cases hq
  have hself : (s.swapDatas t key infos).changes key =
      s.changes key ++ [⟨t, s.m_datas key, infos⟩] := Function.update_self ..
  have hother : ∀ key', key' ≠ key → (s.swapDatas t key infos).changes key' = s.changes key' :=
    fun key' hk => Function.update_of_ne hk ..
  have htask : (s.swapDatas t key infos).task t = .lookup key (s.m_datas key) infos :=
    Function.update_self ..
  have htasks : ∀ t', t' ≠ t → (s.swapDatas t key infos).task t' = s.task t' :=
    fun t' hne => Function.update_of_ne hne ..
  exact
    { carried := by
        intro t' key' old new hc
        by_cases hne : t' = t
        · rw [hne, htask] at hc
          cases hc
          rw [hself, hne]
          exact List.mem_append_right _ List.mem_cons_self
        · rw [htasks t' hne] at hc
          have hmem := h.carried t' key' old new hc
          by_cases hk : key' = key
          · rw [hk, hself]
            exact List.mem_append_left _ (hk ▸ hmem)
          · rw [hother key' hk]
            exact hmem
      queued := by
        intro key' c hc
        by_cases hk : key' = key
        · rw [hk, hself, List.mem_append, List.mem_singleton] at hc
          rw [hk]
          obtain hc | rfl := hc
          · rw [htasks c.thread (hfree key c hc)]
            exact h.queued key c hc
          · rw [htask]
            rfl
        · rw [hother key' hk] at hc
          rw [htasks c.thread (hfree key' c hc)]
          exact h.queued key' c hc
      once := by
        intro key'
        by_cases hk : key' = key
        · rw [hk, hself, List.map_append, List.map_singleton, List.nodup_append]
          refine ⟨h.once key, List.nodup_singleton t, ?_⟩
          intro a ha d hd
          obtain ⟨c, hc, rfl⟩ := List.mem_map.mp ha
          rw [List.mem_singleton.mp hd]
          exact hfree key c hc
        · rw [hother key' hk]
          exact h.once key'
      target := by
        intro t' key' old new b ht'
        by_cases hne : t' = t
        · rw [hne, htask] at ht'
          cases ht'
        · rw [htasks t' hne] at ht'
          exact h.target t' key' old new b ht'
      fresh := h.fresh
      distinct := h.distinct
      agree := by
        intro key'
        have hview : (s.swapDatas t key infos).view key' = s.view key' := rfl
        by_cases hk : key' = key
        · have hdatas : (s.swapDatas t key infos).m_datas key = infos := Function.update_self ..
          rw [hview, hk, hself, hdatas, List.map_append, Delta.applyAll_append, h.agree key]
          exact Delta.between_apply _ _
        · have hdatas : (s.swapDatas t key infos).m_datas key' = s.m_datas key' :=
            Function.update_of_ne hk ..
          rw [hview, hother key' hk, hdatas]
          exact h.agree key' }

/-- An empty balancer shows what no balancer shows. -/
theorem Good.storeBalancer (h : Good s) (hnone : s.balancers key = none) :
    Good (s.storeBalancer key) := by
  have hself : (s.storeBalancer key).balancers key = some s.lbCount := Function.update_self ..
  have hother : ∀ key', key' ≠ key → (s.storeBalancer key).balancers key' = s.balancers key' :=
    fun key' hk => Function.update_of_ne hk ..
  have hold : ∀ key' b, s.balancers key' = some b → (s.storeBalancer key).lb b = s.lb b :=
    fun key' b hb => Function.update_of_ne (Nat.ne_of_lt (h.fresh key' b hb)) ..
  exact
    { carried := h.carried
      queued := h.queued
      once := h.once
      target := by
        intro t' key' old new b ht'
        have hb := h.target t' key' old new b ht'
        rw [hother key']
        · exact hb
        · intro hk
          rw [hk, hnone] at hb
          cases hb
      fresh := by
        intro key' b hb
        by_cases hk : key' = key
        · rw [hk, hself] at hb
          rw [← Option.some.inj hb]
          exact Nat.lt_succ_self _
        · rw [hother key' hk] at hb
          exact Nat.lt_succ_of_lt (h.fresh key' b hb)
      distinct := by
        intro k k' b hb hb'
        by_cases hk : k = key
        · by_cases hk' : k' = key
          · rw [hk, hk']
          · rw [hk, hself] at hb
            rw [hother k' hk', ← Option.some.inj hb] at hb'
            exact absurd (h.fresh k' _ hb') (Nat.lt_irrefl _)
        · rw [hother k hk] at hb
          by_cases hk' : k' = key
          · rw [hk', hself] at hb'
            rw [← Option.some.inj hb'] at hb
            exact absurd (h.fresh k _ hb) (Nat.lt_irrefl _)
          · rw [hother k' hk'] at hb'
            exact h.distinct k k' b hb hb'
      agree := by
        intro key'
        have hview : (s.storeBalancer key).view key' = s.view key' := by
          by_cases hk : key' = key
          · have hlb : (s.storeBalancer key).lb s.lbCount = createLoadBalance (s.getType key) :=
              Function.update_self ..
            rw [view, view, hk, hself, hnone]
            change ids ((s.storeBalancer key).lb s.lbCount).m_datas = ∅
            rw [hlb]
            cases s.getType key <;> (ext id; exact List.mem_nil_iff id)
          · rw [view, view, hother key' hk]
            cases hb : s.balancers key' with
            | none => rfl
            | some b =>
                change ids ((s.storeBalancer key).lb b).m_datas = ids (s.lb b).m_datas
                rw [hold key' b hb]
        rw [hview]
        exact h.agree key' }

/-- An update that overtakes independent changes only. -/
theorem Good.updateBalancer (hcb : ∀ info, (m_cb info).isSome) (h : Good s)
    (ht : s.task t = .update key old new b)
    (hahead : ∀ c ∈ s.ahead key t, Delta.Independent c.delta (Delta.between (ids old) (ids new))) :
    Good (s.updateBalancer m_cb t key old new b) := by
  have hb : s.balancers key = some b := h.target t key old new b ht
  have hmem : ⟨t, old, new⟩ ∈ s.changes key := h.carried t key old new (by rw [ht]; rfl)
  obtain ⟨l₁, l₂, hsplit, hbefore, hrest⟩ := changes_split (h.once key) hmem
  generalize hs' : s.updateBalancer m_cb t key old new b = s'
  have hself : s'.changes key = l₁ ++ l₂ := by
    rw [← hs', ← hrest]
    exact Function.update_self ..
  have hother : ∀ key', key' ≠ key → s'.changes key' = s.changes key' := by
    intro key' hk
    rw [← hs']
    exact Function.update_of_ne hk ..
  have hsub : ∀ key', (s'.changes key').Sublist (s.changes key') := by
    intro key'
    by_cases hk : key' = key
    · rw [hk, hself, hsplit]
      exact (List.sublist_cons_self _ _).append_left l₁
    · rw [hother key' hk]
  have htask : ∃ items, s'.task t = .close items :=
    ⟨_, by rw [← hs']; exact Function.update_self ..⟩
  have htasks : ∀ t', t' ≠ t → s'.task t' = s.task t' := by
    intro t' hne
    rw [← hs']
    exact Function.update_of_ne hne ..
  have hbalancers : s'.balancers = s.balancers := by rw [← hs']; rfl
  have hdatas : s'.m_datas = s.m_datas := by rw [← hs']; rfl
  have hcount : s'.lbCount = s.lbCount := by rw [← hs']; rfl
  obtain ⟨items, hitems⟩ := htask
  -- the only change of thread `t` was the one that is gone
  have hfree : ∀ key', ∀ c ∈ s'.changes key', c.thread ≠ t := by
    intro key' c hc he
    have hq := h.queued key' c ((hsub key').subset hc)
    rw [he, ht] at hq
    have hk : key = key' := (Prod.mk.inj (Option.some.inj hq)).1
    rw [← hk, hself, ← hrest, List.mem_filter, decide_eq_true_iff] at hc
    exact hc.2 he
  exact
    { carried := by
        intro t' key' old' new' hc
        have hne : t' ≠ t := by
          intro he
          rw [he, hitems] at hc
          cases hc
        rw [htasks t' hne] at hc
        have hmem' := h.carried t' key' old' new' hc
        by_cases hk : key' = key
        · rw [hk, hself, ← hrest, List.mem_filter, decide_eq_true_iff]
          exact ⟨hk ▸ hmem', hne⟩
        · rw [hother key' hk]
          exact hmem'
      queued := by
        intro key' c hc
        rw [htasks c.thread (hfree key' c hc)]
        exact h.queued key' c ((hsub key').subset hc)
      once := fun key' => ((hsub key').map _).nodup (h.once key')
      target := by
        intro t' key' old' new' b' ht'
        have hne : t' ≠ t := by
          intro he
          rw [he, hitems] at ht'
          cases ht'
        rw [htasks t' hne] at ht'
        rw [hbalancers]
        exact h.target t' key' old' new' b' ht'
      fresh := by
        rw [hbalancers, hcount]
        exact h.fresh
      distinct := by
        rw [hbalancers]
        exact h.distinct
      agree := by
        intro key'
        rw [hdatas]
        by_cases hk : key' = key
        · have hview : s'.view key = (Delta.between (ids old) (ids new)).apply (s.view key) := by
            rw [view, view, hbalancers, hb]
            change ids (s'.lb b).m_datas = _
            rw [← ids_change hcb (s.lb b) (s.getType key) old new, ← hs']
            exact congrArg (fun r : LoadBalance => ids r.m_datas) (Function.update_self b _ s.lb)
          have hind : ∀ d ∈ l₁.map ServiceChange.delta,
              Delta.Independent d (Delta.between (ids old) (ids new)) := by
            intro d hd
            obtain ⟨c, hc, rfl⟩ := List.mem_map.mp hd
            have hc' : c ∈ s.ahead key t := by
              rw [ahead, hbefore]
              exact hc
            exact hahead c hc'
          rw [hk, hself, List.map_append, hview, Delta.applyAll_overtake hind, ← h.agree key,
            hsplit, List.map_append, List.map_cons]
          rfl
        · have hview : s'.view key' = s.view key' := by
            rw [view, view, hbalancers]
            cases hb' : s.balancers key' with
            | none => rfl
            | some b' =>
                have hbb : b' ≠ b := by
                  intro he
                  exact hk (h.distinct key' key b (he ▸ hb') hb)
                rw [← hs']
                exact congrArg (fun r : LoadBalance => ids r.m_datas)
                  (Function.update_of_ne hbb _ s.lb)
          rw [hview, hother key' hk]
          exact h.agree key' }

theorem Good.task_step (hcb : ∀ info, (m_cb info).isSome) (h : Good s)
    (hg : s.InOrder (.task t)) (hstep : s.taskStep m_cb t = some s') : Good s' := by
  unfold taskStep at hstep
  unfold InOrder at hg
  cases ht : s.task t with
  | idle => rw [ht] at hstep; cases hstep
  | swap key infos =>
      rw [ht] at hstep
      cases hstep
      exact h.swapDatas ht
  | lookup key old new =>
      simp only [ht] at hstep
      cases hb : s.balancers key with
      | none =>
          rw [hb] at hstep
          cases hstep
          exact h.goto (by rw [ht]; rfl) fun _ _ _ _ hu => DiscoveryTask.noConfusion hu
      | some b =>
          rw [hb] at hstep
          cases hstep
          refine h.goto (by rw [ht]; rfl) ?_
          intro key' old' new' b' hu
          cases hu
          exact hb
  | store key old new =>
      rw [ht] at hstep
      simp only [ht] at hg
      cases hstep
      refine (h.storeBalancer hg).goto ?_ ?_
      · change some (key, old, new) = (s.task t).carries
        rw [ht]
        rfl
      · intro key' old' new' b' hu
        cases hu
        exact Function.update_self ..
  | update key old new b =>
      rw [ht] at hstep
      simp only [ht] at hg
      cases hstep
      exact h.updateBalancer hcb ht hg
  | close items =>
      rw [ht] at hstep
      cases hstep
      have hclosed : Good { s with closed := s.closed ++ items } :=
        ⟨h.carried, h.queued, h.once, h.target, h.fresh, h.distinct, h.agree⟩
      refine hclosed.goto ?_ fun _ _ _ _ hu => DiscoveryTask.noConfusion hu
      change none = (s.task t).carries
      rw [ht]
      rfl

theorem Good.step {e : DiscoveryEvent} (hcb : ∀ info, (m_cb info).isSome) (h : Good s)
    (hg : s.InOrder e) (hstep : s.exec m_cb e = some s') : Good s' := by
  cases e with
  | children t key vals =>
      simp only [exec] at hstep
      split at hstep
      · rename_i ht
        cases hstep
        exact h.goto (by rw [ht]; rfl) fun _ _ _ _ hu => DiscoveryTask.noConfusion hu
      · cases hstep
  | task t => exact h.task_step hcb hg hstep

theorem good_init (types : ServiceKey → Option LoadBalanceType) : Good (init types) where
  carried := by
    intro _ _ _ _ hc
    cases hc
  queued := fun _ c hc => absurd hc List.not_mem_nil
  once := fun _ => List.nodup_nil
  target := fun _ _ _ _ _ ht => DiscoveryTask.noConfusion ht
  fresh := by
    intro _ _ hb
    cases hb
  distinct := by
    intro _ _ _ hb
    cases hb
  agree := by
    intro key
    ext id
    exact (List.mem_nil_iff id).symm

/-- Where every update is applied in the order of the swaps but for independent ones, and no
balancer replaces another, the balancers hold what is stored once all updates have finished. -/
theorem run_converges (hcb : ∀ info, (m_cb info).isSome) {es : List DiscoveryEvent}
    {s : Discovery} (h : ((discoverySystem m_cb).restrict InOrder).Run es s)
    (hq : s.Quiescent) : s.Converged := by
  have hgood : Good s := by
    refine h.invariant ?_ ?_
    · rintro s₀ ⟨types, rfl⟩
      exact good_init types
    · intro s₁ e s₂ hs hstep
      exact hs.step hcb hstep.1 hstep.2
  intro key b hb
  have hnil : s.changes key = [] := by
    rw [List.eq_nil_iff_forall_not_mem]
    intro c hc
    have hcarry := hgood.queued key c hc
    rw [hq c.thread] at hcarry
    cases hcarry
  have hagree := hgood.agree key
  rw [hnil, view, hb] at hagree
  exact hagree

/-- Two updates of one pair, one after the other. -/
theorem run_converges_two_updates :
    ∃ s, ((discoverySystem fun _ => some 0).restrict InOrder).Run
        [.children 0 ("", "") [⟨1, "a", 80, ""⟩], .task 0, .task 0, .task 0, .task 0, .task 0,
          .children 1 ("", "") [⟨2, "b", 80, ""⟩], .task 1, .task 1, .task 1, .task 1] s ∧
      s.balancers ("", "") = some 0 ∧ (s.lb 0).m_datas.keys = [2] ∧ s.Converged := by
  have h₀ : ((discoverySystem fun _ => some 0).restrict InOrder).Run []
      (init fun _ => none) := .start ⟨_, rfl⟩
  have h₁ := h₀.snoc (e := DiscoveryEvent.children 0 ("", "") [⟨1, "a", 80, ""⟩])
    ⟨trivial, Eq.refl _⟩
  have h₂ := h₁.snoc (e := DiscoveryEvent.task 0) ⟨trivial, Eq.refl _⟩
  have h₃ := h₂.snoc (e := DiscoveryEvent.task 0) ⟨trivial, Eq.refl _⟩
  have h₄ := h₃.snoc (e := DiscoveryEvent.task 0) ⟨Eq.refl _, Eq.refl _⟩
  have h₅ := h₄.snoc (e := DiscoveryEvent.task 0)
    ⟨fun c hc => absurd hc List.not_mem_nil, Eq.refl _⟩
  have h₆ := h₅.snoc (e := DiscoveryEvent.task 0) ⟨trivial, Eq.refl _⟩
  have h₇ := h₆.snoc (e := DiscoveryEvent.children 1 ("", "") [⟨2, "b", 80, ""⟩])
    ⟨trivial, Eq.refl _⟩
  have h₈ := h₇.snoc (e := DiscoveryEvent.task 1) ⟨trivial, Eq.refl _⟩
  have h₉ := h₈.snoc (e := DiscoveryEvent.task 1) ⟨trivial, Eq.refl _⟩
  have h₁₀ := h₉.snoc (e := DiscoveryEvent.task 1)
    ⟨fun c hc => absurd hc List.not_mem_nil, Eq.refl _⟩
  have h₁₁ := h₁₀.snoc (e := DiscoveryEvent.task 1) ⟨trivial, Eq.refl _⟩
  refine ⟨_, h₁₁, rfl, rfl, run_converges (fun _ => rfl) h₁₁ ?_⟩
  intro t
  match t with
  | 0 => rfl
  | 1 => rfl
  | _ + 2 => rfl

/-- The service comes and goes; the deletion overtakes the addition, and the balancer keeps a
service that is not stored. -/
theorem overtaken_update_diverges :
    ∃ s, (discoverySystem fun _ => some 0).Run
        [.children 0 ("", "") [⟨1, "a", 80, ""⟩], .task 0, .children 1 ("", "") [], .task 1,
          .task 1, .task 1, .task 1, .task 1, .task 0, .task 0, .task 0] s ∧
      s.Quiescent ∧ ¬ s.Converged := by
  have h₀ : (discoverySystem fun _ => some 0).Run [] (init fun _ => none) := .start ⟨_, rfl⟩
  have h₁ := h₀.snoc (e := DiscoveryEvent.children 0 ("", "") [⟨1, "a", 80, ""⟩]) (Eq.refl _)
  have h₂ := h₁.snoc (e := DiscoveryEvent.task 0) (Eq.refl _)
  have h₃ := h₂.snoc (e := DiscoveryEvent.children 1 ("", "") []) (Eq.refl _)
  have h₄ := h₃.snoc (e := DiscoveryEvent.task 1) (Eq.refl _)
  have h₅ := h₄.snoc (e := DiscoveryEvent.task 1) (Eq.refl _)
  have h₆ := h₅.snoc (e := DiscoveryEvent.task 1) (Eq.refl _)
  have h₇ := h₆.snoc (e := DiscoveryEvent.task 1) (Eq.refl _)
  have h₈ := h₇.snoc (e := DiscoveryEvent.task 1) (Eq.refl _)
  have h₉ := h₈.snoc (e := DiscoveryEvent.task 0) (Eq.refl _)
  have h₁₀ := h₉.snoc (e := DiscoveryEvent.task 0) (Eq.refl _)
  have h₁₁ := h₁₀.snoc (e := DiscoveryEvent.task 0) (Eq.refl _)
  refine ⟨_, h₁₁, ?_, ?_⟩
  · intro t
    match t with
    | 0 => rfl
    | 1 => rfl
    | _ + 2 => rfl
  · intro hconv
    have heq := hconv ("", "") 0 rfl
    have hmem : (1 : UInt64) ∈ ids (∅ : ServiceInfos) := by
      refine heq ▸ ?_
      exact List.mem_cons_self
    exact absurd hmem List.not_mem_nil

end Discovery

end CIM
