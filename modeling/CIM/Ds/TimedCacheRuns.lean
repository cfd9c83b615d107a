import CIM.Ds.TimedCache

/-!
# Runs of a `TimedCache`

As long as no key that is there is set to something else, the two indexes hold the same items and
the cache is the map of its history. The first key set again leaves a stale item behind.
-/
namespace CIM.ds.TimedCache

open Transition

variable {K V : Type} [LinearOrder K] {c c' : TimedCache K V} {cbs : List (K × V)}

/-- What `itemLt` compares. -/
def nodeKey (n : Node (Item K V)) : Nat ×ₗ K := toLex (n.item.ts.toNat, n.item.key)

theorem itemLt_compares :
    SortedSet.Compares (itemLt (K := K) (V := V)) nodeKey fun _ => True := by
  intro a b _ _
  rw [nodeKey, nodeKey, Prod.Lex.toLex_lt_toLex, itemLt]
  by_cases hts : a.item.ts = b.item.ts
  · simp [hts]
  · have hts' : a.item.ts.toNat ≠ b.item.ts.toNat := fun he => hts (UInt64.toNat_inj.mp he)
    simp [hts, hts', UInt64.lt_iff_toNat_lt]

/-- Behind an item that is not due none is. -/
theorem late_of_head {it : Node (Item K V)} {l : List (Node (Item K V))} {ts : UInt64}
    (hs : SortedSet.Sorted nodeKey (it :: l)) (hdue : ¬ it.item.ts ≤ ts) :
    ∀ n ∈ it :: l, ts < n.item.ts := by
  have hlt : ts < it.item.ts := UInt64.not_le.mp hdue
  intro n hn
  rcases List.mem_cons.mp hn with rfl | hn
  · exact hlt
  · have hkey := (List.pairwise_cons.mp hs).1 n hn
    rw [nodeKey, nodeKey, Prod.Lex.toLex_lt_toLex] at hkey
    rw [UInt64.lt_iff_toNat_lt] at hlt ⊢
    rcases hkey with hkey | ⟨hkey, -⟩
    · exact Nat.lt_trans hlt hkey
    · exact lt_of_lt_of_eq hlt hkey

/-- Where no item is equivalent the new one is put in, and the key's iterator points to it. -/
theorem emplace_new {k : K} {v : V} {ts : UInt64}
    (hne : ∀ n ∈ c.m_timed, nodeKey n ≠ nodeKey ⟨c.next, k, v, ts⟩) :
    (emplace k v ts c).m_timed.Perm (⟨c.next, k, v, ts⟩ :: c.m_timed) ∧
      (emplace k v ts c).m_cache = c.m_cache.insert k c.next := by
  have hfind : SortedSet.find itemLt ⟨c.next, k, v, ts⟩ c.m_timed = none :=
    SortedSet.find_none itemLt_compares trivial (fun _ _ => trivial) hne
  refine ⟨SortedSet.insert_perm itemLt_compares trivial (fun _ _ => trivial) hne, ?_⟩
  simp only [emplace, hfind]

/-- Where an item is equivalent the set stays, and the key's iterator points to that item. -/
theorem emplace_old (hs : SortedSet.Sorted nodeKey c.m_timed) {k : K} {v : V} {ts : UInt64}
    {n : Node (Item K V)} (hn : n ∈ c.m_timed) (he : nodeKey n = nodeKey ⟨c.next, k, v, ts⟩) :
    (emplace k v ts c).m_timed = c.m_timed ∧
      (emplace k v ts c).m_cache = c.m_cache.insert k n.id := by
  obtain ⟨hfind, hinsert⟩ := SortedSet.find_key hs itemLt_compares
    (a := ⟨c.next, k, v, ts⟩) trivial (fun _ _ => trivial) hn he
  refine ⟨hinsert, ?_⟩
  simp only [emplace, hfind]

/-- The indexes describe the same items, in the order of their deadlines. -/
structure Linked (c : TimedCache K V) : Prop where
  index : Index Item.key c.m_cache c.m_timed
  sorted : SortedSet.Sorted nodeKey c.m_timed
  fresh : ∀ n ∈ c.m_timed, n.id < c.next

/-- A loop has taken items from the front, with their entries in the other index. -/
structure Taken (c c' : TimedCache K V) (cbs : List (K × V)) : Prop where
  front : ∃ front, c.m_timed = front ++ c'.m_timed ∧
    cbs = front.map fun n => (n.item.key, n.item.val)
  index : Index Item.key c'.m_cache c'.m_timed
  next : c'.next = c.next

theorem Taken.refl (h : Index Item.key c.m_cache c.m_timed) : Taken c c [] :=
  ⟨⟨[], rfl, rfl⟩, h, rfl⟩

theorem Taken.linked (h : Linked c) (ht : Taken c c' cbs) : Linked c' := by
  obtain ⟨front, happ, -⟩ := ht.front
  have hsorted := h.sorted
  have hfresh := h.fresh
  rw [happ] at hsorted hfresh
  refine ⟨ht.index, (List.pairwise_append.mp hsorted).2.1, ?_⟩
  intro n hn
  rw [ht.next]
  exact hfresh n (List.mem_append_right front hn)

/-- An item is kept or taken, and not both. -/
theorem Taken.mem_iff (h : Linked c) (ht : Taken c c' cbs) (x : Item K V) :
    x ∈ c'.m_timed.map Node.item ↔ x.key ∉ cbs.map Prod.fst ∧ x ∈ c.m_timed.map Node.item := by
  obtain ⟨front, happ, rfl⟩ := ht.front
  have hkeys := h.index.keys_nodup
  rw [happ, List.map_append, List.nodup_append] at hkeys
  rw [happ, List.map_append, List.mem_append, List.map_map]
  constructor
  · intro hm
    refine ⟨?_, .inr hm⟩
    obtain ⟨n, hn, rfl⟩ := List.mem_map.mp hm
    intro hf
    exact hkeys.2.2 _ hf _ (List.mem_map.mpr ⟨n, hn, rfl⟩) rfl
  · rintro ⟨hf, hm | hm⟩
    · obtain ⟨n, hn, rfl⟩ := List.mem_map.mp hm
      exact absurd (List.mem_map.mpr ⟨n, hn, rfl⟩) hf
    · exact hm

theorem pruneLoop_taken (t : List (Node (Item K V))) : ∀ {c : TimedCache K V}, c.m_timed = t →
    Index Item.key c.m_cache c.m_timed → Taken c (pruneLoop t c).1 (pruneLoop t c).2 := by
  induction t with
  | nil =>
      intro c _ h
      exact .refl h
  | cons it t ih =>
      intro c ht h
      rw [pruneLoop]
      by_cases hsize : c.size > c.m_maxSize.toNat
      · rw [ht] at h
        obtain ⟨⟨front, happ, hcbs⟩, hindex, hnext⟩ := ih
          (c := { c with m_cache := c.m_cache.erase it.item.key, m_timed := t }) rfl h.tail
        rw [if_pos hsize]
        refine ⟨⟨it :: front, ?_, ?_⟩, hindex, hnext⟩
        · rw [ht, List.cons_append]
          exact congrArg (List.cons it) happ
        · rw [List.map_cons, ← hcbs]
      · rw [if_neg hsize]
        exact .refl h

theorem prune_taken (h : Linked c) : Taken c (prune c).1 (prune c).2 := by
  rw [prune]
  by_cases hfull : c.m_maxSize = 0 ∨ c.size < c.getMaxAllowedSize.toNat
  · rw [if_pos hfull]
    exact .refl h.index
  · rw [if_neg hfull]
    obtain ⟨hfront, hindex, hnext⟩ := pruneLoop_taken c.m_timed rfl h.index
    exact ⟨hfront, hindex, hnext⟩

/-- The check takes exactly the items whose deadline has come. -/
theorem timeoutLoop_spec (ts : UInt64) (t : List (Node (Item K V))) : ∀ {c : TimedCache K V},
    c.m_timed = t → Index Item.key c.m_cache c.m_timed → SortedSet.Sorted nodeKey c.m_timed →
    Taken c (timeoutLoop ts t c).1 (timeoutLoop ts t c).2 ∧
      (timeoutLoop ts t c).1.m_timed = c.m_timed.filter fun n => decide (ts < n.item.ts) := by
  induction t with
  | nil =>
      intro c ht h _
      refine ⟨.refl h, ?_⟩
      rw [ht]
      exact ht
  | cons it t ih =>
      intro c ht h hs
      rw [ht] at h hs
      obtain ⟨hhead, htail⟩ := List.pairwise_cons.mp hs
      rw [timeoutLoop]
      by_cases hdue : it.item.ts ≤ ts
      · obtain ⟨⟨⟨front, happ, hcbs⟩, hindex, hnext⟩, hfilter⟩ := ih
          (c := { c with m_cache := c.m_cache.erase it.item.key, m_timed := t }) rfl h.tail htail
        rw [if_pos hdue]
        refine ⟨⟨⟨it :: front, ?_, ?_⟩, hindex, hnext⟩, ?_⟩
        · rw [ht, List.cons_append]
          exact congrArg (List.cons it) happ
        · rw [List.map_cons, ← hcbs]
        · rw [ht, List.filter_cons_of_neg (by simpa using hdue)]
          exact hfilter
      · rw [if_neg hdue]
        refine ⟨.refl (ht ▸ h), ?_⟩
        rw [ht]
        exact (List.filter_eq_self.mpr fun n hn => decide_eq_true (late_of_head hs hdue n hn)).symm

theorem emplace_linked (h : Linked c) {k : K} (hk : c.m_cache.lookup k = none) (v : V)
    (ts : UInt64) : Linked (emplace k v ts c) ∧
      ∀ x, x ∈ (emplace k v ts c).m_timed.map Node.item ↔
        x = ⟨k, v, ts⟩ ∨ x ∈ c.m_timed.map Node.item := by
  have hne : ∀ n ∈ c.m_timed, nodeKey n ≠ nodeKey ⟨c.next, k, v, ts⟩ := by
    intro n hn he
    exact h.index.lookup_none.mp hk n hn (congrArg (fun p => (ofLex p).2) he)
  obtain ⟨hperm, hcache⟩ := emplace_new hne
  have hindex := h.index.cons (i := c.next) (x := ⟨k, v, ts⟩) hk
    fun n hn => Nat.ne_of_lt (h.fresh n hn)
  refine ⟨⟨?_, ?_, ?_⟩, ?_⟩
  · rw [hcache]
    exact hindex.perm hperm.symm
  · exact h.sorted.insert itemLt_compares trivial fun _ _ => trivial
  · intro n hn
    rcases List.mem_cons.mp (hperm.mem_iff.mp hn) with rfl | hn
    · exact Nat.lt_succ_self c.next
    · exact Nat.lt_succ_of_lt (h.fresh n hn)
  · intro x
    rw [← List.mem_cons (b := (⟨k, v, ts⟩ : Item K V))]
    exact (hperm.map Node.item).mem_iff

/-- The cache is the map of its history. -/
structure Good (es : List (Op K V × Outcome K V)) (c : TimedCache K V) : Prop where
  linked : Linked c
  history : ∀ k v ts, history es k = some (v, ts) ↔ ⟨k, v, ts⟩ ∈ c.m_timed.map Node.item

variable {es : List (Op K V × Outcome K V)} {e : Op K V × Outcome K V}

theorem history_snoc (es : List (Op K V × Outcome K V)) (e : Op K V × Outcome K V) :
    TimedCache.history (es ++ [e]) = latest (TimedCache.history es) e := by
  rw [TimedCache.history, List.foldl_append]
  rfl

theorem Linked.lookup_some (h : Linked c) {k : K} {it : Nat}
    (hk : c.m_cache.lookup k = some it) :
    ∃ v ts, (⟨it, k, v, ts⟩ : Node (Item K V)) ∈ c.m_timed := by
  obtain ⟨⟨_, k', v, ts⟩, hn, rfl, rfl⟩ := (h.index.lookup k it).mp hk
  exact ⟨v, ts, hn⟩

theorem Good.history_none (h : Good es c) {k : K} (hk : c.m_cache.lookup k = none) :
    TimedCache.history es k = none := by
  cases hh : TimedCache.history es k with
  | none => rfl
  | some p =>
      obtain ⟨n, hn, he⟩ := List.mem_map.mp ((h.history k p.1 p.2).mp hh)
      exact absurd (congrArg Item.key he) (h.linked.index.lookup_none.mp hk n hn)

theorem get_state (c : TimedCache K V) (k : K) :
    ∃ status, (c.get k).1 = { c with m_status := status } := by
  simp only [TimedCache.get]
  split
  · exact ⟨_, rfl⟩
  · exact ⟨_, rfl⟩

theorem get_eq (h : Good es c) (k : K) :
    (c.get k).2 = (TimedCache.history es k).map Prod.fst := by
  cases hk : c.m_cache.lookup k with
  | none => simp only [TimedCache.get, hk, h.history_none hk, Option.map_none]
  | some it =>
      obtain ⟨v, ts, hn⟩ := h.linked.lookup_some hk
      have hh := (h.history k v ts).mpr (List.mem_map_of_mem hn)
      have hderef := Node.deref_eq h.linked.index.ids hn
      simp only [TimedCache.get, hk, hh, hderef, Option.map_some]

/-- Nothing was taken, or the taken items are those of the outcome. -/
theorem Good.taken (h : Good es c) (ht : Taken c c' cbs)
    (hhist : ∀ k, TimedCache.history (es ++ [e]) k = evict (TimedCache.history es) cbs k) :
    Good (es ++ [e]) c' := by
  refine ⟨ht.linked h.linked, ?_⟩
  intro k v ts
  rw [hhist, ht.mem_iff h.linked, ← h.history, evict]
  by_cases hk : k ∈ cbs.map Prod.fst
  · simp only [hk, if_true, reduceCtorEq, not_true, false_and]
  · simp only [hk, if_false, not_false_iff, true_and]

theorem Good.status (h : Good es c) (status : CacheStatus) :
    Good es { c with m_status := status } :=
  ⟨⟨h.linked.index, h.linked.sorted, h.linked.fresh⟩, h.history⟩

theorem evict_nil (f : K → Option (V × UInt64)) (k : K) : evict f [] k = f k :=
  if_neg List.not_mem_nil

/-- A new key, before the pruning. -/
theorem emplace_good (h : Good es c) {k : K} (hk : c.m_cache.lookup k = none) (v : V)
    (expired now : UInt64) :
    Good (es ++ [(.set k v expired now, .called [])]) (emplace k v (expired + now) c) := by
  obtain ⟨hlinked, hmem⟩ := emplace_linked h.linked hk v (expired + now)
  refine ⟨hlinked, ?_⟩
  intro k' w ts
  rw [hmem, history_snoc, latest, evict_nil, ← h.history]
  by_cases hkk : k' = k
  · subst hkk
    simp only [if_true, h.history_none hk, Option.some.injEq, Prod.mk.injEq, Item.mk.injEq,
      true_and, reduceCtorEq, or_false]
    exact and_congr eq_comm eq_comm
  · simp only [hkk, if_false, Item.mk.injEq, false_and, false_or]

/-- A key that is set to what it has, before the pruning. -/
theorem emplace_same (h : Good es c) {k : K} {it : Nat} {v : V} {expired now : UInt64}
    (hn : (⟨it, k, v, expired + now⟩ : Node (Item K V)) ∈ c.m_timed) :
    Good (es ++ [(.set k v expired now, .called [])])
      (emplace k v (expired + now) { c with m_cache := c.m_cache.erase k }) := by
  have hself : nodeKey ⟨it, k, v, expired + now⟩ = nodeKey ⟨c.next, k, v, expired + now⟩ := rfl
  obtain ⟨hinsert, hcache⟩ := emplace_old (c := { c with m_cache := c.m_cache.erase k })
    h.linked.sorted hn hself
  have hlookup := h.linked.index.lookup_mem hn
  refine ⟨⟨?_, ?_, ?_⟩, ?_⟩
  · rw [hcache, hinsert]
    apply h.linked.index.congr
    intro k'
    by_cases hkk : k' = k
    · subst hkk
      rw [AList.lookup_insert]
      exact hlookup.symm
    · rw [AList.lookup_insert_ne hkk, AList.lookup_erase_ne hkk]
  · rw [hinsert]
    exact h.linked.sorted
  · rw [hinsert]
    intro n hm
    exact Nat.lt_succ_of_lt (h.linked.fresh n hm)
  · intro k' w ts
    rw [hinsert, history_snoc, latest, evict_nil, ← h.history]
    by_cases hkk : k' = k
    · subst hkk
      rw [if_pos rfl, (h.history k' v (expired + now)).mpr (List.mem_map_of_mem hn)]
    · rw [if_neg hkk]

theorem prune_good {k : K} {v : V} {expired now : UInt64}
    (h : Good (es ++ [(.set k v expired now, .called [])]) c) :
    Good (es ++ [(.set k v expired now, .called (prune c).2)]) (prune c).1 := by
  have ht := prune_taken h.linked
  refine ⟨ht.linked h.linked, ?_⟩
  intro k' w ts
  rw [ht.mem_iff h.linked, ← h.history, history_snoc, history_snoc, latest, latest, evict_nil,
    evict]
  by_cases hk : k' ∈ (prune c).2.map Prod.fst
  · simp only [hk, if_true, reduceCtorEq, not_true, false_and]
  · simp only [hk, if_false, not_false_iff, true_and]

theorem set_good (h : Good es c) {k : K} {v : V} {expired now : UInt64}
    (hno : NoOverwrite c (.set k v expired now)) :
    Good (es ++ [(.set k v expired now, .called (c.set k v expired now).2)])
      (c.set k v expired now).1 := by
  have hs := h.status c.m_status.incSet
  cases hk : c.m_cache.lookup k with
  | none =>
      simp only [TimedCache.set, hk]
      exact prune_good (emplace_good hs hk v expired now)
  | some it =>
      have hderef := hno it hk
      obtain ⟨w, ts, hn⟩ := h.linked.lookup_some hk
      rw [Node.deref_eq h.linked.index.ids hn, Option.some.injEq] at hderef
      obtain ⟨-, rfl, rfl⟩ := Item.mk.inj hderef
      simp only [TimedCache.set, hk]
      exact prune_good (emplace_same hs hn)

theorem del_good (h : Good es c) (k : K) (out : Outcome K V) :
    Good (es ++ [(.del k, out)]) (c.del k).1 := by
  cases hk : c.m_cache.lookup k with
  | none =>
      simp only [TimedCache.del, hk]
      refine (h.taken (.refl h.linked.index) ?_).status c.m_status.incDel
      intro k'
      rw [history_snoc, evict_nil, latest]
      by_cases hkk : k' = k
      · rw [hkk, if_pos rfl, h.history_none hk]
      · exact if_neg hkk
  | some it =>
      obtain ⟨w, ts, hn⟩ := h.linked.lookup_some hk
      have hindex := h.linked.index.remove hn
      simp only [TimedCache.del, hk]
      refine ⟨⟨hindex, List.Pairwise.sublist List.filter_sublist h.linked.sorted, ?_⟩, ?_⟩
      · intro n hm
        exact h.linked.fresh n (List.mem_filter.mp hm).1
      · intro k' v ts'
        rw [history_snoc, latest]
        by_cases hkk : k' = k
        · subst hkk
          rw [if_pos rfl]
          constructor
          · intro he
            cases he
          · intro hm
            obtain ⟨m, hm, he⟩ := List.mem_map.mp hm
            have hnone : (c.m_cache.erase k').lookup k' = none := AList.lookup_erase k' c.m_cache
            exact absurd (congrArg Item.key he) (hindex.lookup_none.mp hnone m hm)
        · rw [if_neg hkk, h.history]
          constructor
          · intro hm
            obtain ⟨m, hm, he⟩ := List.mem_map.mp hm
            refine List.mem_map.mpr ⟨m, List.mem_filter.mpr ⟨hm, ?_⟩, he⟩
            have hid : m.id ≠ it := by
              intro hid
              have hmn := h.linked.index.eq_of_id hm hn hid
              rw [hmn] at he
              exact hkk (congrArg Item.key he).symm
            simpa using hid
          · intro hm
            obtain ⟨m, hm, he⟩ := List.mem_map.mp hm
            exact List.mem_map.mpr ⟨m, (List.mem_filter.mp hm).1, he⟩

theorem checkTimeout_good (h : Good es c) (ts : UInt64) (out : Outcome K V) :
    Good (es ++ [(.checkTimeout ts, out)]) (c.checkTimeout ts).1 := by
  obtain ⟨ht, hfilter⟩ := timeoutLoop_spec ts c.m_timed rfl h.linked.index h.linked.sorted
  refine ⟨ht.linked h.linked, ?_⟩
  intro k v ts'
  rw [checkTimeout, hfilter, history_snoc, latest, Option.filter_eq_some_iff, h.history]
  constructor
  · rintro ⟨hm, hlt⟩
    obtain ⟨n, hn, he⟩ := List.mem_map.mp hm
    exact List.mem_map.mpr ⟨n, List.mem_filter.mpr ⟨hn, by rw [he]; exact hlt⟩, he⟩
  · intro hm
    obtain ⟨n, hn, he⟩ := List.mem_map.mp hm
    obtain ⟨hn, hlt⟩ := List.mem_filter.mp hn
    rw [he] at hlt
    exact ⟨List.mem_map.mpr ⟨n, hn, he⟩, hlt⟩

theorem step_good {max_size elasticity : UInt64} (h : Good es c)
    (hstep : ((machine max_size elasticity).restrict fun c e => NoOverwrite c e.1).step c e c') :
    Good (es ++ [e]) c' := by
  obtain ⟨hno, hstep⟩ := hstep
  obtain ⟨op, out⟩ := e
  cases op with
  | set k v expired now =>
      obtain ⟨rfl, rfl⟩ := Prod.mk.inj hstep
      exact set_good h hno
  | get k =>
      obtain ⟨rfl, rfl⟩ := Prod.mk.inj hstep
      have hsame : Good (es ++ [(.get k, .value (c.get k).2)]) c := by
        apply h.taken (.refl h.linked.index)
        intro k'
        rw [history_snoc, evict_nil]
        rfl
      obtain ⟨status, hget⟩ := get_state c k
      rw [hget]
      exact hsame.status status
  | del k =>
      obtain ⟨rfl, rfl⟩ := Prod.mk.inj hstep
      exact del_good h k _
  | checkTimeout ts =>
      obtain ⟨rfl, rfl⟩ := Prod.mk.inj hstep
      exact checkTimeout_good h ts _
  | prune =>
      obtain ⟨rfl, rfl⟩ := Prod.mk.inj hstep
      apply h.taken (prune_taken h.linked)
      intro k
      rw [history_snoc]
      rfl

end CIM.ds.TimedCache
