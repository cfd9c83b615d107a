import CIM.Ds.LruCache

/-!
# Runs of an `LruCache`

What each operation leaves, and from it the invariant of all runs.
-/
namespace CIM.ds.LruCache

open Transition

variable {K V : Type} [DecidableEq K] {c : LruCache K V}

/-- The index and the list describe the same nodes, and the next address is a new one. -/
structure Linked (c : LruCache K V) : Prop where
  index : Index Prod.fst c.m_cache c.m_keys
  fresh : ∀ n ∈ c.m_keys, n.id < c.next

/-- The keys in the order of the list. -/
def keys (c : LruCache K V) : List K := c.m_keys.map fun n => n.item.1

theorem Linked.size (h : Linked c) : c.size = c.m_keys.length := h.index.size

theorem pruneLoop_spec (turns : Nat) : ∀ {c : LruCache K V}, Index Prod.fst c.m_cache c.m_keys →
    c.m_keys.length ≤ turns →
    ∃ cache', Index Prod.fst cache' (c.m_keys.take c.m_maxSize.toNat) ∧
      pruneLoop turns c =
        ({ c with m_cache := cache', m_keys := c.m_keys.take c.m_maxSize.toNat },
          ((c.m_keys.drop c.m_maxSize.toNat).map Node.item).reverse) := by
  induction turns with
  | zero =>
      intro c h hlen
      obtain ⟨cache, ks, max_size, elasticity, status, next⟩ := c
      obtain rfl : ks = [] := List.eq_nil_of_length_eq_zero (Nat.le_zero.mp hlen)
      exact ⟨cache, by rw [List.take_nil]; exact h,
        by rw [List.take_nil, List.drop_nil]; rfl⟩
  | succ turns ih =>
      intro c h hlen
      by_cases hsize : c.size > c.m_maxSize.toNat
      · have hmax : c.m_maxSize.toNat < c.m_keys.length := by
          rw [← h.size]
          exact hsize
        have hne : c.m_keys ≠ [] := List.ne_nil_of_length_pos (Nat.zero_lt_of_lt hmax)
        obtain ⟨l, n, hl⟩ : ∃ l n, c.m_keys = l ++ [n] :=
          ⟨_, _, (List.dropLast_append_getLast hne).symm⟩
        have hn : n ∈ c.m_keys := by rw [hl]; exact List.mem_append_right l List.mem_cons_self
        have hindex := h.remove hn
        have hids := h.ids
        rw [hl] at hindex hids hmax hlen
        rw [Node.remove_last hids] at hindex
        rw [List.length_append, List.length_singleton] at hmax hlen
        obtain ⟨cache', hindex', hloop⟩ := ih
          (c := { c with m_cache := c.m_cache.erase n.item.1, m_keys := l }) hindex
          (Nat.le_of_succ_le_succ hlen)
        have hle : c.m_maxSize.toNat ≤ l.length := Nat.le_of_lt_succ hmax
        refine ⟨cache', ?_, ?_⟩
        · rw [hl, List.take_append_of_le_length hle]
          exact hindex'
        · rw [pruneLoop, if_pos hsize]
          simp only [hl, List.getLast?_concat, List.dropLast_concat, hloop,
            List.take_append_of_le_length hle, List.drop_append_of_le_length hle, List.map_append,
            List.map_singleton, List.reverse_append, List.reverse_singleton, List.singleton_append]
      · have hle : c.m_keys.length ≤ c.m_maxSize.toNat := by
          rw [← h.size]
          exact Nat.le_of_not_lt hsize
        refine ⟨c.m_cache, ?_, ?_⟩
        · rw [List.take_of_length_le hle]
          exact h
        · rw [pruneLoop, if_neg hsize, List.take_of_length_le hle, List.drop_of_length_le hle]
          rfl

/-- What `prune` keeps and what it evicts. -/
structure Pruned (c c' : LruCache K V) (cbs : List (K × V)) : Prop where
  linked : Linked c'
  keys : c'.m_keys =
    if c.m_maxSize = 0 ∨ c.m_keys.length < c.getMaxAllowedSize.toNat then c.m_keys
    else c.m_keys.take c.m_maxSize.toNat
  cbs : c'.m_keys ++ c.m_keys.drop c'.m_keys.length = c.m_keys ∧
    cbs = ((c.m_keys.drop c'.m_keys.length).map Node.item).reverse
  maxSize : c'.m_maxSize = c.m_maxSize
  elasticity : c'.m_elasticity = c.m_elasticity

theorem prune_spec (h : Linked c) : Pruned c (prune c).1 (prune c).2 := by
  rw [prune, h.size]
  by_cases hfull : c.m_maxSize = 0 ∨ c.m_keys.length < c.getMaxAllowedSize.toNat
  · rw [if_pos hfull]
    exact ⟨h, by rw [if_pos hfull], by rw [List.drop_length]; exact ⟨List.append_nil _, rfl⟩,
      rfl, rfl⟩
  · obtain ⟨cache', hindex, hloop⟩ := pruneLoop_spec _ h.index (Nat.le_refl _)
    rw [if_neg hfull, hloop]
    refine ⟨⟨hindex, ?_⟩, by rw [if_neg hfull], ?_, rfl, rfl⟩
    · intro n hn
      exact h.fresh n (List.mem_of_mem_take hn)
    · have hdrop : c.m_keys.drop (c.m_keys.take c.m_maxSize.toNat).length =
          c.m_keys.drop c.m_maxSize.toNat := by
        rw [List.length_take, ← List.drop_eq_drop_min]
      rw [hdrop]
      exact ⟨List.take_append_drop _ _, rfl⟩

theorem emplace_linked (h : Linked c) {k : K} (hk : c.m_cache.lookup k = none) (v : V) :
    Linked (emplace k v c) where
  index := h.index.cons (x := (k, v)) hk fun n hn => Nat.ne_of_lt (h.fresh n hn)
  fresh := by
    intro n hn
    rcases List.mem_cons.mp hn with rfl | hn
    · exact Nat.lt_succ_self c.next
    · exact Nat.lt_succ_of_lt (h.fresh n hn)

/-- What is known after a history of operations. -/
structure Good (max_size elasticity : UInt64) (es : List (Op K V × Outcome K V))
    (c : LruCache K V) : Prop where
  linked : Linked c
  recent : Recent uses es c.keys
  history : ∀ k v, history es k = some v ↔ (k, v) ∈ c.m_keys.map Node.item
  below : if elasticity = 0 then c.m_keys.length ≤ max_size.toNat
    else c.m_keys.length < max_size.toNat + elasticity.toNat
  maxSize : c.m_maxSize = max_size
  elasticity : c.m_elasticity = elasticity

variable {max_size elasticity : UInt64} {es : List (Op K V × Outcome K V)}

theorem create_good (hmax : 0 < max_size) :
    Good max_size elasticity [] (create (K := K) (V := V) max_size elasticity) where
  linked := ⟨.empty, fun n hn => by cases hn⟩
  recent := List.Pairwise.nil
  history k v := by simp [LruCache.history, create]
  below := by
    have hpos : 0 < max_size.toNat := UInt64.lt_iff_toNat_lt.mp hmax
    split
    · exact Nat.zero_le _
    · exact Nat.lt_add_right _ hpos
  maxSize := rfl
  elasticity := rfl

theorem history_snoc (es : List (Op K V × Outcome K V)) (e : Op K V × Outcome K V) :
    LruCache.history (es ++ [e]) = latest (LruCache.history es) e := by
  rw [LruCache.history, List.foldl_append]
  rfl

theorem Linked.lookup_some (h : Linked c) {k : K} {it : Nat} (hk : c.m_cache.lookup k = some it) :
    ∃ v, (⟨it, k, v⟩ : Node (K × V)) ∈ c.m_keys := by
  obtain ⟨⟨id, k', v⟩, hn, rfl, rfl⟩ := (h.index.lookup k it).mp hk
  exact ⟨v, hn⟩

theorem Linked.lookup_none (h : Linked c) {k : K} (hk : c.m_cache.lookup k = none) (v : V) :
    (k, v) ∉ c.m_keys.map Node.item := by
  intro hm
  obtain ⟨n, hn, he⟩ := List.mem_map.mp hm
  exact h.index.lookup_none.mp hk n hn (by rw [he])

/-- Without the node of a key, its pairs are those of the other keys. -/
theorem Linked.mem_remove (h : Linked c) {it : Nat} {k : K} {v : V}
    (hn : (⟨it, k, v⟩ : Node (K × V)) ∈ c.m_keys) (k' : K) (w : V) :
    (k', w) ∈ (Node.remove it c.m_keys).map Node.item ↔
      k' ≠ k ∧ (k', w) ∈ c.m_keys.map Node.item := by
  constructor
  · intro hm
    obtain ⟨m, hm, he⟩ := List.mem_map.mp hm
    obtain ⟨hm, hid⟩ := List.mem_filter.mp hm
    refine ⟨?_, List.mem_map.mpr ⟨m, hm, he⟩⟩
    rintro rfl
    have hmn := h.index.eq_of_key hm hn (by rw [he])
    simp [hmn] at hid
  · rintro ⟨hne, hm⟩
    obtain ⟨m, hm, he⟩ := List.mem_map.mp hm
    apply List.mem_map.mpr
    refine ⟨m, List.mem_filter.mpr ⟨hm, ?_⟩, he⟩
    have hid : m.id ≠ it := by
      intro hid
      have hmn := h.index.eq_of_id hm hn hid
      rw [hmn] at he
      exact hne (congrArg Prod.fst he).symm
    simpa using hid

/-- The node of a key has been moved to the front, with the value `v`. -/
theorem Good.touch (h : Good max_size elasticity es c) {it : Nat} {k : K} {w : V}
    (hn : (⟨it, k, w⟩ : Node (K × V)) ∈ c.m_keys) (v : V) (status : CacheStatus)
    {e : Op K V × Outcome K V} (huse : uses e = some k)
    (hhist : ∀ k', LruCache.history (es ++ [e]) k' =
      if k' = k then some v else LruCache.history es k') :
    Good max_size elasticity (es ++ [e])
      { c with m_keys := ⟨it, k, v⟩ :: Node.remove it c.m_keys, m_status := status } where
  linked := by
    have hids := h.linked.index.ids
    have hmod : Index Prod.fst c.m_cache (Node.modify it (fun p => (p.1, v)) c.m_keys) :=
      h.linked.index.modify fun _ _ _ => rfl
    have hspl := hmod.perm (Node.splice_perm it _).symm
    rw [Node.splice_modify hids hn] at hspl
    refine ⟨hspl, ?_⟩
    intro m hm
    rcases List.mem_cons.mp hm with rfl | hm
    · exact h.linked.fresh ⟨it, k, w⟩ hn
    · exact h.linked.fresh m (List.mem_filter.mp hm).1
  recent := by
    have hrest : Recent uses es ((Node.remove it c.m_keys).map fun n => n.item.1) :=
      h.recent.sublist (List.filter_sublist.map _)
    refine hrest.front huse ?_
    intro hm
    obtain ⟨m, hm, hk⟩ := List.mem_map.mp hm
    have hmem : (k, m.item.2) ∈ (Node.remove it c.m_keys).map Node.item :=
      List.mem_map.mpr ⟨m, hm, Prod.ext hk rfl⟩
    exact ((h.linked.mem_remove hn k _).mp hmem).1 rfl
  history := by
    intro k' w'
    rw [hhist, List.map_cons, List.mem_cons, h.linked.mem_remove hn, ← h.history]
    by_cases hk : k' = k
    · subst hk
      rw [if_pos rfl]
      constructor
      · intro he
        exact .inl (by rw [Option.some.inj he])
      · rintro (he | he)
        · exact congrArg some (congrArg Prod.snd he).symm
        · exact absurd rfl he.1
    · rw [if_neg hk]
      constructor
      · intro he
        exact .inr ⟨hk, he⟩
      · rintro (he | he)
        · exact absurd (congrArg Prod.fst he) hk
        · exact he.2
  below := by
    have hlen : (⟨it, k, v⟩ :: Node.remove it c.m_keys).length = c.m_keys.length := by
      rw [← Node.splice_modify h.linked.index.ids hn fun p => (p.1, v),
        (Node.splice_perm it _).length_eq, Node.modify, List.length_map]
    rw [hlen]
    exact h.below
  maxSize := h.maxSize
  elasticity := h.elasticity

/-- A node has been taken off the list, or none. -/
theorem Good.shrink (h : Good max_size elasticity es c) {c' : LruCache K V}
    {e : Op K V × Outcome K V} (huse : ∀ k ∈ c'.keys, uses e ≠ some k) (hlinked : Linked c')
    (hsub : c'.m_keys.Sublist c.m_keys)
    (hhist : ∀ k v, LruCache.history (es ++ [e]) k = some v ↔ (k, v) ∈ c'.m_keys.map Node.item)
    (hmax : c'.m_maxSize = c.m_maxSize) (hel : c'.m_elasticity = c.m_elasticity) :
    Good max_size elasticity (es ++ [e]) c' where
  linked := hlinked
  recent := (h.recent.sublist (hsub.map _)).keep huse
  history := hhist
  below := by
    have hlen := hsub.length_le
    have hbelow := h.below
    by_cases hzero : elasticity = 0
    · rw [if_pos hzero] at hbelow ⊢
      exact Nat.le_trans hlen hbelow
    · rw [if_neg hzero] at hbelow ⊢
      exact Nat.lt_of_le_of_lt hlen hbelow
  maxSize := hmax.trans h.maxSize
  elasticity := hel.trans h.elasticity

theorem get_hit (h : Linked c) {k : K} {it : Nat} {v : V}
    (hk : c.m_cache.lookup k = some it) (hn : (⟨it, k, v⟩ : Node (K × V)) ∈ c.m_keys) :
    c.get k = ({ c with
      m_keys := ⟨it, k, v⟩ :: Node.remove it c.m_keys
      m_status := c.m_status.incGet.incHit }, some v) := by
  have hspl : Node.splice it c.m_keys = ⟨it, k, v⟩ :: Node.remove it c.m_keys :=
    Node.splice_eq h.index.ids hn
  simp only [LruCache.get, hk, hspl, Node.deref, List.find?_cons, decide_true, Option.map_some]

theorem get_eq (h : Good max_size elasticity es c) (k : K) :
    (c.get k).2 = LruCache.history es k := by
  cases hk : c.m_cache.lookup k with
  | none =>
      cases hh : LruCache.history es k with
      | none => simp only [LruCache.get, hk]
      | some v => exact absurd ((h.history k v).mp hh) (h.linked.lookup_none hk v)
  | some it =>
      obtain ⟨v, hn⟩ := h.linked.lookup_some hk
      rw [get_hit h.linked hk hn]
      exact ((h.history k v).mpr (List.mem_map_of_mem hn)).symm

theorem get_good (h : Good max_size elasticity es c) (k : K) (out : Outcome K V) :
    Good max_size elasticity (es ++ [(.get k, out)]) (c.get k).1 := by
  cases hk : c.m_cache.lookup k with
  | none =>
      simp only [LruCache.get, hk]
      refine h.shrink ?_ ⟨h.linked.index, h.linked.fresh⟩ (List.Sublist.refl _) ?_ rfl rfl
      · intro k' hk' he
        obtain rfl : k = k' := Option.some.inj he
        obtain ⟨n, hn, hnk⟩ := List.mem_map.mp hk'
        exact h.linked.index.lookup_none.mp hk n hn hnk
      · intro k' v
        rw [history_snoc]
        exact h.history k' v
  | some it =>
      obtain ⟨v, hn⟩ := h.linked.lookup_some hk
      rw [get_hit h.linked hk hn]
      apply h.touch hn v _ rfl
      intro k'
      rw [history_snoc]
      by_cases hkk : k' = k
      · subst hkk
        rw [if_pos rfl]
        exact (h.history k' v).mpr (List.mem_map_of_mem hn)
      · rw [if_neg hkk]
        rfl

theorem set_hit (h : Linked c) {k : K} {it : Nat} {w : V} (hk : c.m_cache.lookup k = some it)
    (hn : (⟨it, k, w⟩ : Node (K × V)) ∈ c.m_keys) (v : V) :
    c.set k v = ({ c with
      m_keys := ⟨it, k, v⟩ :: Node.remove it c.m_keys
      m_status := c.m_status.incSet }, []) := by
  have hspl := Node.splice_modify h.index.ids hn fun p => (p.1, v)
  simp only [LruCache.set, hk, hspl]

theorem set_hit_good (h : Good max_size elasticity es c) {k : K} {it : Nat}
    (hk : c.m_cache.lookup k = some it) (v : V) :
    Good max_size elasticity (es ++ [(.set k v, .pruned (c.set k v).2)]) (c.set k v).1 := by
  obtain ⟨w, hn⟩ := h.linked.lookup_some hk
  rw [set_hit h.linked hk hn v]
  apply h.touch hn v _ rfl
  intro k'
  rw [history_snoc]
  simp only [latest, List.map_nil, List.not_mem_nil, if_false]

theorem emplace_recent (h : Good max_size elasticity es c) {k : K}
    (hk : c.m_cache.lookup k = none) {e : Op K V × Outcome K V} (huse : uses e = some k) (v : V) :
    Recent uses (es ++ [e]) (emplace k v c).keys := by
  apply h.recent.front huse
  intro hm
  obtain ⟨n, hn, hnk⟩ := List.mem_map.mp hm
  exact h.linked.index.lookup_none.mp hk n hn hnk

theorem Pruned.sublist {c' : LruCache K V} {cbs : List (K × V)} (hp : Pruned c c' cbs) :
    c'.m_keys.Sublist c.m_keys := by
  have h := List.sublist_append_left c'.m_keys (c.m_keys.drop c'.m_keys.length)
  rwa [hp.cbs.1] at h

/-- A pair of the list is kept or evicted, and not both. -/
theorem Pruned.mem_iff {c' : LruCache K V} {cbs : List (K × V)} (h : Linked c)
    (hp : Pruned c c' cbs) (k : K) (v : V) :
    (k, v) ∈ c'.m_keys.map Node.item ↔
      k ∉ cbs.map Prod.fst ∧ (k, v) ∈ c.m_keys.map Node.item := by
  have hkeys := h.index.keys_nodup
  rw [← hp.cbs.1, List.map_append, List.nodup_append] at hkeys
  have hall : (k, v) ∈ c.m_keys.map Node.item ↔ (k, v) ∈ c'.m_keys.map Node.item ∨
      (k, v) ∈ (c.m_keys.drop c'.m_keys.length).map Node.item := by
    rw [← List.mem_append, ← List.map_append, hp.cbs.1]
  have hcbs : k ∈ cbs.map Prod.fst ↔
      k ∈ (c.m_keys.drop c'.m_keys.length).map fun n => n.item.1 := by
    rw [hp.cbs.2, List.map_reverse, List.mem_reverse, List.map_map]
    rfl
  rw [hcbs, hall]
  constructor
  · intro hm
    refine ⟨?_, .inl hm⟩
    obtain ⟨n, hn, he⟩ := List.mem_map.mp hm
    intro hd
    exact hkeys.2.2 k (List.mem_map.mpr ⟨n, hn, by rw [he]⟩) k hd rfl
  · rintro ⟨hd, hm | hm⟩
    · exact hm
    · obtain ⟨n, hn, he⟩ := List.mem_map.mp hm
      exact absurd (List.mem_map.mpr ⟨n, hn, by rw [he]⟩) hd

/-- The size that `prune` leaves. -/
theorem Pruned.below {c' : LruCache K V} {cbs : List (K × V)} (hp : Pruned c c' cbs)
    (hmax : c.m_maxSize ≠ 0) :
    if c.m_elasticity = 0 then c'.m_keys.length ≤ c.m_maxSize.toNat
    else c'.m_keys.length < c.m_maxSize.toNat + c.m_elasticity.toNat := by
  have hallowed : c.getMaxAllowedSize.toNat =
      (c.m_maxSize.toNat + c.m_elasticity.toNat) % 18446744073709551616 := UInt64.toNat_add ..
  have hpos : c.m_elasticity ≠ 0 → 0 < c.m_elasticity.toNat := by
    intro hne
    apply Nat.pos_of_ne_zero
    intro h0
    exact hne (UInt64.toNat_inj.mp h0)
  by_cases hzero : c.m_elasticity = 0
  · have htoNat : c.m_elasticity.toNat = 0 := by rw [hzero]; rfl
    have hlt := c.m_maxSize.toNat_lt
    rw [if_pos hzero, hp.keys]
    split
    · rename_i hfew
      rcases hfew with hfew | hfew
      · exact absurd hfew hmax
      · omega
    · exact List.length_take_le _ _
  · rw [if_neg hzero, hp.keys]
    have hel := hpos hzero
    split
    · rename_i hfew
      rcases hfew with hfew | hfew
      · exact absurd hfew hmax
      · omega
    · have hlen := List.length_take_le c.m_maxSize.toNat c.m_keys
      omega

theorem set_miss {k : K} (hk : c.m_cache.lookup k = none) (v : V) :
    c.set k v = prune (emplace k v { c with m_status := c.m_status.incSet }) := by
  simp only [LruCache.set, hk]

theorem Linked.emplace_set (h : Linked c) {k : K} (hk : c.m_cache.lookup k = none) (v : V) :
    Linked (emplace k v { c with m_status := c.m_status.incSet }) :=
  emplace_linked (c := { c with m_status := c.m_status.incSet }) ⟨h.index, h.fresh⟩ hk v

theorem set_miss_good (h : Good max_size elasticity es c) (hmax : max_size ≠ 0) {k : K}
    (hk : c.m_cache.lookup k = none) (v : V) :
    Good max_size elasticity (es ++ [(.set k v, .pruned (c.set k v).2)]) (c.set k v).1 := by
  have hlinked := h.linked.emplace_set hk v
  have hp := prune_spec hlinked
  rw [← set_miss hk v] at hp
  have hsub : (c.set k v).1.m_keys.Sublist (⟨c.next, k, v⟩ :: c.m_keys) :=
    hp.sublist
  refine ⟨hp.linked, ?_, ?_, ?_, hp.maxSize.trans h.maxSize, hp.elasticity.trans h.elasticity⟩
  · exact (emplace_recent h hk rfl v).sublist (hsub.map _)
  · intro k' w
    rw [hp.mem_iff hlinked, history_snoc]
    simp only [latest, emplace, List.map_cons, List.mem_cons, Prod.mk.injEq, ← h.history]
    by_cases hout : k' ∈ (c.set k v).2.map Prod.fst
    · rw [if_pos hout]
      simp only [hout, not_true, false_and, reduceCtorEq]
    · rw [if_neg hout]
      simp only [hout, not_false_iff, true_and]
      by_cases hkk : k' = k
      · subst hkk
        rw [if_pos rfl]
        constructor
        · intro he
          exact .inl ⟨rfl, (Option.some.inj he).symm⟩
        · rintro (⟨-, rfl⟩ | he)
          · rfl
          · exact absurd ((h.history k' w).mp he) (h.linked.lookup_none hk w)
      · rw [if_neg hkk]
        simp only [hkk, false_and, false_or]
  · have hbelow := hp.below (h.maxSize ▸ hmax)
    have hm : (emplace k v { c with m_status := c.m_status.incSet }).m_maxSize = max_size :=
      h.maxSize
    have hel : (emplace k v { c with m_status := c.m_status.incSet }).m_elasticity = elasticity :=
      h.elasticity
    rw [hm, hel] at hbelow
    exact hbelow

theorem del_good (h : Good max_size elasticity es c) (k : K) (out : Outcome K V) :
    Good max_size elasticity (es ++ [(.del k, out)]) (c.del k).1 := by
  cases hk : c.m_cache.lookup k with
  | none =>
      simp only [LruCache.del, hk]
      refine h.shrink ?_ ⟨h.linked.index, h.linked.fresh⟩ (List.Sublist.refl _) ?_ rfl rfl
      · intro k' _ he
        cases he
      · intro k' v
        rw [history_snoc, ← h.history]
        simp only [latest]
        by_cases hkk : k' = k
        · subst hkk
          have hnone := h.linked.lookup_none hk v
          rw [← h.history] at hnone
          simp only [if_true, hnone, reduceCtorEq]
        · rw [if_neg hkk]
  | some it =>
      obtain ⟨w, hn⟩ := h.linked.lookup_some hk
      simp only [LruCache.del, hk]
      refine h.shrink ?_ ⟨h.linked.index.remove hn, ?_⟩ List.filter_sublist ?_ rfl rfl
      · intro k' _ he
        cases he
      · intro m hm
        exact h.linked.fresh m (List.mem_filter.mp hm).1
      · intro k' v
        rw [history_snoc, h.linked.mem_remove hn, ← h.history]
        simp only [latest]
        by_cases hkk : k' = k
        · simp only [hkk, if_true, ne_eq, not_true, false_and, reduceCtorEq]
        · simp only [hkk, if_false, ne_eq, not_false_iff, true_and]

theorem clear_good (h : Good max_size elasticity es c) (out : Outcome K V) :
    Good max_size elasticity (es ++ [(.clear, out)]) c.clear := by
  refine h.shrink ?_ ⟨.empty, fun n hn => by cases hn⟩ (List.nil_sublist _) ?_ rfl rfl
  · intro k hk
    cases hk
  · intro k v
    rw [history_snoc]
    simp [latest, clear]

theorem step_good (hmax : max_size ≠ 0) (h : Good max_size elasticity es c)
    {e : Op K V × Outcome K V} {c' : LruCache K V}
    (hstep : (machine max_size elasticity).step c e c') :
    Good max_size elasticity (es ++ [e]) c' := by
  obtain ⟨op, out⟩ := e
  cases op with
  | set k v =>
      obtain ⟨rfl, rfl⟩ := Prod.mk.inj hstep
      cases hk : c.m_cache.lookup k with
      | none => exact set_miss_good h hmax hk v
      | some it => exact set_hit_good h hk v
  | get k =>
      obtain ⟨rfl, rfl⟩ := Prod.mk.inj hstep
      exact get_good h k _
  | «exists» k =>
      obtain ⟨rfl, rfl⟩ := Prod.mk.inj hstep
      refine h.shrink ?_ h.linked (List.Sublist.refl _) ?_ rfl rfl
      · intro k' _ he
        cases he
      · intro k' v
        rw [history_snoc]
        exact h.history k' v
  | del k =>
      obtain ⟨rfl, rfl⟩ := Prod.mk.inj hstep
      exact del_good h k _
  | clear =>
      obtain ⟨rfl, rfl⟩ := Prod.mk.inj hstep
      exact clear_good h _

theorem ne_zero_of_pos (hmax : 0 < max_size) : max_size ≠ 0 := by
  rintro rfl
  exact absurd hmax (by decide)

theorem run_good (hmax : 0 < max_size) (hr : (machine max_size elasticity).Run es c) :
    Good max_size elasticity es c := by
  apply hr.history
  · rintro c rfl
    exact create_good hmax
  · intro es c e c' h hstep
    exact step_good (ne_zero_of_pos hmax) h hstep

/-- The insertion of a new key keeps the list in order and evicts its end, if anything. -/
structure EvictsOldest (es : List (Op K V × Outcome K V)) (c : LruCache K V) (k : K) (v : V) :
    Prop where
  recent : Recent uses (es ++ [(.set k v, .pruned (c.set k v).2)]) (emplace k v c).keys
  kept : (c.set k v).1.m_keys =
    if (emplace k v c).m_keys.length < c.getMaxAllowedSize.toNat then (emplace k v c).m_keys
    else (emplace k v c).m_keys.take c.m_maxSize.toNat
  evicted : (c.set k v).2 =
    (((emplace k v c).m_keys.drop (c.set k v).1.m_keys.length).map Node.item).reverse
  left : (c.set k v).2 ≠ [] → (c.set k v).1.m_keys.length = c.m_maxSize.toNat

theorem evictsOldest (h : Good max_size elasticity es c) (hmax : max_size ≠ 0) {k : K}
    (hk : c.m_cache.lookup k = none) (v : V) : EvictsOldest es c k v := by
  have hlinked := h.linked.emplace_set hk v
  have hp := prune_spec hlinked
  rw [← set_miss hk v] at hp
  have hkept : (c.set k v).1.m_keys =
      if (emplace k v c).m_keys.length < c.getMaxAllowedSize.toNat then (emplace k v c).m_keys
      else (emplace k v c).m_keys.take c.m_maxSize.toNat := by
    have hne : c.m_maxSize ≠ 0 := h.maxSize ▸ hmax
    have hkeys := hp.keys
    simp only [emplace, hne, false_or] at hkeys
    exact hkeys
  refine ⟨emplace_recent h hk rfl v, hkept, hp.cbs.2, ?_⟩
  intro hout
  rw [hkept]
  by_cases hfew : (emplace k v c).m_keys.length < c.getMaxAllowedSize.toNat
  · rw [if_pos hfew] at hkept
    rw [hp.cbs.2, hkept] at hout
    exact absurd (by simp [emplace]) hout
  · rw [if_neg hfew] at hkept ⊢
    rw [List.length_take]
    rcases Nat.le_total c.m_maxSize.toNat (emplace k v c).m_keys.length with hle | hle
    · exact Nat.min_eq_left hle
    · rw [hp.cbs.2, hkept, List.take_of_length_le hle] at hout
      exact absurd (by simp [emplace]) hout

/-- Every run keeps the list and its index together, the list in order of use, the values those of
the history, and the size in its bound; what an insertion evicts is the end of the list. -/
theorem run_consistent (hmax : 0 < max_size) (hr : (machine max_size elasticity).Run es c) :
    Index Prod.fst c.m_cache c.m_keys ∧ Recent uses es c.keys ∧
      (∀ k, (c.get k).2 = LruCache.history es k) ∧
      (if elasticity = 0 then c.size ≤ max_size.toNat
        else c.size < max_size.toNat + elasticity.toNat) ∧
      ∀ k v, c.m_cache.lookup k = none → EvictsOldest es c k v := by
  have h := run_good hmax hr
  refine ⟨h.linked.index, h.recent, get_eq h, ?_, ?_⟩
  · rw [h.linked.size]
    exact h.below
  · intro k v hk
    exact evictsOldest h (ne_zero_of_pos hmax) hk v

/-- Two keys, the first of them used again, and a third one. -/
def threeSets : List (Op Nat Nat × Outcome Nat Nat) :=
  [(.set 1 10, .pruned []), (.set 2 20, .pruned []), (.get 1, .value (some 10)),
    (.set 3 30, .pruned [(2, 20)])]

theorem run_consistent_three_sets :
    ∃ c, (machine 2 0).Run threeSets c ∧ c.keys = [3, 1] ∧
      ∀ k, (c.get k).2 = LruCache.history threeSets k := by
  have h₀ : (machine 2 0).Run [] (create 2 0 : LruCache Nat Nat) := .start rfl
  have h₁ := h₀.snoc (e := (Op.set 1 10, Outcome.pruned [])) (Eq.refl _)
  have h₂ := h₁.snoc (e := (Op.set 2 20, Outcome.pruned [])) (Eq.refl _)
  have h₃ := h₂.snoc (e := (Op.get 1, Outcome.value (some 10))) (Eq.refl _)
  have h₄ := h₃.snoc (e := (Op.set 3 30, Outcome.pruned [(2, 20)])) (Eq.refl _)
  exact ⟨_, h₄, rfl, (run_consistent (by decide) h₄).2.2.1⟩

end CIM.ds.LruCache
