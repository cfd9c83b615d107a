import CIM.Ds.TimedCacheRuns

/-!
# Deadlines of a `TimedCache`

In every state the cache can come to, each iterator in `m_cache` points to an item of its key; other
items of the key may stand in `m_timed` as well. A check takes an entry away when any item of its
key is due. `expired` puts a copy of the item back with the deadline it had, so it moves no
deadline.
-/
namespace CIM.ds.TimedCache

open Transition

variable {K V : Type} [LinearOrder K] {c c' : TimedCache K V} {k k' : K}

/-- The calls that write to a cache. -/
inductive Call (K V : Type) where
  | op (op : Op K V)
  | expired (k : K) (ts now : UInt64)
  | clear
  | setMaxSize (v : UInt64)
  | setElasticity (v : UInt64)

def perform (c : TimedCache K V) : Call K V → TimedCache K V
  | .op op => (c.call op).2
  | .expired k ts now => (c.expired k ts now).1
  | .clear => c.clear
  | .setMaxSize v => c.setMaxSize v
  | .setElasticity v => c.setElasticity v

def lifecycle (max_size elasticity : UInt64) : System (TimedCache K V) (Call K V) where
  init c := c = create max_size elasticity
  step c e c' := c.perform e = c'

/-- The item a key's iterator points to. -/
def entry (c : TimedCache K V) (k : K) : Option (Item K V) :=
  (c.m_cache.lookup k).bind fun it => Node.deref it c.m_timed

/-- What the cache has of a key behind `checkTimeout(t)`. -/
def survivor (c : TimedCache K V) (t : UInt64) (k : K) : Option (Item K V) :=
  entry (c.checkTimeout t).1 k

/-- `expired` answers, gives the key the deadline `ttl` from `now` and keeps its value, and does
nothing to the other keys. -/
structure Rescheduled (c : TimedCache K V) (k : K) (ttl now : UInt64) : Prop where
  answer : (c.expired k ttl now).2 = some true
  value : (entry (c.expired k ttl now).1 k).map Item.val = (entry c k).map Item.val
  survives : ∀ t, (survivor (c.expired k ttl now).1 t k).isSome ↔
    t.toNat < now.toNat + ttl.toNat
  others : ∀ k' ≠ k, entry (c.expired k ttl now).1 k' = entry c k' ∧
    ∀ t, survivor (c.expired k ttl now).1 t k' = survivor c t k'

/-- The first deadline at which an item of the key is due. -/
def FirstDeadline (c : TimedCache K V) (k : K) (d : Nat) : Prop :=
  (∃ n ∈ c.m_timed, n.item.key = k ∧ n.item.ts.toNat = d) ∧
    ∀ n ∈ c.m_timed, n.item.key = k → d ≤ n.item.ts.toNat

instance (c : TimedCache K V) (k : K) (d : Nat) : Decidable (FirstDeadline c k d) :=
  inferInstanceAs (Decidable (_ ∧ _))

/-! ## What the iterators point to -/

/-- The set is in order, and no two nodes share their address. -/
structure Timed (c : TimedCache K V) : Prop where
  sorted : SortedSet.Sorted nodeKey c.m_timed
  ids : (c.m_timed.map Node.id).Nodup
  fresh : ∀ n ∈ c.m_timed, n.id < c.next

def Points (c : TimedCache K V) (k : K) : Prop :=
  ∀ it, c.m_cache.lookup k = some it → ∃ n ∈ c.m_timed, n.id = it ∧ n.item.key = k

structure Pointing (c : TimedCache K V) : Prop extends Timed c where
  points : ∀ k, Points c k

theorem Timed.sublist (h : Timed c) {l : List (Node (Item K V))} (hl : l.Sublist c.m_timed)
    (m_cache : Table K) : Timed { c with m_cache := m_cache, m_timed := l } where
  sorted := List.Pairwise.sublist hl h.sorted
  ids := h.ids.sublist (hl.map Node.id)
  fresh n hn := h.fresh n (hl.subset hn)

theorem Pointing.status (h : Pointing c) (status : CacheStatus) :
    Pointing { c with m_status := status } :=
  ⟨⟨h.sorted, h.ids, h.fresh⟩, h.points⟩

theorem Pointing.entry_some (h : Pointing c) {it : Nat} (hk : c.m_cache.lookup k = some it) :
    ∃ n ∈ c.m_timed, n.id = it ∧ n.item.key = k ∧ entry c k = some n.item := by
  obtain ⟨n, hn, hid, hkey⟩ := h.points k it hk
  refine ⟨n, hn, hid, hkey, ?_⟩
  rw [entry, hk, Option.bind_some, ← hid, Node.deref_eq h.ids hn]

/-- The first item is taken, and with it the entry of its key. -/
theorem Pointing.tail {n : Node (Item K V)} {l : List (Node (Item K V))} (h : Pointing c)
    (hl : c.m_timed = n :: l) :
    Pointing { c with m_cache := c.m_cache.erase n.item.key, m_timed := l } := by
  refine ⟨h.toTimed.sublist (hl ▸ List.sublist_cons_self n l) _, ?_⟩
  intro k it hit
  have hne : k ≠ n.item.key := by
    rintro rfl
    have hnone : (c.m_cache.erase n.item.key).lookup n.item.key = none :=
      AList.lookup_erase _ c.m_cache
    exact absurd (hnone.symm.trans hit) (by simp)
  obtain ⟨m, hm, hid, hkey⟩ := h.points k it ((AList.lookup_erase_ne hne).symm.trans hit)
  rw [hl] at hm
  rcases List.mem_cons.mp hm with rfl | hm
  · exact absurd hkey.symm hne
  · exact ⟨m, hm, hid, hkey⟩

theorem pruneLoop_pointing (l : List (Node (Item K V))) : ∀ {c : TimedCache K V},
    c.m_timed = l → Pointing c → Pointing (pruneLoop l c).1 := by
  induction l with
  | nil => exact fun _ h => h
  | cons it l ih =>
      intro c hl h
      rw [pruneLoop]
      by_cases hsize : c.size > c.m_maxSize.toNat
      · rw [if_pos hsize]
        exact ih rfl (h.tail hl)
      · rw [if_neg hsize]
        exact h

theorem Pointing.prune (h : Pointing c) : Pointing (prune c).1 := by
  rw [TimedCache.prune]
  by_cases hfull : c.m_maxSize = 0 ∨ c.size < c.getMaxAllowedSize.toNat
  · rw [if_pos hfull]
    exact h
  · rw [if_neg hfull]
    exact (pruneLoop_pointing c.m_timed rfl h).status _

/-- The entry of the key points to the new item or to an equivalent one. -/
theorem Timed.emplace (h : Timed c) (hp : ∀ k' ≠ k, Points c k') (v : V) (ts : UInt64) :
    Pointing (emplace k v ts c) := by
  have hsorted := h.sorted.insert (a := ⟨c.next, k, v, ts⟩) itemLt_compares trivial
    fun _ _ => trivial
  by_cases hold : ∃ n ∈ c.m_timed, nodeKey n = nodeKey ⟨c.next, k, v, ts⟩
  · obtain ⟨n, hn, he⟩ := hold
    obtain ⟨hinsert, hcache⟩ := emplace_old h.sorted hn he
    refine ⟨⟨hsorted, ?_, ?_⟩, ?_⟩
    · rw [hinsert]
      exact h.ids
    · rw [hinsert]
      exact fun m hm => Nat.lt_succ_of_lt (h.fresh m hm)
    · intro k' it hit
      rw [hcache] at hit
      rw [hinsert]
      by_cases hkk : k' = k
      · subst hkk
        rw [AList.lookup_insert, Option.some.injEq] at hit
        exact ⟨n, hn, hit, congrArg (fun p => (ofLex p).2) he⟩
      · rw [AList.lookup_insert_ne hkk] at hit
        exact hp k' hkk it hit
  · have hne : ∀ n ∈ c.m_timed, nodeKey n ≠ nodeKey ⟨c.next, k, v, ts⟩ :=
      fun n hn he => hold ⟨n, hn, he⟩
    obtain ⟨hperm, hcache⟩ := emplace_new hne
    refine ⟨⟨hsorted, ?_, ?_⟩, ?_⟩
    · rw [(hperm.map Node.id).nodup_iff, List.map_cons, List.nodup_cons]
      refine ⟨?_, h.ids⟩
      intro hm
      obtain ⟨n, hn, he⟩ := List.mem_map.mp hm
      exact absurd he (Nat.ne_of_lt (h.fresh n hn))
    · intro m hm
      rcases List.mem_cons.mp (hperm.mem_iff.mp hm) with rfl | hm
      · exact Nat.lt_succ_self c.next
      · exact Nat.lt_succ_of_lt (h.fresh m hm)
    · intro k' it hit
      rw [hcache] at hit
      by_cases hkk : k' = k
      · subst hkk
        rw [AList.lookup_insert, Option.some.injEq] at hit
        exact ⟨_, hperm.mem_iff.mpr List.mem_cons_self, hit, rfl⟩
      · rw [AList.lookup_insert_ne hkk] at hit
        obtain ⟨m, hm, hm'⟩ := hp k' hkk it hit
        exact ⟨m, hperm.mem_iff.mpr (List.mem_cons_of_mem _ hm), hm'⟩

theorem erase_points (h : Pointing c) {m_cache : Table K}
    (he : ∀ k' ≠ k, m_cache.lookup k' = c.m_cache.lookup k') {l : List (Node (Item K V))}
    (hl : ∀ n ∈ c.m_timed, n.item.key ≠ k → n ∈ l) :
    ∀ k' ≠ k, Points { c with m_cache := m_cache, m_timed := l } k' := by
  intro k' hne it hit
  obtain ⟨n, hn, hid, hkey⟩ := h.points k' it ((he k' hne).symm.trans hit)
  exact ⟨n, hl n hn (hkey ▸ hne), hid, hkey⟩

theorem Pointing.set (h : Pointing c) (k : K) (v : V) (expired now : UInt64) :
    Pointing (c.set k v expired now).1 := by
  have hs := h.status c.m_status.incSet
  cases hk : c.m_cache.lookup k with
  | none =>
      simp only [TimedCache.set, hk]
      exact (hs.toTimed.emplace (fun k' _ => hs.points k') v _).prune
  | some it =>
      simp only [TimedCache.set, hk]
      have herased := hs.toTimed.sublist (.refl _) (c.m_cache.erase k)
      exact (herased.emplace (erase_points hs (fun k' hne => AList.lookup_erase_ne hne)
        fun n hn _ => hn) v _).prune

/-- A node of a key is taken out of the set. -/
theorem Pointing.remove (h : Pointing c) {n : Node (Item K V)} (hn : n ∈ c.m_timed)
    (m_cache : Table K) (he : ∀ k' ≠ n.item.key, m_cache.lookup k' = c.m_cache.lookup k') :
    Timed { c with m_cache := m_cache, m_timed := Node.remove n.id c.m_timed } ∧
      ∀ k' ≠ n.item.key,
        Points { c with m_cache := m_cache, m_timed := Node.remove n.id c.m_timed } k' := by
  refine ⟨h.toTimed.sublist List.filter_sublist m_cache, erase_points h he ?_⟩
  intro m hm hne
  refine List.mem_filter.mpr ⟨hm, decide_eq_true ?_⟩
  intro hid
  exact hne (congrArg (fun m => m.item.key) (List.inj_on_of_nodup_map h.ids hm hn hid))

theorem Pointing.del (h : Pointing c) (k : K) : Pointing (c.del k).1 := by
  cases hk : c.m_cache.lookup k with
  | none =>
      simp only [TimedCache.del, hk]
      exact h.status _
  | some it =>
      obtain ⟨n, hn, rfl, rfl⟩ := h.points k it hk
      obtain ⟨htimed, hpoints⟩ := h.remove hn (c.m_cache.erase n.item.key)
        fun k' hne => AList.lookup_erase_ne hne
      simp only [TimedCache.del, hk]
      refine ⟨⟨htimed.sorted, htimed.ids, htimed.fresh⟩, ?_⟩
      intro k' it hit
      by_cases hkk : k' = n.item.key
      · have hnone : (c.m_cache.erase n.item.key).lookup k' = none :=
          hkk ▸ AList.lookup_erase n.item.key c.m_cache
        exact absurd (hnone.symm.trans hit) (by simp)
      · exact hpoints k' hkk it hit

/-! ## A check -/

/-- Some item of the key is due. -/
def Due (c : TimedCache K V) (t : UInt64) (k : K) : Prop :=
  ∃ x ∈ c.m_timed.map Node.item, x.key = k ∧ x.ts ≤ t

/-- The check takes the items that are due, and the entries of their keys. -/
theorem timeoutLoop_due (t : UInt64) (l : List (Node (Item K V))) : ∀ {c : TimedCache K V},
    c.m_timed = l → Pointing c → Pointing (timeoutLoop t l c).1 ∧
      (timeoutLoop t l c).1.m_timed = c.m_timed.filter (fun n => decide (t < n.item.ts)) ∧
      (∀ k, Due c t k → (timeoutLoop t l c).1.m_cache.lookup k = none) ∧
      ∀ k, ¬ Due c t k → (timeoutLoop t l c).1.m_cache.lookup k = c.m_cache.lookup k := by
  induction l with
  | nil =>
      intro c hl h
      refine ⟨h, ?_, ?_, fun _ _ => rfl⟩
      · rw [hl]
        exact hl
      · rintro k ⟨x, hx, -⟩
        rw [hl] at hx
        cases hx
  | cons it l ih =>
      intro c hl h
      rw [timeoutLoop]
      by_cases hdue : it.item.ts ≤ t
      · obtain ⟨hp, htimed, hgone, hkept⟩ := ih
          (c := { c with m_cache := c.m_cache.erase it.item.key, m_timed := l }) rfl (h.tail hl)
        have hiff : ∀ k, Due c t k ↔ k = it.item.key ∨
            Due { c with m_cache := c.m_cache.erase it.item.key, m_timed := l } t k := by
          intro k
          simp only [Due, hl, List.map_cons, List.mem_cons, exists_eq_or_imp, hdue, and_true]
          exact or_congr_left eq_comm
        rw [if_pos hdue]
        refine ⟨hp, ?_, ?_, ?_⟩
        · rw [hl, List.filter_cons_of_neg (by simpa using hdue)]
          exact htimed
        · intro k hk
          by_cases hrest : Due { c with m_cache := c.m_cache.erase it.item.key, m_timed := l } t k
          · exact hgone k hrest
          · obtain rfl := ((hiff k).mp hk).resolve_right hrest
            exact (hkept _ hrest).trans (AList.lookup_erase _ c.m_cache)
        · intro k hk
          obtain ⟨hne, hrest⟩ := not_or.mp fun h => hk ((hiff k).mpr h)
          exact (hkept k hrest).trans (AList.lookup_erase_ne hne)
      · have hlate : ∀ n ∈ c.m_timed, t < n.item.ts := by
          have hsorted := h.sorted
          rw [hl] at hsorted ⊢
          exact late_of_head hsorted hdue
        rw [if_neg hdue]
        refine ⟨h, ?_, ?_, fun _ _ => rfl⟩
        · exact (List.filter_eq_self.mpr fun n hn => decide_eq_true (hlate n hn)).symm
        · rintro k ⟨x, hx, -, hle⟩
          obtain ⟨n, hn, rfl⟩ := List.mem_map.mp hx
          exact absurd hle (UInt64.not_le.mpr (hlate n hn))

theorem Pointing.checkTimeout (h : Pointing c) (t : UInt64) : Pointing (c.checkTimeout t).1 :=
  (timeoutLoop_due t c.m_timed rfl h).1

theorem survivor_due (h : Pointing c) {t : UInt64} (hd : Due c t k) : survivor c t k = none := by
  have hnone := (timeoutLoop_due t c.m_timed rfl h).2.2.1 k hd
  rw [survivor, entry, TimedCache.checkTimeout, hnone]
  rfl

theorem survivor_not_due (h : Pointing c) {t : UInt64} (hd : ¬ Due c t k) :
    survivor c t k = entry c k := by
  obtain ⟨hp, htimed, -, hkept⟩ := timeoutLoop_due t c.m_timed rfl h
  cases hk : c.m_cache.lookup k with
  | none =>
      rw [survivor, entry, entry, TimedCache.checkTimeout, hkept k hd, hk]
      rfl
  | some it =>
      obtain ⟨n, hn, hid, hkey, hentry⟩ := h.entry_some hk
      obtain ⟨m, hm, hmid, -, hentry'⟩ := hp.entry_some ((hkept k hd).trans hk)
      rw [htimed] at hm
      obtain rfl := List.inj_on_of_nodup_map h.ids (List.mem_filter.mp hm).1 hn
        (hmid.trans hid.symm)
      exact hentry'.trans hentry.symm

/-! ## The call -/

/-- Nothing happens, or the key's node is taken out and a copy of its item is put in. -/
theorem expired_cases (h : Pointing c) (k : K) (ttl now : UInt64) :
    (c.m_cache.lookup k = none ∧ c.expired k ttl now = (c, some false)) ∨
    ∃ n ∈ c.m_timed, c.m_cache.lookup k = some n.id ∧ n.item.key = k ∧
      (c.expired k ttl now = (c, some true) ∨
        c.expired k ttl now = (emplace k n.item.val n.item.ts
          { c with m_timed := Node.remove n.id c.m_timed }, some true)) := by
  cases hk : c.m_cache.lookup k with
  | none =>
      left
      simp only [TimedCache.expired, hk, and_self]
  | some it =>
      obtain ⟨n, hn, rfl, rfl⟩ := h.points k it hk
      refine .inr ⟨n, hn, rfl, rfl, ?_⟩
      simp only [TimedCache.expired, hk, Node.deref_eq h.ids hn]
      by_cases hts : n.item.ts = ttl + now
      · left
        rw [if_pos hts]
      · right
        rw [if_neg hts]
        rfl

/-- No item equal to the copy is left, so the copy is put in, and the key's iterator points to
it. -/
theorem reinsert (h : Pointing c) {n : Node (Item K V)} (hn : n ∈ c.m_timed)
    (hc' : emplace n.item.key n.item.val n.item.ts
      { c with m_timed := Node.remove n.id c.m_timed } = c') :
    c'.m_timed.Perm (⟨c.next, n.item⟩ :: Node.remove n.id c.m_timed) ∧
      c'.m_cache = c.m_cache.insert n.item.key c.next := by
  have hne : ∀ m ∈ Node.remove n.id c.m_timed, nodeKey m ≠ nodeKey ⟨c.next, n.item⟩ := by
    intro m hm he
    obtain ⟨hm, hid⟩ := List.mem_filter.mp hm
    obtain rfl := h.sorted.eq_of_key hm hn he
    exact of_decide_eq_true hid rfl
  subst hc'
  exact emplace_new (c := { c with m_timed := Node.remove n.id c.m_timed }) hne

theorem Pointing.expired (h : Pointing c) (k : K) (ttl now : UInt64) :
    Pointing (c.expired k ttl now).1 := by
  rcases expired_cases h k ttl now with ⟨-, he⟩ | ⟨n, hn, hk, rfl, he | he⟩
  · rw [he]
    exact h
  · rw [he]
    exact h
  · rw [he]
    obtain ⟨htimed, hpoints⟩ := h.remove hn c.m_cache fun _ _ => rfl
    exact htimed.emplace hpoints _ _

theorem expired_due (h : Pointing c) (k : K) (ttl now t : UInt64) (k' : K) :
    Due (c.expired k ttl now).1 t k' ↔ Due c t k' := by
  rcases expired_cases h k ttl now with ⟨-, he⟩ | ⟨n, hn, hk, rfl, he | he⟩
  · rw [he]
  · rw [he]
  · have hsplit : (n :: Node.remove n.id c.m_timed).Perm c.m_timed := by
      rw [← Node.splice_eq h.ids hn]
      exact Node.splice_perm n.id c.m_timed
    have hitems := ((reinsert h hn rfl).1.map Node.item).trans (hsplit.map Node.item)
    rw [he]
    exact exists_congr fun x => and_congr_left fun _ => hitems.mem_iff

/-- The key's iterator points to a copy of its item, and the other iterators stay valid. -/
theorem expired_entry (h : Pointing c) (k : K) (ttl now : UInt64) (k' : K) :
    entry (c.expired k ttl now).1 k' = entry c k' := by
  have h' := h.expired k ttl now
  rcases expired_cases h k ttl now with ⟨-, he⟩ | ⟨n, hn, hk, rfl, he | he⟩
  · rw [he]
  · rw [he]
  · rw [he] at h' ⊢
    obtain ⟨hperm, hcache⟩ := reinsert h hn rfl
    -- Where the iterator of afterwards has a node with the same item, the entry is the same.
    have hshows : ∀ {it' x}, entry c k' = some x →
        (c.m_cache.insert n.item.key c.next).lookup k' = some it' →
        (⟨it', x⟩ : Node (Item K V)) ∈
          (⟨c.next, n.item⟩ :: Node.remove n.id c.m_timed : List (Node (Item K V))) →
        entry (emplace n.item.key n.item.val n.item.ts
          { c with m_timed := Node.remove n.id c.m_timed }) k' = entry c k' := by
      intro it' x hx hit' hm
      rw [hx, entry, hcache, hit', Option.bind_some]
      exact Node.deref_eq h'.ids (hperm.mem_iff.mpr hm)
    by_cases hkk : k' = n.item.key
    · subst hkk
      obtain ⟨m, hm, hid, -, hentry⟩ := h.entry_some hk
      obtain rfl := List.inj_on_of_nodup_map h.ids hm hn hid
      exact hshows hentry (AList.lookup_insert _) List.mem_cons_self
    · have hlookup : (c.m_cache.insert n.item.key c.next).lookup k' = c.m_cache.lookup k' :=
        AList.lookup_insert_ne hkk
      cases hk' : c.m_cache.lookup k' with
      | none =>
          rw [entry, entry, hcache, hlookup, hk']
          rfl
      | some it =>
          obtain ⟨m, hm, rfl, hkey, hentry⟩ := h.entry_some hk'
          refine hshows hentry (hlookup.trans hk') (List.mem_cons_of_mem _ ?_)
          refine List.mem_filter.mpr ⟨hm, decide_eq_true ?_⟩
          intro hid
          obtain rfl := List.inj_on_of_nodup_map h.ids hm hn hid
          exact hkk hkey.symm

theorem expired_survivor (h : Pointing c) (k : K) (ttl now t : UInt64) (k' : K) :
    survivor (c.expired k ttl now).1 t k' = survivor c t k' := by
  have h' := h.expired k ttl now
  have hiff := expired_due h k ttl now t k'
  by_cases hd : Due c t k'
  · rw [survivor_due h hd, survivor_due h' (hiff.mpr hd)]
  · rw [survivor_not_due h hd, survivor_not_due h' (hd ∘ hiff.mp), expired_entry h]

/-! ## Runs -/

theorem Pointing.perform (h : Pointing c) (e : Call K V) : Pointing (c.perform e) := by
  cases e with
  | op op =>
      cases op with
      | set k v expired now => exact h.set k v expired now
      | get k =>
          obtain ⟨status, hget⟩ := get_state c k
          change Pointing (c.get k).1
          rw [hget]
          exact h.status status
      | del k => exact h.del k
      | checkTimeout ts => exact h.checkTimeout ts
      | prune => exact h.prune
  | expired k ts now => exact h.expired k ts now
  | clear => exact ⟨⟨.nil, .nil, nofun⟩, nofun⟩
  | setMaxSize v => exact ⟨⟨h.sorted, h.ids, h.fresh⟩, h.points⟩
  | setElasticity v => exact ⟨⟨h.sorted, h.ids, h.fresh⟩, h.points⟩

theorem run_pointing {max_size elasticity : UInt64} {es : List (Call K V)}
    (hr : (lifecycle max_size elasticity).Run es c) : Pointing c := by
  apply hr.invariant
  · rintro c rfl
    exact ⟨⟨.nil, .nil, nofun⟩, nofun⟩
  · rintro c e c' h rfl
    exact h.perform e

/-- A key survives the check while none of its items is due. -/
theorem survivor_isSome_iff (h : Pointing c) {it : Nat} (hk : c.m_cache.lookup k = some it)
    (t : UInt64) :
    (survivor c t k).isSome ↔ ∀ n ∈ c.m_timed, n.item.key = k → t < n.item.ts := by
  by_cases hd : Due c t k
  · rw [survivor_due h hd]
    obtain ⟨_, hm, hkey, hle⟩ := hd
    obtain ⟨n, hn, rfl⟩ := List.mem_map.mp hm
    exact iff_of_false (by simp) fun hall => UInt64.not_le.mpr (hall n hn hkey) hle
  · obtain ⟨_, _, _, _, hentry⟩ := h.entry_some hk
    rw [survivor_not_due h hd, hentry]
    apply iff_of_true rfl
    intro n hn hkey
    apply UInt64.not_le.mp
    intro hle
    exact hd ⟨n.item, List.mem_map_of_mem hn, hkey, hle⟩

/-- The checks a key survives tell its first deadline. -/
theorem survives_iff (h : Pointing c) {it : Nat} (hk : c.m_cache.lookup k = some it) (d : Nat) :
    (∀ t, (survivor c t k).isSome ↔ t.toNat < d) ↔ FirstDeadline c k d := by
  obtain ⟨n₀, hn₀, -, hkey₀, _⟩ := h.entry_some hk
  constructor
  · intro hall
    have hle : ∀ n ∈ c.m_timed, n.item.key = k → d ≤ n.item.ts.toNat := by
      intro n hn hkey
      by_contra hlt
      have hsurvives := (hall n.item.ts).mpr (Nat.not_le.mp hlt)
      exact UInt64.lt_irrefl _ ((survivor_isSome_iff h hk _).mp hsurvives n hn hkey)
    have hd : d < 2 ^ 64 := Nat.lt_of_le_of_lt (hle n₀ hn₀ hkey₀) n₀.item.ts.toNat_lt
    have htoNat : (UInt64.ofNat d).toNat = d := UInt64.toNat_ofNat_of_lt' hd
    -- At `d` itself the key is gone, so some item of it is due there.
    have hgone := mt (hall (UInt64.ofNat d)).mp (by rw [htoNat]; exact Nat.lt_irrefl d)
    rw [survivor_isSome_iff h hk] at hgone
    push Not at hgone
    obtain ⟨n, hn, hkey, hle'⟩ := hgone
    rw [UInt64.not_lt, UInt64.le_iff_toNat_le, htoNat] at hle'
    exact ⟨⟨n, hn, hkey, Nat.le_antisymm hle' (hle n hn hkey)⟩, hle⟩
  · rintro ⟨⟨n, hn, hkey, rfl⟩, hle⟩ t
    rw [survivor_isSome_iff h hk]
    constructor
    · intro hall
      exact UInt64.lt_iff_toNat_lt.mp (hall n hn hkey)
    · intro hlt m hm hmkey
      exact UInt64.lt_iff_toNat_lt.mpr (Nat.lt_of_lt_of_le hlt (hle m hm hmkey))

/-- In every state of every run `expired` does what it should for a key that is there exactly if
the first deadline of the key is the new one already. -/
theorem expired_reschedules_iff {max_size elasticity : UInt64} {es : List (Call K V)}
    (hr : (lifecycle max_size elasticity).Run es c) (hk : (c.m_cache.lookup k).isSome)
    (ttl now : UInt64) :
    Rescheduled c k ttl now ↔ FirstDeadline c k (now.toNat + ttl.toNat) := by
  have h := run_pointing hr
  obtain ⟨it, hit⟩ := Option.isSome_iff_exists.mp hk
  rw [← survives_iff h hit]
  constructor
  · intro hright t
    rw [← hright.survives t, expired_survivor h]
  · intro hall
    refine ⟨?_, ?_, ?_, ?_⟩
    · rcases expired_cases h k ttl now with ⟨hnone, -⟩ | ⟨m, hm, -, -, he | he⟩
      · exact absurd (hnone.symm.trans hit) (by simp)
      · rw [he]
      · rw [he]
    · rw [expired_entry h]
    · intro t
      rw [expired_survivor h]
      exact hall t
    · intro k' _
      exact ⟨expired_entry h k ttl now k', fun t => expired_survivor h k ttl now t k'⟩

/-- Key 1 with the deadline 5. -/
def setOnce : TimedCache Nat Nat := ((create 0 0).set 1 10 5 0).1

theorem setOnce_run : (lifecycle 0 0).Run [Call.op (.set 1 10 5 0)] setOnce := by
  have h₀ : (lifecycle 0 0).Run [] (create 0 0 : TimedCache Nat Nat) := .start rfl
  exact h₀.snoc (e := Call.op (.set 1 10 5 0)) rfl

theorem expired_reschedules_iff_same : Rescheduled setOnce 1 3 2 := by
  apply (expired_reschedules_iff setOnce_run rfl 3 2).mpr
  decide

/-- The deadline is moved from 5 to 100, and the check at 5 takes the key. -/
theorem deadline_not_moved :
    (lifecycle 0 0).Run [Call.op (.set 1 10 5 0)] setOnce ∧
      (survivor (setOnce.expired 1 100 0).1 5 1) = none ∧ ¬ Rescheduled setOnce 1 100 0 := by
  have hnone : survivor (setOnce.expired 1 100 0).1 5 1 = none := by decide
  refine ⟨setOnce_run, hnone, ?_⟩
  intro hright
  have hsome := (hright.survives 5).mpr (by decide)
  rw [hnone] at hsome
  cases hsome

end CIM.ds.TimedCache
