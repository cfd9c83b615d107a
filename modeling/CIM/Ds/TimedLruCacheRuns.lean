import CIM.Ds.TimedLruCache
import Mathlib.Order.WithBot

/-!
# Runs of a `TimedLruCache`

The three indexes hold the same entries after every operation, each of them in its order.
-/
namespace CIM.ds.TimedLruCache

open Transition

variable {K V : Type} [LinearOrder K] {c : TimedLruCache K V}
  {l l' : List (Node (Item K V))} {t t' : List Nat} {cache : Table K}

/-- What `itemTimeOp` compares. -/
def timeKey (l : List (Node (Item K V))) (a : Nat) : WithBot (Nat ×ₗ K) :=
  (Node.deref a l).map fun x => toLex (x.ts.toNat, x.key)

/-- The iterators of the list. -/
def At (l : List (Node (Item K V))) (a : Nat) : Prop := ∃ n ∈ l, n.id = a

/-- The set holds the iterators of the list, strictly ordered by deadline and key. -/
structure Timed (l : List (Node (Item K V))) (t : List Nat) : Prop where
  mem : ∀ a, a ∈ t ↔ At l a
  sorted : SortedSet.Sorted (timeKey l) t

/-- The three indexes hold the same entries. -/
structure Entries (cache : Table K) (l : List (Node (Item K V))) (t : List Nat) : Prop where
  index : Index Item.key cache l
  timed : Timed l t

omit [LinearOrder K] in
theorem timeKey_eq (h : (l.map Node.id).Nodup) {n : Node (Item K V)} (hn : n ∈ l) :
    timeKey l n.id = ((toLex (n.item.ts.toNat, n.item.key) : Nat ×ₗ K) : WithBot (Nat ×ₗ K)) := by
  rw [timeKey, Node.deref_eq h hn]
  rfl

theorem Entries.compares (h : Index Item.key cache l) :
    SortedSet.Compares (itemTimeOp l) (timeKey l) (At l) := by
  rintro _ _ ⟨n, hn, rfl⟩ ⟨m, hm, rfl⟩
  rw [timeKey_eq h.ids hn, timeKey_eq h.ids hm, WithBot.coe_lt_coe, Prod.Lex.toLex_lt_toLex,
    itemTimeOp, Node.deref_eq h.ids hn, Node.deref_eq h.ids hm]
  by_cases hid : n.id = m.id
  · obtain rfl := h.eq_of_id hn hm hid
    simp
  · by_cases hts : n.item.ts = m.item.ts
    · simp [hid, hts]
    · have hts' : n.item.ts.toNat ≠ m.item.ts.toNat := fun he => hts (UInt64.toNat_inj.mp he)
      simp [hid, hts, hts', UInt64.lt_iff_toNat_lt]

theorem Timed.perm (h : Timed l t) (hids : (l.map Node.id).Nodup) (hp : l.Perm l') :
    Timed l' t where
  mem a := by
    rw [h.mem]
    exact exists_congr fun n => and_congr_left fun _ => hp.mem_iff
  sorted := by
    apply h.sorted.congr
    intro a ha
    obtain ⟨n, hn, rfl⟩ := (h.mem a).mp ha
    rw [timeKey_eq ((hp.map Node.id).nodup_iff.mp hids) (hp.mem_iff.mp hn), timeKey_eq hids hn]

/-- The set without one of the iterators. -/
theorem Timed.without (h : Timed l t) (hids : (l.map Node.id).Nodup) {it : Nat}
    (hsub : t'.Sublist t) (hmem : ∀ a, a ∈ t' ↔ a ∈ t ∧ a ≠ it) :
    Timed (Node.remove it l) t' where
  mem a := by
    rw [hmem, h.mem]
    constructor
    · rintro ⟨⟨n, hn, rfl⟩, hne⟩
      exact ⟨n, List.mem_filter.mpr ⟨hn, by simpa using hne⟩, rfl⟩
    · rintro ⟨n, hn, rfl⟩
      obtain ⟨hn, hne⟩ := List.mem_filter.mp hn
      exact ⟨⟨n, hn, rfl⟩, by simpa using hne⟩
  sorted := by
    have hsorted : SortedSet.Sorted (timeKey l) t' := List.Pairwise.sublist hsub h.sorted
    apply hsorted.congr
    intro a ha
    obtain ⟨hat, hne⟩ := (hmem a).mp ha
    obtain ⟨n, hn, rfl⟩ := (h.mem a).mp hat
    have hn' : n ∈ Node.remove it l := List.mem_filter.mpr ⟨hn, by simpa using hne⟩
    rw [timeKey_eq (Node.nodup_remove hids it) hn', timeKey_eq hids hn]

theorem Entries.erase (h : Entries cache l t) {n : Node (Item K V)} (hn : n ∈ l) :
    Entries (cache.erase n.item.key) (Node.remove n.id l)
      (SortedSet.erase (itemTimeOp l) n.id t) where
  index := h.index.remove hn
  timed := by
    apply h.timed.without h.index.ids (SortedSet.erase_sublist _ _ _)
    exact SortedSet.mem_erase h.timed.sorted (Entries.compares h.index)
      (fun a ha => (h.timed.mem a).mp ha) ((h.timed.mem _).mpr ⟨n, hn, rfl⟩)

theorem Timed.insert {it : Nat} {x : Item K V} (h : Timed l t)
    (hindex : Index Item.key cache (⟨it, x⟩ :: l)) :
    Timed (⟨it, x⟩ :: l) (SortedSet.insert (itemTimeOp (⟨it, x⟩ :: l)) it t) := by
  have hids := hindex.ids
  have hcompares := Entries.compares hindex
  have hnew : At (⟨it, x⟩ :: l) it := ⟨_, List.mem_cons_self, rfl⟩
  have hold : ∀ a ∈ t, At (⟨it, x⟩ :: l) a := by
    intro a ha
    obtain ⟨n, hn, rfl⟩ := (h.mem a).mp ha
    exact ⟨n, List.mem_cons_of_mem _ hn, rfl⟩
  have hne : ∀ a ∈ t, a ≠ it := by
    rintro a ha rfl
    obtain ⟨n, hn, hid⟩ := (h.mem a).mp ha
    exact (List.nodup_cons.mp hids).1 (List.mem_map.mpr ⟨n, hn, hid⟩)
  have hsorted : SortedSet.Sorted (timeKey (⟨it, x⟩ :: l)) t := by
    apply h.sorted.congr
    intro a ha
    obtain ⟨n, hn, rfl⟩ := (h.mem a).mp ha
    rw [timeKey_eq hids (List.mem_cons_of_mem _ hn), timeKey_eq (List.nodup_cons.mp hids).2 hn]
  refine ⟨?_, hsorted.insert hcompares hnew hold⟩
  intro a
  rw [SortedSet.mem_insert hcompares hnew hold ?_, h.mem]
  · constructor
    · rintro (rfl | ⟨n, hn, rfl⟩)
      · exact hnew
      · exact ⟨n, List.mem_cons_of_mem _ hn, rfl⟩
    · rintro ⟨n, hn, rfl⟩
      rcases List.mem_cons.mp hn with rfl | hn
      · exact .inl rfl
      · exact .inr ⟨n, hn, rfl⟩
  · intro a ha hkey
    obtain ⟨n, hn, rfl⟩ := (h.mem a).mp ha
    have hcons : n ∈ (⟨it, x⟩ :: l : List (Node (Item K V))) := List.mem_cons_of_mem _ hn
    rw [timeKey_eq hids hcons, timeKey_eq hids (n := ⟨it, x⟩) List.mem_cons_self,
      WithBot.coe_inj] at hkey
    have hk : n.item.key = x.key := congrArg (fun p => (ofLex p).2) hkey
    have he := hindex.eq_of_key hcons List.mem_cons_self hk
    exact hne n.id ha (congrArg Node.id he)

/-- The three indexes hold the same entries, and the next address is a new one. -/
structure Linked (c : TimedLruCache K V) : Prop where
  entries : Entries c.m_cache c.m_keys c.m_timed
  fresh : ∀ n ∈ c.m_keys, n.id < c.next

/-- The keys in the order of the list. -/
def keys (c : TimedLruCache K V) : List K := c.m_keys.map fun n => n.item.key

theorem Linked.size (h : Linked c) : c.size = c.m_keys.length := h.entries.index.size

theorem Linked.lookup_some (h : Linked c) {k : K} {it : Nat}
    (hk : c.m_cache.lookup k = some it) : ∃ n ∈ c.m_keys, n.id = it ∧ n.item.key = k :=
  (h.entries.index.lookup k it).mp hk

theorem pruneLoop_spec (turns : Nat) : ∀ {c : TimedLruCache K V},
    Entries c.m_cache c.m_keys c.m_timed → c.m_keys.length ≤ turns →
    ∃ cache' timed', Entries cache' (c.m_keys.take c.m_maxSize.toNat) timed' ∧
      pruneLoop turns c =
        ({ c with
            m_cache := cache'
            m_keys := c.m_keys.take c.m_maxSize.toNat
            m_timed := timed' },
          ((c.m_keys.drop c.m_maxSize.toNat).map fun n => (n.item.key, n.item.val)).reverse) := by
  induction turns with
  | zero =>
      intro c h hlen
      obtain ⟨cache, ks, timed, max_size, elasticity, status, next⟩ := c
      obtain rfl : ks = [] := List.eq_nil_of_length_eq_zero (Nat.le_zero.mp hlen)
      exact ⟨cache, timed, by rw [List.take_nil]; exact h,
        by rw [List.take_nil, List.drop_nil]; rfl⟩
  | succ turns ih =>
      intro c h hlen
      by_cases hsize : c.size > c.m_maxSize.toNat
      · have hmax : c.m_maxSize.toNat < c.m_keys.length := by
          rw [← h.index.size]
          exact hsize
        have hne : c.m_keys ≠ [] := List.ne_nil_of_length_pos (Nat.zero_lt_of_lt hmax)
        obtain ⟨l, n, hl⟩ : ∃ l n, c.m_keys = l ++ [n] :=
          ⟨_, _, (List.dropLast_append_getLast hne).symm⟩
        have hn : n ∈ c.m_keys := by rw [hl]; exact List.mem_append_right l List.mem_cons_self
        have hrest := h.erase hn
        have hids := h.index.ids
        rw [hl] at hids hmax hlen
        rw [show Node.remove n.id c.m_keys = l by rw [hl, Node.remove_last hids]] at hrest
        rw [List.length_append, List.length_singleton] at hmax hlen
        obtain ⟨cache', timed', hentries, hloop⟩ := ih
          (c := { c with
            m_cache := c.m_cache.erase n.item.key
            m_timed := SortedSet.erase (itemTimeOp c.m_keys) n.id c.m_timed
            m_keys := l }) hrest (Nat.le_of_succ_le_succ hlen)
        have hle : c.m_maxSize.toNat ≤ l.length := Nat.le_of_lt_succ hmax
        refine ⟨cache', timed', ?_, ?_⟩
        · rw [hl, List.take_append_of_le_length hle]
          exact hentries
        · rw [hl] at hloop
          rw [pruneLoop, if_pos hsize]
          simp only [hl, List.getLast?_concat, List.dropLast_concat, hloop,
            List.take_append_of_le_length hle, List.drop_append_of_le_length hle, List.map_append,
            List.map_singleton, List.reverse_append, List.reverse_singleton, List.singleton_append]
      · have hle : c.m_keys.length ≤ c.m_maxSize.toNat := by
          rw [← h.index.size]
          exact Nat.le_of_not_lt hsize
        refine ⟨c.m_cache, c.m_timed, ?_, ?_⟩
        · rw [List.take_of_length_le hle]
          exact h
        · rw [pruneLoop, if_neg hsize, List.take_of_length_le hle, List.drop_of_length_le hle]
          rfl

/-- What `prune` keeps and what it evicts. -/
structure Pruned (c c' : TimedLruCache K V) (cbs : List (K × V)) : Prop where
  linked : Linked c'
  keys : c'.m_keys =
    if c.m_maxSize = 0 ∨ c.m_keys.length < c.getMaxAllowedSize.toNat then c.m_keys
    else c.m_keys.take c.m_maxSize.toNat
  cbs : c'.m_keys ++ c.m_keys.drop c'.m_keys.length = c.m_keys ∧
    cbs = ((c.m_keys.drop c'.m_keys.length).map fun n => (n.item.key, n.item.val)).reverse
  maxSize : c'.m_maxSize = c.m_maxSize
  elasticity : c'.m_elasticity = c.m_elasticity

theorem prune_spec (h : Linked c) : Pruned c (prune c).1 (prune c).2 := by
  rw [prune, h.size]
  by_cases hfull : c.m_maxSize = 0 ∨ c.m_keys.length < c.getMaxAllowedSize.toNat
  · rw [if_pos hfull]
    exact ⟨h, by rw [if_pos hfull], by rw [List.drop_length]; exact ⟨List.append_nil _, rfl⟩,
      rfl, rfl⟩
  · obtain ⟨cache', timed', hentries, hloop⟩ := pruneLoop_spec _ h.entries (Nat.le_refl _)
    rw [if_neg hfull, hloop]
    refine ⟨⟨hentries, ?_⟩, by rw [if_neg hfull], ?_, rfl, rfl⟩
    · intro n hn
      exact h.fresh n (List.mem_of_mem_take hn)
    · have hdrop : c.m_keys.drop (c.m_keys.take c.m_maxSize.toNat).length =
          c.m_keys.drop c.m_maxSize.toNat := by
        rw [List.length_take, ← List.drop_eq_drop_min]
      rw [hdrop]
      exact ⟨List.take_append_drop _ _, rfl⟩

theorem emplace_linked (h : Linked c) {k : K} (hk : c.m_cache.lookup k = none) (v : V)
    (ts : UInt64) : Linked (emplace k v ts c) where
  entries := by
    have hindex := h.entries.index.cons (i := c.next) (x := ⟨k, v, ts⟩) hk
      fun n hn => Nat.ne_of_lt (h.fresh n hn)
    exact ⟨hindex, h.entries.timed.insert hindex⟩
  fresh := by
    intro n hn
    rcases List.mem_cons.mp hn with rfl | hn
    · exact Nat.lt_succ_self c.next
    · exact Nat.lt_succ_of_lt (h.fresh n hn)

/-- The node of a key goes to the front with a new value and deadline. -/
theorem set_hit (h : Linked c) {n : Node (Item K V)} (hn : n ∈ c.m_keys) (v : V)
    (expired now : UInt64) :
    ∃ timed', c.set n.item.key v expired now = ({ c with
        m_keys := ⟨n.id, n.item.key, v, expired + now⟩ :: Node.remove n.id c.m_keys
        m_timed := timed'
        m_status := c.m_status.incSet }, []) ∧
      Entries c.m_cache (⟨n.id, n.item.key, v, expired + now⟩ :: Node.remove n.id c.m_keys)
        timed' := by
  have hids := h.entries.index.ids
  have hspl := Node.splice_eq hids hn
  have hperm := Node.splice_perm n.id c.m_keys
  have hindex₁ := h.entries.index.perm hperm.symm
  have htimed₁ := h.entries.timed.perm hids hperm.symm
  have hmem : n ∈ Node.splice n.id c.m_keys := hperm.mem_iff.mpr hn
  have hmod : Node.modify n.id (fun x : Item K V => { x with val := v, ts := expired + now })
      (Node.splice n.id c.m_keys) =
        ⟨n.id, n.item.key, v, expired + now⟩ :: Node.remove n.id c.m_keys := by
    rw [hspl, Node.modify, List.map_cons, if_pos rfl]
    congr 1
    apply (List.map_congr_left _).trans (List.map_id _)
    intro m hm
    have hne := (List.mem_filter.mp hm).2
    exact if_neg (by simpa using hne)
  have hindex₂ : Index Item.key c.m_cache
      (⟨n.id, n.item.key, v, expired + now⟩ :: Node.remove n.id c.m_keys) := by
    rw [← hmod]
    exact hindex₁.modify fun _ _ _ => rfl
  have herased := (Entries.erase ⟨hindex₁, htimed₁⟩ hmem).timed
  rw [show Node.remove n.id (Node.splice n.id c.m_keys) = Node.remove n.id c.m_keys by
    rw [hspl, Node.remove, List.filter_cons_of_neg (by simp), Node.remove, List.filter_filter]
    simp] at herased
  refine ⟨_, ?_, hindex₂, herased.insert hindex₂⟩
  simp only [TimedLruCache.set, h.entries.index.lookup_mem hn, hmod]

theorem set_miss {k : K} (hk : c.m_cache.lookup k = none) (v : V) (expired now : UInt64) :
    c.set k v expired now =
      prune (emplace k v (expired + now) { c with m_status := c.m_status.incSet }) := by
  simp only [TimedLruCache.set, hk]

theorem get_hit (h : Linked c) {n : Node (Item K V)} (hn : n ∈ c.m_keys) :
    c.get n.item.key = ({ c with
      m_keys := n :: Node.remove n.id c.m_keys
      m_status := c.m_status.incGet.incHit }, some n.item.val) := by
  have hspl := Node.splice_eq h.entries.index.ids hn
  simp only [TimedLruCache.get, h.entries.index.lookup_mem hn, hspl, Node.deref, List.find?_cons,
    decide_true, Option.map_some]

/-- The loop takes exactly the entries whose time has come. -/
theorem timeoutLoop_spec (ts : UInt64) (t : List Nat) : ∀ {c : TimedLruCache K V}, c.m_timed = t →
    Entries c.m_cache c.m_keys c.m_timed →
    ∃ cache' timed', Entries cache' (c.m_keys.filter fun n => decide (ts < n.item.ts)) timed' ∧
      (timeoutLoop ts t c).1 = { c with
        m_cache := cache'
        m_keys := c.m_keys.filter fun n => decide (ts < n.item.ts)
        m_timed := timed' } := by
  induction t with
  | nil =>
      intro c ht h
      have hnil : c.m_keys = [] := by
        apply List.eq_nil_iff_forall_not_mem.mpr
        intro n hn
        have hat := (h.timed.mem n.id).mpr ⟨n, hn, rfl⟩
        rw [ht] at hat
        cases hat
      refine ⟨c.m_cache, c.m_timed, ?_, ?_⟩
      · rw [hnil, List.filter_nil, ← hnil]
        exact h
      · rw [hnil, List.filter_nil, ← hnil]
        rfl
  | cons it t ih =>
      intro c ht h
      have htimed := h.timed
      rw [ht] at htimed
      obtain ⟨n, hn, rfl⟩ := (htimed.mem it).mp List.mem_cons_self
      obtain ⟨hhead, -⟩ := List.pairwise_cons.mp htimed.sorted
      rw [timeoutLoop, Node.deref_eq h.index.ids hn]
      by_cases hdue : n.item.ts ≤ ts
      · have hwithout : Timed (Node.remove n.id c.m_keys) t := by
          apply htimed.without h.index.ids (List.sublist_cons_self _ _)
          intro a
          rw [List.mem_cons]
          constructor
          · intro ha
            refine ⟨.inr ha, ?_⟩
            rintro rfl
            exact lt_irrefl _ (hhead n.id ha)
          · rintro ⟨ha, hne⟩
            exact ha.resolve_left hne
        obtain ⟨cache', timed', hentries, hloop⟩ := ih
          (c := { c with
            m_cache := c.m_cache.erase n.item.key
            m_keys := Node.remove n.id c.m_keys
            m_timed := t }) rfl ⟨h.index.remove hn, hwithout⟩
        have hfilter : (Node.remove n.id c.m_keys).filter (fun n => decide (ts < n.item.ts)) =
            c.m_keys.filter fun n => decide (ts < n.item.ts) := by
          rw [Node.remove, List.filter_filter]
          apply List.filter_congr
          intro m hm
          by_cases hid : m.id = n.id
          · obtain rfl := h.index.eq_of_id hm hn hid
            simp [UInt64.not_lt.mpr hdue]
          · simp [hid]
        simp only [hfilter] at hentries hloop
        refine ⟨cache', timed', hentries, ?_⟩
        simp only [if_pos hdue, hloop]
      · have hall : c.m_keys.filter (fun n => decide (ts < n.item.ts)) = c.m_keys := by
          apply List.filter_eq_self.mpr
          intro m hm
          have hlt : ts < n.item.ts := UInt64.not_le.mp hdue
          rcases List.mem_cons.mp ((htimed.mem m.id).mpr ⟨m, hm, rfl⟩) with hid | ht'
          · obtain rfl := h.index.eq_of_id hm hn hid
            exact decide_eq_true hlt
          · have hkey := hhead m.id ht'
            rw [timeKey_eq h.index.ids hn, timeKey_eq h.index.ids hm, WithBot.coe_lt_coe,
              Prod.Lex.toLex_lt_toLex] at hkey
            apply decide_eq_true
            rw [UInt64.lt_iff_toNat_lt] at hlt ⊢
            rcases hkey with hkey | ⟨hkey, -⟩
            · exact Nat.lt_trans hlt hkey
            · exact lt_of_lt_of_eq hlt hkey
        refine ⟨c.m_cache, c.m_timed, ?_, ?_⟩
        · rw [hall]
          exact h
        · rw [hall]
          simp only [if_neg hdue]

/-- What is known after a history of operations. -/
structure Good (max_size elasticity : UInt64) (es : List (Op K V × Outcome K V))
    (c : TimedLruCache K V) : Prop where
  linked : Linked c
  recent : Recent uses es c.keys
  maxSize : c.m_maxSize = max_size
  elasticity : c.m_elasticity = elasticity

variable {max_size elasticity : UInt64} {es : List (Op K V × Outcome K V)}
  {e : Op K V × Outcome K V}

/-- Entries have been taken off, or none. -/
theorem Good.shrink (h : Good max_size elasticity es c) {c' : TimedLruCache K V}
    (huse : ∀ k ∈ c'.keys, uses e ≠ some k) (hentries : Entries c'.m_cache c'.m_keys c'.m_timed)
    (hsub : c'.m_keys.Sublist c.m_keys) (hnext : c'.next = c.next)
    (hmax : c'.m_maxSize = c.m_maxSize) (hel : c'.m_elasticity = c.m_elasticity) :
    Good max_size elasticity (es ++ [e]) c' where
  linked := by
    refine ⟨hentries, ?_⟩
    intro n hn
    rw [hnext]
    exact h.linked.fresh n (hsub.mem hn)
  recent := (h.recent.sublist (hsub.map _)).keep huse
  maxSize := hmax.trans h.maxSize
  elasticity := hel.trans h.elasticity

/-- The node of a key has been moved to the front. -/
theorem Good.touch (h : Good max_size elasticity es c) {n m : Node (Item K V)} (hn : n ∈ c.m_keys)
    (hid : m.id = n.id) (hk : m.item.key = n.item.key) (huse : uses e = some n.item.key)
    {timed' : List Nat} (status : CacheStatus)
    (hentries : Entries c.m_cache (m :: Node.remove n.id c.m_keys) timed') :
    Good max_size elasticity (es ++ [e]) { c with
      m_keys := m :: Node.remove n.id c.m_keys
      m_timed := timed'
      m_status := status } where
  linked := by
    refine ⟨hentries, ?_⟩
    intro m' hm
    rcases List.mem_cons.mp hm with rfl | hm
    · rw [hid]
      exact h.linked.fresh n hn
    · exact h.linked.fresh m' (List.mem_filter.mp hm).1
  recent := by
    have hrest : Recent uses es ((Node.remove n.id c.m_keys).map fun n => n.item.key) :=
      h.recent.sublist (List.filter_sublist.map _)
    have hnodup : n.item.key ∉ (Node.remove n.id c.m_keys).map fun n => n.item.key := by
      rw [← hk]
      exact (List.nodup_cons.mp hentries.index.keys_nodup).1
    have hfront := hrest.front huse hnodup
    rw [← hk] at hfront
    exact hfront
  maxSize := h.maxSize
  elasticity := h.elasticity

theorem emplace_recent (h : Good max_size elasticity es c) {k : K}
    (hk : c.m_cache.lookup k = none) (huse : uses e = some k) (v : V) (ts : UInt64) :
    Recent uses (es ++ [e]) (emplace k v ts c).keys := by
  apply h.recent.front huse
  intro hm
  obtain ⟨n, hn, hnk⟩ := List.mem_map.mp hm
  exact h.linked.entries.index.lookup_none.mp hk n hn hnk

theorem Pruned.sublist {c' : TimedLruCache K V} {cbs : List (K × V)} (hp : Pruned c c' cbs) :
    c'.m_keys.Sublist c.m_keys := by
  have h := List.sublist_append_left c'.m_keys (c.m_keys.drop c'.m_keys.length)
  rwa [hp.cbs.1] at h

theorem set_pruned (h : Linked c) {k : K} (hk : c.m_cache.lookup k = none) (v : V)
    (expired now : UInt64) :
    Pruned (emplace k v (expired + now) { c with m_status := c.m_status.incSet })
      (c.set k v expired now).1 (c.set k v expired now).2 := by
  rw [set_miss hk]
  apply prune_spec
  exact emplace_linked (c := { c with m_status := c.m_status.incSet }) ⟨h.entries, h.fresh⟩ hk v _

theorem set_good (h : Good max_size elasticity es c) (k : K) (v : V) (expired now : UInt64)
    (out : Outcome K V) :
    Good max_size elasticity (es ++ [(.set k v expired now, out)]) (c.set k v expired now).1 := by
  cases hk : c.m_cache.lookup k with
  | none =>
      have hp := set_pruned h.linked hk v expired now
      refine ⟨hp.linked, ?_, hp.maxSize.trans h.maxSize, hp.elasticity.trans h.elasticity⟩
      have hsub : (c.set k v expired now).1.m_keys.Sublist
          (emplace k v (expired + now) c).m_keys := hp.sublist
      exact (emplace_recent h hk rfl v _).sublist (hsub.map _)
  | some it =>
      obtain ⟨n, hn, rfl, rfl⟩ := h.linked.lookup_some hk
      obtain ⟨timed', hset, hentries⟩ := set_hit h.linked hn v expired now
      rw [hset]
      exact h.touch (m := ⟨n.id, n.item.key, v, expired + now⟩) hn rfl rfl rfl _ hentries

theorem get_good (h : Good max_size elasticity es c) (k : K) (out : Outcome K V) :
    Good max_size elasticity (es ++ [(.get k, out)]) (c.get k).1 := by
  cases hk : c.m_cache.lookup k with
  | none =>
      simp only [TimedLruCache.get, hk]
      refine h.shrink ?_ h.linked.entries (List.Sublist.refl _) rfl rfl rfl
      intro k' hk' he
      obtain rfl : k = k' := Option.some.inj he
      obtain ⟨n, hn, hnk⟩ := List.mem_map.mp hk'
      exact h.linked.entries.index.lookup_none.mp hk n hn hnk
  | some it =>
      obtain ⟨n, hn, rfl, rfl⟩ := h.linked.lookup_some hk
      have hids := h.linked.entries.index.ids
      have hperm := (Node.splice_perm n.id c.m_keys).symm
      have hentries : Entries c.m_cache (n :: Node.remove n.id c.m_keys) c.m_timed := by
        rw [← Node.splice_eq hids hn]
        exact ⟨h.linked.entries.index.perm hperm, h.linked.entries.timed.perm hids hperm⟩
      rw [get_hit h.linked hn]
      exact h.touch (m := n) hn rfl rfl rfl _ hentries

theorem del_good (h : Good max_size elasticity es c) (k : K) (out : Outcome K V) :
    Good max_size elasticity (es ++ [(.del k, out)]) (c.del k).1 := by
  have huse : ∀ (c' : TimedLruCache K V), ∀ k' ∈ c'.keys,
      uses ((.del k, out) : Op K V × Outcome K V) ≠ some k' := by
    intro _ k' _ he
    cases he
  cases hk : c.m_cache.lookup k with
  | none =>
      simp only [TimedLruCache.del, hk]
      exact h.shrink (huse _) h.linked.entries (List.Sublist.refl _) rfl rfl rfl
  | some it =>
      obtain ⟨n, hn, rfl, rfl⟩ := h.linked.lookup_some hk
      simp only [TimedLruCache.del, hk]
      exact h.shrink (huse _) (h.linked.entries.erase hn) List.filter_sublist rfl rfl rfl

theorem checkTimeout_spec (h : Linked c) (ts : UInt64) :
    ∃ cache' timed', Entries cache' (c.m_keys.filter fun n => decide (ts < n.item.ts)) timed' ∧
      (c.checkTimeout ts).1 = { c with
        m_cache := cache'
        m_keys := c.m_keys.filter fun n => decide (ts < n.item.ts)
        m_timed := timed' } :=
  timeoutLoop_spec ts c.m_timed rfl h.entries

theorem step_good {es : List (Op K V × Outcome K V)} {c c' : TimedLruCache K V}
    {e : Op K V × Outcome K V} (h : Good max_size elasticity es c)
    (hstep : (machine max_size elasticity).step c e c') :
    Good max_size elasticity (es ++ [e]) c' := by
  obtain ⟨op, out⟩ := e
  cases op with
  | set k v expired now =>
      obtain ⟨rfl, rfl⟩ := Prod.mk.inj hstep
      exact set_good h k v expired now _
  | get k =>
      obtain ⟨rfl, rfl⟩ := Prod.mk.inj hstep
      exact get_good h k _
  | del k =>
      obtain ⟨rfl, rfl⟩ := Prod.mk.inj hstep
      exact del_good h k _
  | clear =>
      obtain ⟨rfl, rfl⟩ := Prod.mk.inj hstep
      refine h.shrink ?_ ⟨.empty, ?_, List.Pairwise.nil⟩ (List.nil_sublist _) rfl rfl rfl
      · intro k hk
        cases hk
      · intro a
        simp [clear, At]
  | checkTimeout ts =>
      obtain ⟨rfl, rfl⟩ := Prod.mk.inj hstep
      obtain ⟨cache', timed', hentries, hcheck⟩ := checkTimeout_spec h.linked ts
      rw [hcheck]
      refine h.shrink ?_ hentries List.filter_sublist rfl rfl rfl
      intro k _ he
      cases he

theorem run_good (hr : (machine max_size elasticity).Run es c) :
    Good max_size elasticity es c := by
  apply hr.history
  · rintro c rfl
    refine ⟨⟨⟨.empty, ?_, List.Pairwise.nil⟩, ?_⟩, List.Pairwise.nil, rfl, rfl⟩
    · intro a
      simp [create, At]
    · intro n hn
      cases hn
  · intro es c e c' h hstep
    exact step_good h hstep

/-- The insertion of a new key keeps the list in order and evicts its end, if anything. -/
structure EvictsOldest (es : List (Op K V × Outcome K V)) (c : TimedLruCache K V) (k : K) (v : V)
    (expired now : UInt64) : Prop where
  recent : Recent uses (es ++ [(.set k v expired now, .called (c.set k v expired now).2)])
    (emplace k v (expired + now) c).keys
  kept : (c.set k v expired now).1.m_keys =
    if c.m_maxSize = 0 ∨
        (emplace k v (expired + now) c).m_keys.length < c.getMaxAllowedSize.toNat then
      (emplace k v (expired + now) c).m_keys
    else (emplace k v (expired + now) c).m_keys.take c.m_maxSize.toNat
  entries : Entries (c.set k v expired now).1.m_cache (c.set k v expired now).1.m_keys
    (c.set k v expired now).1.m_timed
  left : (c.set k v expired now).2 ≠ [] →
    (c.set k v expired now).1.m_keys.length = c.m_maxSize.toNat

theorem evictsOldest (h : Good max_size elasticity es c) {k : K}
    (hk : c.m_cache.lookup k = none) (v : V) (expired now : UInt64) :
    EvictsOldest es c k v expired now := by
  have hp := set_pruned h.linked hk v expired now
  have hkept : (c.set k v expired now).1.m_keys =
      if c.m_maxSize = 0 ∨
          (emplace k v (expired + now) c).m_keys.length < c.getMaxAllowedSize.toNat then
        (emplace k v (expired + now) c).m_keys
      else (emplace k v (expired + now) c).m_keys.take c.m_maxSize.toNat := hp.keys
  refine ⟨emplace_recent h hk rfl v _, hkept, hp.linked.entries, ?_⟩
  intro hout
  have hcbs := hp.cbs.2
  rw [hkept] at hcbs ⊢
  split at hcbs
  · exact absurd (by rw [hcbs]; simp [emplace]) hout
  · rename_i hfew
    rw [if_neg hfew, List.length_take]
    rcases Nat.le_total c.m_maxSize.toNat (emplace k v (expired + now) c).m_keys.length with
      hle | hle
    · exact Nat.min_eq_left hle
    · rw [List.take_of_length_le hle] at hcbs
      exact absurd (by rw [hcbs]; simp [emplace]) hout

/-- Every run keeps the three indexes together, each in its order; a timeout check takes exactly
the entries whose time has come, and what an insertion evicts is the end of the list. -/
theorem run_indexes (hr : (machine max_size elasticity).Run es c) :
    Entries c.m_cache c.m_keys c.m_timed ∧ Recent uses es c.keys ∧
      (∀ ts, (c.checkTimeout ts).1.m_keys = c.m_keys.filter (fun n => decide (ts < n.item.ts)) ∧
        Entries (c.checkTimeout ts).1.m_cache (c.checkTimeout ts).1.m_keys
          (c.checkTimeout ts).1.m_timed) ∧
      ∀ k v expired now, c.m_cache.lookup k = none → EvictsOldest es c k v expired now := by
  have h := run_good hr
  refine ⟨h.linked.entries, h.recent, ?_, ?_⟩
  · intro ts
    obtain ⟨cache', timed', hentries, hcheck⟩ := checkTimeout_spec h.linked ts
    rw [hcheck]
    exact ⟨rfl, hentries⟩
  · intro k v expired now hk
    exact evictsOldest h hk v expired now

/-- The deadline of a key put off, and a check between the two. -/
def putOff : List (Op Nat Nat × Outcome Nat Nat) :=
  [(.set 1 10 5 0, .called []), (.set 2 20 7 0, .called []), (.set 1 11 9 1, .called []),
    (.checkTimeout 7, .called [(2, 20)])]

theorem run_indexes_put_off :
    ∃ c, (machine 4 0).Run putOff c ∧ c.keys = [1] ∧ c.m_timed = [0] ∧
      Entries c.m_cache c.m_keys c.m_timed := by
  have h₀ : (machine 4 0).Run [] (create 4 0 : TimedLruCache Nat Nat) := .start rfl
  have h₁ := h₀.snoc (e := (Op.set 1 10 5 0, Outcome.called [])) (Eq.refl _)
  have h₂ := h₁.snoc (e := (Op.set 2 20 7 0, Outcome.called [])) (Eq.refl _)
  have h₃ := h₂.snoc (e := (Op.set 1 11 9 1, Outcome.called [])) (Eq.refl _)
  have h₄ := h₃.snoc (e := (Op.checkTimeout 7, Outcome.called [(2, 20)])) (Eq.refl _)
  exact ⟨_, h₄, rfl, rfl, (run_indexes h₄).1⟩

end CIM.ds.TimedLruCache
