import CIM.Ds.HashMapBuckets

/-!
# Hash maps as finite maps

Every map that is made is represented by its buckets, and each operation has the effect on them
that it has on a finite map.
-/
namespace CIM.ds

open Transition

namespace HashMap

variable {K V : Type} [LinearOrder K] {hash : K → UInt32} {m m' : HashMap K V}
  {f : K → Option V} {k : K}

/-- The buckets hold the finite map: each key once, in the bucket of its hash, in order. -/
structure Holds (hash : K → UInt32) (m : HashMap K V) (f : K → Option V) : Prop where
  size : 0 < m.m_size
  sorted : ∀ i < m.m_size, Sorted (m.m_datas i)
  place : ∀ i < m.m_size, ∀ n ∈ m.m_datas i, m.pos hash n.key = i
  total : m.m_total = m.nodes.length
  nodes : Represents m.nodes f

namespace Holds

omit [LinearOrder K] in
theorem mem_nodes {n : Node K V} : n ∈ m.nodes ↔ ∃ i < m.m_size, n ∈ m.m_datas i := by
  rw [HashMap.nodes, List.mem_flatMap]
  refine exists_congr fun i => ?_
  rw [List.mem_range]

theorem pos_lt (h : Holds hash m f) (k : K) : m.pos hash k < m.m_size :=
  Nat.mod_lt _ h.size

/-- A key is looked for in the one bucket it can be in. -/
theorem none_iff (h : Holds hash m f) :
    f k = none ↔ ∀ n ∈ m.m_datas (m.pos hash k), n.key ≠ k := by
  rw [h.nodes.none_iff]
  constructor
  · intro hn n hmem
    exact hn n (mem_nodes.mpr ⟨_, h.pos_lt k, hmem⟩)
  · rintro hn n hmem rfl
    obtain ⟨i, hi, hmem⟩ := mem_nodes.mp hmem
    have hpos := h.place i hi n hmem
    rw [← hpos] at hmem
    exact hn n hmem rfl

theorem get_eq (h : Holds hash m f) (k : K) : m.get hash k = f k := by
  unfold HashMap.get
  cases hb : binarySearch (m.m_datas (m.pos hash k)) k with
  | none => exact (h.none_iff.mpr (binarySearch_none (h.sorted _ (h.pos_lt k)) hb)).symm
  | some i =>
      obtain ⟨l₁, w, l₂, hsplit, hi⟩ := binarySearch_some hb
      have hmem : (⟨k, w⟩ : Node K V) ∈ m.m_datas (m.pos hash k) := by
        rw [hsplit]
        exact List.mem_append_right _ List.mem_cons_self
      have hf : f k = some w :=
        (h.nodes.assoc k w).mpr (mem_nodes.mpr ⟨_, h.pos_lt k, hmem⟩)
      change (m.m_datas (m.pos hash k))[i]?.map Node.val = f k
      rw [hsplit, ← hi, List.getElem?_append_right (Nat.le_refl _), Nat.sub_self, hf]
      rfl

theorem exists_eq (h : Holds hash m f) (k : K) : m.exists_ hash k = (f k).isSome := by
  rw [exists_]
  cases hb : binarySearch (m.m_datas (m.pos hash k)) k with
  | none =>
      rw [h.none_iff.mpr (binarySearch_none (h.sorted _ (h.pos_lt k)) hb)]
      rfl
  | some i =>
      obtain ⟨l₁, w, l₂, hsplit, -⟩ := binarySearch_some hb
      have hmem : (⟨k, w⟩ : Node K V) ∈ m.m_datas (m.pos hash k) := by
        rw [hsplit]
        exact List.mem_append_right _ List.mem_cons_self
      rw [(h.nodes.assoc k w).mpr (mem_nodes.mpr ⟨_, h.pos_lt k, hmem⟩)]
      rfl

/-- The bucket of `k` is replaced; what the other buckets hold stays. -/
theorem replace (h : Holds hash m f) {l : List (Node K V)} {total : Nat} {g : K → Option V}
    (hs : Sorted l) (hplace : ∀ n ∈ l, m.pos hash n.key = m.pos hash k)
    (hnodes : ∀ l₁ l₂, m.nodes = l₁ ++ m.m_datas (m.pos hash k) ++ l₂ →
      total = (l₁ ++ l ++ l₂).length ∧ Represents (l₁ ++ l ++ l₂) g) :
    Holds hash { m with
      m_datas := Function.update m.m_datas (m.pos hash k) l
      m_total := total } g := by
  obtain ⟨l₁, l₂, hold, hnew⟩ := flatMap_focus List.nodup_range
    (List.mem_range.mpr (h.pos_lt k)) m.m_datas
  obtain ⟨htotal, hrep⟩ := hnodes l₁ l₂ hold
  have hn : HashMap.nodes { m with
      m_datas := Function.update m.m_datas (m.pos hash k) l
      m_total := total } = l₁ ++ l ++ l₂ := hnew l
  exact
    { size := h.size
      sorted := by
        intro i hi
        change Sorted (Function.update m.m_datas (m.pos hash k) l i)
        by_cases hik : i = m.pos hash k
        · rw [hik, Function.update_self]
          exact hs
        · rw [Function.update_of_ne hik]
          exact h.sorted i hi
      place := by
        intro i hi n hmem
        change n ∈ Function.update m.m_datas (m.pos hash k) l i at hmem
        by_cases hik : i = m.pos hash k
        · rw [hik, Function.update_self] at hmem
          exact (hplace n hmem).trans hik.symm
        · rw [Function.update_of_ne hik] at hmem
          exact h.place i hi n hmem
      total := by rw [hn]; exact htotal
      nodes := by rw [hn]; exact hrep }

theorem setNoRehash (h : Holds hash m f) (k : K) (v : V) :
    (m.setNoRehash hash k v).1 = (f k).isNone ∧
      Holds hash (m.setNoRehash hash k v).2 (Function.update f k (some v)) ∧
      (m.setNoRehash hash k v).2.m_total = m.m_total + (if (f k).isNone then 1 else 0) := by
  have hs := h.sorted _ (h.pos_lt k)
  cases hb : binarySearch (m.m_datas (m.pos hash k)) k with
  | none =>
      have hk : f k = none := h.none_iff.mpr (binarySearch_none hs hb)
      obtain ⟨l', hset, hperm, hs'⟩ := setBucket_new hs v hb
      have heq : m.setNoRehash hash k v = (true, { m with
          m_datas := Function.update m.m_datas (m.pos hash k) l'
          m_total := m.m_total + 1 }) := by
        rw [HashMap.setNoRehash, hset]
        rfl
      rw [heq, hk]
      refine ⟨rfl, h.replace hs' ?_ ?_, rfl⟩
      · intro n hn
        obtain rfl | hn := List.mem_cons.mp (hperm.subset hn)
        · rfl
        · exact h.place _ (h.pos_lt k) n hn
      · intro l₁ l₂ hsplit
        have hall : (l₁ ++ l' ++ l₂).Perm (⟨k, v⟩ :: m.nodes) := by
          rw [hsplit]
          refine ((hperm.append_left l₁).append_right l₂).trans ?_
          exact (List.perm_middle.append_right l₂)
        refine ⟨?_, (h.nodes.cons hk v).perm hall⟩
        rw [hall.length_eq, List.length_cons, h.total]
  | some i =>
      obtain ⟨l₁, w, l₂, hsplit, hset⟩ := setBucket_old v hb
      have hmem : (⟨k, w⟩ : Node K V) ∈ m.m_datas (m.pos hash k) := by
        rw [hsplit]
        exact List.mem_append_right _ List.mem_cons_self
      have hk : f k = some w :=
        (h.nodes.assoc k w).mpr (mem_nodes.mpr ⟨_, h.pos_lt k, hmem⟩)
      have heq : m.setNoRehash hash k v = (false, { m with
          m_datas := Function.update m.m_datas (m.pos hash k) (l₁ ++ ⟨k, v⟩ :: l₂)
          m_total := m.m_total }) := by
        rw [HashMap.setNoRehash, hset]
        rfl
      rw [heq, hk]
      rw [hsplit] at hs
      refine ⟨rfl, h.replace (hs.overwrite v) ?_ ?_, rfl⟩
      · intro n hn
        obtain hn | hn := List.mem_append.mp hn
        · exact h.place _ (h.pos_lt k) n (by rw [hsplit]; exact List.mem_append_left _ hn)
        · obtain rfl | hn := List.mem_cons.mp hn
          · rfl
          · refine h.place _ (h.pos_lt k) n ?_
            rw [hsplit]
            exact List.mem_append_right _ (List.mem_cons_of_mem _ hn)
      · intro l₃ l₄ hall
        have hshape : ∀ x, l₃ ++ (l₁ ++ ⟨k, x⟩ :: l₂) ++ l₄ =
            (l₃ ++ l₁) ++ ⟨k, x⟩ :: (l₂ ++ l₄) := by
          intro x
          simp only [List.append_assoc, List.cons_append]
        rw [hsplit, hshape] at hall
        rw [hshape]
        have hrep := h.nodes
        rw [hall] at hrep
        refine ⟨?_, hrep.overwrite v⟩
        rw [h.total, hall]
        simp only [List.length_append, List.length_cons]

theorem del_eq (h : Holds hash m f) (k : K) :
    (m.del hash k).1 = (f k).isSome ∧
      Holds hash (m.del hash k).2 (Function.update f k none) := by
  have hs := h.sorted _ (h.pos_lt k)
  cases hd : delBucket (m.m_datas (m.pos hash k)) k with
  | none =>
      have hb : binarySearch (m.m_datas (m.pos hash k)) k = none :=
        Option.map_eq_none_iff.mp hd
      have hk : f k = none := h.none_iff.mpr (binarySearch_none hs hb)
      have heq : m.del hash k = (false, m) := by
        rw [del, hd]
      rw [heq, hk, Function.update_eq_self_iff.mpr hk.symm]
      exact ⟨rfl, h⟩
  | some l =>
      obtain ⟨w, hperm, hs'⟩ := delBucket_some hs hd
      have hmem : (⟨k, w⟩ : Node K V) ∈ m.m_datas (m.pos hash k) :=
        hperm.symm.subset List.mem_cons_self
      have hk : f k = some w :=
        (h.nodes.assoc k w).mpr (mem_nodes.mpr ⟨_, h.pos_lt k, hmem⟩)
      have heq : m.del hash k = (true, { m with
          m_datas := Function.update m.m_datas (m.pos hash k) l
          m_total := m.m_total - 1 }) := by
        rw [del, hd]
      rw [heq, hk]
      refine ⟨rfl, h.replace hs' ?_ ?_⟩
      · intro n hn
        exact h.place _ (h.pos_lt k) n (hperm.symm.subset (List.mem_cons_of_mem _ hn))
      · intro l₁ l₂ hsplit
        have hall : m.nodes.Perm (⟨k, w⟩ :: (l₁ ++ l ++ l₂)) := by
          rw [hsplit]
          refine ((hperm.append_left l₁).append_right l₂).trans ?_
          exact List.perm_middle.append_right l₂
        refine ⟨?_, (h.nodes.perm hall.symm).tail.2⟩
        rw [h.total, hall.length_eq, List.length_cons, Nat.add_sub_cancel]

/-- Entries of distinct keys, distributed over `size` buckets that are then sorted. -/
theorem distributed {l : List (Node K V)} (h : Represents l f) {size total : Nat}
    (hsize : 0 < size) (htotal : total = l.length) :
    Holds hash ⟨size, total, fun i =>
      sort (redistribute (fun k => (hash k).toNat % size) l (fun _ => []) i)⟩ f := by
  have hperm : (HashMap.nodes ⟨size, total, fun i =>
      sort (redistribute (fun k => (hash k).toNat % size) l (fun _ => []) i)⟩).Perm l := by
    refine (List.Perm.flatMap_left _ fun i _ => sort_perm _).trans ?_
    refine (redistribute_perm fun k => Nat.mod_lt _ hsize).trans ?_
    rw [List.flatMap_eq_nil_iff.mpr fun _ _ => rfl, List.nil_append]
  have hrep := h.perm hperm
  exact
    { size := hsize
      sorted := by
        intro i hi
        apply sort_sorted
        have hsub : (sort (redistribute (fun k => (hash k).toNat % size) l
            (fun _ => []) i)).Sublist (HashMap.nodes ⟨size, total, fun i =>
              sort (redistribute (fun k => (hash k).toNat % size) l (fun _ => []) i)⟩) :=
          List.sublist_flatten_of_mem
            (List.mem_map_of_mem (f := fun i => sort (redistribute _ _ _ i)) (List.mem_range.mpr hi))
        exact ((sort_perm _).map Node.key).nodup_iff.mp ((hsub.map Node.key).nodup hrep.once)
      place := by
        intro i hi n hn
        obtain hn | ⟨-, hpos⟩ := mem_redistribute ((sort_perm _).subset hn)
        · cases hn
        · exact hpos
      total := htotal.trans hperm.length_eq.symm
      nodes := hrep }

/-- Redistributing the entries over `size` buckets and sorting each of them. -/
theorem redistributed (h : Holds hash m f) {size : Nat} (hsize : 0 < size) :
    Holds hash ⟨size, m.m_total, fun i =>
      sort (redistribute (fun k => (hash k).toNat % size) m.nodes (fun _ => []) i)⟩ f :=
  distributed h.nodes hsize h.total

theorem rehash (h : Holds hash m f) (hr : m.rehash hash = some m') :
    Holds hash m' f ∧ m'.m_total = m.m_total := by
  unfold HashMap.rehash at hr
  split at hr
  · obtain ⟨size, hb, rfl⟩ := Option.map_eq_some_iff.mp hr
    split
    · exact ⟨h, rfl⟩
    · exact ⟨h.redistributed (basket_pos hb), rfl⟩
  · rw [← Option.some.inj hr]
    exact ⟨h, rfl⟩

theorem set {r : Bool × HashMap K V} {v : V} (h : Holds hash m f)
    (hr : m.set hash k v = some r) :
    r.1 = (f k).isNone ∧ Holds hash r.2 (Function.update f k (some v)) ∧
      r.2.m_total = m.m_total + (if (f k).isNone then 1 else 0) := by
  obtain ⟨m₁, hm₁, rfl⟩ := Option.map_eq_some_iff.mp hr
  have h₁ : Holds hash m₁ f ∧ m₁.m_total = m.m_total := by
    split at hm₁
    · exact h.rehash hm₁
    · rw [← Option.some.inj hm₁]
      exact ⟨h, rfl⟩
  rw [← h₁.2]
  exact h₁.1.setNoRehash k v

theorem setAll {tmp : List (Node K V)} (h : Holds hash m f)
    (hr : m.setAll hash tmp = some m') :
    Holds hash m' (tmp.foldl (fun g n => Function.update g n.key (some n.val)) f) := by
  induction tmp generalizing m f with
  | nil =>
      rw [← Option.some.inj hr]
      exact h
  | cons n tmp ih =>
      unfold HashMap.setAll at hr
      rw [List.foldlM_cons] at hr
      obtain ⟨m₁, hset, hall⟩ := Option.bind_eq_some_iff.mp hr
      obtain ⟨r, hr', rfl⟩ := Option.map_eq_some_iff.mp hset
      exact ih (h.set hr').2.1 hall

end Holds

/-- A rate above sixteen has entries to count. -/
theorem rehash_isSome (hash : K → UInt32) (ht : m.m_total < 2147483648) : (m.rehash hash).isSome := by
  unfold HashMap.rehash
  split
  · rename_i hneed
    have hlt : m.m_size * 16777217 < m.m_total * 1048576 := of_decide_eq_true hneed
    rw [rehashUnlock, Option.isSome_map, basket_isSome, toInt32_of_lt ht]
    omega
  · rfl

theorem set_isSome (hash : K → UInt32) (ht : m.m_total < 2147483648) (k : K) (v : V) :
    (m.set hash k v).isSome := by
  rw [HashMap.set, Option.isSome_map]
  split
  · exact rehash_isSome hash ht
  · rfl

/-- `setAll` is defined where the keys that are new to the map can still be counted. -/
theorem Holds.setAll_isSome {tmp : List (Node K V)} (h : Holds hash m f)
    (honce : (tmp.map Node.key).Nodup)
    (ht : m.m_total + (tmp.filter fun n => (f n.key).isNone).length < 2147483648) :
    (m.setAll hash tmp).isSome := by
  induction tmp generalizing m f with
  | nil => rfl
  | cons n tmp ih =>
      rw [List.map_cons, List.nodup_cons] at honce
      have hlt : m.m_total < 2147483648 := Nat.lt_of_le_of_lt (Nat.le_add_right _ _) ht
      obtain ⟨r, hset⟩ := Option.isSome_iff_exists.mp
        (set_isSome hash hlt n.key n.val)
      obtain ⟨-, h₁, hcount⟩ := h.set hset
      have hrest : (tmp.filter fun x => (Function.update f n.key (some n.val) x.key).isNone) =
          tmp.filter fun x => (f x.key).isNone := by
        apply List.filter_congr
        intro x hx
        have hne : x.key ≠ n.key := fun he => honce.1 (he ▸ List.mem_map_of_mem hx)
        rw [Function.update_of_ne hne]
      have hbound : r.2.m_total + (tmp.filter fun x =>
          (Function.update f n.key (some n.val) x.key).isNone).length < 2147483648 := by
        rw [hrest, hcount]
        rw [List.filter_cons] at ht
        split at ht
        · rename_i hnone
          rw [if_pos hnone]
          rw [List.length_cons] at ht
          omega
        · rename_i hnone
          rw [if_neg hnone]
          exact ht
      unfold HashMap.setAll
      rw [List.foldlM_cons, hset]
      exact ih h₁ honce.2 hbound

/-- Setting every pair of a finite map. -/
theorem foldl_update (l : List (Node K V)) {g : K → Option V} (h : Represents l g)
    (f : K → Option V) :
    l.foldl (fun (f : K → Option V) n => Function.update f n.key (some n.val)) f =
      fun k => (g k).or (f k) := by
  induction l generalizing f g with
  | nil =>
      funext k
      have hk : g k = none := h.none_iff.mpr fun n hn => absurd hn List.not_mem_nil
      rw [hk]
      rfl
  | cons n l ih =>
      obtain ⟨hn, htail⟩ := h.tail
      rw [List.foldl_cons, ih htail]
      funext k
      by_cases hk : k = n.key
      · rw [hk, Function.update_self, Function.update_self, hn]
        rfl
      · rw [Function.update_of_ne hk, Function.update_of_ne hk]

theorem Holds.merge {oth : HashMap K V} {g : K → Option V} (h : Holds hash m f)
    (ho : Holds hash oth g) (hr : m.merge hash oth = some m') :
    Holds hash m' fun k => (g k).or (f k) := by
  have h' := h.setAll hr
  rw [foldl_update oth.nodes ho.nodes] at h'
  exact h'

theorem Holds.created {size : UInt32} (hc : create size = some m) :
    Holds hash m fun _ => none := by
  obtain ⟨s, hb, rfl⟩ := Option.map_eq_some_iff.mp hc
  have hnil : HashMap.nodes (⟨s, 0, fun _ => []⟩ : HashMap K V) = [] :=
    List.flatMap_eq_nil_iff.mpr fun _ _ => rfl
  exact
    { size := basket_pos hb
      sorted := fun _ _ => List.Pairwise.nil
      place := fun _ _ n hn => absurd hn List.not_mem_nil
      total := by rw [hnil]; rfl
      nodes := by
        rw [hnil]
        refine ⟨List.nodup_nil, fun k v => ?_⟩
        constructor
        · intro he
          cases he
        · intro hn
          cases hn }

omit [LinearOrder K] in
theorem create_isSome {size : UInt32} (hs : 1 ≤ size.toNat) :
    (create size : Option (HashMap K V)).isSome ↔ size.toNat ≠ 2147483648 := by
  rw [create, Option.isSome_map, basket_isSome, toInt32]
  have hlt := size.toNat_lt
  rw [Nat.mod_eq_of_lt hlt]
  split
  · omega
  · omega

/-- The finite maps that the maps stand for, by number. -/
abbrev FiniteMaps (K V : Type) : Type := Nat → Option (K → Option V)

/-- What each call does to finite maps. -/
def mapExec (s : FiniteMaps K V) : Op K V → Option (Outcome V × FiniteMaps K V)
  | .create i _ =>
      match s i with
      | some _ => none
      | none => some (.done, Function.update s i (some fun _ => none))
  | .set i k v => do
      let f ← s i
      return (.flag (f k).isNone, Function.update s i (some (Function.update f k (some v))))
  | .get i k => do
      let f ← s i
      return (.value (f k), s)
  | .exists_ i k => do
      let f ← s i
      return (.flag (f k).isSome, s)
  | .del i k => do
      let f ← s i
      return (.flag (f k).isSome, Function.update s i (some (Function.update f k none)))
  | .rehash i => do
      let f ← s i
      return (.done, Function.update s i (some f))
  | .swap i j => do
      let f ← s i
      let g ← s j
      return (.done, Function.update (Function.update s i (some g)) j (some f))
  | .merge i j => do
      let f ← s i
      let g ← s j
      return (.done, Function.update s i (some fun k => (g k).or (f k)))

/-- The calls with what they return, as long as every map holds fewer than `2 ^ 31` keys. -/
def system (hash : K → UInt32) : System (Maps K V) (Op K V × Outcome V) where
  init s := s = fun _ => none
  step s e s' := exec hash s e.1 = some (e.2, s') ∧
    ∀ i m, s' i = some m → m.m_total < 2147483648

def mapSystem (K V : Type) [LinearOrder K] : System (FiniteMaps K V) (Op K V × Outcome V) where
  init s := s = fun _ => none
  step s e s' := mapExec s e.1 = some (e.2, s')

/-- A call that names maps that are there, a new one for `create`, and leaves fewer than
`2 ^ 31` keys in the map it merges into. -/
def InDomain (s : Maps K V) : Op K V → Prop
  | .create i size => s i = none ∧ 1 ≤ size.toNat
  | .set i _ _ | .get i _ | .exists_ i _ | .del i _ | .rehash i => ∃ m, s i = some m
  | .swap i j => i ≠ j ∧ (∃ m, s i = some m) ∧ ∃ m, s j = some m
  | .merge i j => ∃ m oth f, s i = some m ∧ s j = some oth ∧ Represents m.nodes f ∧
      m.m_total + (oth.nodes.filter fun n => (f n.key).isNone).length < 2147483648

/-- The size argument has an absolute value as an `int`. -/
def Defined : Op K V → Prop
  | .create _ size => size.toNat ≠ 2147483648
  | _ => True

/-- The maps hold the finite maps, and their keys can be counted by an `int`. -/
structure Refines (hash : K → UInt32) (s : Maps K V) (t : FiniteMaps K V) : Prop where
  holds : ∀ i, Option.Rel (Holds hash) (s i) (t i)
  bound : ∀ i m, s i = some m → m.m_total < 2147483648

variable {s s' : Maps K V} {t : FiniteMaps K V} {i j : Nat}

theorem Refines.map_some (h : Refines hash s t) (hs : s i = some m) :
    ∃ f, t i = some f ∧ Holds hash m f := by
  have hrel := h.holds i
  rw [hs] at hrel
  cases ht : t i with
  | none => rw [ht] at hrel; cases hrel
  | some f =>
      rw [ht] at hrel
      cases hrel with
      | some hf => exact ⟨f, rfl, hf⟩

theorem Refines.map_none (h : Refines hash s t) (hs : s i = none) : t i = none := by
  have hrel := h.holds i
  rw [hs] at hrel
  cases ht : t i with
  | none => rfl
  | some f => rw [ht] at hrel; cases hrel

/-- One of the maps is replaced on both sides. -/
theorem rel_update (h : ∀ i, Option.Rel (Holds hash) (s i) (t i)) (hm : Holds hash m f) (i : Nat) :
    ∀ j, Option.Rel (Holds hash) (Function.update s i (some m) j)
      (Function.update t i (some f) j) := by
  intro j
  by_cases hj : j = i
  · rw [hj, Function.update_self, Function.update_self]
    exact .some hm
  · rw [Function.update_of_ne hj, Function.update_of_ne hj]
    exact h j

/-- A call that returns has the effect it has on finite maps. -/
theorem Refines.step_holds {op : Op K V} {out : Outcome V} (h : Refines hash s t)
    (hstep : exec hash s op = some (out, s')) :
    ∃ t', mapExec t op = some (out, t') ∧ ∀ i, Option.Rel (Holds hash) (s' i) (t' i) := by
  cases op with
  | create i size =>
      cases hs : s i with
      | some m => simp only [exec, hs] at hstep; cases hstep
      | none =>
          simp only [exec, hs] at hstep
          obtain ⟨m, hc, he⟩ := Option.map_eq_some_iff.mp hstep
          obtain ⟨rfl, rfl⟩ := Prod.mk.inj he
          refine ⟨Function.update t i (some fun _ => none), ?_, rel_update h.holds (.created hc) i⟩
          simp only [mapExec, h.map_none hs]
  | set i k v =>
      obtain ⟨m, hs, hstep⟩ := Option.bind_eq_some_iff.mp hstep
      obtain ⟨r, hset, he⟩ := Option.bind_eq_some_iff.mp hstep
      obtain ⟨f, hf, hm⟩ := h.map_some hs
      obtain ⟨hflag, hm', -⟩ := hm.set hset
      obtain ⟨rfl, rfl⟩ := Prod.mk.inj (Option.some.inj he)
      refine ⟨Function.update t i (some (Function.update f k (some v))), ?_,
        rel_update h.holds hm' i⟩
      rw [hflag]
      exact Option.bind_eq_some_iff.mpr ⟨f, hf, rfl⟩
  | get i k =>
      obtain ⟨m, hs, he⟩ := Option.bind_eq_some_iff.mp hstep
      obtain ⟨f, hf, hm⟩ := h.map_some hs
      obtain ⟨rfl, rfl⟩ := Prod.mk.inj (Option.some.inj he)
      refine ⟨t, ?_, h.holds⟩
      rw [hm.get_eq]
      exact Option.bind_eq_some_iff.mpr ⟨f, hf, rfl⟩
  | exists_ i k =>
      obtain ⟨m, hs, he⟩ := Option.bind_eq_some_iff.mp hstep
      obtain ⟨f, hf, hm⟩ := h.map_some hs
      obtain ⟨rfl, rfl⟩ := Prod.mk.inj (Option.some.inj he)
      refine ⟨t, ?_, h.holds⟩
      rw [hm.exists_eq]
      exact Option.bind_eq_some_iff.mpr ⟨f, hf, rfl⟩
  | del i k =>
      obtain ⟨m, hs, he⟩ := Option.bind_eq_some_iff.mp hstep
      obtain ⟨f, hf, hm⟩ := h.map_some hs
      obtain ⟨hflag, hm'⟩ := hm.del_eq k
      obtain ⟨rfl, rfl⟩ := Prod.mk.inj (Option.some.inj he)
      refine ⟨Function.update t i (some (Function.update f k none)), ?_,
        rel_update h.holds hm' i⟩
      rw [hflag]
      exact Option.bind_eq_some_iff.mpr ⟨f, hf, rfl⟩
  | rehash i =>
      obtain ⟨m, hs, hstep⟩ := Option.bind_eq_some_iff.mp hstep
      obtain ⟨m', hr, he⟩ := Option.bind_eq_some_iff.mp hstep
      obtain ⟨f, hf, hm⟩ := h.map_some hs
      obtain ⟨rfl, rfl⟩ := Prod.mk.inj (Option.some.inj he)
      refine ⟨Function.update t i (some f), ?_, rel_update h.holds (hm.rehash hr).1 i⟩
      exact Option.bind_eq_some_iff.mpr ⟨f, hf, rfl⟩
  | swap i j =>
      simp only [exec] at hstep
      split at hstep
      · cases hstep
      · obtain ⟨m, hs, hstep⟩ := Option.bind_eq_some_iff.mp hstep
        obtain ⟨m', hs', he⟩ := Option.bind_eq_some_iff.mp hstep
        obtain ⟨f, hf, hm⟩ := h.map_some hs
        obtain ⟨g, hg, hm'⟩ := h.map_some hs'
        obtain ⟨rfl, rfl⟩ := Prod.mk.inj (Option.some.inj he)
        refine ⟨Function.update (Function.update t i (some g)) j (some f), ?_,
          rel_update (rel_update h.holds hm' i) hm j⟩
        refine Option.bind_eq_some_iff.mpr ⟨f, hf, ?_⟩
        exact Option.bind_eq_some_iff.mpr ⟨g, hg, rfl⟩
  | merge i j =>
      obtain ⟨m, hs, hstep⟩ := Option.bind_eq_some_iff.mp hstep
      obtain ⟨oth, hs', hstep⟩ := Option.bind_eq_some_iff.mp hstep
      obtain ⟨m', hr, he⟩ := Option.bind_eq_some_iff.mp hstep
      obtain ⟨f, hf, hm⟩ := h.map_some hs
      obtain ⟨g, hg, ho⟩ := h.map_some hs'
      obtain ⟨rfl, rfl⟩ := Prod.mk.inj (Option.some.inj he)
      refine ⟨Function.update t i (some fun k => (g k).or (f k)), ?_,
        rel_update h.holds (hm.merge ho hr) i⟩
      refine Option.bind_eq_some_iff.mpr ⟨f, hf, ?_⟩
      exact Option.bind_eq_some_iff.mpr ⟨g, hg, rfl⟩

theorem Refines.step {op : Op K V} {out : Outcome V} (h : Refines hash s t)
    (hstep : exec hash s op = some (out, s'))
    (hb : ∀ i m, s' i = some m → m.m_total < 2147483648) :
    ∃ t', mapExec t op = some (out, t') ∧ Refines hash s' t' := by
  obtain ⟨t', hmap, hholds⟩ := h.step_holds hstep
  exact ⟨t', hmap, hholds, hb⟩

theorem exec_set {v : V} {r : Bool × HashMap K V} (hs : s i = Option.some m)
    (hr : m.set hash k v = Option.some r) : exec hash s (.set i k v) =
      Option.some (.flag r.1, Function.update s i (Option.some r.2)) :=
  Option.bind_eq_some_iff.mpr ⟨m, hs, Option.bind_eq_some_iff.mpr ⟨r, hr, rfl⟩⟩

/-- The calls of the domain return, but for a `create` with the one size argument. -/
theorem Refines.defined {op : Op K V} (h : Refines hash s t) (hop : InDomain s op) :
    (exec hash s op).isSome ↔ Defined op := by
  have hret : ∀ r, exec hash s op = Option.some r → ((exec hash s op).isSome ↔ True) :=
    fun r hr => iff_of_true (Option.isSome_iff_exists.mpr ⟨r, hr⟩) trivial
  cases op with
  | create i size =>
      have heq : exec hash s (.create i size) =
          (create size).map fun m => (.done, Function.update s i (Option.some m)) := by
        simp only [exec, hop.1]
      rw [heq, Option.isSome_map]
      exact create_isSome hop.2
  | set i k v =>
      obtain ⟨m, hs⟩ := hop
      obtain ⟨r, hr⟩ := Option.isSome_iff_exists.mp
        (set_isSome hash (h.bound i m hs) k v)
      exact hret _ (exec_set hs hr)
  | get i k =>
      obtain ⟨m, hs⟩ := hop
      exact hret _ (Option.bind_eq_some_iff.mpr ⟨m, hs, rfl⟩)
  | exists_ i k =>
      obtain ⟨m, hs⟩ := hop
      exact hret _ (Option.bind_eq_some_iff.mpr ⟨m, hs, rfl⟩)
  | del i k =>
      obtain ⟨m, hs⟩ := hop
      exact hret _ (Option.bind_eq_some_iff.mpr ⟨m, hs, rfl⟩)
  | rehash i =>
      obtain ⟨m, hs⟩ := hop
      obtain ⟨m', hr⟩ := Option.isSome_iff_exists.mp
        (rehash_isSome hash (h.bound i m hs))
      exact hret _ (Option.bind_eq_some_iff.mpr
        ⟨m, hs, Option.bind_eq_some_iff.mpr ⟨m', hr, rfl⟩⟩)
  | swap i j =>
      obtain ⟨hij, ⟨m, hs⟩, m', hs'⟩ := hop
      have hex : exec hash s (.swap i j) = Option.some (.done,
          Function.update (Function.update s i (Option.some m')) j (Option.some m)) := by
        refine (if_neg hij).trans ?_
        refine Option.bind_eq_some_iff.mpr ⟨m, hs, ?_⟩
        exact Option.bind_eq_some_iff.mpr ⟨m', hs', rfl⟩
      exact hret _ hex
  | merge i j =>
      obtain ⟨m, oth, f, hs, hs', hrep, hlt⟩ := hop
      obtain ⟨f', -, hm⟩ := h.map_some hs
      obtain ⟨g, -, ho⟩ := h.map_some hs'
      have hff : f' = f := by
        funext k
        apply Option.ext
        intro v
        exact (hm.nodes.assoc k v).trans (hrep.assoc k v).symm
      rw [← hff] at hlt
      obtain ⟨m', hr⟩ := Option.isSome_iff_exists.mp (hm.setAll_isSome ho.nodes.once hlt)
      exact hret _ (Option.bind_eq_some_iff.mpr ⟨m, hs, Option.bind_eq_some_iff.mpr
        ⟨oth, hs', Option.bind_eq_some_iff.mpr ⟨m', hr, rfl⟩⟩⟩)

/-- Every run of calls returns what it returns on finite maps and leaves maps that hold them;
a call of the domain is defined but where a map is created with the size argument `2 ^ 31`. -/
theorem run_refines_finite_maps {es : List (Op K V × Outcome V)}
    (h : (system hash).Run es s) :
    ∃ t, (mapSystem K V).Run es t ∧ (∀ i, Option.Rel (Holds hash) (s i) (t i)) ∧
      ∀ op, InDomain s op → ((exec hash s op).isSome ↔ Defined op) := by
  obtain ⟨t, ht, hrel⟩ := h.simulation (T := mapSystem K V) (R := Refines hash)
    (by
      rintro s₀ rfl
      refine ⟨fun _ => Option.none, rfl, fun _ => .none, ?_⟩
      intro _ _ hnone
      cases hnone)
    (by
      intro s₁ e s₂ t₁ hr hstep
      exact hr.step hstep.1 hstep.2)
  exact ⟨t, ht, hrel.holds, fun op => hrel.defined⟩

/-- One map whose key is set twice. -/
theorem run_refines_finite_maps_set_twice :
    ∃ s, (system Nat.toUInt32).Run
        [(.create 0 1, .done), (.set 0 3 30, .flag true), (.set 0 3 33, .flag false),
          (.get 0 3, .value (some 33))] s ∧
      ∃ t, (mapSystem Nat Nat).Run
        [(.create 0 1, .done), (.set 0 3 30, .flag true), (.set 0 3 33, .flag false),
          (.get 0 3, .value (some 33))] t ∧
      (∀ i, Option.Rel (Holds Nat.toUInt32) (s i) (t i)) ∧
      ∀ op, InDomain s op →
        ((exec Nat.toUInt32 s op).isSome ↔ Defined op) := by
  let one : HashMap Nat Nat → Maps Nat Nat := fun m => Function.update (fun _ => none) 0 (some m)
  have hbound : ∀ m : HashMap Nat Nat, m.m_total < 2147483648 → ∀ i m', one m i = some m' →
      m'.m_total < 2147483648 := by
    intro m hm i m' hs
    change Function.update (fun _ => none : Maps Nat Nat) 0 (some m) i = some m' at hs
    by_cases hi : i = 0
    · rw [hi, Function.update_self] at hs
      rw [← Option.some.inj hs]
      exact hm
    · rw [Function.update_of_ne hi] at hs
      cases hs
  have hset : ∀ (m : HashMap Nat Nat) k v r, m.set Nat.toUInt32 k v = some r →
      exec Nat.toUInt32 (one m) (.set 0 k v) = some (.flag r.1, one r.2) := by
    intro m k v r hr
    refine (exec_set (Function.update_self ..) hr).trans ?_
    exact congrArg (fun s => some (Outcome.flag r.1, s)) (Function.update_idem ..)
  have h₀ : (system Nat.toUInt32).Run [] (fun _ => none : Maps Nat Nat) := .start rfl
  have h₁ : (system Nat.toUInt32).Run _ (one ⟨2, 0, fun _ => []⟩) :=
    h₀.snoc (e := (Op.create 0 1, Outcome.done)) ⟨rfl, hbound _ (by decide)⟩
  have h₂ : (system Nat.toUInt32).Run _
      (one ⟨2, 1, Function.update (fun _ => []) 1 [⟨3, 30⟩]⟩) :=
    h₁.snoc (e := (Op.set 0 3 30, Outcome.flag true))
      ⟨hset _ 3 30 (true, _) rfl, hbound _ (by decide)⟩
  have h₃ : (system Nat.toUInt32).Run _
      (one ⟨2, 1, Function.update (Function.update (fun _ => []) 1 [⟨3, 30⟩]) 1 [⟨3, 33⟩]⟩) :=
    h₂.snoc (e := (Op.set 0 3 33, Outcome.flag false))
      ⟨hset _ 3 33 (false, _) rfl, hbound _ (by decide)⟩
  have h₄ := h₃.snoc (e := (Op.get 0 3, Outcome.value (some 33)))
    ⟨rfl, hbound _ (by decide)⟩
  exact ⟨_, h₄, run_refines_finite_maps h₄⟩

/-- The number of buckets is undefined for the size argument `2 ^ 31`. -/
theorem create_undefined :
    InDomain (fun _ => none : Maps Nat Nat) (.create 0 2147483648) ∧
      exec (fun _ => 0) (fun _ => none : Maps Nat Nat) (.create 0 2147483648) = none := by
  refine ⟨⟨rfl, by decide⟩, ?_⟩
  have hcreate : (create 2147483648 : Option (HashMap Nat Nat)) = none := by
    rw [← Option.not_isSome_iff_eq_none, create_isSome (by decide)]
    decide
  simp only [exec, hcreate, Option.map_none]

end HashMap

end CIM.ds
