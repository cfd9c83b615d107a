import Mathlib.Data.List.AList
import Mathlib.Tactic.Common

/-!
# Linked lists with an index

A list of nodes, each with its address, and a table that finds the address of a node by a key of
its item. `Index` says that the two describe the same nodes; the rules below say which changes of
both keep it so. The last section orders keys by their last use in a history.
-/
universe u v w

structure Node (α : Type u) where
  id : Nat
  item : α
  deriving DecidableEq, Repr

/-- A table of addresses. -/
abbrev Table (κ : Type v) := AList fun _ : κ => Nat

namespace Node

variable {α : Type u}

def deref (it : Nat) (l : List (Node α)) : Option α := (l.find? (·.id = it)).map item

def modify (it : Nat) (f : α → α) (l : List (Node α)) : List (Node α) :=
  l.map fun n => if n.id = it then ⟨n.id, f n.item⟩ else n

/-- Move a node to the front. -/
def splice (it : Nat) (l : List (Node α)) : List (Node α) :=
  l.filter (·.id = it) ++ l.filter (·.id ≠ it)

def remove (it : Nat) (l : List (Node α)) : List (Node α) := l.filter (·.id ≠ it)

theorem splice_perm (it : Nat) (l : List (Node α)) : splice it l |>.Perm l := by
  have h := List.filter_append_perm (fun n : Node α => decide (n.id = it)) l
  simpa only [splice, ne_eq, decide_not] using h

@[simp] theorem map_id_modify (it : Nat) (f : α → α) (l : List (Node α)) :
    (modify it f l).map id = l.map id := by
  rw [modify, List.map_map]
  apply List.map_congr_left
  intro n _
  simp only [Function.comp]
  split <;> rfl

theorem nodup_remove {l : List (Node α)} (h : (l.map id).Nodup) (it : Nat) :
    ((remove it l).map id).Nodup :=
  h.sublist (List.filter_sublist.map id)

theorem filter_id {l : List (Node α)} (h : (l.map id).Nodup) {n : Node α} (hn : n ∈ l) :
    l.filter (·.id = n.id) = [n] := by
  induction l with
  | nil => cases hn
  | cons m l ih =>
      rw [List.map_cons, List.nodup_cons] at h
      rcases List.mem_cons.mp hn with rfl | hn
      · rw [List.filter_cons_of_pos (by simp), List.filter_eq_nil_iff.mpr]
        intro m hm
        have hne : m.id ≠ n.id := fun he => h.1 (he ▸ List.mem_map_of_mem hm)
        simpa using hne
      · have hne : m.id ≠ n.id := fun he => h.1 (he ▸ List.mem_map_of_mem hn)
        rw [List.filter_cons_of_neg (by simpa using hne), ih h.2 hn]

theorem splice_eq {l : List (Node α)} (h : (l.map id).Nodup) {n : Node α} (hn : n ∈ l) :
    splice n.id l = n :: remove n.id l := by
  rw [splice, filter_id h hn]
  rfl

theorem remove_modify (it : Nat) (f : α → α) (l : List (Node α)) :
    remove it (modify it f l) = remove it l := by
  induction l with
  | nil => rfl
  | cons n l ih =>
      simp only [remove, modify, List.map_cons] at ih ⊢
      by_cases hid : n.id = it
      · rw [if_pos hid, List.filter_cons_of_neg (by simpa using hid),
          List.filter_cons_of_neg (by simpa using hid), ih]
      · rw [if_neg hid, List.filter_cons_of_pos (by simpa using hid),
          List.filter_cons_of_pos (by simpa using hid), ih]

theorem splice_modify {l : List (Node α)} (h : (l.map id).Nodup) {n : Node α} (hn : n ∈ l)
    (f : α → α) : splice n.id (modify n.id f l) = ⟨n.id, f n.item⟩ :: remove n.id l := by
  have hm : (⟨n.id, f n.item⟩ : Node α) ∈ modify n.id f l :=
    List.mem_map.mpr ⟨n, hn, if_pos rfl⟩
  rw [← remove_modify n.id f l]
  exact splice_eq (by rw [map_id_modify]; exact h) hm

theorem deref_eq {l : List (Node α)} (h : (l.map id).Nodup) {n : Node α} (hn : n ∈ l) :
    deref n.id l = some n.item := by
  rw [deref, ← List.head?_filter, filter_id h hn]
  rfl

theorem remove_head {l : List (Node α)} {n : Node α} (h : ((n :: l).map id).Nodup) :
    remove n.id (n :: l) = l := by
  rw [remove, List.filter_cons_of_neg (by simp)]
  apply List.filter_eq_self.mpr
  intro m hm
  have hne : m.id ≠ n.id := fun he =>
    (List.nodup_cons.mp h).1 (List.mem_map.mpr ⟨m, hm, he⟩)
  simpa using hne

theorem remove_last {l : List (Node α)} {n : Node α} (h : ((l ++ [n]).map id).Nodup) :
    remove n.id (l ++ [n]) = l := by
  rw [List.map_append, List.map_singleton, List.nodup_append] at h
  rw [remove, List.filter_append, List.filter_eq_self.mpr, List.filter_cons_of_neg (by simp),
    List.filter_nil, List.append_nil]
  intro m hm
  have hne : m.id ≠ n.id := h.2.2 m.id (List.mem_map_of_mem hm) n.id List.mem_cons_self
  simpa using hne

end Node

/-- The table and the list describe the same nodes. -/
structure Index {α : Type u} {κ : Type v} [DecidableEq κ] (key : α → κ) (cache : Table κ)
    (l : List (Node α)) : Prop where
  ids : (l.map Node.id).Nodup
  lookup : ∀ k it, cache.lookup k = some it ↔ ∃ n ∈ l, n.id = it ∧ key n.item = k

namespace Index

variable {α : Type u} {κ : Type v} [DecidableEq κ] {key : α → κ} {cache : Table κ}
  {l l' : List (Node α)}

theorem empty : Index key ∅ [] where
  ids := List.nodup_nil
  lookup k it := by simp

theorem lookup_mem (h : Index key cache l) {n : Node α} (hn : n ∈ l) :
    cache.lookup (key n.item) = some n.id :=
  (h.lookup _ _).mpr ⟨n, hn, rfl, rfl⟩

theorem eq_of_id (h : Index key cache l) {n m : Node α} (hn : n ∈ l) (hm : m ∈ l)
    (hid : n.id = m.id) : n = m :=
  List.inj_on_of_nodup_map h.ids hn hm hid

theorem eq_of_key (h : Index key cache l) {n m : Node α} (hn : n ∈ l) (hm : m ∈ l)
    (hk : key n.item = key m.item) : n = m := by
  apply h.eq_of_id hn hm
  have hlookup := h.lookup_mem hn
  rw [hk, h.lookup_mem hm, Option.some.injEq] at hlookup
  exact hlookup.symm

theorem keys_nodup (h : Index key cache l) : (l.map fun n => key n.item).Nodup :=
  h.ids.of_map.map_on fun _ hn _ hm hk => h.eq_of_key hn hm hk

theorem mem_keys (h : Index key cache l) (k : κ) :
    k ∈ cache.keys ↔ ∃ n ∈ l, key n.item = k := by
  rw [← AList.mem_keys, ← AList.lookup_isSome, Option.isSome_iff_exists]
  constructor
  · rintro ⟨it, hit⟩
    obtain ⟨n, hn, -, hk⟩ := (h.lookup k it).mp hit
    exact ⟨n, hn, hk⟩
  · rintro ⟨n, hn, rfl⟩
    exact ⟨n.id, h.lookup_mem hn⟩

theorem keys_perm (h : Index key cache l) : cache.keys.Perm (l.map fun n => key n.item) := by
  apply (List.perm_ext_iff_of_nodup cache.keys_nodup h.keys_nodup).mpr
  intro k
  rw [h.mem_keys, List.mem_map]

theorem size (h : Index key cache l) : cache.keys.length = l.length := by
  rw [h.keys_perm.length_eq, List.length_map]

theorem lookup_none (h : Index key cache l) {k : κ} :
    cache.lookup k = none ↔ ∀ n ∈ l, key n.item ≠ k := by
  rw [AList.lookup_eq_none, AList.mem_keys, h.mem_keys]
  simp only [not_exists, not_and, ne_eq]

theorem perm (h : Index key cache l) (hp : l.Perm l') : Index key cache l' where
  ids := (hp.map Node.id).nodup_iff.mp h.ids
  lookup k it := by
    rw [h.lookup]
    exact exists_congr fun n => and_congr_left fun _ => hp.mem_iff

theorem congr (h : Index key cache l) {cache' : Table κ}
    (he : ∀ k, cache'.lookup k = cache.lookup k) : Index key cache' l where
  ids := h.ids
  lookup k it := by rw [he, h.lookup]

theorem modify (h : Index key cache l) {it : Nat} {f : α → α}
    (hf : ∀ n ∈ l, n.id = it → key (f n.item) = key n.item) :
    Index key cache (Node.modify it f l) where
  ids := by rw [Node.map_id_modify]; exact h.ids
  lookup k it' := by
    rw [h.lookup, Node.modify]
    simp only [List.mem_map, exists_exists_and_eq_and]
    apply exists_congr
    intro n
    apply and_congr_right
    intro hn
    by_cases hid : n.id = it
    · rw [if_pos hid, hf n hn hid]
    · rw [if_neg hid]

theorem cons (h : Index key cache l) {i : Nat} {x : α} (hk : cache.lookup (key x) = none)
    (hid : ∀ n ∈ l, n.id ≠ i) : Index key (cache.insert (key x) i) (⟨i, x⟩ :: l) where
  ids := by
    rw [List.map_cons, List.nodup_cons]
    refine ⟨?_, h.ids⟩
    intro hm
    obtain ⟨n, hn, he⟩ := List.mem_map.mp hm
    exact hid n hn he
  lookup k it' := by
    by_cases hkey : k = key x
    · subst hkey
      rw [AList.lookup_insert]
      constructor
      · intro he
        exact ⟨⟨i, x⟩, List.mem_cons_self, Option.some.inj he, rfl⟩
      · rintro ⟨n, hn, rfl, hkn⟩
        rcases List.mem_cons.mp hn with rfl | hn
        · rfl
        · exact absurd hkn (h.lookup_none.mp hk n hn)
    · rw [AList.lookup_insert_ne hkey, h.lookup]
      simp only [List.mem_cons, exists_eq_or_imp]
      constructor
      · exact Or.inr
      · rintro (⟨-, he⟩ | hn)
        · exact absurd he.symm hkey
        · exact hn

theorem remove (h : Index key cache l) {n : Node α} (hn : n ∈ l) :
    Index key (cache.erase (key n.item)) (Node.remove n.id l) where
  ids := Node.nodup_remove h.ids n.id
  lookup k it := by
    have hne : ∀ m ∈ l, (decide (m.id ≠ n.id) = true ↔ key m.item ≠ key n.item) := by
      intro m hm
      rw [decide_eq_true_iff]
      constructor
      · intro hid hk
        exact hid (congrArg Node.id (h.eq_of_key hm hn hk))
      · intro hk hid
        exact hk (congrArg (fun m => key m.item) (h.eq_of_id hm hn hid))
    by_cases hk : k = key n.item
    · subst hk
      rw [AList.lookup_erase]
      constructor
      · intro he
        cases he
      · rintro ⟨m, hm, -, hkm⟩
        obtain ⟨hm, hid⟩ := List.mem_filter.mp hm
        exact absurd hkm ((hne m hm).mp hid)
    · rw [AList.lookup_erase_ne hk, h.lookup]
      constructor
      · rintro ⟨m, hm, hid, hkm⟩
        exact ⟨m, List.mem_filter.mpr ⟨hm, (hne m hm).mpr (hkm ▸ hk)⟩, hid, hkm⟩
      · rintro ⟨m, hm, hid, hkm⟩
        exact ⟨m, (List.mem_filter.mp hm).1, hid, hkm⟩

theorem tail {n : Node α} (h : Index key cache (n :: l)) :
    Index key (cache.erase (key n.item)) l := by
  have hrest := h.remove List.mem_cons_self
  rwa [Node.remove_head h.ids] at hrest

end Index

/-! ## Last use in a history -/

variable {ε : Type w} {κ : Type v} [DecidableEq κ]

/-- The place of the last event that used a key, counted from one; zero where none did. -/
def lastUse (uses : ε → Option κ) (es : List ε) (k : κ) : Nat :=
  (es.reverse.dropWhile fun e => uses e ≠ some k).length

theorem lastUse_le (uses : ε → Option κ) (es : List ε) (k : κ) :
    lastUse uses es k ≤ es.length := by
  rw [lastUse, ← @List.length_reverse _ es]
  exact (List.dropWhile_suffix _).length_le

theorem lastUse_snoc (uses : ε → Option κ) (es : List ε) (e : ε) (k : κ) :
    lastUse uses (es ++ [e]) k = if uses e = some k then es.length + 1 else lastUse uses es k := by
  rw [lastUse, List.reverse_append, List.reverse_singleton, List.singleton_append]
  by_cases h : uses e = some k
  · rw [if_pos h, List.dropWhile_cons_of_neg (by simpa using h), List.length_cons,
      List.length_reverse]
  · rw [if_neg h, List.dropWhile_cons_of_pos (by simpa using h), lastUse]

/-- Keys with the most recently used one first. -/
def Recent (uses : ε → Option κ) (es : List ε) (ks : List κ) : Prop :=
  ks.Pairwise fun a b => lastUse uses es b < lastUse uses es a

variable {uses : ε → Option κ} {es : List ε} {ks ks' : List κ}

theorem Recent.sublist (h : Recent uses es ks) (hs : ks'.Sublist ks) : Recent uses es ks' :=
  List.Pairwise.sublist hs h

theorem Recent.keep (h : Recent uses es ks) {e : ε} (he : ∀ k ∈ ks, uses e ≠ some k) :
    Recent uses (es ++ [e]) ks := by
  apply List.Pairwise.imp_of_mem _ h
  intro a b ha hb hab
  rw [lastUse_snoc, lastUse_snoc, if_neg (he a ha), if_neg (he b hb)]
  exact hab

theorem Recent.front (h : Recent uses es ks) {e : ε} {k : κ} (he : uses e = some k)
    (hk : k ∉ ks) : Recent uses (es ++ [e]) (k :: ks) := by
  have hne : ∀ k' ∈ ks, uses e ≠ some k' := by
    intro k' hk' he'
    rw [he, Option.some.injEq] at he'
    exact hk (he' ▸ hk')
  apply List.pairwise_cons.mpr
  refine ⟨?_, h.keep hne⟩
  intro k' hk'
  rw [lastUse_snoc, lastUse_snoc, if_pos he, if_neg (hne k' hk')]
  exact Nat.lt_succ_of_le (lastUse_le uses es k')
