import Mathlib.Data.List.Pairwise
import CIM.Ds.WriteTo

/-!
# A container is read as it was written

The offsets of the entries cut the array of all values into the arrays that were gathered, so the
entries that are read have the same values under the same keys, all of them in `m_values`.
-/
namespace CIM.ds

/-! ## The steps of a load on what was written -/

section Steps

variable {K V Is : Type} {r : Helpers Is} {w : Writers Is}

theorem Load.bind_ok {S α β : Type} {x : Load S α} {f : α → Load S β} {s s' : S} {a : α}
    (h : x s = some (some a, s')) : (x >>= f) s = f a s' := by
  change (x s).bind _ = _
  rw [h]
  rfl

theorem Load.require_true {S α : Type} (a : α) (s : S) :
    Load.require (some true) a s = some (some a, s) := by
  rw [Load.require, if_pos rfl]
  rfl

variable {E : Type} {m : Members K V E} {is : Is} {n : Nat}

theorem readSize_written (h : Reads r w) (hn : n < 18446744073709551616) :
    readSize r (m, w.writeWord n is) = some (some (), { m with m_size := n }, is) := by
  have hread := h.word n m.m_size is hn
  change Load.require (r.readFromStream (w.writeWord n is) m.m_size).1 ()
    ({ m with m_size := (r.readFromStream (w.writeWord n is) m.m_size).2.1 },
      (r.readFromStream (w.writeWord n is) m.m_size).2.2) = _
  rw [hread]
  exact Load.require_true _ _

theorem readWord_written (h : Reads r w) (hn : n < 18446744073709551616) (v : Nat) :
    readWord r v (m, w.writeWord n is) = some (some n, m, is) := by
  have hread := h.word n v is hn
  change Load.require (r.readFromStream (w.writeWord n is) v).1
    (r.readFromStream (w.writeWord n is) v).2.1
    (m, (r.readFromStream (w.writeWord n is) v).2.2) = _
  rw [hread]
  exact Load.require_true _ _

theorem readValues_written [Inhabited E] {sizeof : Nat} (h : Reads r w)
    (ha : ReadsArrays r w E sizeof) (hsize : 0 < sizeof) (vs : List E) (speed speed' : Nat) :
    readValues r sizeof speed' (vs.length * sizeof)
        (m, writeFix w speed vs (vs.length * sizeof) is) =
      some (some (), { m with m_values := vs }, is) := by
  unfold readValues
  dsimp only
  rw [h.allocates, if_pos rfl, Nat.mul_div_cancel _ hsize, ha vs _ speed speed' is ?_]
  · exact Load.require_true _ _
  · rw [List.length_append, List.length_take, List.length_replicate]
    omega

theorem readNodes_written {N : Type} [Inhabited N] {sizeof : Nat} (h : Reads r w)
    (ha : ReadsArrays r w N sizeof) (hsize : 0 < sizeof) (ns : List N) (speed speed' : Nat) :
    readNodes r sizeof speed' (ns.length * sizeof)
        (m, writeFix w speed ns (ns.length * sizeof) is) = some (some ns, m, is) := by
  unfold readNodes
  dsimp only
  rw [h.allocates, if_pos rfl, Nat.mul_div_cancel _ hsize,
    ha ns _ speed speed' is List.length_replicate]
  exact Load.require_true _ _

variable [LinearOrder K] {hash : K → UInt32} {count : Nat → HashMap.Node K V → Nat}

/-- The members a load leaves. -/
def Members.loaded (hash : K → UInt32) (size elements : Nat) (vs : List E)
    (ns : List (HashMap.Node K V)) : Members K V E :=
  ⟨size, ns.length, elements, vs, some fun i => HashMap.sort
    (HashMap.redistribute (fun k => (hash k).toNat % size) ns (fun _ => []) i)⟩

theorem newBuckets_written (h : Reads r w) {ns : List (HashMap.Node K V)}
    (hns : m.m_size = 0 → ns = []) (htotal : m.m_total = ns.length) :
    newBuckets r hash count ns (m, is) = some (some (),
      Members.loaded hash m.m_size (ns.foldl count m.m_elements) m.m_values ns, is) := by
  unfold newBuckets
  dsimp only
  rw [h.allocates, if_neg (by decide), if_neg ?_, Members.loaded, htotal]
  rintro ⟨hzero, hne⟩
  exact hne (congrArg List.length (hns hzero))

theorem Members.loaded_map (hash : K → UInt32) {size : Nat} (elements : Nat) (vs : List E)
    {ns : List (HashMap.Node K V)} {f : K → Option V} (hsize : size ≠ 0)
    (h : HashMap.Represents ns f) :
    ∃ map, (Members.loaded hash size elements vs ns).map = some map ∧
      HashMap.Holds hash map f := by
  refine ⟨_, (if_neg hsize).trans rfl, ?_⟩
  exact HashMap.Holds.distributed h (Nat.pos_of_ne_zero hsize) rfl

theorem Members.loaded_map_none {elements : Nat} {vs : List E} {ns : List (HashMap.Node K V)} :
    (Members.loaded hash 0 elements vs ns).map = none := if_pos rfl

end Steps

/-! ## The arrays, gathered and cut again -/

section Gather

variable {K V : Type} {w w' : Memory V}

/-- The entry that is read has the key and the values of the one that was written. -/
structure Same (w : Memory V) (vs : List V) (n : HashMap.Node K Slot) (x : RawNode K) : Prop where
  key : x.key = n.key
  size : x.size = n.val.size
  ends : x.val + x.size.toNat ≤ vs.length
  values : Patch.slice vs x.val x.size.toNat = w.array n.val

theorem Same.grow {vs more : List V} {n : HashMap.Node K Slot} {x : RawNode K}
    (h : Same w vs n x) : Same w (vs ++ more) n x where
  key := h.key
  size := h.size
  ends := by
    rw [List.length_append]
    exact Nat.le_trans h.ends (Nat.le_add_right _ _)
  values := (Patch.slice_of_le h.ends).trans h.values

/-- An array that is not empty has as many entries as the node says, if that is no negative
number. -/
theorem Memory.Valid.size_eq {a : Slot} (h : w.Valid a) (hpos : 0 ≤ a.size) :
    a.size = (w.array a).length ∧ a.size < 2147483648 := by
  obtain ⟨hlt, hsize⟩ := h.length
  rw [← hsize] at hpos ⊢
  unfold toInt32 at hpos ⊢
  rw [Nat.mod_eq_of_lt hlt] at hpos ⊢
  split
  · omega
  · rename_i hge
    rw [if_neg hge] at hpos
    omega

/-- Arrays that are there and not empty are gathered, each after the ones before. -/
theorem Memory.gather_spec (skip : Bool) {ns : List (HashMap.Node K Slot)}
    (h : ∀ n ∈ ns, w.Valid n.val ∧ 0 < n.val.size) (vs : List V) :
    ∃ more raws, w.gather skip ns vs = some (vs ++ more, raws) ∧
      List.Forall₂ (Same w (vs ++ more)) ns raws ∧ (∀ x ∈ raws, vs.length ≤ x.val) ∧
      raws.Pairwise (fun x y => x.val + x.size.toNat ≤ y.val) ∧
      more.length = (ns.map fun n => (w.array n.val).length).sum := by
  induction ns generalizing vs with
  | nil =>
      refine ⟨[], [], ?_, .nil, nofun, .nil, rfl⟩
      rw [Memory.gather, List.append_nil]
  | cons n ns ih =>
      obtain ⟨hvalid, hpos⟩ := h n List.mem_cons_self
      obtain ⟨hlen, -⟩ := hvalid.size_eq (Int.le_of_lt hpos)
      have htake : (w.array n.val).take n.val.size.toNat = w.array n.val := by
        rw [hlen, Int.toNat_natCast, List.take_length]
      obtain ⟨more, raws, hgather, hsame, hfrom, hapart, hsum⟩ :=
        ih (fun m hm => h m (List.mem_cons_of_mem _ hm)) (vs ++ w.array n.val)
      rw [List.append_assoc] at hgather hsame
      refine ⟨w.array n.val ++ more, ⟨n.key, n.val.size, vs.length⟩ :: raws, ?_, ?_, ?_, ?_, ?_⟩
      · rw [Memory.gather, if_neg fun hskip => absurd hskip.2 (Int.ne_of_gt hpos),
          if_neg (Int.not_lt.mpr (Int.le_of_lt hpos)), htake, hgather]
        rfl
      · refine .cons ⟨rfl, rfl, ?_, ?_⟩ hsame
        · change vs.length + n.val.size.toNat ≤ _
          rw [List.length_append, List.length_append, hlen, Int.toNat_natCast]
          omega
        · change Patch.slice _ vs.length n.val.size.toNat = _
          have hskip := Patch.slice_skip vs (w.array n.val ++ more) 0 n.val.size.toNat
          rw [Nat.add_zero] at hskip
          rw [hskip, Patch.slice, List.drop_zero, hlen, Int.toNat_natCast, List.take_left]
      · intro x hx
        rcases List.mem_cons.mp hx with rfl | hx
        · exact Nat.le_refl _
        · have hle := hfrom x hx
          rw [List.length_append] at hle
          omega
      · refine .cons (fun x hx => ?_) hapart
        have hle := hfrom x hx
        rw [List.length_append] at hle
        change vs.length + n.val.size.toNat ≤ x.val
        omega
      · rw [List.length_append, List.map_cons, List.sum_cons, hsum]

/-- Where a size is negative, gathering is undefined. -/
theorem Memory.gather_none (skip : Bool) {ns : List (HashMap.Node K Slot)}
    {n : HashMap.Node K Slot} (hn : n ∈ ns) (hneg : n.val.size < 0) (vs : List V) :
    w.gather skip ns vs = none := by
  induction ns generalizing vs with
  | nil => cases hn
  | cons m ns ih =>
      rw [Memory.gather]
      rcases List.mem_cons.mp hn with rfl | hn
      · rw [if_neg fun hskip => absurd hskip.2 (Int.ne_of_lt hneg), if_pos hneg]
      · split
        · exact ih hn vs
        · split
          · rfl
          · rw [ih hn]
            rfl

theorem Memory.release_m_values {p : Ptr} (h : w.release p = some w') :
    w'.m_values = w.m_values := by
  unfold Memory.release at h
  split at h
  · rw [← Option.some.inj h]
  · split at h
    · split at h
      · rw [← Option.some.inj h]
      · cases h
    · cases h

/-- Arrays that are there and apart can be freed one after another. -/
theorem Memory.release_all (skip : Bool) {ns : List (HashMap.Node K Slot)}
    (hvalid : ∀ n ∈ ns, w.Valid n.val) (hapart : ns.Pairwise fun m n => m.val.Apart n.val) :
    ∃ w', ns.foldlM (fun w n =>
        if skip = true ∧ n.val.size = 0 then some w else w.release n.val.val) w = some w' ∧
      w'.m_values = w.m_values := by
  induction ns generalizing w with
  | nil => exact ⟨w, rfl, rfl⟩
  | cons n ns ih =>
      obtain ⟨hn, hns⟩ := List.pairwise_cons.mp hapart
      obtain ⟨w₁, hw₁, hvalid₁, hvalues⟩ : ∃ w₁, (if skip = true ∧ n.val.size = 0 then some w
          else w.release n.val.val) = some w₁ ∧ (∀ m ∈ ns, w₁.Valid m.val) ∧
          w₁.m_values = w.m_values := by
        split
        · exact ⟨w, rfl, fun m hm => hvalid m (List.mem_cons_of_mem _ hm), rfl⟩
        · obtain ⟨w₁, hw₁, hframes⟩ := Memory.release_spec (hvalid n List.mem_cons_self)
          refine ⟨w₁, hw₁, fun m hm => ?_, Memory.release_m_values hw₁⟩
          exact (hframes m.val (hn m hm)).valid (hvalid m (List.mem_cons_of_mem _ hm))
      obtain ⟨w', hw', hvalues'⟩ := ih hvalid₁ hns
      refine ⟨w', ?_, hvalues'.trans hvalues⟩
      rw [List.foldlM_cons, hw₁]
      exact hw'

end Gather

/-! ## The entries that are read -/

section Loaded

variable {K V X : Type} [LinearOrder K] {w : Memory V}

theorem represents_exists {l : List (HashMap.Node K X)} (h : (l.map HashMap.Node.key).Nodup) :
    ∃ f, HashMap.Represents l f := by
  induction l with
  | nil => exact ⟨fun _ => none, h, fun _ _ => iff_of_false (by rintro ⟨⟩) (by rintro ⟨⟩)⟩
  | cons n l ih =>
      rw [List.map_cons, List.nodup_cons] at h
      obtain ⟨f, hf⟩ := ih h.2
      have hnone : f n.key = none := hf.none_iff.mpr fun m hm he =>
        h.1 (List.mem_map.mpr ⟨m, hm, he⟩)
      exact ⟨_, hf.cons hnone n.val⟩

omit [LinearOrder K] in
theorem same_left {vs : List V} {ns : List (HashMap.Node K Slot)} {raws : List (RawNode K)}
    (h : List.Forall₂ (Same w vs) ns raws) : ∀ n ∈ ns, ∃ x ∈ raws, Same w vs n x := by
  induction h with
  | nil => exact nofun
  | cons hsame _ ih =>
      intro n hn
      rcases List.mem_cons.mp hn with rfl | hn
      · exact ⟨_, List.mem_cons_self, hsame⟩
      · obtain ⟨x, hx, hsame'⟩ := ih n hn
        exact ⟨x, List.mem_cons_of_mem _ hx, hsame'⟩

omit [LinearOrder K] in
theorem same_right {vs : List V} {ns : List (HashMap.Node K Slot)} {raws : List (RawNode K)}
    (h : List.Forall₂ (Same w vs) ns raws) : ∀ x ∈ raws, ∃ n ∈ ns, Same w vs n x := by
  induction h with
  | nil => exact nofun
  | cons hsame _ ih =>
      intro x hx
      rcases List.mem_cons.mp hx with rfl | hx
      · exact ⟨_, List.mem_cons_self, hsame⟩
      · obtain ⟨n, hn, hsame'⟩ := ih x hx
        exact ⟨n, List.mem_cons_of_mem _ hn, hsame'⟩

omit [LinearOrder K] in
theorem same_keys {vs : List V} {ns : List (HashMap.Node K Slot)} {raws : List (RawNode K)}
    (h : List.Forall₂ (Same w vs) ns raws) :
    (raws.map RawNode.slot).map HashMap.Node.key = ns.map HashMap.Node.key := by
  induction h with
  | nil => rfl
  | cons hsame _ ih =>
      rw [List.map_cons, List.map_cons, List.map_cons, ih]
      exact congrArg (· :: _) hsame.key

omit [LinearOrder K] in
theorem same_sizes {vs : List V} {ns : List (HashMap.Node K Slot)} {raws : List (RawNode K)}
    (h : List.Forall₂ (Same w vs) ns raws) :
    raws.map RawNode.size = ns.map fun n => n.val.size := by
  induction h with
  | nil => rfl
  | cons hsame _ ih =>
      rw [List.map_cons, List.map_cons, ih]
      exact congrArg (· :: _) hsame.size

/-- The entries that are read have their arrays in `m_values`, apart from each other, and show the
same values. -/
theorem loaded_owned (view : Int → List V → X) {f : K → Option Slot} {vs : List V} (w' : Memory V)
    {ns : List (HashMap.Node K Slot)} {raws : List (RawNode K)} (hf : HashMap.Represents ns f)
    (howned : Owned w f) (hpos : ∀ n ∈ ns, 0 < n.val.size)
    (hsame : List.Forall₂ (Same w vs) ns raws)
    (hapart : raws.Pairwise fun x y => x.val + x.size.toNat ≤ y.val) (hw' : w'.m_values = vs) :
    ∃ f', HashMap.Represents (raws.map RawNode.slot) f' ∧ Owned w' f' ∧
      contents view w' f' = contents view w f := by
  obtain ⟨f', hf'⟩ := represents_exists (l := raws.map RawNode.slot)
    (by rw [same_keys hsame]; exact hf.once)
  have hraw : ∀ {k a}, f' k = some a → ∃ x ∈ raws, x.key = k ∧ a = ⟨x.size, .pool x.val⟩ := by
    intro k a ha
    obtain ⟨x, hx, he⟩ := List.mem_map.mp ((hf'.assoc k a).mp ha)
    cases he
    exact ⟨x, hx, rfl, rfl⟩
  refine ⟨f', hf', ⟨?_, ?_⟩, ?_⟩
  · intro k a ha
    obtain ⟨x, hx, -, rfl⟩ := hraw ha
    obtain ⟨n, hn, hs⟩ := same_right hsame x hx
    have hvalid := howned.valid n.key n.val ((hf.assoc _ _).mpr hn)
    have hsize := hvalid.size_eq (Int.le_of_lt (hpos n hn))
    refine ⟨?_, ?_, ?_⟩
    · exact hs.size ▸ hpos n hn
    · exact hs.size ▸ hsize.2
    · rw [hw']
      exact hs.ends
  · intro k k' a a' ha ha' hne
    obtain ⟨x, hx, rfl, rfl⟩ := hraw ha
    obtain ⟨y, hy, rfl, rfl⟩ := hraw ha'
    have hsymm : Std.Symm fun x y : RawNode K => x.val + x.size.toNat ≤ y.val ∨
        y.val + y.size.toNat ≤ x.val := ⟨fun _ _ => Or.symm⟩
    have hboth : raws.Pairwise fun x y => x.val + x.size.toNat ≤ y.val ∨
        y.val + y.size.toNat ≤ x.val := hapart.imp Or.inl
    exact hboth.forall hx hy fun he => hne (congrArg RawNode.key he)
  · funext k
    cases ha : f k with
    | some a =>
        obtain ⟨x, hx, hs⟩ := same_left hsame ⟨k, a⟩ ((hf.assoc k a).mp ha)
        have hx' : f' k = some ⟨x.size, .pool x.val⟩ :=
          (hf'.assoc _ _).mpr (List.mem_map.mpr ⟨x, hx, congrArg (HashMap.Node.mk · _) hs.key⟩)
        rw [contents_some view ha, contents_some view hx']
        have harray : w'.array ⟨x.size, .pool x.val⟩ = w.array a := by
          change Patch.slice w'.m_values x.val x.size.toNat = _
          rw [hw']
          exact hs.values
        rw [harray, hs.size]
    | none =>
        have hnone : f' k = none := by
          refine Option.eq_none_iff_forall_ne_some.mpr fun a ha' => ?_
          obtain ⟨x, hx, rfl, -⟩ := hraw ha'
          obtain ⟨n, hn, hs⟩ := same_right hsame x hx
          exact hf.none_iff.mp ha n hn hs.key.symm
        rw [contents, contents, ha, hnone]
        rfl

end Loaded

/-! ## Containers with their memory -/

namespace Store

section

variable {K V X : Type} [LinearOrder K]

/-- Where there are buckets they hold the nodes, each with an array of its own place. -/
def Sound (hash : K → UInt32) (s : Store K V) : Prop :=
  ∀ p, s.pooled = some p → ∃ f, HashMap.Holds hash p.map f ∧ Owned p.mem f

/-- Each key has at least one value. -/
def Filled (hash : K → UInt32) (s : Store K V) : Prop :=
  ∀ p k a, s.pooled = some p → p.map.get hash k = some a → p.mem.array a ≠ []

omit [LinearOrder K] in
/-- The container is in a memory of `2 ^ 64` bytes. -/
structure InMemory (sizeofV sizeofNode : Nat) (s : Store K V) : Prop where
  buckets : s.members.m_size < 18446744073709551616
  nodes : ∀ ns, s.members.entries = some ns → ns.length * sizeofNode < 18446744073709551616
  values : ∀ ns, s.members.entries = some ns →
    (ns.map fun n => (s.mem.array n.val).length).sum * sizeofV < 18446744073709551616

/-- What is found under the keys, nothing where there are no buckets. -/
def shown (hash : K → UInt32) (view : Int → List V → X) (s : Store K V) (k : K) : Option X :=
  s.pooled.bind fun p => (p.map.get hash k).map fun a => view a.size (p.mem.array a)

variable {hash : K → UInt32} {s t : Store K V} {p : Pooled K V}

omit [LinearOrder K] in
theorem of_pooled (h : s.pooled = some p) :
    s.members.map = some p.map ∧ p.m_elements = s.members.m_elements ∧ p.mem = s.mem := by
  obtain ⟨m, hm, rfl⟩ := Option.map_eq_some_iff.mp h
  exact ⟨hm, rfl, rfl⟩

theorem shown_eq (view : Int → List V → X) {g : K → Option X} (h : s.pooled = some p)
    (hg : p.Shows hash view g) :
    s.shown hash view = g := by
  funext k
  rw [shown, h, hg.get k]
  rfl

/-- A container can free its arrays. -/
theorem Sound.freeDatas (h : t.Sound hash) (skip : Bool) :
    ∃ t', t.freeDatas skip = some t' := by
  unfold Store.freeDatas
  cases hdatas : t.members.m_datas with
  | none => exact ⟨t, rfl⟩
  | some datas =>
      suffices hall : (∀ n ∈ (List.range t.members.m_size).flatMap datas, t.mem.Valid n.val) ∧
          ((List.range t.members.m_size).flatMap datas).Pairwise fun m n =>
            m.val.Apart n.val by
        obtain ⟨w', hw', -⟩ := Memory.release_all skip hall.1 hall.2
        dsimp only
        rw [hw']
        exact ⟨_, rfl⟩
      by_cases hsize : t.members.m_size = 0
      · rw [hsize]
        exact ⟨nofun, .nil⟩
      have hmap : t.members.map = some ⟨t.members.m_size, t.members.m_total, datas⟩ := by
        rw [Members.map, if_neg hsize, hdatas]
        rfl
      have hp : t.pooled =
          some ⟨⟨t.members.m_size, t.members.m_total, datas⟩, t.members.m_elements, t.mem⟩ := by
        rw [pooled, hmap]
        rfl
      obtain ⟨f, hholds, howned⟩ := h _ hp
      refine ⟨fun n hn => howned.valid _ _ ((hholds.nodes.assoc _ _).mpr hn), ?_⟩
      refine (List.pairwise_map.mp hholds.nodes.once).imp_of_mem fun hm hn hne => ?_
      exact howned.apart _ _ _ _ ((hholds.nodes.assoc _ _).mpr hm)
        ((hholds.nodes.assoc _ _).mpr hn) hne

end

section RoundTrip

variable {K V X Is : Type} [LinearOrder K] [Inhabited K] [Inhabited V] {r : Helpers Is}
  {w : Writers Is} {hash : K → UInt32} {s t t' : Store K V}
  {sizeofV sizeofNode : Nat} {reset : Load (Members K Slot V × Is) Unit}
  {count : Nat → HashMap.Node K Slot → Nat} {e : Nat → Nat} {skip : Bool} {is : Is}

/-- What the two containers have in common when they are written and read. -/
structure Streams (r : Helpers Is) (w : Writers Is) (K V : Type) (sizeofV sizeofNode : Nat) :
    Prop where
  reads : Reads r w
  values : ReadsArrays r w V sizeofV
  nodes : ReadsArrays r w (RawNode K) sizeofNode
  sizeofV_pos : 0 < sizeofV
  sizeofNode_pos : 0 < sizeofNode

/-- What a load does to `m_elements` before it counts. -/
def Resets (reset : Load (Members K Slot V × Is) Unit) (e : Nat → Nat) : Prop :=
  ∀ m is, reset (m, is) = some (some (), { m with m_elements := e m.m_elements }, is)

/-- The container a load leaves of an array and entries with offsets. -/
def loaded (hash : K → UInt32) (size elements : Nat) (vs : List V) (raws : List (RawNode K))
    (s : Store K V) : Store K V :=
  { s with members := Members.loaded hash size elements vs (raws.map RawNode.slot) }

theorem readFrom_written (h : Streams r w K V sizeofV sizeofNode)
    (hreset : Resets reset e)
    (hfree : t.freeDatas skip = some t') {size : Nat} {vs : List V} {raws : List (RawNode K)}
    (hsize : size < 18446744073709551616) (hvs : vs.length * sizeofV < 18446744073709551616)
    (hraws : raws.length * sizeofNode < 18446744073709551616) (hnone : size = 0 → raws = [])
    (speed speed' : Nat) :
    t.readFrom r hash skip reset count sizeofV sizeofNode speed'
        (w.writeWord size (w.writeWord (vs.length * sizeofV)
          (writeFix w speed vs (vs.length * sizeofV) (w.writeWord (raws.length * sizeofNode)
            (writeFix w speed raws (raws.length * sizeofNode) is))))) =
      some (true, loaded hash size
        ((raws.map RawNode.slot).foldl count (e t'.members.m_elements)) vs raws t', is) := by
  have hrun : Members.load r hash reset count sizeofV sizeofNode speed' (t'.members,
      w.writeWord size (w.writeWord (vs.length * sizeofV)
        (writeFix w speed vs (vs.length * sizeofV) (w.writeWord (raws.length * sizeofNode)
          (writeFix w speed raws (raws.length * sizeofNode) is))))) =
      some (some (), Members.loaded hash size
        ((raws.map RawNode.slot).foldl count (e t'.members.m_elements)) vs
        (raws.map RawNode.slot), is) := by
    refine (Load.bind_ok (readSize_written h.reads hsize)).trans ?_
    refine (Load.bind_ok (readWord_written h.reads hvs 0)).trans ?_
    refine (Load.bind_ok (readValues_written h.reads h.values h.sizeofV_pos vs _ _)).trans ?_
    refine (Load.bind_ok (readWord_written h.reads hraws _)).trans ?_
    refine (Load.bind_ok (readNodes_written h.reads h.nodes h.sizeofNode_pos raws _ _)).trans ?_
    rw [Nat.mul_div_cancel _ h.sizeofNode_pos]
    refine (Load.bind_ok (a := ()) rfl).trans ?_
    refine (Load.bind_ok (hreset _ _)).trans ?_
    refine newBuckets_written h.reads (fun hzero => ?_) (List.length_map _).symm
    rw [hnone hzero]
    rfl
  rw [readFrom, hfree, Option.bind_some, returned, hrun]
  rfl

omit [LinearOrder K] [Inhabited K] [Inhabited V] in
/-- What a container writes. -/
theorem writeTo_eq {ns : List (HashMap.Node K Slot)} {vs : List V} {raws : List (RawNode K)}
    (hns : s.members.entries = some ns) (hgather : s.mem.gather skip ns [] = some (vs, raws))
    (hvs : vs.length * sizeofV < 18446744073709551616)
    (hraws : raws.length * sizeofNode < 18446744073709551616) (speed : Nat) (is : Is) :
    s.writeTo w skip sizeofV sizeofNode speed is =
      some (w.writeWord s.members.m_size (w.writeWord (vs.length * sizeofV)
        (writeFix w speed vs (vs.length * sizeofV) (w.writeWord (raws.length * sizeofNode)
          (writeFix w speed raws (raws.length * sizeofNode) is))))) := by
  rw [writeTo, hns, Option.bind_some, hgather, Option.map_some]
  dsimp only
  rw [Nat.mod_eq_of_lt hvs, Nat.mod_eq_of_lt hraws]

/-- The container has buckets, and no array has a negative size. -/
structure Writable (s : Store K V) : Prop where
  size : s.members.m_size ≠ 0
  datas : s.members.m_datas ≠ none
  sizes : ∀ ns, s.members.entries = some ns → ∀ n ∈ ns, 0 ≤ n.val.size

omit [LinearOrder K] [Inhabited K] [Inhabited V] in
theorem Writable.pooled (h : s.Writable) : ∃ p, s.pooled = some p := by
  obtain ⟨datas, hdatas⟩ := Option.ne_none_iff_exists'.mp h.datas
  refine ⟨⟨⟨s.members.m_size, s.members.m_total, datas⟩, s.members.m_elements, s.mem⟩, ?_⟩
  rw [Store.pooled, Members.map, if_neg h.size, hdatas]
  rfl

/-- What is read shows what was written. -/
theorem round_trip (view : Int → List V → X) (h : Streams r w K V sizeofV sizeofNode)
    (hreset : Resets reset e)
    (hs : s.Sound hash) (hne : s.Filled hash) (hw : s.Writable)
    (hm : s.InMemory sizeofV sizeofNode) (ht : t.Sound hash) (speed speed' : Nat) (is : Is) :
    ∃ out t' p' n, ∃ raws : List (RawNode K),
      s.writeTo w skip sizeofV sizeofNode speed is = some out ∧
      t.readFrom r hash skip reset count sizeofV sizeofNode speed' out = some (true, t', is) ∧
      t'.pooled = some p' ∧ p'.Shows hash view (s.shown hash view) ∧
      t'.members.m_total = s.members.m_total ∧
      p'.m_elements = (raws.map RawNode.slot).foldl count (e n) ∧
      ∀ ns, s.members.entries = some ns →
        raws.map RawNode.size = ns.map fun n => ((s.mem.array n.val).length : Int) := by
  obtain ⟨p, hp⟩ := hw.pooled
  obtain ⟨hmap, -, hmem⟩ := of_pooled hp
  have hns := Members.entries_of_map hmap
  obtain ⟨f, hholds, howned⟩ := hs p hp
  have hcontents := (shown_eq view hp ⟨f, hholds, howned, rfl⟩).symm
  rw [hmem] at howned hcontents
  have hvalid : ∀ n ∈ p.map.nodes, s.mem.Valid n.val ∧ s.mem.array n.val ≠ [] := by
    intro n hn
    have hf := (hholds.nodes.assoc n.key n.val).mpr hn
    refine ⟨howned.valid _ _ hf, ?_⟩
    rw [← hmem]
    exact hne p n.key n.val hp (by rw [hholds.get_eq]; exact hf)
  have hsize : ∀ n ∈ p.map.nodes, n.val.size = (s.mem.array n.val).length ∧ 0 < n.val.size := by
    intro n hn
    obtain ⟨hv, hne⟩ := hvalid n hn
    have heq := (hv.size_eq (hw.sizes _ hns n hn)).1
    have hlen := List.length_pos_iff.mpr hne
    exact ⟨heq, by omega⟩
  obtain ⟨vs, raws, hgather, hsame, -, hapart, hsum⟩ := Memory.gather_spec skip
    (fun n hn => ⟨(hvalid n hn).1, (hsize n hn).2⟩) ([] : List V)
  rw [List.nil_append] at hgather hsame
  have hvs : vs.length * sizeofV < 18446744073709551616 := by
    rw [hsum]
    exact hm.values _ hns
  have hraws : raws.length * sizeofNode < 18446744073709551616 := by
    rw [← hsame.length_eq]
    exact hm.nodes _ hns
  obtain ⟨t₁, hfree⟩ := ht.freeDatas skip
  let elements := (raws.map RawNode.slot).foldl count (e t₁.members.m_elements)
  obtain ⟨f', hf', howned', hcontents'⟩ := loaded_owned view ⟨vs, t₁.heap, t₁.next⟩ hholds.nodes
    howned (fun n hn => (hsize n hn).2) hsame hapart rfl
  obtain ⟨map, hmap', hholds'⟩ := Members.loaded_map hash elements vs hw.size hf'
  refine ⟨_, loaded hash s.members.m_size elements vs raws t₁,
    ⟨map, elements, ⟨vs, t₁.heap, t₁.next⟩⟩, _, raws,
    writeTo_eq hns hgather hvs hraws speed is,
    readFrom_written h hreset hfree hm.buckets hvs hraws (fun hzero => absurd hzero hw.size) speed
      speed', ?_, ⟨f', hholds', howned', hcontents'.trans hcontents⟩, ?_, rfl, ?_⟩
  · rw [Store.pooled]
    exact (congrArg (Option.map _) hmap').trans rfl
  · change (raws.map RawNode.slot).length = _
    rw [List.length_map, ← hsame.length_eq, ← (Members.of_map hmap).2]
    exact hholds.total.symm
  · intro ns hns'
    rw [hns] at hns'
    cases hns'
    exact (same_sizes hsame).trans (List.map_congr_left fun n hn => (hsize n hn).1)

/-- A container without buckets is read as one. -/
theorem read_without_buckets (h : Streams r w K V sizeofV sizeofNode)
    (hreset : Resets reset e)
    (hs : s.members.m_size = 0) (ht : t.Sound hash) {speed speed' : Nat} {out is' : Is} {b : Bool}
    (hwrite : s.writeTo w skip sizeofV sizeofNode speed is = some out)
    (hread : t.readFrom r hash skip reset count sizeofV sizeofNode speed' out =
      some (b, t', is')) : t'.pooled = none := by
  obtain ⟨t₁, hfree⟩ := ht.freeDatas skip
  have hzero : ∀ {α : Type} (sizeof : Nat),
      ([] : List α).length * sizeof < 18446744073709551616 := by
    intro α sizeof
    rw [List.length_nil, Nat.zero_mul]
    decide
  rw [writeTo_eq (if_pos hs) rfl (hzero _) (hzero _), hs] at hwrite
  rw [← Option.some.inj hwrite, readFrom_written h hreset hfree (by decide) (hzero _) (hzero _)
    fun _ => rfl] at hread
  obtain ⟨-, he⟩ := Prod.mk.inj (Option.some.inj hread)
  rw [← (Prod.mk.inj he).1, pooled]
  exact congrArg (Option.map _) Members.loaded_map_none

omit [LinearOrder K] [Inhabited K] [Inhabited V] in
/-- A container with a number of buckets is written only if it has them, and no array has a
negative size. -/
theorem writable_of_written {speed : Nat} {out : Is} (hs : s.members.m_size ≠ 0)
    (hwrite : s.writeTo w skip sizeofV sizeofNode speed is = some out) : s.Writable := by
  obtain ⟨ns, hns, hwrite⟩ := Option.bind_eq_some_iff.mp hwrite
  obtain ⟨a, hgather, -⟩ := Option.map_eq_some_iff.mp hwrite
  refine ⟨hs, ?_, ?_⟩
  · intro hnull
    rw [Members.entries, if_neg hs, hnull] at hns
    cases hns
  · intro ns' hns' n hn
    rw [hns] at hns'
    cases hns'
    by_contra hneg
    rw [Memory.gather_none skip hn (Int.not_le.mp hneg)] at hgather
    cases hgather

end RoundTrip

end Store

end CIM.ds
