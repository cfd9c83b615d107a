import CIM.Ds.PersistenceRuns

/-!
# The containers that there are

A container is constructed, called, written and read. In all of its states but those after a load
that failed its nodes have the arrays they point to.
-/
namespace CIM.ds

/-- A container with buckets. -/
def Pooled.toStore {K V : Type} (p : Pooled K V) : Store K V :=
  ⟨⟨p.map.m_size, p.map.m_total, p.m_elements, p.mem.m_values, some p.map.m_datas⟩, p.mem.heap,
    p.mem.next⟩

theorem Pooled.of_toStore {K V : Type} {p q : Pooled K V} (h : p.toStore.pooled = some q) :
    q = p := by
  obtain ⟨m, hm, rfl⟩ := Option.map_eq_some_iff.mp h
  unfold Members.map at hm
  split at hm
  · cases hm
  · rw [← Option.some.inj hm]
    rfl

section Failed

variable {K V Is : Type} [LinearOrder K] [Inhabited K] [Inhabited V] {r : Helpers Is}
  {hash : K → UInt32} {reset : Load (Members K Slot V × Is) Unit}
  {count : Nat → HashMap.Node K Slot → Nat} {skip : Bool} {sizeofV sizeofNode speed : Nat}
  {t t' : Store K V} {is is' : Is}

omit [LinearOrder K] [Inhabited K] [Inhabited V] in
theorem Store.freeDatas_null (h : t.freeDatas skip = some t') : t'.members.m_datas = none := by
  unfold Store.freeDatas at h
  split at h
  · rename_i hnull
    rw [← Option.some.inj h]
    exact hnull
  · obtain ⟨w, -, rfl⟩ := Option.map_eq_some_iff.mp h
    rfl

/-- A load that returns false leaves no buckets. -/
theorem Store.readFrom_false (hreset : reset.Keeps Freed)
    (h : t.readFrom r hash skip reset count sizeofV sizeofNode speed is = some (false, t', is')) :
    t'.pooled = none := by
  obtain ⟨t₁, hfree, h⟩ := Option.bind_eq_some_iff.mp h
  obtain ⟨⟨b, m, is₁⟩, hrun, he⟩ := Option.map_eq_some_iff.mp h
  cases he
  have hnull : m.m_datas = none := by
    suffices hfails :
        (Members.load r hash reset count sizeofV sizeofNode speed).FailsIn Freed from
      hfails (t₁.members, is) _ (Store.freeDatas_null hfree) (returned_false hrun)
    refine (keeps_readSize r).bind_failsIn fun _ => ?_
    refine (keeps_readWord r 0).bind_failsIn fun size => ?_
    refine (keeps_readValues r sizeofV speed size).bind_failsIn fun _ => ?_
    refine (keeps_readWord r size).bind_failsIn fun size => ?_
    refine (keeps_readNodes r sizeofNode speed size).bind_failsIn fun ns => ?_
    refine (keeps_setTotal _).bind_failsIn fun _ => ?_
    exact hreset.bind_failsIn fun _ => newBuckets_failsIn r hash _ _
  have hmap : m.map = none := by
    rw [Members.map, hnull]
    exact ite_self _
  exact congrArg (Option.map _) hmap

/-- What one container writes and another one reads is shown by that one, unless there were no
buckets. -/
theorem Store.read_shows {X : Type} {w : Writers Is} {s : Store K V} {e : Nat → Nat}
    {speed' : Nat} {out : Is} {b : Bool} (view : Int → List V → X)
    (h : Streams r w K V sizeofV sizeofNode) (hreset : Resets reset e) (hs : s.Sound hash)
    (hne : s.Filled hash) (hm : s.InMemory sizeofV sizeofNode) (ht : t.Sound hash)
    (hwrite : s.writeTo w skip sizeofV sizeofNode speed is = some out)
    (hread : t.readFrom r hash skip reset count sizeofV sizeofNode speed' out =
      some (b, t', is')) :
    t'.pooled = none ∨ s.Writable ∧ ∃ p, t'.pooled = some p ∧
      p.Shows hash view (s.shown hash view) := by
  by_cases hsize : s.members.m_size = 0
  · exact .inl (Store.read_without_buckets h hreset hsize ht hwrite hread)
  · have hw := Store.writable_of_written hsize hwrite
    obtain ⟨out', t₁, p, -, -, hwrite', hread', hp, hshows, -⟩ :=
      Store.round_trip view h hreset hs hne hw hm ht speed speed' is
    cases hwrite.symm.trans hwrite'
    cases hread.symm.trans hread'
    exact .inr ⟨hw, p, hp, hshows⟩

end Failed

section Kept

variable {K V X : Type} [LinearOrder K] {hash : K → UInt32} {view : Int → List V → X}
  {s : Store K V} {p p' : Pooled K V} {g : K → Option X}

theorem Store.sound_of_none (h : s.pooled = none) : s.Sound hash := by
  intro p hp
  rw [h] at hp
  cases hp

theorem Pooled.Shows.sound (h : p.Shows hash view g) (hp : s.pooled = some p) : s.Sound hash := by
  obtain ⟨f, hmap, howned, -⟩ := h
  intro q hq
  rw [hp] at hq
  cases hq
  exact ⟨f, hmap, howned⟩

theorem Pooled.Shows.toStore_sound (h : p.Shows hash view g) : p.toStore.Sound hash := by
  obtain ⟨f, hmap, howned, -⟩ := h
  intro q hq
  rw [Pooled.of_toStore hq]
  exact ⟨f, hmap, howned⟩

theorem Pooled.Shows.of_grow (h : p.Shows hash view g) (he : p.grow hash = some p') :
    p'.Shows hash view g := by
  unfold Pooled.grow at he
  split at he
  · exact (h.rehash he).1
  · rw [← Option.some.inj he]
    exact h

end Kept

section Created

variable {K V : Type} [LinearOrder K] (hash : K → UInt32)

/-- A new container. -/
def Pooled.fresh (m : HashMap K Slot) : Pooled K V := ⟨m, 0, ⟨[], fun _ => none, 0⟩⟩

variable {hash} {m : HashMap K Slot} {size : UInt32}

theorem Pooled.fresh_shows (h : HashMap.create size = some m) :
    (Pooled.fresh m : Pooled K V).Shows hash HashMultimap.values fun _ => none :=
  ⟨_, HashMap.Holds.created h, ⟨nofun, nofun⟩, rfl⟩

end Created

/-! ## Dictionaries -/

namespace Dict

section Reachable

variable {K V Is : Type} [LinearOrder K] [Inhabited K] [Inhabited V] (r : Helpers Is)
  (w : Writers Is) (hash : K → UInt32) (sizeofV sizeofNode : Nat)

/-- The size of an array is a `uint32_t`. -/
def SizedOp : Op K V → Prop
  | .insert _ v => v.length < 4294967296
  | _ => True

/-- A dictionary is constructed, called, and loaded with what one has written, or with bytes that
it does not take. -/
inductive Reachable : Store K V → Prop
  | create {size : UInt32} {m : HashMap K Slot} :
      HashMap.create size = some m → Reachable (Pooled.fresh m).toStore
  | call {s : Store K V} {p p' : Pooled K V} {op : Op K V} {out : Outcome V} :
      Reachable s → s.pooled = some p → SizedOp op → Pooled.exec hash p op = some (out, p') →
      Reachable p'.toStore
  | read {s t t' : Store K V} {speed speed' : Nat} {is is' out : Is} {b : Bool} :
      Reachable s → Reachable t → s.InMemory sizeofV sizeofNode →
      writeTo w sizeofV sizeofNode speed s is = some out →
      Pooled.readFrom r hash sizeofV sizeofNode speed' t out = some (b, t', is') → Reachable t'
  | refused {t t' : Store K V} {speed : Nat} {is is' : Is} :
      Reachable t → Pooled.readFrom r hash sizeofV sizeofNode speed t is = some (false, t', is') →
      Reachable t'

variable {r w hash sizeofV sizeofNode} {s : Store K V} {p p' : Pooled K V}
  {g : K → Option (List V)} {op : Op K V} {out : Outcome V}

omit [Inhabited K] [Inhabited V] in
/-- After a call the nodes still have their arrays, and none is empty. -/
theorem Pooled.exec_shows (h : p.Shows hash HashMultimap.values g)
    (hne : ∀ k l, g k = some l → l ≠ []) (hop : SizedOp op)
    (he : Pooled.exec hash p op = some (out, p')) :
    ∃ g', p'.Shows hash HashMultimap.values g' ∧ ∀ k l, g' k = some l → l ≠ [] := by
  cases op with
  | create size => cases he
  | insert k v =>
      obtain ⟨p₁, hins, he⟩ := Option.map_eq_some_iff.mp he
      cases he
      unfold Pooled.insert at hins
      split at hins
      · rw [← Option.some.inj hins]
        exact ⟨g, h, hne⟩
      · rename_i hlen
        have hkept : ∀ k' l, Function.update g k (some v) k' = some l → l ≠ [] := by
          intro k' l hl
          by_cases hk : k' = k
          · rw [hk, Function.update_self] at hl
            rw [← Option.some.inj hl]
            exact fun hnil => hlen (congrArg List.length hnil)
          · rw [Function.update_of_ne hk] at hl
            exact hne k' l hl
        obtain ⟨p₂, hgrow, hins⟩ := Option.bind_eq_some_iff.mp hins
        have h₂ := h.of_grow hgrow
        cases hk : p₂.map.get hash k with
        | none =>
            rw [hk] at hins
            dsimp only at hins
            split at hins
            · cases hins
            · rw [← Option.some.inj hins]
              exact ⟨_, h₂.push k hop, hkept⟩
        | some a =>
            rw [hk] at hins
            dsimp only at hins
            split at hins
            · rename_i hsize
              obtain ⟨hlt, ha⟩ := h₂.length hk
              have hsame : v.length = (p₂.mem.array a).length :=
                toInt32_inj hop hlt (hsize.symm.trans ha.symm)
              obtain ⟨p₃, hp₃, -, h₃⟩ := h₂.store hk hsame
              rw [← Option.some.inj (hp₃.symm.trans hins)]
              exact ⟨_, h₃, hkept⟩
            · obtain ⟨p₃, hp₃, -, h₃⟩ := h₂.replace hk hop
              rw [← Option.some.inj (hp₃.symm.trans hins)]
              exact ⟨_, h₃, hkept⟩
  | get k =>
      obtain ⟨v, -, he⟩ := Option.map_eq_some_iff.mp he
      cases he
      exact ⟨g, h, hne⟩
  | exists_ k =>
      cases he
      exact ⟨g, h, hne⟩
  | del k =>
      obtain ⟨⟨b, p₁⟩, hdel, he⟩ := Option.map_eq_some_iff.mp he
      cases he
      unfold Pooled.del at hdel
      cases hk : p.map.get hash k with
      | none =>
          rw [hk] at hdel
          cases hdel
          exact ⟨g, h, hne⟩
      | some a =>
          rw [hk] at hdel
          obtain ⟨p₂, hp₂, -, h₂⟩ := h.erase hk
          dsimp only at hdel
          rw [hp₂] at hdel
          cases hdel
          refine ⟨_, h₂, fun k' l hl => ?_⟩
          by_cases hkk : k' = k
          · rw [hkk, Function.update_self] at hl
            cases hl
          · rw [Function.update_of_ne hkk] at hl
            exact hne k' l hl
  | rehash =>
      obtain ⟨p₁, hr, he⟩ := Option.map_eq_some_iff.mp he
      cases he
      exact ⟨g, (h.rehash hr).1, hne⟩

omit [Inhabited K] [Inhabited V] in
theorem shows_of_sound (hs : s.Sound hash) (hne : s.Filled hash) (hp : s.pooled = some p) :
    ∃ g, p.Shows hash HashMultimap.values g ∧ ∀ k l, g k = some l → l ≠ [] := by
  obtain ⟨f, hmap, howned⟩ := hs p hp
  refine ⟨_, ⟨f, hmap, howned, rfl⟩, fun k l hl => ?_⟩
  obtain ⟨a, ha, rfl⟩ := Option.map_eq_some_iff.mp hl
  exact hne p k a hp (by rw [hmap.get_eq]; exact ha)

omit [Inhabited K] [Inhabited V] in
theorem filled_of_shows (h : p.Shows hash HashMultimap.values g)
    (hne : ∀ k l, g k = some l → l ≠ []) (hp : s.pooled = some p) : s.Filled hash := by
  intro q k a hq ha
  rw [hp] at hq
  cases hq
  refine hne k _ ?_
  rw [h.get k, ha]
  rfl

/-- In every state the nodes have arrays, which are not empty. -/
theorem Reachable.sound (h : Store.Streams r w K V sizeofV sizeofNode)
    (hs : Reachable r w hash sizeofV sizeofNode s) : s.Sound hash ∧ s.Filled hash := by
  have hnone : ∀ {t : Store K V}, t.pooled = none → t.Sound hash ∧ t.Filled hash := by
    intro t ht
    refine ⟨Store.sound_of_none ht, fun p k a hp => ?_⟩
    rw [ht] at hp
    cases hp
  have hstore : ∀ {p : Pooled K V} {g}, p.Shows hash HashMultimap.values g →
      (∀ k l, g k = some l → l ≠ []) → p.toStore.Sound hash ∧ p.toStore.Filled hash := by
    intro p g hp hne
    refine ⟨hp.toStore_sound, fun q k a hq => ?_⟩
    rw [Pooled.of_toStore hq]
    intro ha
    exact hne k _ (by rw [hp.get k, ha]; rfl)
  induction hs with
  | create hc => exact hstore (Pooled.fresh_shows hc) nofun
  | call _ hp hop he ih =>
      obtain ⟨g, hg, hne⟩ := shows_of_sound ih.1 ih.2 hp
      obtain ⟨g', hg', hne'⟩ := Pooled.exec_shows hg hne hop he
      exact hstore hg' hne'
  | read _ _ hm hwrite hread ihs iht =>
      rcases Store.read_shows HashMultimap.values h resets ihs.1 ihs.2 hm iht.1 hwrite hread with
        ht' | ⟨hw, p', hp', hshows⟩
      · exact hnone ht'
      · obtain ⟨p, hp⟩ := hw.pooled
        obtain ⟨g, hg, hne⟩ := shows_of_sound ihs.1 ihs.2 hp
        rw [Store.shown_eq HashMultimap.values hp hg] at hshows
        exact ⟨hshows.sound hp', filled_of_shows hshows hne hp'⟩
  | refused _ hread _ =>
      exact hnone (Store.readFrom_false (fun s r hs he => by cases he; exact hs) hread)

end Reachable

end Dict

/-! ## Multimaps -/

namespace HashMultimap

section Reachable

variable {K V Is : Type} [LinearOrder K] [LinearOrder V] [Inhabited K] [Inhabited V]
  (r : Helpers Is) (w : Writers Is) (hash : K → UInt32) (sizeofV sizeofNode : Nat)

/-- A multimap is constructed, called, and loaded with what one with a value under each of its keys
has written, or with bytes that it does not take. -/
inductive Reachable : Store K V → Prop
  | create {size : UInt32} {m : HashMap K Slot} :
      HashMap.create size = some m → Reachable (Pooled.fresh m).toStore
  | call {s : Store K V} {p p' : Pooled K V} {op : Op K V} {b : Bool} :
      Reachable s → s.pooled = some p → Pooled.exec hash p op = some (b, p') →
      Reachable p'.toStore
  | read {s t t' : Store K V} {speed speed' : Nat} {is is' out : Is} {b : Bool} :
      Reachable s → Reachable t → s.Filled hash → s.InMemory sizeofV sizeofNode →
      writeTo w sizeofV sizeofNode speed s is = some out →
      Pooled.readFrom r hash sizeofV sizeofNode speed' t out = some (b, t', is') → Reachable t'
  | refused {t t' : Store K V} {speed : Nat} {is is' : Is} :
      Reachable t → Pooled.readFrom r hash sizeofV sizeofNode speed t is = some (false, t', is') →
      Reachable t'

variable {r w hash sizeofV sizeofNode} {s : Store K V} {p p' : Pooled K V}
  {g : K → Option (List V)} {op : Op K V} {b : Bool} {k : K} {l : List V} {added : Nat}

omit [LinearOrder V] [Inhabited K] [Inhabited V] in
theorem Pooled.replace_shows {a : Slot} (h : p.Shows hash values g)
    (hk : p.map.get hash k = some a) (hl : l.length < 4294967296)
    (he : p.replace hash k a l = some p') : ∃ g', p'.Shows hash values g' := by
  obtain ⟨p₁, hp₁, -, h₁⟩ := h.replace hk hl
  rw [← Option.some.inj (hp₁.symm.trans he)]
  exact ⟨_, h₁⟩

omit [LinearOrder V] [Inhabited K] [Inhabited V] in
theorem Pooled.put_shows (h : p.Shows hash values g) (he : Pooled.put hash p k l added = some p') :
    ∃ g', p'.Shows hash values g' := by
  unfold Pooled.put at he
  split at he
  · rename_i hfits
    cases hk : p.map.get hash k with
    | none =>
        rw [hk] at he
        rw [← Option.some.inj he]
        exact ⟨_, h.push k (fits_lt hfits)⟩
    | some a =>
        rw [hk] at he
        obtain ⟨p₁, hp₁, rfl⟩ := Option.map_eq_some_iff.mp he
        obtain ⟨g', h₁⟩ := Pooled.replace_shows h hk (fits_lt hfits) hp₁
        exact ⟨g', h₁⟩
  · cases he

omit [LinearOrder V] [Inhabited K] [Inhabited V] in
theorem Pooled.erase_shows {a : Slot} (h : p.Shows hash values g)
    (hk : p.map.get hash k = some a) (he : p.erase hash k a = some p') :
    ∃ g', p'.Shows hash values g' := by
  obtain ⟨p₁, hp₁, -, h₁⟩ := h.erase hk
  rw [← Option.some.inj (hp₁.symm.trans he)]
  exact ⟨_, h₁⟩

omit [Inhabited K] in
/-- After a call the nodes still have their arrays. -/
theorem Pooled.exec_shows (h : p.Shows hash values g)
    (he : Pooled.exec hash p op = some (b, p')) : ∃ g', p'.Shows hash values g' := by
  cases op with
  | insert k v =>
      obtain ⟨p₁, hins, he⟩ := Option.map_eq_some_iff.mp he
      cases he
      obtain ⟨p₂, hgrow, hins⟩ := Option.bind_eq_some_iff.mp hins
      have h₂ := h.of_grow hgrow
      unfold Pooled.insertNoRehash at hins
      cases hk : p₂.map.get hash k with
      | none =>
          rw [hk] at hins
          rw [← Option.some.inj hins]
          exact ⟨_, h₂.push k (show 1 < 4294967296 by decide)⟩
      | some a =>
          rw [hk] at hins
          dsimp only at hins
          split at hins
          · obtain ⟨p₃, hp₃, -, h₃⟩ := h₂.store hk List.length_set
            rw [← Option.some.inj (hp₃.symm.trans hins)]
            exact ⟨_, h₃⟩
          · split at hins
            · rename_i hfits
              obtain ⟨p₃, hp₃, rfl⟩ := Option.map_eq_some_iff.mp hins
              obtain ⟨g', h₃⟩ := Pooled.replace_shows h₂ hk (fits_lt hfits) hp₃
              exact ⟨g', h₃⟩
            · cases hins
  | insertAll k vs =>
      obtain ⟨p₁, hins, he⟩ := Option.map_eq_some_iff.mp he
      cases he
      obtain ⟨p₂, hgrow, hins⟩ := Option.bind_eq_some_iff.mp hins
      have h₂ := h.of_grow hgrow
      cases hk : p₂.map.get hash k with
      | none =>
          rw [hk] at hins
          exact Pooled.put_shows h₂ hins
      | some a =>
          rw [hk] at hins
          exact Pooled.put_shows h₂ hins
  | set k vs =>
      obtain ⟨p₁, hins, he⟩ := Option.map_eq_some_iff.mp he
      cases he
      obtain ⟨p₂, hgrow, hins⟩ := Option.bind_eq_some_iff.mp hins
      exact Pooled.put_shows (h.of_grow hgrow) hins
  | del k =>
      replace he : Pooled.del hash p k = some (b, p') := he
      unfold Pooled.del at he
      cases hk : p.map.get hash k with
      | none =>
          rw [hk] at he
          cases he
          exact ⟨g, h⟩
      | some a =>
          rw [hk] at he
          obtain ⟨p₁, hp₁, he⟩ := Option.map_eq_some_iff.mp he
          cases he
          obtain ⟨g', h₁⟩ := Pooled.erase_shows h hk hp₁
          exact ⟨g', h₁⟩
  | delValue k v raw =>
      replace he : Pooled.delValue hash p k v raw = some (b, p') := he
      unfold Pooled.delValue at he
      cases hk : p.map.get hash k with
      | none =>
          rw [hk] at he
          cases he
          exact ⟨g, h⟩
      | some a =>
          rw [hk] at he
          dsimp only at he
          split at he
          · cases he
            exact ⟨g, h⟩
          · rename_i i hsearch
            split at he
            · obtain ⟨p₁, hp₁, he⟩ := Option.map_eq_some_iff.mp he
              cases he
              obtain ⟨g', h₁⟩ := Pooled.erase_shows h hk hp₁
              exact ⟨g', h₁⟩
            · obtain ⟨p₁, hp₁, he⟩ := Option.map_eq_some_iff.mp he
              cases he
              refine Pooled.replace_shows h hk ?_ hp₁
              have hcut := length_cutValue raw (searchValue_lt hsearch)
              have hlt := (h.length hk).1
              omega
  | rehash =>
      obtain ⟨p₁, hr, he⟩ := Option.map_eq_some_iff.mp he
      cases he
      exact ⟨g, (h.rehash hr).1⟩

/-- In every state the nodes have arrays. -/
theorem Reachable.sound (h : Store.Streams r w K V sizeofV sizeofNode)
    (hs : Reachable r w hash sizeofV sizeofNode s) : s.Sound hash := by
  induction hs with
  | create hc => exact (Pooled.fresh_shows hc).toStore_sound
  | call _ hp he ih =>
      obtain ⟨f, hmap, howned⟩ := ih _ hp
      obtain ⟨g', hg'⟩ := Pooled.exec_shows ⟨f, hmap, howned, rfl⟩ he
      exact hg'.toStore_sound
  | read _ _ hne hm hwrite hread ihs iht =>
      rcases Store.read_shows values h resets ihs hne hm iht hwrite hread with
        ht' | ⟨-, p', hp', hshows⟩
      · exact Store.sound_of_none ht'
      · exact hshows.sound hp'
  | refused _ hread _ =>
      exact Store.sound_of_none (Store.readFrom_false keeps_resetElements hread)

end Reachable

end HashMultimap

end CIM.ds
