import CIM.Ds.Persistence

/-!
# Containers that were read

A container that was read answers the calls that follow as one does whose arrays are all its own.
-/
namespace CIM.ds

open Transition

/-! ## Maps -/

namespace HashMap

section Later

variable {K V : Type} [LinearOrder K] {hash : K → UInt32} {s s' t : Maps K V}
  {u : FiniteMaps K V} {op : Op K V} {out : Outcome V}

/-- The calls on one map. -/
def Single : Op K V → Prop
  | .create _ _ | .swap _ _ | .merge _ _ => False
  | _ => True

/-- The calls from a map on, which has the number 0. -/
def later (hash : K → UInt32) (m : HashMap K V) : System (Maps K V) (Op K V × Outcome V) :=
  ((system hash).restrict fun _ e => Single e.1).resume
    (Function.update (fun _ => none) 0 (some m))

theorem Refines.inDomain (h : Refines hash s u) (h' : Refines hash t u) (hop : Single op)
    (hstep : exec hash s op = some (out, s')) : InDomain t op := by
  have hthere : ∀ i m, s i = some m → ∃ m', t i = some m' := by
    intro i m hs
    obtain ⟨f, hu, -⟩ := h.map_some hs
    have hrel := h'.holds i
    rw [hu] at hrel
    cases ht : t i with
    | none => rw [ht] at hrel; cases hrel
    | some m' => exact ⟨m', rfl⟩
  cases op with
  | create i size => exact hop.elim
  | swap i j => exact hop.elim
  | merge i j => exact hop.elim
  | set i k v | get i k | exists_ i k | del i k | rehash i =>
      obtain ⟨m, hs, -⟩ := Option.bind_eq_some_iff.mp hstep
      exact hthere i m hs

/-- Maps that hold the same answer alike. -/
theorem Refines.twin (h : Refines hash s u) (h' : Refines hash t u) (hop : Single op)
    (hstep : exec hash s op = some (out, s'))
    (hb : ∀ i m, s' i = some m → m.m_total < 2147483648) :
    ∃ t' u', exec hash t op = some (out, t') ∧ Refines hash s' u' ∧ Refines hash t' u' := by
  have hdefined : Defined op := by
    cases op with
    | create i size => exact hop.elim
    | _ => trivial
  obtain ⟨⟨out', t'⟩, ht⟩ := Option.isSome_iff_exists.mp
    ((h'.defined (h.inDomain h' hop hstep)).mpr hdefined)
  obtain ⟨u', hmap, hs'⟩ := h.step hstep hb
  obtain ⟨u₁, hmap₁, hholds⟩ := h'.step_holds ht
  obtain ⟨rfl, rfl⟩ := Prod.mk.inj (Option.some.inj (hmap.symm.trans hmap₁))
  refine ⟨t', u', ht, hs', hholds, fun i m' hm' => ?_⟩
  have hrel := hholds i
  have hrel' := hs'.holds i
  rw [hm'] at hrel
  cases hu : u' i with
  | none => rw [hu] at hrel; cases hrel
  | some f =>
      rw [hu] at hrel hrel'
      cases hm : s' i with
      | none => rw [hm] at hrel'; cases hrel'
      | some m =>
          rw [hm] at hrel'
          cases hrel with
          | some hf =>
              cases hrel' with
              | some hf' =>
                  rw [Pooled.total_eq hf hf' fun _ => rfl]
                  exact hb i m hm

/-- What a map returns from now on, another map with the same entries returns. -/
theorem Holds.later {m m' : HashMap K V} {f : K → Option V} (h : Holds hash m f)
    (h' : Holds hash m' f) (ht : m.m_total < 2147483648) {es : List (Op K V × Outcome V)}
    (hr : (later hash m).Run es s) : ∃ s', (HashMap.later hash m').Run es s' := by
  have hone : ∀ {m : HashMap K V}, Holds hash m f → m.m_total < 2147483648 →
      Refines hash (Function.update (fun _ => none) 0 (some m))
        (Function.update (fun _ => none) 0 (some f)) := by
    intro m hm hlt
    refine ⟨rel_update (fun _ => .none) hm 0, fun i m₁ hm₁ => ?_⟩
    by_cases hi : i = 0
    · rw [hi, Function.update_self] at hm₁
      rw [← Option.some.inj hm₁]
      exact hlt
    · rw [Function.update_of_ne hi] at hm₁
      cases hm₁
  obtain ⟨s', hr', -⟩ := hr.simulation (T := HashMap.later hash m')
    (R := fun s t => ∃ u, Refines hash s u ∧ Refines hash t u)
    (by
      rintro s₀ rfl
      exact ⟨_, rfl, _, hone h ht, hone h' (by rw [Pooled.total_eq h' h fun _ => rfl]; exact ht)⟩)
    (by
      rintro s₁ ⟨op, out⟩ s₂ t₁ ⟨u, hs, ht₁⟩ ⟨hop, hstep, hb⟩
      obtain ⟨t₂, u', hexec, hs₂, ht₂⟩ := hs.twin ht₁ hop hstep hb
      exact ⟨t₂, ⟨hop, hexec, ht₂.bound⟩, u', hs₂, ht₂⟩)
  exact ⟨s', hr'⟩

end Later

section Persists

variable {K V Is : Type} [LinearOrder K] [Inhabited K] [Inhabited V] (r : Helpers Is)
  (w : Writers Is) (hash : K → UInt32) (sizeofNode : Nat) (s : Members K V Unit)

/-- What is found under a key, nothing where there are no buckets. -/
def shown (s : Members K V Unit) (k : K) : Option V := s.map.bind fun m => m.get hash k

/-- Where there are buckets they hold the entries. -/
def Sound : Prop := ∀ m, s.map = some m → ∃ f, Holds hash m f

/-- The map is in a memory of `2 ^ 64` bytes. -/
def InMemory : Prop := s.m_size < 18446744073709551616 ∧
  ∀ ns, s.entries = some ns → ns.length * sizeofNode < 18446744073709551616

/-- What is written is read into any map, which has the same entries afterwards, and answers as
every map with these entries does. -/
def Persists : Prop :=
  ∀ (t : Members K V Unit) (speed speed' : Nat) (is : Is), ∃ out t' m',
    writeTo w sizeofNode speed s is = some out ∧
    readFrom r hash sizeofNode speed' (t, out) = some (true, t', is) ∧
    t'.map = some m' ∧ shown hash t' = shown hash s ∧ t'.m_total = s.m_total ∧
    ∀ m es s', Holds hash m (shown hash s) → m.m_total < 2147483648 →
      (later hash m).Run es s' → ∃ s'', (later hash m').Run es s''

variable {r w hash sizeofNode s}

theorem readFrom_written (h : Reads r w) (ha : ReadsArrays r w (Node K V) sizeofNode)
    (hpos : 0 < sizeofNode) {size : Nat} {ns : List (Node K V)}
    (hsize : size < 18446744073709551616) (hns : ns.length * sizeofNode < 18446744073709551616)
    (hnone : size = 0 → ns = []) (t : Members K V Unit) (speed speed' : Nat) (is : Is) :
    readFrom r hash sizeofNode speed' (t, w.writeWord size (w.writeWord (ns.length * sizeofNode)
        (writeFix w speed ns (ns.length * sizeofNode) is))) =
      some (true, Members.loaded hash size (ns.foldl (fun e _ => e) t.m_elements) t.m_values ns,
        is) := by
  suffices hrun : ∀ (x : Load (Members K V Unit × Is) Unit) a b, x a = some (some (), b) →
      returned x a = some (true, b) by
    refine hrun _ _ _ ?_
    refine (Load.bind_ok (a := ()) rfl).trans ?_
    refine (Load.bind_ok (readSize_written h hsize)).trans ?_
    refine (Load.bind_ok (readWord_written h hns 0)).trans ?_
    refine (Load.bind_ok (readNodes_written h ha hpos ns _ _)).trans ?_
    rw [Nat.mul_div_cancel _ hpos]
    refine (Load.bind_ok (a := ()) rfl).trans ?_
    exact newBuckets_written h hnone rfl
  intro x a b hx
  rw [returned, hx]
  rfl

end Persists

end HashMap

/-! ## Dictionaries -/

namespace Dict

section Persists

variable {K V Is : Type} [LinearOrder K] [Inhabited K] [Inhabited V] (r : Helpers Is)
  (w : Writers Is) (hash : K → UInt32) (sizeofV sizeofNode : Nat) (s : Store K V)

/-- The calls from a dictionary on. -/
def later (hash : K → UInt32) (d : Dict K V) : System (Option (Dict K V)) (Op K V × Outcome V) :=
  ((system hash).restrict fun s e => InDomain s e.1).resume (some d)

/-- The calls from a dictionary with memory on. -/
def Pooled.later (hash : K → UInt32) (p : Pooled K V) : System (Pooled K V) (Op K V × Outcome V)
    where
  init p' := p' = p
  step p e p' := Pooled.exec hash p e.1 = some (e.2, p')

/-- What is written is read into any dictionary, which has the same arrays under the same keys
afterwards, and answers as every dictionary with these arrays does. -/
def Persists : Prop :=
  ∀ (t : Store K V) (speed speed' : Nat) (is : Is), t.Sound hash → ∃ out t' p',
    writeTo w sizeofV sizeofNode speed s is = some out ∧
    Pooled.readFrom r hash sizeofV sizeofNode speed' t out = some (true, t', is) ∧
    t'.pooled = some p' ∧ t'.shown hash Values.mk = s.shown hash Values.mk ∧
    t'.members.m_total = s.members.m_total ∧
    ∀ d es d', HashMap.Holds hash d (s.shown hash Values.mk) → d.m_total < 2147483648 →
      (later hash d).Run es d' → ∃ p'', (Pooled.later hash p').Run es p''

variable {r w hash sizeofV sizeofNode s}

omit [LinearOrder K] [Inhabited K] [Inhabited V] in
theorem resets : Store.Resets (pure () : Load (Members K Slot V × Is) Unit) id := fun _ _ => rfl

end Persists

end Dict

/-! ## Multimaps -/

namespace HashMultimap

section Persists

variable {K V Is : Type} [LinearOrder K] [LinearOrder V] [Inhabited K] [Inhabited V]
  (r : Helpers Is) (w : Writers Is) (hash : K → UInt32) (sizeofV sizeofNode : Nat)
  (s : Store K V)

/-- The calls from a multimap on, as long as it has fewer than `2 ^ 31` keys. -/
def later (hash : K → UInt32) (m : HashMultimap K V) :
    System (HashMultimap K V) (Op K V × Bool) :=
  ((system hash).restrict fun m _ => m.map.m_total < 2147483648).resume m

/-- The calls from a multimap with memory on. -/
def Pooled.later (hash : K → UInt32) (p : Pooled K V) : System (Pooled K V) (Op K V × Bool) where
  init p' := p' = p
  step p e p' := Pooled.exec hash p e.1 = some (e.2, p')

/-- What is written is read into any multimap, which has the same values under the same keys
afterwards and counts them, and answers as every multimap with these values does. -/
def Persists : Prop :=
  ∀ (t : Store K V) (speed speed' : Nat) (is : Is), t.Sound hash → ∃ out t' p',
    writeTo w sizeofV sizeofNode speed s is = some out ∧
    Pooled.readFrom r hash sizeofV sizeofNode speed' t out = some (true, t', is) ∧
    t'.pooled = some p' ∧ t'.shown hash values = s.shown hash values ∧
    t'.members.m_total = s.members.m_total ∧
    (∀ ns, s.members.entries = some ns →
      t'.members.m_elements = (ns.map fun n => (s.mem.array n.val).length).sum) ∧
    ∀ m es m', Holds hash m (s.shown hash values) → (later hash m).Run es m' →
      ∃ p'', (Pooled.later hash p').Run es p''

variable {r w hash sizeofV sizeofNode s}

omit [LinearOrder K] [LinearOrder V] [Inhabited K] [Inhabited V] in
theorem resets :
    Store.Resets (resetElements : Load (Members K Slot V × Is) Unit) fun _ => 0 := fun _ _ => rfl

end Persists

end HashMultimap

end CIM.ds
