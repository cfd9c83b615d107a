import CIM.Ds.Dict

/-!
# Dictionaries as finite maps of arrays

Runs of calls on one dictionary, from its construction on.
-/
namespace CIM.ds

open Transition

namespace Dict

variable {K V : Type} [LinearOrder K] {hash : K → UInt32} {s s' : Option (Dict K V)}
  {t t' : Option (K → Option (List V))} {out : Outcome V} {op : Op K V}

/-- The calls with what they return, as long as there are fewer than `2 ^ 31` keys. -/
def system (hash : K → UInt32) : System (Option (Dict K V)) (Op K V × Outcome V) where
  init s := s = none
  step s e s' := exec hash s e.1 = some (e.2, s') ∧ ∀ d, s' = some d → d.m_total < 2147483648

def mapSystem (K V : Type) [LinearOrder K] :
    System (Option (K → Option (List V))) (Op K V × Outcome V) where
  init s := s = none
  step s e s' := mapExec s e.1 = some (e.2, s')

/-- A call on the dictionary once it is constructed, with an array whose size is a `uint32_t`. -/
def InDomain (s : Option (Dict K V)) : Op K V → Prop
  | .create size => s = none ∧ 1 ≤ size.toNat
  | .insert _ v => (∃ d, s = some d) ∧ v.length < 4294967296
  | .get _ | .exists_ _ | .del _ | .rehash => ∃ d, s = some d

/-- The sizes are absolute values of an `int`. -/
def Sized : Op K V → Prop
  | .create size => size.toNat ≠ 2147483648
  | .insert _ v => v.length < 2147483648
  | _ => True

def Guard (s : Option (Dict K V)) (e : Op K V × Outcome V) : Prop := InDomain s e.1 ∧ Sized e.1

structure Refines (hash : K → UInt32) (s : Option (Dict K V)) (t : Option (K → Option (List V))) :
    Prop where
  holds : Option.Rel (Holds hash) s t
  bound : ∀ d, s = some d → d.m_total < 2147483648

theorem Refines.of_some {d : Dict K V} (h : Refines hash s t) (hs : s = some d) :
    ∃ f, t = some f ∧ Holds hash d f := by
  have hrel := h.holds
  rw [hs] at hrel
  cases t with
  | none => cases hrel
  | some f =>
      cases hrel with
      | some hf => exact ⟨f, rfl, hf⟩

theorem created {size : UInt32} {d : Dict K V} (hc : create size = some d) :
    Holds hash d fun _ => none :=
  ⟨HashMap.Holds.created hc, nofun⟩

theorem exec_insert {d d' : Dict K V} {k : K} {v : List V} (hs : s = some d)
    (hr : insert hash d k v = some d') :
    exec hash s (.insert k v) = some (.flag true, some d') :=
  Option.bind_eq_some_iff.mpr ⟨d, hs, Option.bind_eq_some_iff.mpr ⟨d', hr, rfl⟩⟩

theorem exec_get {d : Dict K V} {k : K} {v : List V} (hs : s = some d)
    (hr : get hash d k = some v) : exec hash s (.get k) = some (.values v, s) :=
  Option.bind_eq_some_iff.mpr ⟨d, hs, Option.bind_eq_some_iff.mpr ⟨v, hr, rfl⟩⟩

/-- A call of the domain with such sizes returns. -/
theorem Refines.defined (h : Refines hash s t) (hop : InDomain s op) (hsized : Sized op) :
    ∃ r, exec hash s op = some r := by
  cases op with
  | create size =>
      obtain ⟨hs, h1⟩ := hop
      obtain ⟨d, hc⟩ := Option.isSome_iff_exists.mp
        ((HashMap.create_isSome (K := K) (V := Values V) h1).mpr hsized)
      simp only [exec, hs]
      exact ⟨_, Option.map_eq_some_iff.mpr ⟨d, hc, rfl⟩⟩
  | insert k v =>
      obtain ⟨⟨d, hs⟩, -⟩ := hop
      obtain ⟨d', hins⟩ := Option.isSome_iff_exists.mp
        (insert_isSome hash (h.bound d hs) k hsized)
      exact ⟨_, exec_insert hs hins⟩
  | get k =>
      obtain ⟨d, hs⟩ := hop
      obtain ⟨f, -, hf⟩ := h.of_some hs
      exact ⟨_, exec_get hs (hf.get_eq k)⟩
  | exists_ k =>
      obtain ⟨d, hs⟩ := hop
      exact ⟨_, Option.bind_eq_some_iff.mpr ⟨d, hs, rfl⟩⟩
  | del k =>
      obtain ⟨d, hs⟩ := hop
      exact ⟨_, Option.bind_eq_some_iff.mpr ⟨d, hs, rfl⟩⟩
  | rehash =>
      obtain ⟨d, hs⟩ := hop
      obtain ⟨d', hr⟩ := Option.isSome_iff_exists.mp
        (HashMap.rehash_isSome hash (h.bound d hs))
      exact ⟨_, Option.bind_eq_some_iff.mpr
        ⟨d, hs, Option.bind_eq_some_iff.mpr ⟨d', hr, rfl⟩⟩⟩

end Dict

end CIM.ds
