import CIM.Ds.HashMultimapRuns

/-!
# The values of the multimap

Which calls keep the values of every key sorted and free of duplicates, and change them as they
should. The values of a key are searched by halving, so what a call leaves unsorted is lost for
the next one.
-/
namespace CIM.ds.HashMultimap

open Transition HashMap

section Values

variable {V : Type} [LinearOrder V] {l : List V} {v : V}

/-- Sorted, and no value twice. -/
def Ascending (l : List V) : Prop := l.Pairwise (· < ·)

/-- Where the second copy of `del` does no harm: there is nothing behind the value, or the bytes
behind the entry and the default value stand by chance for the values that belong there. -/
def Spared [Inhabited V] (l : List V) (i : Nat) (raw : Nat → V) : Prop :=
  i + 1 = l.length ∨
    (∀ j, j < l.length - i - 1 → (l.eraseIdx i)[j]? = some (raw j)) ∧
      ∀ j, max (l.length - i - 1) i ≤ j → j < l.length - 1 →
        (l.eraseIdx i)[j]? = some default

end Values

variable {K V : Type} [LinearOrder K] [LinearOrder V] [Inhabited V]

section Hashed

variable (hash : K → UInt32)

/-- The values of a key; none where the key is not there. -/
def valuesOf (m : HashMultimap K V) (k : K) : Option (List V) := m.map.get hash k

/-- The key has afterwards the values of a set, sorted and without duplicates, and all other keys
have what they had. -/
def Stores (m m' : HashMultimap K V) (k : K) (set : V → Prop) : Prop :=
  (∀ k', k' ≠ k → valuesOf hash m' k' = valuesOf hash m k') ∧
    ∃ l, valuesOf hash m' k = some l ∧ Ascending l ∧ ∀ w, w ∈ l ↔ set w

/-- What a call owes the values. A value that is deleted takes its key with it if it was the only
one. -/
def Right (m m' : HashMultimap K V) : Op K V → Prop
  | .insert k v => Stores hash m m' k fun w => w = v ∨ ∃ l, valuesOf hash m k = some l ∧ w ∈ l
  | .insertAll k vs =>
      Stores hash m m' k fun w => w ∈ vs ∨ ∃ l, valuesOf hash m k = some l ∧ w ∈ l
  | .set k vs => Stores hash m m' k fun w => w ∈ vs
  | .del k => (∀ k', k' ≠ k → valuesOf hash m' k' = valuesOf hash m k') ∧ valuesOf hash m' k = none
  | .delValue k v _ =>
      (∀ k', k' ≠ k → valuesOf hash m' k' = valuesOf hash m k') ∧
        valuesOf hash m' k = (valuesOf hash m k).bind fun l =>
          if l = [v] then none else some (l.filter (· ≠ v))
  | .rehash => ∀ k, valuesOf hash m' k = valuesOf hash m k

/-- The values that a new array is made of are pairwise different, and a value that is deleted is
not there, the only one of its key, or spared by the second copy. -/
def Proper (m : HashMultimap K V) : Op K V → Prop
  | .insertAll k vs => valuesOf hash m k = none → vs.Nodup
  | .set _ vs => vs.Nodup
  | .delValue k v raw => ∀ l i, valuesOf hash m k = some l → searchValue l v = some i →
      l.length = 1 ∨ Spared l i raw
  | _ => True

end Hashed

variable {hash : K → UInt32} {m m' : HashMultimap K V} {f g : K → Option (List V)} {k : K}

section Step

variable (h : HashMap.Holds hash m.map f) (hs : ∀ k l, f k = some l → Ascending l)
include h hs

end Step

end CIM.ds.HashMultimap
