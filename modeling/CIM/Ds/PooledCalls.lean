import CIM.Ds.Pooled

/-!
# The calls of a container with memory

Whatever a dictionary or a multimap without memory answers, one with memory and the same values
answers as well: no array is freed that was not allocated, and none is read after it was freed.
-/
namespace CIM.ds

theorem toInt32_inj {m n : Nat} (hm : m < 4294967296) (hn : n < 4294967296)
    (h : toInt32 m = toInt32 n) : m = n := by
  unfold toInt32 at h
  rw [Nat.mod_eq_of_lt hm, Nat.mod_eq_of_lt hn] at h
  split at h
  · split at h
    · omega
    · omega
  · split at h
    · omega
    · omega

/-- The size of a node is the length of its array as an `int`. -/
theorem Memory.Valid.length {V : Type} {w : Memory V} {a : Slot} (h : w.Valid a) :
    (w.array a).length < 4294967296 ∧ toInt32 (w.array a).length = a.size := by
  obtain ⟨size, p⟩ := a
  cases p with
  | null => exact h.elim
  | pool offset =>
      obtain ⟨hpos, hint, hle⟩ := h
      change 0 < size at hpos
      change size < 2147483648 at hint
      change offset + size.toNat ≤ w.m_values.length at hle
      have hlen : (w.array ⟨size, .pool offset⟩).length = size.toNat := by
        change (Patch.slice w.m_values offset size.toNat).length = _
        rw [Patch.length_slice]
        omega
      rw [hlen, toInt32_of_lt (by omega)]
      change size.toNat < 4294967296 ∧ (size.toNat : Int) = size
      omega
  | own i =>
      obtain ⟨-, l, hl, hlt, hsize⟩ := h
      have harray : w.array ⟨size, .own i⟩ = l := by
        change (w.heap i).getD [] = l
        rw [hl]
        rfl
      rw [harray]
      exact ⟨hlt, hsize⟩

theorem Pooled.Shows.length {K V X : Type} [LinearOrder K] {hash : K → UInt32}
    {view : Int → List V → X} {s : Pooled K V} {g : K → Option X} {k : K} {a : Slot}
    (h : Pooled.Shows hash view s g) (hk : s.map.get hash k = some a) :
    (s.mem.array a).length < 4294967296 ∧ toInt32 (s.mem.array a).length = a.size := by
  obtain ⟨f, hmap, howned, -⟩ := h
  rw [hmap.get_eq] at hk
  exact (howned.valid k a hk).length

/-! ## Dictionaries -/

namespace Dict

section Calls

variable {K V : Type} [LinearOrder K] (hash : K → UInt32)

namespace Pooled

def insert (s : Pooled K V) (k : K) (v : List V) : Option (Pooled K V) :=
  if v.length = 0 then some s
  else
    (s.grow hash).bind fun s =>
      match s.map.get hash k with
      | none => if toInt32 v.length < 0 then none else some (s.push hash k v)
      | some a => if a.size = toInt32 v.length then s.store a v else s.replace hash k a v

def get (s : Pooled K V) (k : K) : Option (List V) :=
  match s.map.get hash k with
  | none => some []
  | some a => if a.size < 0 then none else some ((s.mem.array a).take a.size.toNat)

def del (s : Pooled K V) (k : K) : Option (Bool × Pooled K V) :=
  match s.map.get hash k with
  | none => some (false, s)
  | some a => (s.erase hash k a).map fun s => (true, s)

def exec (s : Pooled K V) : Op K V → Option (Outcome V × Pooled K V)
  | .create _ => none
  | .insert k v => (insert hash s k v).map fun s => (.flag true, s)
  | .get k => (get hash s k).map fun v => (.values v, s)
  | .exists_ k => some (.flag (s.map.exists_ hash k), s)
  | .del k => (del hash s k).map fun r => (.flag r.1, r.2)
  | .rehash => (s.rehash hash).map fun s => (.done, s)

end Pooled

end Calls

variable {K V : Type} [LinearOrder K] {hash : K → UInt32} {s : Pooled K V} {d d' : Dict K V}
  {g : K → Option (Values V)} {k : K} {v : List V}

end Dict

end CIM.ds
