import CIM.Ds.PooledMultimap

/-!
# Writing a container to a stream

The entries are written in the order of the buckets. A dictionary and a multimap write the values
of all entries as one array first, and in the place of the pointers the offsets in it.
-/
namespace CIM.ds

/-- The helpers that write, and `std::ostream::write`. They are not part of the repository. What is
written stands before what is read after it. -/
structure Writers (Is : Type) : Type 1 where
  writeWord : Nat → Is → Is
  write : {α : Type} → List α → Nat → Is → Is
  writeFixToStreamWithSpeed : {α : Type} → List α → Nat → Nat → Is → Is

section Streams

variable {Is : Type} (r : Helpers Is) (w : Writers Is)

/-- The write with the `speed` the caller chose; `(uint64_t)-1` stands for none. -/
def writeFix {α : Type} (speed : Nat) (a : List α) (size : Nat) (is : Is) : Is :=
  if speed = 18446744073709551615 then w.write a size is
  else w.writeFixToStreamWithSpeed a size speed is

/-- A word that was written is read again, and there is memory enough. -/
structure Reads : Prop where
  word : ∀ n v is, n < 18446744073709551616 →
    r.readFromStream (w.writeWord n is) v = (some true, n, is)
  allocates : ∀ n size, r.allocates n size = true

/-- An array of plain data that was written is read again into an array of the same length. -/
def ReadsArrays (α : Type) (sizeof : Nat) : Prop :=
  ∀ (a b : List α) (speed speed' : Nat) (is : Is), b.length = a.length →
    readFix r speed' (writeFix w speed a (a.length * sizeof) is) b (a.length * sizeof) =
      some (some true, a, is)

end Streams

namespace Members

variable {K V E : Type}

/-- The map of the container; none where the pointer is null or there are no buckets. -/
def map (s : Members K V E) : Option (HashMap K V) :=
  if s.m_size = 0 then none else s.m_datas.map fun datas => ⟨s.m_size, s.m_total, datas⟩

/-- The entries in the order of the buckets; reading buckets through a null pointer is
undefined. -/
def entries (s : Members K V E) : Option (List (HashMap.Node K V)) :=
  if s.m_size = 0 then some []
  else s.m_datas.map fun datas => (List.range s.m_size).flatMap datas

variable {s : Members K V E} {m : HashMap K V}

theorem entries_of_map (h : s.map = some m) : s.entries = some m.nodes := by
  unfold map at h
  split at h
  · cases h
  · rename_i hsize
    obtain ⟨datas, hdatas, rfl⟩ := Option.map_eq_some_iff.mp h
    rw [entries, if_neg hsize, hdatas]
    rfl

theorem of_map (h : s.map = some m) : m.m_size = s.m_size ∧ m.m_total = s.m_total := by
  unfold map at h
  split at h
  · cases h
  · obtain ⟨datas, -, rfl⟩ := Option.map_eq_some_iff.mp h
    exact ⟨rfl, rfl⟩

/-- Entries can be had of buckets or of none at all. -/
theorem map_or_empty {ns : List (HashMap.Node K V)} (h : s.entries = some ns) :
    (∃ m, s.map = some m) ∨ s.m_size = 0 ∧ ns = [] := by
  unfold entries at h
  split at h
  · rename_i hsize
    exact .inr ⟨hsize, (Option.some.inj h).symm⟩
  · rename_i hsize
    obtain ⟨datas, hdatas, -⟩ := Option.map_eq_some_iff.mp h
    refine .inl ⟨⟨s.m_size, s.m_total, datas⟩, ?_⟩
    rw [map, if_neg hsize, hdatas]
    rfl

end Members

/-- A dictionary or a multimap with its memory, also after a load that failed. -/
structure Store (K V : Type) where
  members : Members K Slot V
  heap : Nat → Option (List V)
  next : Nat

namespace Store

variable {K V : Type}

def mem (s : Store K V) : Memory V := ⟨s.members.m_values, s.heap, s.next⟩

/-- The container, where it has buckets. -/
def pooled (s : Store K V) : Option (Pooled K V) :=
  s.members.map.map fun m => ⟨m, s.members.m_elements, s.mem⟩

/-- `freeDatas(m_datas, m_size)`: the arrays of all entries in turn; `skip` tells whether those of
size zero are left. -/
def freeDatas (skip : Bool) (s : Store K V) : Option (Store K V) :=
  match s.members.m_datas with
  | none => some s
  | some datas =>
      (((List.range s.members.m_size).flatMap datas).foldlM
        (fun w n => if skip = true ∧ n.val.size = 0 then some w else w.release n.val.val)
        s.mem).map fun w => ⟨{ s.members with m_datas := none }, w.heap, w.next⟩

end Store

/-- `vs.insert(vs.end(), n.val, n.val + n.size)` for every entry, with the offset of its values for
its pointer. A range that ends before it begins is undefined; `skip` tells whether entries of size
zero are left out. -/
def Memory.gather {K V : Type} (w : Memory V) (skip : Bool) :
    List (HashMap.Node K Slot) → List V → Option (List V × List (RawNode K))
  | [], vs => some (vs, [])
  | n :: ns, vs =>
      if skip = true ∧ n.val.size = 0 then w.gather skip ns vs
      else if n.val.size < 0 then none
      else
        (w.gather skip ns (vs ++ (w.array n.val).take n.val.size.toNat)).map fun a =>
          (a.1, ⟨n.key, n.val.size, vs.length⟩ :: a.2)

section WriteTo

variable {K V Is : Type} (w : Writers Is)

/-- `HashMap::writeTo`, to a stream that stays good. -/
def HashMap.writeTo (sizeofNode speed : Nat) (s : Members K V Unit) (is : Is) : Option Is :=
  s.entries.map fun ns =>
    let size := ns.length * sizeofNode % 18446744073709551616
    w.writeWord s.m_size (w.writeWord size (writeFix w speed ns size is))

/-- `writeTo` of the two containers with arrays. -/
def Store.writeTo (skip : Bool) (sizeofV sizeofNode speed : Nat) (s : Store K V) (is : Is) :
    Option Is :=
  s.members.entries.bind fun ns => (s.mem.gather skip ns []).map fun a =>
    let size := a.1.length * sizeofV % 18446744073709551616
    let size' := a.2.length * sizeofNode % 18446744073709551616
    w.writeWord s.members.m_size (w.writeWord size (writeFix w speed a.1 size
      (w.writeWord size' (writeFix w speed a.2 size' is))))

/-- `Dict::writeTo`. -/
def Dict.writeTo (sizeofV sizeofNode speed : Nat) (s : Store K V) (is : Is) : Option Is :=
  s.writeTo w false sizeofV sizeofNode speed is

/-- `HashMultimap::writeTo`. -/
def HashMultimap.writeTo (sizeofV sizeofNode speed : Nat) (s : Store K V) (is : Is) : Option Is :=
  s.writeTo w true sizeofV sizeofNode speed is

end WriteTo

section ReadFrom

variable {K V Is : Type} [LinearOrder K] [Inhabited K] [Inhabited V] (r : Helpers Is)
  (hash : K → UInt32)

/-- `n.val = &vs[0] + (uint64_t)n.val;`. -/
def RawNode.slot (n : RawNode K) : HashMap.Node K Slot := ⟨n.key, n.size, .pool n.val⟩

/-- What `readFrom` of the two containers with arrays does once the buckets are freed; `reset` and
`count` are what it does to `m_elements`. -/
def Members.load (reset : Load (Members K Slot V × Is) Unit)
    (count : Nat → HashMap.Node K Slot → Nat) (sizeofV sizeofNode speed : Nat) :
    Load (Members K Slot V × Is) Unit := do
  readSize r
  let size ← readWord r 0
  readValues r sizeofV speed size
  let size ← readWord r size
  let ns : List (RawNode K) ← readNodes r sizeofNode speed size
  setTotal (size / sizeofNode)
  reset
  newBuckets r hash count (ns.map RawNode.slot)

def Store.readFrom (skip : Bool) (reset : Load (Members K Slot V × Is) Unit)
    (count : Nat → HashMap.Node K Slot → Nat) (sizeofV sizeofNode speed : Nat) (s : Store K V)
    (is : Is) : Option (Bool × Store K V × Is) :=
  (s.freeDatas skip).bind fun s =>
    (returned (Members.load r hash reset count sizeofV sizeofNode speed) (s.members, is)).map
      fun a => (a.1, { s with members := a.2.1 }, a.2.2)

/-- `Dict::readFrom`, with the memory of the dictionary. -/
def Dict.Pooled.readFrom (sizeofV sizeofNode speed : Nat) (s : Store K V) (is : Is) :
    Option (Bool × Store K V × Is) :=
  s.readFrom r hash false (pure ()) (fun e _ => e) sizeofV sizeofNode speed is

/-- `HashMultimap::readFrom`, with the memory of the multimap. -/
def HashMultimap.Pooled.readFrom (sizeofV sizeofNode speed : Nat) (s : Store K V) (is : Is) :
    Option (Bool × Store K V × Is) :=
  s.readFrom r hash true resetElements
    (fun e n => ((e + n.val.size) % 18446744073709551616).toNat) sizeofV sizeofNode speed is

end ReadFrom

end CIM.ds
