import CIM.Ds.DictRuns
import CIM.Ds.HashMultimap

/-!
# Loading a container from a stream

The three containers load alike. The old buckets are freed before the first word is read, and
every early return leaves the pointer to the buckets null.
-/
namespace CIM.ds

/-- The steps of a load in order. A step has no result where it is undefined; otherwise it goes on
with a value, or the load returns false with the state it has reached. -/
def Load (S α : Type) : Type := S → Option (Option α × S)

namespace Load

variable {S α β : Type}

instance : Monad (Load S) where
  pure a s := some (some a, s)
  bind x f s := (x s).bind fun r =>
    match r.1 with
    | none => some (none, r.2)
    | some a => f a r.2

/-- `break`, or what is caught. -/
def fail : Load S α := fun s => some (none, s)

def modify (f : S → S) : Load S Unit := fun s => some (some (), f s)

/-- The load goes on with `a` where a helper returned true; none is a helper that threw. -/
def require (b : Option Bool) (a : α) : Load S α := if b = some true then pure a else fail

/-- The steps keep `P`, also where the load returns false. -/
def Keeps (P : S → Prop) (x : Load S α) : Prop := ∀ s r, P s → x s = some r → P r.2

/-- Where the load returns false, `P` holds. -/
def FailsIn (P : S → Prop) (x : Load S α) : Prop :=
  ∀ s s', P s → x s = some (none, s') → P s'

variable {P : S → Prop} {x : Load S α} {f : α → Load S β}

theorem require_state {b : Option Bool} {a : α} {s : S} {r : Option α × S}
    (h : require b a s = some r) : r.2 = s := by
  unfold require at h
  split at h <;> rw [← Option.some.inj h]

theorem keeps_modify {g : S → S} (h : ∀ s, P s → P (g s)) : Keeps P (modify g) := by
  rintro s r hs he
  rw [← Option.some.inj he]
  exact h s hs

theorem Keeps.bind_failsIn (h : Keeps P x) (hf : ∀ a, FailsIn P (f a)) : FailsIn P (x >>= f) := by
  rintro s s' hs he
  obtain ⟨⟨a, s₁⟩, hx, he⟩ := Option.bind_eq_some_iff.mp he
  have hs₁ : P s₁ := h s (a, s₁) hs hx
  cases a with
  | none => rw [← (Prod.mk.inj (Option.some.inj he)).2]; exact hs₁
  | some a => exact hf a s₁ s' hs₁ he

theorem Keeps.bind (h : Keeps P x) (hf : ∀ a, Keeps P (f a)) : Keeps P (x >>= f) := by
  rintro s r hs he
  obtain ⟨⟨a, s₁⟩, hx, he⟩ := Option.bind_eq_some_iff.mp he
  have hs₁ : P s₁ := h s (a, s₁) hs hx
  cases a with
  | none => rw [← Option.some.inj he]; exact hs₁
  | some a => exact hf a s₁ r hs₁ he

end Load

/-- The helpers that read, and the memory; they are not part of the repository. The number and the
array are what the variable holds afterwards, also where the helper returns false or throws (none).
Writing beyond the array is undefined. -/
structure Helpers (Is : Type) : Type 1 where
  readFromStream : Is → Nat → Option Bool × Nat × Is
  readFixFromStream : {α : Type} → Is → List α → Nat → Option (Option Bool × List α × Is)
  readFixFromStreamWithSpeed :
    {α : Type} → Is → List α → Nat → Nat → Option (Option Bool × List α × Is)
  /-- Whether an array of so many entries of so many bytes can be had; `new` and `resize` throw
  where it cannot. One more entry in a bucket always can. -/
  allocates : Nat → Nat → Bool

/-- The members of a container; `m_datas` is none where the pointer is null. `m_values` and
`m_elements` stay empty in a container that has no such member. -/
structure Members (K V E : Type) where
  m_size : Nat
  m_total : Nat
  m_elements : Nat
  m_values : List E
  m_datas : Option (Nat → List (HashMap.Node K V))

namespace Members

variable {K V E : Type} [LinearOrder K] (hash : K → UInt32)

/-- What a lookup finds in the buckets; undefined where the pointer is null or there are none. -/
def lookup {R : Type} (s : Members K V E) (f : HashMap K V → R) : Option R :=
  s.m_datas.bind fun datas =>
    if s.m_size = 0 then none else some (f ⟨s.m_size, s.m_total, datas⟩)

def get (s : Members K V E) (k : K) : Option (Option V) := s.lookup fun m => m.get hash k

def exists_ (s : Members K V E) (k : K) : Option Bool := s.lookup fun m => m.exists_ hash k

/-- The container can be asked for a key. -/
def Answers (s : Members K V E) : Prop := s.m_datas ≠ none ∧ s.m_size ≠ 0

/-- Every question has the answer it had. -/
structure SameAnswers (s s' : Members K V E) : Prop where
  get : ∀ k, s'.get hash k = s.get hash k
  exists_ : ∀ k, s'.exists_ hash k = s.exists_ hash k
  total : s'.m_total = s.m_total
  elements : s'.m_elements = s.m_elements

variable {hash} {s s' : Members K V E}

/-- Where the pointer is null no question has an answer. -/
theorem Answers.not_sameAnswers [Inhabited K] (h : s.Answers) (hs' : s'.m_datas = none) :
    ¬ s.SameAnswers hash s' := by
  intro hsame
  have hnone : s'.get hash default = none := by rw [get, lookup, hs', Option.bind_none]
  rw [hsame.get] at hnone
  obtain ⟨datas, hdatas⟩ := Option.ne_none_iff_exists'.mp h.1
  rw [get, lookup, hdatas, Option.bind_some, if_neg h.2] at hnone
  cases hnone

end Members

/-- The members of a map, or of a dictionary that was not loaded, between its calls. -/
def HashMap.members {K V E : Type} (m : HashMap K V) : Members K V E :=
  ⟨m.m_size, m.m_total, 0, [], some m.m_datas⟩

/-- Between its calls a map answers for every key. -/
theorem HashMap.Holds.members_get {K V E : Type} [LinearOrder K] {hash : K → UInt32}
    {m : HashMap K V} {f : K → Option V} (h : HashMap.Holds hash m f) (k : K) :
    (m.members : Members K V E).Answers ∧
      (m.members : Members K V E).get hash k = some (f k) := by
  have hsize : m.m_size ≠ 0 := Nat.ne_of_gt h.size
  refine ⟨⟨Option.some_ne_none _, hsize⟩, ?_⟩
  rw [← h.get_eq k]
  exact if_neg hsize

def HashMultimap.members {K V : Type} (m : HashMultimap K V) : Members K (Values V) V where
  m_size := m.map.m_size
  m_total := m.map.m_total
  m_elements := m.m_elements
  m_values := []
  m_datas := some fun i => (m.map.m_datas i).map fun n => ⟨n.key, n.val.length, n.val⟩

theorem HashMap.Holds.multimap_members {K V : Type} [LinearOrder K] {hash : K → UInt32}
    {m : HashMultimap K V} {f : K → Option (List V)} (h : HashMap.Holds hash m.map f) :
    m.members.Answers :=
  ⟨Option.some_ne_none _, Nat.ne_of_gt h.size⟩

/-- `struct Node` as it stands in a stream: the pointer is the place of the array in `m_values`. -/
structure RawNode (K : Type) where
  key : K
  size : Int
  val : Nat

instance {K : Type} [Inhabited K] : Inhabited (RawNode K) := ⟨⟨default, 0, 0⟩⟩

/-- `freeDatas(m_datas, m_size)`. -/
def freeDatas {K V E Is : Type} : Load (Members K V E × Is) Unit :=
  .modify fun s => ({ s.1 with m_datas := none }, s.2)

section ReadFrom

variable {K V E Is : Type} (r : Helpers Is)

/-- `ReadFromStream(is, m_size)`. -/
def readSize : Load (Members K V E × Is) Unit := fun s =>
  let (ok, size, is) := r.readFromStream s.2 s.1.m_size
  Load.require ok () ({ s.1 with m_size := size }, is)

/-- `ReadFromStream(is, size)` on the local `size`. -/
def readWord (size : Nat) : Load (Members K V E × Is) Nat := fun s =>
  let (ok, size, is) := r.readFromStream s.2 size
  Load.require ok size (s.1, is)

/-- The read with the `speed` the caller chose; `(uint64_t)-1` stands for none. -/
def readFix {α : Type} (speed : Nat) (is : Is) (a : List α) (size : Nat) :
    Option (Option Bool × List α × Is) :=
  if speed = 18446744073709551615 then r.readFixFromStream is a size
  else r.readFixFromStreamWithSpeed is a size speed

/-- `vs.resize(size / sizeof(V))` and the read into `vs`, which is `m_values`. -/
def readValues [Inhabited E] (sizeofV speed size : Nat) : Load (Members K V E × Is) Unit := fun s =>
  let n := size / sizeofV
  if r.allocates n sizeofV then
    let vs := s.1.m_values.take n ++ List.replicate (n - s.1.m_values.length) default
    (readFix r speed s.2 vs size).bind fun (ok, vs, is) =>
      Load.require ok () ({ s.1 with m_values := vs }, is)
  else some (none, s)

/-- `ns.resize(size / sizeof(Node))` and the read into `ns`. -/
def readNodes {N : Type} [Inhabited N] (sizeofNode speed size : Nat) :
    Load (Members K V E × Is) (List N) := fun s =>
  let n := size / sizeofNode
  if r.allocates n sizeofNode then
    (readFix r speed s.2 (List.replicate n default) size).bind fun (ok, ns, is) =>
      Load.require ok ns (s.1, is)
  else some (none, s)

/-- `m_total = size / sizeof(Node)`. -/
def setTotal (n : Nat) : Load (Members K V E × Is) Unit :=
  .modify fun s => ({ s.1 with m_total := n }, s.2)

/-- `m_values` as it stands. -/
def values : Load (Members K V E × Is) (List E) := fun s => some (some s.1.m_values, s)

/-- `m_elements = 0`. -/
def resetElements : Load (Members K V E × Is) Unit :=
  .modify fun s => ({ s.1 with m_elements := 0 }, s.2)

/-- The pointer to the buckets is null. -/
def Freed (s : Members K V E × Is) : Prop := s.1.m_datas = none

theorem keeps_readSize : (readSize r : Load (Members K V E × Is) Unit).Keeps Freed := by
  intro s a hs he
  rw [Load.require_state he]
  exact hs

theorem keeps_readWord (size : Nat) :
    (readWord r size : Load (Members K V E × Is) Nat).Keeps Freed := by
  intro s a hs he
  rw [Load.require_state he]
  exact hs

theorem keeps_readValues [Inhabited E] (sizeofV speed size : Nat) :
    (readValues r sizeofV speed size : Load (Members K V E × Is) Unit).Keeps Freed := by
  intro s a hs he
  simp only [readValues] at he
  split at he
  · obtain ⟨⟨ok, vs, is⟩, -, he⟩ := Option.bind_eq_some_iff.mp he
    rw [Load.require_state he]
    exact hs
  · rw [← Option.some.inj he]
    exact hs

theorem keeps_readNodes {N : Type} [Inhabited N] (sizeofNode speed size : Nat) :
    (readNodes r sizeofNode speed size : Load (Members K V E × Is) (List N)).Keeps Freed := by
  intro s a hs he
  simp only [readNodes] at he
  split at he
  · obtain ⟨⟨ok, ns, is⟩, -, he⟩ := Option.bind_eq_some_iff.mp he
    rw [Load.require_state he]
    exact hs
  · rw [← Option.some.inj he]
    exact hs

theorem keeps_setTotal (n : Nat) : (setTotal n : Load (Members K V E × Is) Unit).Keeps Freed :=
  Load.keeps_modify fun _ hs => hs

theorem keeps_resetElements : (resetElements : Load (Members K V E × Is) Unit).Keeps Freed :=
  Load.keeps_modify fun _ hs => hs

theorem keeps_values : (values : Load (Members K V E × Is) (List E)).Keeps Freed := by
  intro s a hs he
  rw [← Option.some.inj he]
  exact hs

variable [LinearOrder K]

/-- The new buckets and their entries, sorted; `count` is what an entry does to `m_elements`. A hash
modulo zero is undefined. -/
def newBuckets (hash : K → UInt32) (count : Nat → HashMap.Node K V → Nat)
    (ns : List (HashMap.Node K V)) : Load (Members K V E × Is) Unit := fun s =>
  -- the size of a `std::vector<Node>`
  if !r.allocates s.1.m_size 24 then some (none, s)
  else if s.1.m_size = 0 ∧ ns.length ≠ 0 then none
  else
    let pos := fun k => (hash k).toNat % s.1.m_size
    let datas := HashMap.redistribute pos ns (fun _ => [])
    some (some (), { s.1 with
      m_elements := ns.foldl count s.1.m_elements
      m_datas := some fun i => HashMap.sort (datas i) }, s.2)

/-- The flag a load returns, and the container and the stream afterwards. -/
def returned {S : Type} (x : Load S Unit) (s : S) : Option (Bool × S) :=
  (x s).map fun r => (r.1.isSome, r.2)

/-- `n.val = &vs[0] + (uint64_t)n.val;`, the values from there on. -/
def RawNode.loaded {V : Type} (vs : List V) (n : RawNode K) : HashMap.Node K (Values V) :=
  ⟨n.key, n.size, vs.drop n.val⟩

variable (hash : K → UInt32)

namespace HashMap

instance [Inhabited K] [Inhabited V] : Inhabited (Node K V) := ⟨⟨default, default⟩⟩

/-- `HashMap::readFrom`. -/
def readFrom [Inhabited K] [Inhabited V] (sizeofNode speed : Nat) :
    Members K V Unit × Is → Option (Bool × Members K V Unit × Is) :=
  returned do
    freeDatas
    readSize r
    let size ← readWord r 0
    let ns ← readNodes r sizeofNode speed size
    setTotal (size / sizeofNode)
    newBuckets r hash (fun e _ => e) ns

end HashMap

namespace Dict

/-- `Dict::readFrom`. -/
def readFrom [Inhabited K] [Inhabited V] (sizeofV sizeofNode speed : Nat) :
    Members K (Values V) V × Is → Option (Bool × Members K (Values V) V × Is) :=
  returned do
    freeDatas
    readSize r
    let size ← readWord r 0
    readValues r sizeofV speed size
    let size ← readWord r size
    let ns : List (RawNode K) ← readNodes r sizeofNode speed size
    let vs ← values
    setTotal (size / sizeofNode)
    newBuckets r hash (fun e _ => e) (ns.map (RawNode.loaded vs))

end Dict

namespace HashMultimap

/-- `HashMultimap::readFrom`. -/
def readFrom [Inhabited K] [Inhabited V] (sizeofV sizeofNode speed : Nat) :
    Members K (Values V) V × Is → Option (Bool × Members K (Values V) V × Is) :=
  returned do
    freeDatas
    readSize r
    let size ← readWord r 0
    readValues r sizeofV speed size
    let size ← readWord r size
    let ns : List (RawNode K) ← readNodes r sizeofNode speed size
    let vs ← values
    setTotal (size / sizeofNode)
    resetElements
    newBuckets r hash (fun e n => ((e + n.val.size) % 18446744073709551616).toNat)
      (ns.map (RawNode.loaded vs))

end HashMultimap

theorem returned_false {S : Type} {x : Load S Unit} {s s' : S}
    (h : returned x s = some (false, s')) : x s = some (none, s') := by
  obtain ⟨⟨a, s₁⟩, hx, he⟩ := Option.map_eq_some_iff.mp h
  obtain ⟨ha, rfl⟩ := Prod.mk.inj he
  cases a with
  | none => exact hx
  | some a => cases ha

/-- The last step fails before it stores the new buckets or not at all. -/
theorem newBuckets_failsIn (count : Nat → HashMap.Node K V → Nat) (ns : List (HashMap.Node K V)) :
    (newBuckets r hash count ns : Load (Members K V E × Is) Unit).FailsIn Freed := by
  intro s s' hs he
  simp only [newBuckets] at he
  split at he
  · rw [← (Prod.mk.inj (Option.some.inj he)).2]
    exact hs
  · split at he
    · cases he
    · cases (Prod.mk.inj (Option.some.inj he)).1

omit [LinearOrder K] in
/-- The first step frees the buckets, so a load that fails afterwards leaves none. -/
theorem freed_of_false {x : Unit → Load (Members K V E × Is) Unit} {s s' : Members K V E × Is}
    (hx : (x ()).FailsIn Freed) (h : returned (freeDatas >>= x) s = some (false, s')) :
    Freed s' :=
  hx ({ s.1 with m_datas := none }, s.2) s' rfl (returned_false h)

variable {r} [Inhabited K] [Inhabited V]

theorem HashMap.readFrom_false {sizeofNode speed : Nat} {s s' : Members K V Unit × Is}
    (h : HashMap.readFrom r hash sizeofNode speed s = some (false, s')) : Freed s' := by
  refine freed_of_false ?_ h
  refine (keeps_readSize r).bind_failsIn fun _ => ?_
  refine (keeps_readWord r 0).bind_failsIn fun size => ?_
  refine (keeps_readNodes r sizeofNode speed size).bind_failsIn fun ns => ?_
  exact (keeps_setTotal _).bind_failsIn fun _ => newBuckets_failsIn r hash _ ns

theorem Dict.readFrom_false {sizeofV sizeofNode speed : Nat} {s s' : Members K (Values V) V × Is}
    (h : Dict.readFrom r hash sizeofV sizeofNode speed s = some (false, s')) : Freed s' := by
  refine freed_of_false ?_ h
  refine (keeps_readSize r).bind_failsIn fun _ => ?_
  refine (keeps_readWord r 0).bind_failsIn fun size => ?_
  refine (keeps_readValues r sizeofV speed size).bind_failsIn fun _ => ?_
  refine (keeps_readWord r size).bind_failsIn fun size => ?_
  refine (keeps_readNodes r sizeofNode speed size).bind_failsIn fun ns => ?_
  refine keeps_values.bind_failsIn fun vs => ?_
  exact (keeps_setTotal _).bind_failsIn fun _ => newBuckets_failsIn r hash _ _

theorem HashMultimap.readFrom_false {sizeofV sizeofNode speed : Nat}
    {s s' : Members K (Values V) V × Is}
    (h : HashMultimap.readFrom r hash sizeofV sizeofNode speed s = some (false, s')) :
    Freed s' := by
  refine freed_of_false ?_ h
  refine (keeps_readSize r).bind_failsIn fun _ => ?_
  refine (keeps_readWord r 0).bind_failsIn fun size => ?_
  refine (keeps_readValues r sizeofV speed size).bind_failsIn fun _ => ?_
  refine (keeps_readWord r size).bind_failsIn fun size => ?_
  refine (keeps_readNodes r sizeofNode speed size).bind_failsIn fun ns => ?_
  refine keeps_values.bind_failsIn fun vs => ?_
  refine (keeps_setTotal _).bind_failsIn fun _ => ?_
  exact keeps_resetElements.bind_failsIn fun _ => newBuckets_failsIn r hash _ _

/-- A load that returns false leaves a container of which nothing can be asked, so one that had
answers does not have them any more. -/
theorem readFrom_false_unanswering :
    (∀ sizeofNode speed (s s' : Members K V Unit × Is),
      HashMap.readFrom r hash sizeofNode speed s = some (false, s') → s.1.Answers →
        ¬ s.1.SameAnswers hash s'.1) ∧
    (∀ sizeofV sizeofNode speed (s s' : Members K (Values V) V × Is),
      HashMultimap.readFrom r hash sizeofV sizeofNode speed s = some (false, s') → s.1.Answers →
        ¬ s.1.SameAnswers hash s'.1) ∧
    (∀ sizeofV sizeofNode speed (s s' : Members K (Values V) V × Is),
      Dict.readFrom r hash sizeofV sizeofNode speed s = some (false, s') → s.1.Answers →
        ¬ s.1.SameAnswers hash s'.1) := by
  refine ⟨fun _ _ s s' h ha => ?_, fun _ _ _ s s' h ha => ?_, fun _ _ _ s s' h ha => ?_⟩
  · exact ha.not_sameAnswers (HashMap.readFrom_false hash h)
  · exact ha.not_sameAnswers (HashMultimap.readFrom_false hash h)
  · exact ha.not_sameAnswers (Dict.readFrom_false hash h)

end ReadFrom

/-- A stream of bytes that ends early; no bytes of entries are decoded. -/
def shortStream : Helpers (List UInt8) where
  readFromStream is v :=
    if is.length < 8 then (some false, v, [])
    else (some true, (is.take 8).foldr (fun b n => b.toNat + 256 * n) 0, is.drop 8)
  readFixFromStream is a size :=
    if is.length < size then some (some false, a, []) else some (some true, a, is.drop size)
  readFixFromStreamWithSpeed is a size _ :=
    if is.length < size then some (some false, a, []) else some (some true, a, is.drop size)
  allocates _ _ := true

/-- A map that holds 10 under the key 1. -/
def oneEntry : Members Nat Nat Unit :=
  HashMap.members ⟨2, 1, fun i => if i = 1 then [⟨1, 10⟩] else []⟩

/-- A map that answers is loaded from a stream with two buckets and nothing else. -/
theorem readFrom_false_unanswering_two_buckets :
    ∃ s', HashMap.readFrom shortStream Nat.toUInt32 16 18446744073709551615
        (oneEntry, [2, 0, 0, 0, 0, 0, 0, 0]) = some (false, s') ∧
      oneEntry.Answers ∧ ¬ oneEntry.SameAnswers Nat.toUInt32 s'.1 := by
  obtain ⟨s', hs'⟩ : ∃ s', HashMap.readFrom shortStream Nat.toUInt32 16 18446744073709551615
      (oneEntry, [2, 0, 0, 0, 0, 0, 0, 0]) = some (false, s') := ⟨_, rfl⟩
  have ha : oneEntry.Answers := ⟨Option.some_ne_none _, by decide⟩
  exact ⟨s', hs', ha, (readFrom_false_unanswering Nat.toUInt32).1 _ _ _ _ hs' ha⟩

/-- An empty stream: the key 1 was there, and afterwards it cannot be asked for. -/
theorem readFrom_empty_stream :
    ∃ s', HashMap.readFrom shortStream Nat.toUInt32 16 18446744073709551615
        (oneEntry, []) = some (false, s') ∧
      oneEntry.get Nat.toUInt32 1 = some (some 10) ∧
      s'.1.get Nat.toUInt32 1 = none :=
  ⟨_, rfl, by decide, rfl⟩

end CIM.ds
