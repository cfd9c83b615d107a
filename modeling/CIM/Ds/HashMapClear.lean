import CIM.Ds.PersistentContainers

/-!
# Hash map after clear

The calls of a map whose members may be those that `clear` leaves: no buckets, and a null pointer
to them. A key is taken modulo the number of buckets, so without buckets its place is undefined.
-/
namespace CIM.ds.HashMap

variable {K V : Type} [LinearOrder K]

/-- The callback of a traversal is given the pairs one by one and tells, from those it has been
given, whether to go on. -/
inductive Call (K V : Type)
  | set (k : K) (v : V)
  | get (k : K)
  | exists_ (k : K)
  | del (k : K)
  | rehash
  | foreach (cb : List (Node K V) → Bool)

inductive Answer (K V : Type)
  | done
  | flag (b : Bool)
  | value (v : Option V)
  | visited (l : List (Node K V))

/-- The pairs that the callback is given. -/
def visit (cb : List (Node K V) → Bool) : List (Node K V) → List (Node K V) → List (Node K V)
  | seen, [] => seen
  | seen, n :: l => if cb (seen ++ [n]) then visit cb (seen ++ [n]) l else seen ++ [n]

section Members

variable (hash : K → UInt32)

/-- `getRate() > 16`; without buckets and entries the rate is not a number, which is not above. -/
def needRehashOf (s : Members K V Unit) : Bool :=
  decide (s.m_size * 16777217 < s.m_total * 1048576)

def rehashOf (s : Members K V Unit) : Option (Members K V Unit) :=
  if needRehashOf s then
    (basket (toInt32 s.m_total)).bind fun size =>
      if size = s.m_size then some s
      else s.entries.map fun ns =>
        { s with
          m_size := size
          m_datas := some fun i =>
            sort (redistribute (fun k => (hash k).toNat % size) ns (fun _ => []) i) }
  else some s

/-- A call on members of any kind; none where it divides by zero or reads through null. -/
def call (s : Members K V Unit) : Call K V → Option (Answer K V × Members K V Unit)
  | .set k v =>
      (if needRehashOf s then rehashOf hash s else some s).bind fun s =>
        (s.lookup fun m => m.setNoRehash hash k v).map fun r => (.flag r.1, r.2.members)
  | .get k => (s.get hash k).map fun v => (.value v, s)
  | .exists_ k => (s.exists_ hash k).map fun b => (.flag b, s)
  | .del k => (s.lookup fun m => m.del hash k).map fun r => (.flag r.1, r.2.members)
  | .rehash => (rehashOf hash s).map fun s => (.done, s)
  | .foreach cb => s.entries.map fun ns => (.visited (visit cb [] ns), s)

/-- What a sequence of calls answers, if all of them are defined. -/
def answers (s : Members K V Unit) : List (Call K V) → Option (List (Answer K V))
  | [] => some []
  | c :: cs => (call hash s c).bind fun r => (answers r.2 cs).map (r.1 :: ·)

/-- The calls answer, and as those of a new map do. -/
def LikeNew (s : Members K V Unit) (cs : List (Call K V)) : Prop :=
  ∃ as, answers hash s cs = some as ∧
    ∀ size m, create size = some m → answers hash (m.members : Members K V Unit) cs = some as

/-- The call looks for the bucket of a key. -/
def Call.Keyed : Call K V → Prop
  | .set _ _ | .get _ | .exists_ _ | .del _ => True
  | .rehash | .foreach _ => False

variable {hash} {s : Members K V Unit}

omit [LinearOrder K] in
theorem lookup_members {R : Type} {m : HashMap K V} (hsize : m.m_size ≠ 0) (f : HashMap K V → R) :
    (m.members : Members K V Unit).lookup f = some (f m) := if_neg hsize

theorem rehashOf_members {m : HashMap K V} (hsize : m.m_size ≠ 0) :
    rehashOf hash (m.members : Members K V Unit) = (m.rehash hash).map members := by
  have hmap : (m.members : Members K V Unit).map = some m := if_neg hsize
  have hneed : needRehashOf (m.members : Members K V Unit) = m.needRehash := rfl
  rw [rehashOf, hneed, rehash]
  split_ifs with h
  · rw [rehashUnlock, Option.map_map, Members.entries_of_map hmap]
    change (basket (toInt32 m.m_total)).bind _ = _
    cases basket (toInt32 m.m_total) with
    | none => rfl
    | some size =>
        simp only [Option.bind_some, Option.map_some, Function.comp_apply]
        by_cases hs : size = m.m_size
        · rw [if_pos (show size = (m.members : Members K V Unit).m_size from hs), if_pos hs]
        · rw [if_neg (show ¬ size = (m.members : Members K V Unit).m_size from hs), if_neg hs]
          rfl
  · rfl

/-- On a map with buckets the calls are those of the map. -/
theorem call_members {m : HashMap K V} (hsize : m.m_size ≠ 0) (k : K) :
    call hash (m.members : Members K V Unit) (.get k) =
        some (.value (m.get hash k), m.members) ∧
      call hash (m.members : Members K V Unit) (.exists_ k) =
        some (.flag (m.exists_ hash k), m.members) ∧
      call hash (m.members : Members K V Unit) (.del k) =
        some (.flag (m.del hash k).1, (m.del hash k).2.members) ∧
      call hash (m.members : Members K V Unit) .rehash =
        (m.rehash hash).map (fun m' => (.done, m'.members)) := by
  refine ⟨?_, ?_, ?_, ?_⟩
  · rw [call, Members.get, lookup_members hsize, Option.map_some]
  · rw [call, Members.exists_, lookup_members hsize, Option.map_some]
  · rw [call, lookup_members hsize, Option.map_some]
  · rw [call, rehashOf_members hsize, Option.map_map]
    rfl

theorem rehash_size {m m' : HashMap K V} (hsize : m.m_size ≠ 0) (hr : m.rehash hash = some m') :
    m'.m_size ≠ 0 := by
  rw [rehash] at hr
  split_ifs at hr
  · obtain ⟨size, hb, rfl⟩ := Option.map_eq_some_iff.mp hr
    split_ifs
    · exact hsize
    · exact Nat.ne_of_gt (basket_pos hb)
  · exact Option.some.inj hr ▸ hsize

theorem call_set_members {m : HashMap K V} (hsize : m.m_size ≠ 0) (k : K) (v : V) :
    call hash (m.members : Members K V Unit) (.set k v) =
      (m.set hash k v).map fun r => (.flag r.1, r.2.members) := by
  have hneed : needRehashOf (m.members : Members K V Unit) = m.needRehash := rfl
  rw [call, hneed, set]
  split_ifs
  · rw [rehashOf_members hsize]
    cases hr : m.rehash hash with
    | none => rfl
    | some m' =>
        simp only [Option.map_some, Option.bind_some]
        rw [lookup_members (rehash_size hsize hr), Option.map_some]
  · rw [Option.bind_some, lookup_members hsize, Option.map_some, Option.map_some, Option.map_some]

/-- What `clear` leaves has neither buckets nor entries. -/
structure Emptied (s : Members K V Unit) : Prop where
  size : s.m_size = 0
  total : s.m_total = 0

omit [LinearOrder K] in
theorem clear_emptied (s : Members K V Unit) : Emptied (clear s) := ⟨rfl, rfl⟩

/-- No bucket is found for a key. -/
theorem Emptied.call_keyed (h : Emptied s) {c : Call K V} (hc : c.Keyed) :
    call hash s c = none := by
  have hlookup : ∀ {R : Type} (f : HashMap K V → R), s.lookup f = none := by
    intro R f
    cases hd : s.m_datas with
    | none => rw [Members.lookup, hd, Option.bind_none]
    | some datas => rw [Members.lookup, hd, Option.bind_some, if_pos h.size]
  have hneed : needRehashOf s = false := by rw [needRehashOf, h.size, h.total]; rfl
  cases c with
  | set k v => rw [call, hneed, if_neg Bool.false_ne_true, Option.bind_some, hlookup]; rfl
  | get k => rw [call, Members.get, hlookup]; rfl
  | exists_ k => rw [call, Members.exists_, hlookup]; rfl
  | del k => rw [call, hlookup]; rfl
  | rehash => cases hc
  | foreach cb => cases hc

/-- What the other calls answer where nothing is stored. -/
def Call.quiet : Call K V → Answer K V
  | .foreach _ => .visited []
  | _ => .done

/-- No entries are stored, and their number is zero. -/
structure Vacant (s : Members K V Unit) : Prop where
  total : s.m_total = 0
  entries : s.entries = some []

omit [LinearOrder K] in
theorem Emptied.vacant (h : Emptied s) : Vacant s := ⟨h.total, if_pos h.size⟩

omit [LinearOrder K] in
theorem created_vacant {size : UInt32} {m : HashMap K V} (hm : create size = some m) :
    Vacant (m.members : Members K V Unit) := by
  obtain ⟨n, hn, rfl⟩ := Option.map_eq_some_iff.mp hm
  have hsize : n ≠ 0 := Nat.ne_of_gt (basket_pos hn)
  have hnodes : (List.range n).flatMap (fun _ => ([] : List (Node K V))) = [] :=
    List.flatMap_eq_nil_iff.mpr fun _ _ => rfl
  exact ⟨rfl, (if_neg hsize).trans (congrArg some hnodes)⟩

/-- The calls without a key find nothing and leave everything as it is. -/
theorem Vacant.call_other (h : Vacant s) {c : Call K V} (hc : ¬ c.Keyed) :
    call hash s c = some (c.quiet, s) := by
  cases c with
  | set k v => exact absurd trivial hc
  | get k => exact absurd trivial hc
  | exists_ k => exact absurd trivial hc
  | del k => exact absurd trivial hc
  | rehash =>
      have hneed : needRehashOf s = false := by
        rw [needRehashOf, h.total, decide_eq_false_iff_not]
        omega
      rw [call, rehashOf, hneed, if_neg Bool.false_ne_true, Option.map_some]
      rfl
  | foreach cb =>
      rw [call, h.entries, Option.map_some]
      rfl

theorem Vacant.answers_eq (h : Vacant s) {cs : List (Call K V)} (hcs : ∀ c ∈ cs, ¬ c.Keyed) :
    answers hash s cs = some (cs.map Call.quiet) := by
  induction cs with
  | nil => rfl
  | cons c cs ih =>
      have htail := ih fun d hd => hcs d (List.mem_cons_of_mem c hd)
      rw [answers, h.call_other (hcs c List.mem_cons_self), Option.bind_some, htail]
      rfl

/-- The first call with a key ends the sequence. -/
theorem Emptied.answers_none (h : Emptied s) {cs : List (Call K V)} (hcs : ∃ c ∈ cs, c.Keyed) :
    answers hash s cs = none := by
  induction cs with
  | nil =>
      obtain ⟨c, hc, -⟩ := hcs
      cases hc
  | cons c cs ih =>
      by_cases hc : c.Keyed
      · rw [answers, h.call_keyed hc, Option.bind_none]
      · have hrest : ∃ d ∈ cs, d.Keyed := by
          obtain ⟨d, hd, hkeyed⟩ := hcs
          rcases List.mem_cons.mp hd with rfl | hd
          · exact absurd hkeyed hc
          · exact ⟨d, hd, hkeyed⟩
        rw [answers, h.vacant.call_other hc, Option.bind_some, ih hrest, Option.map_none]

/-- After `clear` a sequence of calls is answered as by a new map exactly if none of them has a
key: the first one that has takes its hash modulo zero. -/
theorem clear_like_new_iff (hash : K → UInt32) (s : Members K V Unit) (cs : List (Call K V)) :
    LikeNew hash (clear s) cs ↔ ∀ c ∈ cs, ¬ c.Keyed := by
  constructor
  · rintro ⟨as, has, -⟩ c hc hkeyed
    rw [(clear_emptied s).answers_none ⟨c, hc, hkeyed⟩] at has
    cases has
  · intro hcs
    refine ⟨cs.map Call.quiet, (clear_emptied s).vacant.answers_eq hcs, ?_⟩
    intro size m hm
    exact (created_vacant hm).answers_eq hcs

end Members

/-- A new map that is cleared cannot be asked for a key any more. -/
theorem cleared_get_undefined : ∃ m : HashMap Nat Nat, create 1 = some m ∧
    answers (fun k => k.toUInt32) m.members [.get 1] = some [.value none] ∧
    answers (fun k => k.toUInt32) (clear m.members) [.get 1] = none ∧
    ¬ LikeNew (fun k => k.toUInt32) (clear m.members) [.get 1] := by
  refine ⟨⟨2, 0, fun _ => []⟩, rfl, rfl, rfl, ?_⟩
  rintro ⟨as, has, -⟩
  cases has

end CIM.ds.HashMap
