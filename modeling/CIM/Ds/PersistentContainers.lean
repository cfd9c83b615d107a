import Mathlib.Data.Countable.Basic
import CIM.Ds.PersistenceLife

/-!
# Containers persist

A container that is written is read as it was, unless it has no buckets or an array with a negative
size.
-/
namespace CIM.ds

namespace HashMap

section Reachable

variable {K V Is : Type} [LinearOrder K] [Inhabited K] [Inhabited V] (r : Helpers Is)
  (w : Writers Is) (hash : K → UInt32) (sizeofNode : Nat)

/-- `clear`: the number of buckets is zero before they are freed. -/
def clear (s : Members K V Unit) : Members K V Unit :=
  { s with m_size := 0, m_total := 0, m_datas := none }

/-- A map is constructed, called, and loaded with what one has written, or with bytes that it does
not take; `swap` only exchanges the members of two of them. -/
inductive Reachable : Members K V Unit → Prop
  | create {size : UInt32} {m : HashMap K V} : create size = some m → Reachable m.members
  | set {s : Members K V Unit} {m : HashMap K V} {k : K} {v : V} {a : Bool × HashMap K V} :
      Reachable s → s.map = some m → m.set hash k v = some a → Reachable a.2.members
  | del {s : Members K V Unit} {m : HashMap K V} (k : K) :
      Reachable s → s.map = some m → Reachable (m.del hash k).2.members
  | rehash {s : Members K V Unit} {m m' : HashMap K V} :
      Reachable s → s.map = some m → m.rehash hash = some m' → Reachable m'.members
  | merge {s t : Members K V Unit} {m oth m' : HashMap K V} :
      Reachable s → Reachable t → s.map = some m → t.map = some oth →
      m.merge hash oth = some m' → Reachable m'.members
  | clear {s : Members K V Unit} : Reachable s → Reachable (clear s)
  | read {s t t' : Members K V Unit} {speed speed' : Nat} {is is' out : Is} {b : Bool} :
      Reachable s → Reachable t → InMemory sizeofNode s →
      writeTo w sizeofNode speed s is = some out →
      readFrom r hash sizeofNode speed' (t, out) = some (b, t', is') → Reachable t'
  | refused {t t' : Members K V Unit} {speed : Nat} {is is' : Is} :
      Reachable t → readFrom r hash sizeofNode speed (t, is) = some (false, t', is') →
      Reachable t'

variable {r w hash sizeofNode} {s : Members K V Unit}

omit [Inhabited K] [Inhabited V] in
theorem Holds.sound {m : HashMap K V} {f : K → Option V} (h : Holds hash m f) :
    Sound hash m.members := by
  intro q hq
  have he : (m.members : Members K V Unit).map = some m := if_neg (Nat.ne_of_gt h.size)
  cases he.symm.trans hq
  exact ⟨f, h⟩

/-- In every state the buckets hold the entries. -/
theorem Reachable.sound (h : Reads r w) (ha : ReadsArrays r w (Node K V) sizeofNode)
    (hpos : 0 < sizeofNode) (hs : Reachable r w hash sizeofNode s) : Sound hash s := by
  induction hs with
  | create hc => exact (Holds.created hc).sound
  | set _ hm hset ih =>
      obtain ⟨f, hf⟩ := ih _ hm
      exact (hf.set hset).2.1.sound
  | del k _ hm ih =>
      obtain ⟨f, hf⟩ := ih _ hm
      exact (hf.del_eq k).2.sound
  | rehash _ hm hr ih =>
      obtain ⟨f, hf⟩ := ih _ hm
      exact (hf.rehash hr).1.sound
  | merge _ _ hm ho hr ih iho =>
      obtain ⟨f, hf⟩ := ih _ hm
      obtain ⟨g, hg⟩ := iho _ ho
      exact (hf.merge hg hr).sound
  | clear _ _ => exact nofun
  | @read s t t' speed speed' is is' out b _ _ hm hwrite hread ihs _ =>
      obtain ⟨ns, hns, hwrite⟩ := Option.map_eq_some_iff.mp hwrite
      rw [Nat.mod_eq_of_lt (hm.2 ns hns)] at hwrite
      have hempty : s.m_size = 0 → ns = [] := by
        intro hzero
        rw [Members.entries, if_pos hzero] at hns
        exact (Option.some.inj hns).symm
      rw [← hwrite, readFrom_written h ha hpos hm.1 (hm.2 ns hns) hempty] at hread
      rw [← (Prod.mk.inj (Prod.mk.inj (Option.some.inj hread)).2).1]
      rcases Members.map_or_empty hns with ⟨m, hmap⟩ | ⟨hzero, -⟩
      · obtain ⟨f, hf⟩ := ihs m hmap
        rw [Members.entries_of_map hmap] at hns
        cases hns
        have hsize := hf.size
        rw [(Members.of_map hmap).1] at hsize
        obtain ⟨m', hmap', hf'⟩ := Members.loaded_map hash
          (m.nodes.foldl (fun e _ => e) t.m_elements) t.m_values (Nat.ne_of_gt hsize) hf.nodes
        intro q hq
        cases hmap'.symm.trans hq
        exact ⟨f, hf'⟩
      · intro q hq
        rw [hzero] at hq
        cases Members.loaded_map_none.symm.trans hq
  | refused _ hread _ =>
      intro q hq
      have hnull := readFrom_false hash hread
      rw [Members.map, hnull, Option.map_none, ite_self] at hq
      cases hq

end Reachable

end HashMap

/-- What stands in a stream: a word, or an array whose entries are numbered. -/
inductive Token
  | word (n : Nat)
  | array (codes : List Nat)

section Tokens

open Classical in
/-- A number for every value of a type of plain data. -/
noncomputable def code (α : Type) : α → Nat :=
  if h : ∃ f : α → Nat, Function.Injective f then h.choose else fun _ => 0

instance : Countable (RawNode Nat) :=
  Function.Injective.countable (f := fun n : RawNode Nat => (n.key, n.size, n.val)) <| by
    rintro ⟨k, s, v⟩ ⟨k', s', v'⟩ he
    cases he
    rfl

instance : Countable (HashMap.Node Nat Nat) :=
  Function.Injective.countable (f := fun n : HashMap.Node Nat Nat => (n.key, n.val)) <| by
    rintro ⟨k, v⟩ ⟨k', v'⟩ he
    cases he
    rfl

end Tokens

end CIM.ds
