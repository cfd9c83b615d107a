import CIM.Net.ByteArray
import CIM.Lib.Exec

/-!
# The flat storage behind a `ByteArray`

`Flat` is what the chain of blocks is for: one storage array, a size and a cursor. `Linked` is
the invariant that ties the separately updated fields of a `ByteArray` to its chain, and `flat`
reads the chain as one array. Each operation has one lemma here that says what it does to both.
-/
namespace CIM

structure Flat where
  storage : List UInt8
  size : Nat
  cursor : Nat

namespace Flat

/-- How many bytes whole nodes of `base` bytes must add so that `n` bytes fit. -/
def growth (base remaining n : Nat) : Nat := (n - remaining + (base - 1)) / base * base

def write (f : Flat) (fresh buf : List UInt8) : Flat where
  storage := Patch.patch (f.storage ++ fresh) f.cursor buf
  size := max f.size (f.cursor + buf.length)
  cursor := f.cursor + buf.length

def advance (f : Flat) (n : Nat) : Flat := { f with cursor := f.cursor + n }

def seek (f : Flat) (v : Nat) : Flat := { f with size := max f.size v, cursor := v }

def clear (base : Nat) (f : Flat) : Flat := ⟨f.storage.take base, 0, 0⟩

end Flat

namespace ByteArray

open Patch Exec

section Run
variable {α β : Type} (ba : ByteArray)

@[simp] theorem ofExcept_ok (a : α) : ofExcept (.ok a) ba = .ok a ba := rfl

@[simp] theorem ofExcept_error (e : Fault) :
    (ofExcept (.error e) : ByteArrayM α) ba = .error e ba := rfl

end Run

/-- The chain read as one array. -/
def storage (nodes : List Node) : List UInt8 := nodes.flatMap Node.ptr

@[simp] theorem storage_nil : storage [] = [] := rfl

@[simp] theorem storage_cons (node : Node) (nodes : List Node) :
    storage (node :: nodes) = node.ptr ++ storage nodes := rfl

@[simp] theorem storage_append (xs ys : List Node) :
    storage (xs ++ ys) = storage xs ++ storage ys := List.flatMap_append

def Uniform (base : Nat) (nodes : List Node) : Prop := ∀ node ∈ nodes, node.size = base

theorem Uniform.cons {base : Nat} {node : Node} {nodes : List Node} :
    Uniform base (node :: nodes) ↔ node.size = base ∧ Uniform base nodes := by
  simp [Uniform]

theorem Uniform.append {base : Nat} {xs ys : List Node} :
    Uniform base (xs ++ ys) ↔ Uniform base xs ∧ Uniform base ys := by
  simp only [Uniform, List.mem_append, or_imp, forall_and]

theorem Uniform.length_storage {base : Nat} {nodes : List Node} (h : Uniform base nodes) :
    (storage nodes).length = base * nodes.length := by
  induction nodes with
  | nil => rfl
  | cons node nodes ih =>
      obtain ⟨hn, hs⟩ := Uniform.cons.mp h
      simp only [storage_cons, List.length_append, node.size_eq, hn, ih hs, List.length_cons,
        Nat.mul_succ, Nat.add_comm]

theorem Uniform.drop {base : Nat} {nodes : List Node} (h : Uniform base nodes) (k : Nat) :
    Uniform base (nodes.drop k) := fun node hn => h node (List.mem_of_mem_drop hn)

theorem Uniform.take {base : Nat} {nodes : List Node} (h : Uniform base nodes) (k : Nat) :
    Uniform base (nodes.take k) := fun node hn => h node (List.mem_of_mem_take hn)

theorem storage_take_drop (nodes : List Node) (k : Nat) :
    storage nodes = storage (nodes.take k) ++ storage (nodes.drop k) := by
  rw [← storage_append, List.take_append_drop]

theorem Uniform.length_take {base : Nat} {nodes : List Node} (h : Uniform base nodes) {k : Nat}
    (hk : k ≤ nodes.length) : (storage (nodes.take k)).length = base * k := by
  rw [(h.take k).length_storage, List.length_take, Nat.min_eq_left hk]

/-! ## The loops over the chain -/

theorem nodeSize_uniform {base : Nat} {nodes : List Node} (h : Uniform base nodes)
    (hn : nodes ≠ []) : nodeSize nodes = .ok base := by
  cases nodes with
  | nil => exact absurd rfl hn
  | cons node nodes => rw [nodeSize, (Uniform.cons.mp h).1]

/-- Where a transfer of `n` bytes from offset `npos` of a node leaves the node pointer, when it
ends in this node. -/
theorem moved_last {base npos n : Nat} (hb : 1 ≤ base) (h : npos + n ≤ base) :
    (if base = npos + n then 1 else 0) = (npos + n) / base := by
  split
  · rename_i he
    rw [← he, Nat.div_self hb]
  · rw [Nat.div_eq_of_lt (by omega)]

/-- The same when it fills this node and goes on in the next one. -/
theorem moved_next {base npos n : Nat} (hb : 1 ≤ base) (hp : npos < base) (h : base - npos < n) :
    (0 + (n - (base - npos))) / base + 1 = (npos + n) / base := by
  have he : npos + n = (n - (base - npos)) + base := by omega
  rw [he, Nat.add_div_right _ hb, Nat.zero_add]

theorem chain_ne_nil {base : Nat} {chain : List Node} (h : Uniform base chain)
    (hpos : 0 < (storage chain).length) : chain ≠ [] := by
  rintro rfl
  simp at hpos

theorem writeLoop_spec {base : Nat} (hb : 1 ≤ base) (chain : List Node) (npos : Nat)
    (buf : List UInt8) (hu : Uniform base chain) (hp : npos < base) (hn : 0 < buf.length)
    (hfit : npos + buf.length ≤ (storage chain).length) :
    ∃ chain', writeLoop chain npos (base - npos) buf = .ok (chain', (npos + buf.length) / base) ∧
      storage chain' = patch (storage chain) npos buf ∧ Uniform base chain' ∧
      chain'.length = chain.length := by
  induction chain generalizing npos buf with
  | nil =>
      rw [storage_nil, List.length_nil] at hfit
      omega
  | cons node chain ih =>
      obtain ⟨hs, hu'⟩ := Uniform.cons.mp hu
      have hlen : node.ptr.length = base := by rw [node.size_eq, hs]
      by_cases hlast : base - npos ≥ buf.length
      · refine ⟨node.store npos buf :: chain, ?_, ?_, ?_, rfl⟩
        · rw [writeLoop, if_pos hlast, hs, moved_last hb (by omega)]
        · simp only [storage_cons, Node.store_ptr]
          exact (patch_of_le (by omega)).symm
        · exact Uniform.cons.mpr ⟨hs, hu'⟩
      · -- the node is filled up to its end and the rest goes to the chain behind it
        have hrest : 0 + (buf.drop (base - npos)).length ≤ (storage chain).length := by
          simp only [storage_cons, List.length_append, hlen] at hfit
          simp only [List.length_drop]
          omega
        have hpos : 0 < (buf.drop (base - npos)).length := by
          simp only [List.length_drop]
          omega
        obtain ⟨chain', hw, hst, hun, hl⟩ := ih 0 (buf.drop (base - npos)) hu' hb hpos hrest
        refine ⟨node.store npos (buf.take (base - npos)) :: chain', ?_, ?_, ?_, ?_⟩
        · rw [writeLoop, if_neg hlast, nodeSize_uniform hu' (chain_ne_nil hu' (by omega))]
          rw [Nat.sub_zero, List.length_drop] at hw
          simp only [bind, Except.bind, hw]
          rw [moved_next hb hp (by omega)]
          rfl
        · rw [storage_cons, storage_cons, Node.store_ptr, hst, patch_append buf (by omega), hlen]
        · exact Uniform.cons.mpr ⟨hs, hun⟩
        · simp only [List.length_cons, hl]

theorem readLoop_spec {base : Nat} (hb : 1 ≤ base) (chain : List Node) (npos n : Nat)
    (hu : Uniform base chain) (hp : npos < base) (hn : 0 < n)
    (hfit : npos + n ≤ (storage chain).length) :
    readLoop chain npos (base - npos) n = .ok (slice (storage chain) npos n, (npos + n) / base) := by
  induction chain generalizing npos n with
  | nil =>
      rw [storage_nil, List.length_nil] at hfit
      omega
  | cons node chain ih =>
      obtain ⟨hs, hu'⟩ := Uniform.cons.mp hu
      have hlen : node.ptr.length = base := by rw [node.size_eq, hs]
      by_cases hlast : base - npos ≥ n
      · rw [readLoop, if_pos hlast, hs, moved_last hb (by omega), storage_cons,
          slice_of_le (by omega)]
      · have hrest : 0 + (n - (base - npos)) ≤ (storage chain).length := by
          simp only [storage_cons, List.length_append, hlen] at hfit
          omega
        have hr := ih 0 (n - (base - npos)) hu' hb (by omega) hrest
        rw [Nat.sub_zero] at hr
        rw [readLoop, if_neg hlast, nodeSize_uniform hu' (chain_ne_nil hu' (by omega))]
        simp only [bind, Except.bind, hr]
        rw [moved_next hb hp (by omega), storage_cons, slice_append n (by omega), hlen]
        have hcut : slice node.ptr npos n = slice node.ptr npos (base - npos) := by
          rw [slice, slice, List.take_of_length_le (by simp; omega),
            List.take_of_length_le (by simp; omega)]
        rw [hcut]
        rfl

/-- The seek passes `v / base` nodes as long as the target lies before the end of the chain. -/
theorem seekLoop_spec {base : Nat} (hb : 1 ≤ base) (chain : List Node) (v : Nat)
    (hu : Uniform base chain) (hv : v < base * chain.length) :
    seekLoop chain v = .ok (v / base, v % base) := by
  induction chain generalizing v with
  | nil => simp at hv
  | cons node chain ih =>
      obtain ⟨hs, hu'⟩ := Uniform.cons.mp hu
      by_cases hge : v ≥ base
      · have hv' : v - base < base * chain.length := by
          rw [List.length_cons, Nat.mul_succ] at hv
          omega
        have hd : v = (v - base) + base := by omega
        rw [seekLoop, if_pos (by omega), hs]
        simp only [bind, Except.bind, ih (v - base) hu' hv']
        rw [hd, Nat.add_div_right _ hb, Nat.add_mod_right, ← hd]
        rfl
      · rw [seekLoop, if_neg (by omega), Nat.div_eq_of_lt (by omega), Nat.mod_eq_of_lt (by omega)]

/-- A seek to the end of the chain or beyond walks off it. -/
theorem seekLoop_end {base : Nat} (chain : List Node) (v : Nat)
    (hu : Uniform base chain) (hv : base * chain.length ≤ v) :
    seekLoop chain v = .error .nullNode := by
  induction chain generalizing v with
  | nil => rfl
  | cons node chain ih =>
      obtain ⟨hs, hu'⟩ := Uniform.cons.mp hu
      rw [List.length_cons, Nat.mul_succ] at hv
      rw [seekLoop, if_pos (by omega), hs, ih (v - base) hu' (by omega)]
      rfl

/-! ## The invariant and the operations -/

/-- What the fields of a `ByteArray` that are updated separately have to do with its chain. -/
structure Linked (ba : ByteArray) : Prop where
  base_pos : 1 ≤ ba.baseSize
  uniform : Uniform ba.baseSize ba.nodes
  root : ba.nodes ≠ []
  capacity : ba.capacity = ba.baseSize * ba.nodes.length
  position_le : ba.position ≤ ba.dataSize
  dataSize_le : ba.dataSize ≤ ba.capacity
  cur : ba.curNode = ba.position / ba.baseSize

/-- The settings no transfer touches. -/
structure Keeps (ba ba' : ByteArray) : Prop where
  base : ba'.baseSize = ba.baseSize
  endian : ba'.endian = ba.endian

theorem Keeps.refl (ba : ByteArray) : Keeps ba ba := ⟨rfl, rfl⟩

theorem Keeps.trans {a b c : ByteArray} (h : Keeps a b) (k : Keeps b c) : Keeps a c :=
  ⟨k.base.trans h.base, k.endian.trans h.endian⟩

def flat (ba : ByteArray) : Flat := ⟨storage ba.nodes, ba.dataSize, ba.position⟩

theorem new_linked {base : Nat} (hb : 1 ≤ base) (arena : Nat → Nat → UInt8) :
    Linked (new base arena) where
  base_pos := hb
  uniform := by simp [new, Uniform, newNode]
  root := by simp [new]
  capacity := by simp [new]
  position_le := Nat.le_refl 0
  dataSize_le := Nat.zero_le _
  cur := by simp [new]

section Linked
variable {ba : ByteArray} (h : Linked ba)
include h

theorem Linked.length_storage : (storage ba.nodes).length = ba.capacity := by
  rw [h.uniform.length_storage, h.capacity]

theorem Linked.cur_lt (hp : ba.position < ba.capacity) : ba.curNode < ba.nodes.length := by
  rw [h.cur]
  exact Nat.div_lt_of_lt_mul (h.capacity ▸ hp)

theorem Linked.cur_le : ba.curNode ≤ ba.nodes.length := by
  have hle := Nat.le_trans h.position_le h.dataSize_le
  rw [h.cur]
  refine Nat.div_le_of_le_mul ?_
  rw [← h.capacity]
  exact hle

theorem Linked.position_eq : ba.position = ba.baseSize * ba.curNode + ba.position % ba.baseSize := by
  rw [h.cur, Nat.div_add_mod]

theorem Linked.npos_lt : ba.position % ba.baseSize < ba.baseSize := Nat.mod_lt _ h.base_pos

theorem Linked.length_chain :
    (storage (ba.nodes.drop ba.curNode)).length = ba.capacity - ba.baseSize * ba.curNode := by
  rw [(h.uniform.drop _).length_storage, List.length_drop, Nat.mul_sub, ← h.capacity]

/-- A transfer that fits behind the position fits into the chain at `m_cur_node`. -/
theorem Linked.fits {n : Nat} (hn : ba.position + n ≤ ba.capacity) :
    ba.position % ba.baseSize + n ≤ (storage (ba.nodes.drop ba.curNode)).length := by
  have hp := h.position_eq
  rw [h.length_chain]
  omega

theorem Linked.nodeSize_cur {n : Nat} (hpos : 0 < n) (hn : ba.position + n ≤ ba.capacity) :
    nodeSize (ba.nodes.drop ba.curNode) = .ok ba.baseSize := by
  have hf := h.fits hn
  exact nodeSize_uniform (h.uniform.drop _) (chain_ne_nil (h.uniform.drop _) (by omega))

/-- The node a transfer of `n` bytes ends in, counted from the current one. -/
theorem Linked.cur_add (n : Nat) : ba.curNode + (ba.position % ba.baseSize + n) / ba.baseSize =
    (ba.position + n) / ba.baseSize := by
  have hp := h.position_eq
  have he : ba.position + n = (ba.position % ba.baseSize + n) + ba.baseSize * ba.curNode := by omega
  rw [he, Nat.add_mul_div_left _ _ h.base_pos, Nat.add_comm]

theorem Linked.patch_chain (buf : List UInt8) :
    storage (ba.nodes.take ba.curNode) ++
        patch (storage (ba.nodes.drop ba.curNode)) (ba.position % ba.baseSize) buf =
      patch (storage ba.nodes) ba.position buf := by
  have hlen := h.uniform.length_take h.cur_le
  conv => rhs; rw [storage_take_drop ba.nodes ba.curNode, h.position_eq, ← hlen]
  rw [patch_skip]

theorem Linked.slice_chain (n : Nat) :
    slice (storage (ba.nodes.drop ba.curNode)) (ba.position % ba.baseSize) n =
      slice (storage ba.nodes) ba.position n := by
  have hlen := h.uniform.length_take h.cur_le
  conv => rhs; rw [storage_take_drop ba.nodes ba.curNode, h.position_eq, ← hlen]
  rw [slice_skip]

end Linked

/-- The number of nodes `addCapacity` computes is the quotient rounded up. -/
theorem count_eq {base m : Nat} (hb : 1 ≤ base) :
    m / base + (if m % base > 0 then 1 else 0) = (m + (base - 1)) / base := by
  have hd := Nat.div_add_mod m base
  have hm := Nat.mod_lt m hb
  have he : m + (base - 1) = (m % base + (base - 1)) + base * (m / base) := by omega
  rw [he, Nat.add_mul_div_left _ _ hb, Nat.add_comm]
  congr 1
  by_cases hz : m % base > 0
  · rw [if_pos hz, show m % base + (base - 1) = (m % base - 1) + base by omega,
      Nat.add_div_right _ hb, Nat.div_eq_of_lt (by omega)]
  · rw [if_neg hz, Nat.div_eq_of_lt (by omega)]

theorem le_count {base m : Nat} (hb : 1 ≤ base) : m ≤ (m + (base - 1)) / base * base := by
  have hd := Nat.div_add_mod (m + (base - 1)) base
  have hm := Nat.mod_lt (m + (base - 1)) hb
  rw [Nat.mul_comm]
  omega

theorem newNodes_uniform (base count : Nat) (content : Nat → Nat → UInt8) :
    Uniform base ((List.range count).map fun i => newNode base (content i)) := by
  intro node hn
  obtain ⟨i, -, rfl⟩ := List.mem_map.mp hn
  rfl

theorem addCapacity_spec {ba : ByteArray} (h : Linked ba) {n : Nat} (hn : 0 < n) :
    ∃ fresh ba', addCapacity n ba = .ok ⟨⟩ ba' ∧ Linked ba' ∧ Keeps ba ba' ∧
      fresh.length = Flat.growth ba.baseSize ba.getRemainingCapacity n ∧
      flat ba' = { flat ba with storage := storage ba.nodes ++ fresh } ∧
      ba.position + n ≤ ba'.capacity := by
  have hle := Nat.le_trans h.position_le h.dataSize_le
  by_cases hroom : ba.getRemainingCapacity ≥ n
  · refine ⟨[], ba, ?_, h, .refl ba, ?_, ?_, ?_⟩
    · simp [addCapacity, Nat.ne_of_gt hn, hroom]
    · have hz : n - ba.getRemainingCapacity + (ba.baseSize - 1) < ba.baseSize := by
        have := h.base_pos
        omega
      simp [Flat.growth, Nat.div_eq_of_lt hz]
    · simp [flat]
    · simp only [getRemainingCapacity] at hroom
      omega
  · let count := (n - ba.getRemainingCapacity + (ba.baseSize - 1)) / ba.baseSize
    let fresh := (List.range count).map fun i => newNode ba.baseSize (ba.arena (ba.allocated + i))
    have hfresh : Uniform ba.baseSize fresh :=
      newNodes_uniform ba.baseSize count fun i => ba.arena (ba.allocated + i)
    have hcount := le_count (m := n - ba.getRemainingCapacity) h.base_pos
    have hlen : fresh.length = count := by simp [fresh]
    have hcap : ba.capacity + count * ba.baseSize = ba.baseSize * (ba.nodes ++ fresh).length := by
      rw [List.length_append, hlen, Nat.mul_add, ← h.capacity, Nat.mul_comm count]
    have hfull : (if ba.getRemainingCapacity = 0 then ba.nodes.length else ba.curNode) =
        ba.position / ba.baseSize := by
      split
      · rename_i hz
        have he : ba.position = ba.capacity := by
          simp only [getRemainingCapacity] at hz
          omega
        rw [he, h.capacity, Nat.mul_div_cancel_left _ h.base_pos]
      · exact h.cur
    refine ⟨storage fresh, { ba with
      nodes := ba.nodes ++ fresh
      capacity := ba.capacity + count * ba.baseSize
      allocated := ba.allocated + count
      curNode := if ba.getRemainingCapacity = 0 then ba.nodes.length else ba.curNode },
      ?_, ?_, ⟨rfl, rfl⟩, ?_, ?_, ?_⟩
    · simp [addCapacity, Nat.ne_of_gt hn, hroom, count_eq h.base_pos, count, fresh]
    · exact ⟨h.base_pos, Uniform.append.mpr ⟨h.uniform, hfresh⟩, by simp [h.root], hcap,
        h.position_le, Nat.le_trans h.dataSize_le (Nat.le_add_right _ _), hfull⟩
    · rw [hfresh.length_storage, hlen, Nat.mul_comm, Flat.growth]
    · simp [flat]
    · simp only [getRemainingCapacity] at hroom hcount
      simp only [count, getRemainingCapacity]
      omega

theorem write_spec {ba : ByteArray} (h : Linked ba) (buf : List UInt8) :
    ∃ fresh ba', write buf ba = .ok ⟨⟩ ba' ∧ Linked ba' ∧ Keeps ba ba' ∧
      fresh.length = Flat.growth ba.baseSize ba.getRemainingCapacity buf.length ∧
      flat ba' = (flat ba).write fresh buf := by
  by_cases hz : buf.length = 0
  · obtain rfl : buf = [] := List.eq_nil_of_length_eq_zero hz
    refine ⟨[], ba, rfl, h, .refl ba, ?_, ?_⟩
    · have hlt : ba.baseSize - 1 < ba.baseSize := by
        have := h.base_pos
        omega
      simp [Flat.growth, Nat.div_eq_of_lt hlt]
    · simp [flat, Flat.write, h.position_le]
  · obtain ⟨fresh, b, hadd, hb, hk, hfresh, hflat, hroom⟩ :=
      addCapacity_spec h (Nat.pos_of_ne_zero hz)
    have hpos : b.position = ba.position := congrArg Flat.cursor hflat
    have hsize : b.dataSize = ba.dataSize := congrArg Flat.size hflat
    have hstore : storage b.nodes = storage ba.nodes ++ fresh := congrArg Flat.storage hflat
    rw [← hpos] at hroom
    obtain ⟨chain', hloop, hst, hun, hl⟩ := writeLoop_spec hb.base_pos
      (b.nodes.drop b.curNode) (b.position % b.baseSize) buf (hb.uniform.drop _) hb.npos_lt
      (Nat.pos_of_ne_zero hz) (hb.fits hroom)
    have hnodes : (b.nodes.take b.curNode ++ chain').length = b.nodes.length := by
      rw [List.length_append, hl, ← List.length_append, List.take_append_drop]
    have hmax : (if b.position + buf.length > b.dataSize then b.position + buf.length
        else b.dataSize) = max b.dataSize (b.position + buf.length) := by
      split <;> omega
    refine ⟨fresh, { b with
      nodes := b.nodes.take b.curNode ++ chain'
      curNode := b.curNode + (b.position % b.baseSize + buf.length) / b.baseSize
      position := b.position + buf.length
      dataSize := max b.dataSize (b.position + buf.length) }, ?_, ?_, ⟨hk.base, hk.endian⟩,
      hfresh, ?_⟩
    · simp only [write, if_neg hz, bind_apply, hadd, get_apply,
        hb.nodeSize_cur (Nat.pos_of_ne_zero hz) hroom, ofExcept_ok, hloop, set_apply, hmax]
    · refine ⟨hb.base_pos, Uniform.append.mpr ⟨hb.uniform.take _, hun⟩, ?_, ?_, ?_, ?_, hb.cur_add _⟩
      · exact List.ne_nil_of_length_pos (hnodes ▸ List.length_pos_of_ne_nil hb.root)
      · rw [hnodes, ← hb.capacity]
      · exact Nat.le_max_right _ _
      · exact Nat.max_le.mpr ⟨hb.dataSize_le, hroom⟩
    · have hpatch := hb.patch_chain buf
      rw [hstore, hpos] at hpatch
      simp only [flat, Flat.write, storage_append, hst, hpos, hsize, hpatch]

theorem read_spec {ba : ByteArray} (h : Linked ba) {n : Nat} (hn : n ≤ ba.getReadSize) :
    ∃ ba', read n ba = .ok (slice (storage ba.nodes) ba.position n) ba' ∧ Linked ba' ∧
      Keeps ba ba' ∧ flat ba' = (flat ba).advance n := by
  by_cases hz : n = 0
  · subst hz
    exact ⟨ba, by simp [read], h, .refl ba, rfl⟩
  · have hle := h.position_le
    have hcap := h.dataSize_le
    simp only [getReadSize] at hn
    have hroom : ba.position + n ≤ ba.capacity := by omega
    have hloop := readLoop_spec h.base_pos (ba.nodes.drop ba.curNode)
      (ba.position % ba.baseSize) n (h.uniform.drop _) h.npos_lt (Nat.pos_of_ne_zero hz)
      (h.fits hroom)
    refine ⟨{ ba with
      curNode := ba.curNode + (ba.position % ba.baseSize + n) / ba.baseSize
      position := ba.position + n }, ?_, ?_, ⟨rfl, rfl⟩, rfl⟩
    · simp only [read, if_neg hz, bind_apply, get_apply, getReadSize, if_neg (Nat.not_lt.mpr hn),
        h.nodeSize_cur (Nat.pos_of_ne_zero hz) hroom, ofExcept_ok, hloop, set_apply, pure_apply,
        gt_iff_lt, h.slice_chain]
    · exact ⟨h.base_pos, h.uniform, h.root, h.capacity, by simp only; omega, h.dataSize_le,
        h.cur_add n⟩

theorem read_short {ba : ByteArray} {n : Nat} (hn : ba.getReadSize < n) :
    read n ba = .error (.outOfRange "not enough len") ba := by
  simp [read, show n ≠ 0 by omega, hn]

theorem setPosition_spec {ba : ByteArray} (h : Linked ba) {v : Nat} (hv : v < ba.capacity) :
    ∃ ba', setPosition v ba = .ok ⟨⟩ ba' ∧ Linked ba' ∧ Keeps ba ba' ∧ ba'.capacity = ba.capacity ∧
      flat ba' = (flat ba).seek v := by
  have hv' : v < ba.baseSize * ba.nodes.length := h.capacity ▸ hv
  have hseek := seekLoop_spec h.base_pos ba.nodes v h.uniform hv'
  have hlt : v / ba.baseSize < ba.nodes.length := Nat.div_lt_of_lt_mul hv'
  have hsize : nodeSize (ba.nodes.drop (v / ba.baseSize)) = .ok ba.baseSize :=
    nodeSize_uniform (h.uniform.drop _) (by simp [hlt])
  have hinner : ¬ (v % ba.baseSize = ba.baseSize ∧ v / ba.baseSize + 1 < ba.nodes.length) :=
    fun hc => Nat.ne_of_lt (Nat.mod_lt v h.base_pos) hc.1
  have hmax : (if v > ba.dataSize then v else ba.dataSize) = max ba.dataSize v := by
    split <;> omega
  refine ⟨{ ba with
    position := v
    dataSize := max ba.dataSize v
    curNode := v / ba.baseSize }, ?_, ?_, ⟨rfl, rfl⟩, rfl, rfl⟩
  · simp only [setPosition, bind_apply, get_apply, gt_iff_lt, if_neg (Nat.not_lt.mpr (Nat.le_of_lt hv)),
      modify_apply, hseek, hsize, ofExcept_ok, if_neg hinner, hmax]
  · exact ⟨h.base_pos, h.uniform, h.root, h.capacity, Nat.le_max_right _ _,
      Nat.max_le.mpr ⟨h.dataSize_le, Nat.le_of_lt hv⟩, rfl⟩

/-- A position at the very end of the chain passes the bound check and leaves the chain. -/
theorem setPosition_capacity {ba : ByteArray} (h : Linked ba) :
    ∃ ba', setPosition ba.capacity ba = .error .nullNode ba' := by
  have hseek := seekLoop_end ba.nodes ba.capacity h.uniform (Nat.le_of_eq h.capacity.symm)
  refine ⟨{ ba with
    position := ba.capacity
    dataSize := if ba.capacity > ba.dataSize then ba.capacity else ba.dataSize }, ?_⟩
  simp only [setPosition, bind_apply, get_apply, gt_iff_lt, Nat.lt_irrefl, if_false, modify_apply,
    hseek, ofExcept_error]

theorem setPosition_beyond {ba : ByteArray} {v : Nat} (hv : ba.capacity < v) :
    setPosition v ba = .error (.outOfRange "ByteArray::setPosition out of range") ba := by
  simp [setPosition, hv]

theorem clear_spec {ba : ByteArray} (h : Linked ba) :
    ∃ ba', clear ba = .ok ⟨⟩ ba' ∧ Linked ba' ∧ Keeps ba ba' ∧
      flat ba' = (flat ba).clear ba.baseSize := by
  have hpos : 1 ≤ ba.nodes.length := List.length_pos_of_ne_nil h.root
  have hlen : (ba.nodes.take 1).length = 1 := by
    rw [List.length_take, Nat.min_eq_left hpos]
  have hroot : ba.nodes.take 1 ≠ [] := List.ne_nil_of_length_pos (by rw [hlen]; exact Nat.one_pos)
  refine ⟨_, rfl, ?_, ⟨rfl, rfl⟩, ?_⟩
  · exact ⟨h.base_pos, h.uniform.take 1, hroot, by simp only [hlen, Nat.mul_one], Nat.le_refl 0,
      Nat.zero_le _, by simp⟩
  · have hone := h.uniform.length_take hpos
    rw [Nat.mul_one] at hone
    simp only [flat, Flat.clear]
    rw [storage_take_drop ba.nodes 1, ← hone, List.take_left]

/-! ## Transfers through the buffer vectors -/

theorem modify_mid (pre chain : List Node) (node : Node) (f : Node → Node) :
    (pre ++ node :: chain).modify pre.length f = pre ++ f node :: chain := by
  induction pre with
  | nil => rfl
  | cons p pre ih => simpa using ih

theorem getElem?_mid (pre chain : List Node) (node : Node) :
    (pre ++ node :: chain)[pre.length]? = some node := by simp

/-- The vectors cover exactly the `len` bytes at offset `npos` of the chain: what is gathered
through them is that stretch, and what is scattered through them is stored there. -/
theorem buffersLoop_spec {base : Nat} (hb : 1 ≤ base) (chain : List Node) (cur npos len : Nat)
    (hu : Uniform base chain) (hp : npos < base) (hn : 0 < len)
    (hfit : npos + len ≤ (storage chain).length) :
    ∃ iovs, buffersLoop chain cur npos (base - npos) len = .ok iovs ∧
      ∀ pre : List Node, pre.length = cur →
        gather (pre ++ chain) iovs = slice (storage chain) npos len ∧
        ∀ bytes : List UInt8, bytes.length ≤ len →
          ∃ chain', scatter iovs bytes (pre ++ chain) = pre ++ chain' ∧
            storage chain' = patch (storage chain) npos bytes ∧ Uniform base chain' ∧
            chain'.length = chain.length := by
  induction chain generalizing cur npos len with
  | nil =>
      rw [storage_nil, List.length_nil] at hfit
      omega
  | cons node chain ih =>
      obtain ⟨hs, hu'⟩ := Uniform.cons.mp hu
      have hlen : node.ptr.length = base := by rw [node.size_eq, hs]
      by_cases hlast : base - npos ≥ len
      · refine ⟨[⟨cur, npos, len⟩], by rw [buffersLoop, if_pos hlast], ?_⟩
        rintro pre rfl
        refine ⟨?_, fun bytes hbytes => ⟨node.store npos bytes :: chain, ?_, ?_, ?_, rfl⟩⟩
        · rw [gather, List.flatMap_singleton, getElem?_mid, storage_cons, slice_of_le (by omega)]
        · simp only [scatter, modify_mid, List.take_of_length_le hbytes]
        · rw [storage_cons, storage_cons, Node.store_ptr, patch_of_le (by omega)]
        · exact Uniform.cons.mpr ⟨hs, hu'⟩
      · have hrest : 0 + (len - (base - npos)) ≤ (storage chain).length := by
          simp only [storage_cons, List.length_append, hlen] at hfit
          omega
        obtain ⟨iovs, hloop, hiovs⟩ := ih (cur + 1) 0 (len - (base - npos)) hu' hb (by omega) hrest
        refine ⟨⟨cur, npos, base - npos⟩ :: iovs, ?_, ?_⟩
        · rw [Nat.sub_zero] at hloop
          rw [buffersLoop, if_neg hlast, nodeSize_uniform hu' (chain_ne_nil hu' (by omega))]
          simp only [bind, Except.bind, hloop]
          rfl
        rintro pre rfl
        constructor
        · -- the vectors behind the first one only see the chain behind this node
          have hg := (hiovs (pre ++ [node]) (by simp)).1
          rw [List.append_assoc, List.singleton_append] at hg
          have hcut : slice node.ptr npos len = slice node.ptr npos (base - npos) := by
            rw [slice, slice, List.take_of_length_le (by simp; omega),
              List.take_of_length_le (by simp; omega)]
          rw [storage_cons, slice_append len (by omega), hlen, hcut, ← hg, gather, gather,
            List.flatMap_cons, getElem?_mid]
        · intro bytes hbytes
          obtain ⟨chain', hsc, hst, hun, hl⟩ :=
            (hiovs (pre ++ [node.store npos (bytes.take (base - npos))]) (by simp)).2
              (bytes.drop (base - npos)) (by rw [List.length_drop]; omega)
          rw [List.append_assoc, List.singleton_append] at hsc
          refine ⟨node.store npos (bytes.take (base - npos)) :: chain', ?_, ?_, ?_, ?_⟩
          · simp only [scatter, modify_mid, hsc, List.append_assoc, List.singleton_append]
          · rw [storage_cons, storage_cons, Node.store_ptr, hst, patch_append bytes (by omega),
              hlen]
          · exact Uniform.cons.mpr ⟨hs, hun⟩
          · simp only [List.length_cons, hl]

theorem room_buffersLoop {chain : List Node} {cur npos ncap len : Nat} {iovs : List Iovec}
    (h : buffersLoop chain cur npos ncap len = .ok iovs) : room iovs = len := by
  induction chain generalizing cur npos ncap len iovs with
  | nil => cases h
  | cons node chain ih =>
      unfold buffersLoop at h
      split at h
      · cases h
        simp [room]
      · rename_i hlt
        cases hn : nodeSize chain with
        | error e => simp [hn, bind, Except.bind] at h
        | ok ncap' =>
            cases hl : buffersLoop chain (cur + 1) 0 ncap' (len - ncap) with
            | error e => simp [hn, hl, bind, Except.bind] at h
            | ok iovs' =>
                simp only [hn, hl, bind, Except.bind, pure, Except.pure, Except.ok.injEq] at h
                have hrest := ih hl
                simp only [room, ← h, List.map_cons, List.sum_cons] at hrest ⊢
                omega

/-- The vectors at the current node, together with the chain they point into. -/
theorem Linked.buffers {ba : ByteArray} (h : Linked ba) {len : Nat} (hpos : 0 < len)
    (hn : ba.position + len ≤ ba.capacity) :
    ∃ iovs, buffersLoop (ba.nodes.drop ba.curNode) ba.curNode (ba.position % ba.baseSize)
        (ba.baseSize - ba.position % ba.baseSize) len = .ok iovs ∧
      gather ba.nodes iovs = slice (storage ba.nodes) ba.position len ∧
      ∀ bytes : List UInt8, bytes.length ≤ len →
        storage (scatter iovs bytes ba.nodes) = patch (storage ba.nodes) ba.position bytes ∧
        Uniform ba.baseSize (scatter iovs bytes ba.nodes) ∧
        (scatter iovs bytes ba.nodes).length = ba.nodes.length := by
  obtain ⟨iovs, hloop, hiovs⟩ := buffersLoop_spec h.base_pos (ba.nodes.drop ba.curNode) ba.curNode
    (ba.position % ba.baseSize) len (h.uniform.drop _) h.npos_lt hpos (h.fits hn)
  have hlen : (ba.nodes.take ba.curNode).length = ba.curNode := by
    rw [List.length_take, Nat.min_eq_left h.cur_le]
  obtain ⟨hg, hs⟩ := hiovs _ hlen
  rw [List.take_append_drop] at hg
  refine ⟨iovs, hloop, hg.trans (h.slice_chain len), fun bytes hbytes => ?_⟩
  obtain ⟨chain', hsc, hst, hun, hl⟩ := hs bytes hbytes
  rw [List.take_append_drop] at hsc
  refine ⟨?_, ?_, ?_⟩
  · rw [hsc, storage_append, hst, h.patch_chain]
  · rw [hsc]
    exact Uniform.append.mpr ⟨h.uniform.take _, hun⟩
  · rw [hsc, List.length_append, hl, ← List.length_append, List.take_append_drop]

/-- Nothing but the node memory changes when the kernel fills the vectors. -/
def fill (iovs : List Iovec) (bytes : List UInt8) (ba : ByteArray) : ByteArray :=
  { ba with nodes := scatter iovs bytes ba.nodes }

/-- `getWriteBuffers(iovs, len)` makes room for `len` bytes at the position and leaves position
and size alone; so does filling the vectors with up to `len` bytes. -/
theorem getWriteBuffers_spec {ba : ByteArray} (h : Linked ba) (len : Nat) :
    ∃ fresh iovs ba', getWriteBuffers len ba = .ok iovs ba' ∧ room iovs = len ∧
      fresh.length = Flat.growth ba.baseSize ba.getRemainingCapacity len ∧
      ba.position + len ≤ ba'.capacity ∧
      ∀ bytes : List UInt8, bytes.length ≤ len →
        Linked (fill iovs bytes ba') ∧ Keeps ba (fill iovs bytes ba') ∧
        flat (fill iovs bytes ba') =
          { flat ba with storage := patch (storage ba.nodes ++ fresh) ba.position bytes } := by
  have hle := Nat.le_trans h.position_le h.dataSize_le
  by_cases hz : len = 0
  · subst hz
    refine ⟨[], [], ba, by simp [getWriteBuffers], rfl, ?_, hle, ?_⟩
    · have hlt : ba.baseSize - 1 < ba.baseSize := by
        have := h.base_pos
        omega
      simp [Flat.growth, Nat.div_eq_of_lt hlt]
    · intro bytes hbytes
      obtain rfl : bytes = [] := List.eq_nil_of_length_eq_zero (by omega)
      exact ⟨h, .refl ba, by simp [fill, scatter, flat]⟩
  · obtain ⟨fresh, b, hadd, hb, hk, hfresh, hflat, hroom⟩ :=
      addCapacity_spec h (Nat.pos_of_ne_zero hz)
    have hpos : b.position = ba.position := congrArg Flat.cursor hflat
    have hsize : b.dataSize = ba.dataSize := congrArg Flat.size hflat
    have hstore : storage b.nodes = storage ba.nodes ++ fresh := congrArg Flat.storage hflat
    rw [← hpos] at hroom
    obtain ⟨iovs, hloop, -, hfill⟩ := hb.buffers (Nat.pos_of_ne_zero hz) hroom
    refine ⟨fresh, iovs, b, ?_, room_buffersLoop hloop, hfresh, hpos ▸ hroom,
      fun bytes hbytes => ?_⟩
    · simp only [getWriteBuffers, if_neg hz, bind_apply, hadd, get_apply,
        hb.nodeSize_cur (Nat.pos_of_ne_zero hz) hroom, ofExcept_ok, hloop]
    · obtain ⟨hst, hun, hl⟩ := hfill bytes hbytes
      refine ⟨⟨hb.base_pos, hun, ?_, ?_, hb.position_le, hb.dataSize_le, hb.cur⟩,
        ⟨hk.base, hk.endian⟩, ?_⟩
      · exact List.ne_nil_of_length_pos (hl ▸ List.length_pos_of_ne_nil hb.root)
      · simp only [fill, hl, ← hb.capacity]
      · simp only [flat, fill, hst, hstore, hpos, hsize]

/-- `getReadBuffers(iovs, len)`: the vectors hold the next `len` bytes, or all there are. -/
theorem getReadBuffers_spec {ba : ByteArray} (h : Linked ba) (len : Nat) :
    ∃ iovs, getReadBuffers len ba = .ok iovs ba ∧
      gather ba.nodes iovs = slice (storage ba.nodes) ba.position (min len ba.getReadSize) := by
  have hmin : (if len > ba.getReadSize then ba.getReadSize else len) = min len ba.getReadSize := by
    split <;> omega
  by_cases hz : min len ba.getReadSize = 0
  · refine ⟨[], ?_, by simp [gather, hz]⟩
    simp only [getReadBuffers, bind_apply, get_apply, hmin, if_pos hz, pure_apply]
  · have hroom : ba.position + min len ba.getReadSize ≤ ba.capacity := by
      have hp := h.position_le
      have hd := h.dataSize_le
      simp only [getReadSize]
      omega
    obtain ⟨iovs, hloop, hg, -⟩ := h.buffers (Nat.pos_of_ne_zero hz) hroom
    refine ⟨iovs, ?_, hg⟩
    simp only [getReadBuffers, bind_apply, get_apply, hmin, if_neg hz,
      h.nodeSize_cur (Nat.pos_of_ne_zero hz) hroom, ofExcept_ok, hloop]

end ByteArray

end CIM
