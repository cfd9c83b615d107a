import CIM.Net.ByteArrayRuns

/-!
# Reading at a position and views of the blocks

The calls that leave the cursor where it is: `read` and `getReadBuffers` at a given position,
and the vectors over the bytes to be read or to be filled. A position that is not the cursor is
looked at by moving the cursor there, which keeps the array linked.
-/
namespace CIM.ByteArray

open Patch Exec

/-- A difference of two `size_t`. -/
def sizeSub (a b : Nat) : Nat := if b ≤ a then a - b else a + 18446744073709551616 - b

/-- `while (count > 0) { cur = cur->next; --count; }` -/
def walk : List Node → Nat → Except Fault (List Node)
  | chain, 0 => .ok chain
  | [], _+1 => .error .nullNode
  | _ :: chain, count+1 => walk chain count

/-- `read(buf, size, position)` -/
def readAt (size position : Nat) (ba : ByteArray) : Except Fault (List UInt8) := do
  if size = 0 then return []
  if size > sizeSub ba.dataSize position then throw (.outOfRange "not enough len")
  let chain ← walk ba.nodes (position / ba.baseSize)
  let npos := position % ba.baseSize
  let ncap := (← nodeSize chain) - npos
  let (bytes, _) ← readLoop chain npos ncap size
  return bytes

/-- `getReadBuffers(buffer, len, position)`, with the number it returns. -/
def getReadBuffersAt (len position : Nat) (ba : ByteArray) : Except Fault (Nat × List Iovec) := do
  let len := if len > ba.getReadSize then ba.getReadSize else len
  if len = 0 then return (0, [])
  let npos := position % ba.baseSize
  let count := position / ba.baseSize
  let chain ← walk ba.nodes count
  let ncap := (← nodeSize chain) - npos
  return (len, ← buffersLoop chain count npos ncap len)

/-- The number that `getReadBuffers(buffer, len)` returns beside the vectors. -/
def readBuffersSize (len : Nat) (ba : ByteArray) : Nat :=
  let len := if len > ba.getReadSize then ba.getReadSize else len
  if len = 0 then 0 else len

/-- The number that `getWriteBuffers(buffer, len)` returns beside the vectors. -/
def writeBuffersSize (len : Nat) : Nat := if len = 0 then 0 else len

/-- The places in the flat array of the bytes behind a vector. -/
def Iovec.offsets (base : Nat) (iov : Iovec) : List Nat :=
  List.range' (base * iov.node + iov.offset) iov.len

/-- The vector lies within one of `n` nodes. -/
def Iovec.Inside (base n : Nat) (iov : Iovec) : Prop :=
  iov.node < n ∧ iov.offset + iov.len ≤ base

/-- The bytes in the range when they are all there, and the exception otherwise. -/
def ReadsAt (ba : ByteArray) (size position : Nat) : Prop :=
  readAt size position ba = if position + size ≤ ba.dataSize
    then .ok (slice (storage ba.nodes) position size)
    else .error (.outOfRange "not enough len")

/-- The bytes from the position on, as many as are wanted and there, wherever the cursor is. -/
def ViewsAt (ba : ByteArray) (len position : Nat) : Prop :=
  ∃ iovs, getReadBuffersAt len position ba = .ok (min len (ba.dataSize - position), iovs) ∧
    gather ba.nodes iovs =
      slice (storage ba.nodes) position (min len (ba.dataSize - position))

variable {ba : ByteArray} {base : Nat}

theorem walk_drop {nodes : List Node} {n : Nat} (h : n ≤ nodes.length) :
    walk nodes n = .ok (nodes.drop n) := by
  induction nodes generalizing n with
  | nil =>
      obtain rfl : n = 0 := by simpa using h
      rfl
  | cons node nodes ih =>
      cases n with
      | zero => rfl
      | succ n => exact ih (Nat.le_of_succ_le_succ h)

/-- The loops over the chain end early only by leaving it. -/
theorem walk_error {nodes : List Node} {n : Nat} {fault : Fault}
    (h : walk nodes n = .error fault) : fault = .nullNode := by
  induction nodes generalizing n with
  | nil =>
      cases n with
      | zero => cases h
      | succ n =>
          cases h
          rfl
  | cons node nodes ih =>
      cases n with
      | zero => cases h
      | succ n => exact ih h

theorem nodeSize_error {nodes : List Node} {fault : Fault} (h : nodeSize nodes = .error fault) :
    fault = .nullNode := by
  cases nodes with
  | nil =>
      cases h
      rfl
  | cons node nodes => cases h

theorem readLoop_error {chain : List Node} {npos ncap size : Nat} {fault : Fault}
    (h : readLoop chain npos ncap size = .error fault) : fault = .nullNode := by
  induction chain generalizing npos ncap size with
  | nil =>
      cases h
      rfl
  | cons node chain ih =>
      unfold readLoop at h
      by_cases hlast : ncap ≥ size
      · rw [if_pos hlast] at h
        cases h
      · rw [if_neg hlast] at h
        cases hn : nodeSize chain with
        | error e =>
            simp only [hn, bind, Except.bind, Except.error.injEq] at h
            exact h ▸ nodeSize_error hn
        | ok ncap' =>
            cases hl : readLoop chain 0 ncap' (size - ncap) with
            | error e =>
                simp only [hn, hl, bind, Except.bind, Except.error.injEq] at h
                subst h
                exact ih hl
            | ok res => simp [hn, hl, bind, Except.bind, pure, Except.pure] at h

/-- The array with its cursor at `position`. -/
def moved (ba : ByteArray) (position : Nat) : ByteArray :=
  { ba with position := position, curNode := position / ba.baseSize }

theorem Linked.moved (h : Linked ba) {position : Nat} (hp : position ≤ ba.dataSize) :
    Linked (moved ba position) :=
  ⟨h.base_pos, h.uniform, h.root, h.capacity, hp, h.dataSize_le, rfl⟩

/-- At a position inside the data the walk comes to the node that the cursor would be in. -/
theorem Linked.walk (h : Linked ba) {position : Nat} (hp : position ≤ ba.dataSize) :
    walk ba.nodes (position / ba.baseSize) = .ok (ba.nodes.drop (position / ba.baseSize)) :=
  walk_drop (h.moved hp).cur_le

theorem readAt_inside (h : Linked ba) {size position : Nat} (hfit : position + size ≤ ba.dataSize) :
    readAt size position ba = .ok (slice (storage ba.nodes) position size) := by
  by_cases hz : size = 0
  · subst hz
    rfl
  · have hp : position ≤ ba.dataSize := by omega
    have hm := h.moved hp
    have hroom : (moved ba position).position + size ≤ (moved ba position).capacity :=
      Nat.le_trans hfit h.dataSize_le
    have hsub : ¬ size > sizeSub ba.dataSize position := by
      rw [sizeSub, if_pos hp]
      omega
    have hsize : nodeSize (ba.nodes.drop (position / ba.baseSize)) = .ok ba.baseSize :=
      hm.nodeSize_cur (Nat.pos_of_ne_zero hz) hroom
    have hloop := readLoop_spec h.base_pos (ba.nodes.drop (position / ba.baseSize))
      (position % ba.baseSize) size (h.uniform.drop _) hm.npos_lt (Nat.pos_of_ne_zero hz)
      (hm.fits hroom)
    have hslice : slice (storage (ba.nodes.drop (position / ba.baseSize)))
        (position % ba.baseSize) size = slice (storage ba.nodes) position size :=
      hm.slice_chain size
    simp only [readAt, if_neg hz, if_neg hsub, bind, Except.bind, h.walk hp, hsize, hloop,
      hslice, pure, Except.pure]

/-- Past the bound check the exception is no longer thrown. -/
theorem readAt_passed {size position : Nat} (hz : size ≠ 0)
    (hsub : size ≤ sizeSub ba.dataSize position) (what : String) :
    readAt size position ba ≠ .error (.outOfRange what) := by
  intro h
  simp only [readAt, if_neg hz, if_neg (Nat.not_lt.mpr hsub), gt_iff_lt, bind, Except.bind] at h
  cases hw : walk ba.nodes (position / ba.baseSize) with
  | error e =>
      simp only [hw, Except.error.injEq] at h
      exact absurd (h ▸ walk_error hw) (by simp)
  | ok chain =>
      cases hn : nodeSize chain with
      | error e =>
          simp only [hw, hn, Except.error.injEq] at h
          exact absurd (h ▸ nodeSize_error hn) (by simp)
      | ok size' =>
          cases hl : readLoop chain (position % ba.baseSize)
              (size' - position % ba.baseSize) size with
          | error e =>
              simp only [hw, hn, hl, Except.error.injEq] at h
              exact absurd (h ▸ readLoop_error hl) (by simp)
          | ok res => simp [hw, hn, hl, pure, Except.pure] at h

theorem readsAt_iff (h : Linked ba) (size position : Nat) :
    ReadsAt ba size position ↔ position ≤ ba.dataSize ∨
      0 < size ∧ ba.dataSize + 18446744073709551616 < position + size := by
  unfold ReadsAt
  by_cases hfit : position + size ≤ ba.dataSize
  · rw [if_pos hfit]
    exact iff_of_true (readAt_inside h hfit) (.inl (by omega))
  · rw [if_neg hfit]
    by_cases hz : size = 0
    · subst hz
      refine iff_of_false (by simp [readAt, pure, Except.pure]) ?_
      omega
    · by_cases hsub : size > sizeSub ba.dataSize position
      · refine iff_of_true ?_ ?_
        · simp only [readAt, if_neg hz, if_pos hsub, bind, Except.bind]
          rfl
        · unfold sizeSub at hsub
          split at hsub <;> omega
      · refine iff_of_false (readAt_passed hz (Nat.le_of_not_lt hsub) _) ?_
        unfold sizeSub at hsub
        split at hsub <;> omega

theorem viewsAt_iff (h : Linked ba) {len position : Nat} (hp : position ≤ ba.dataSize) :
    ViewsAt ba len position ↔ position = ba.position ∨
      len ≤ ba.dataSize - position ∧ len ≤ ba.dataSize - ba.position := by
  have hcursor := h.position_le
  have hmin : (if len > ba.getReadSize then ba.getReadSize else len) =
      min len (ba.dataSize - ba.position) := by
    unfold getReadSize
    split <;> omega
  have hsame : (position = ba.position ∨
      len ≤ ba.dataSize - position ∧ len ≤ ba.dataSize - ba.position) ↔
      min len (ba.dataSize - ba.position) = min len (ba.dataSize - position) := by
    omega
  rw [hsame]
  constructor
  · rintro ⟨iovs, hg, -⟩
    simp only [getReadBuffersAt, hmin] at hg
    by_cases hz : min len (ba.dataSize - ba.position) = 0
    · simp only [if_pos hz, pure, Except.pure, Except.ok.injEq, Prod.mk.injEq] at hg
      exact hz.trans hg.1
    · simp only [if_neg hz, bind, Except.bind, h.walk hp] at hg
      cases hn : nodeSize (ba.nodes.drop (position / ba.baseSize)) with
      | error e => simp [hn] at hg
      | ok size =>
          cases hl : buffersLoop (ba.nodes.drop (position / ba.baseSize)) (position / ba.baseSize)
              (position % ba.baseSize) (size - position % ba.baseSize)
              (min len (ba.dataSize - ba.position)) with
          | error e => simp [hn, hl] at hg
          | ok iovs' =>
              simp only [hn, hl, pure, Except.pure, Except.ok.injEq, Prod.mk.injEq] at hg
              exact hg.1
  · intro heq
    unfold ViewsAt
    simp only [getReadBuffersAt, hmin, heq]
    by_cases hz : min len (ba.dataSize - position) = 0
    · exact ⟨[], by simp [hz, pure, Except.pure], by simp [gather, hz]⟩
    · have hm := h.moved hp
      have hroom : (moved ba position).position + min len (ba.dataSize - position) ≤
          (moved ba position).capacity := by
        have hcap := h.dataSize_le
        change position + _ ≤ ba.capacity
        omega
      have hsize : nodeSize (ba.nodes.drop (position / ba.baseSize)) = .ok ba.baseSize :=
        hm.nodeSize_cur (Nat.pos_of_ne_zero hz) hroom
      obtain ⟨iovs, hloop, hg, -⟩ := hm.buffers (Nat.pos_of_ne_zero hz) hroom
      refine ⟨iovs, ?_, hg⟩
      simp only [moved] at hloop
      simp only [if_neg hz, bind, Except.bind, h.walk hp, hsize, hloop, pure, Except.pure]

/-- A read at a position is bounded as long as the position is inside the data; the views at a
position are those of the cursor's rest. -/
theorem positional_reads_iff (hb : 1 ≤ base) {arena : Nat → Nat → UInt8}
    (hr : Reachable base arena ba) :
    (∀ size position, ReadsAt ba size position ↔ position ≤ ba.dataSize ∨
      0 < size ∧ ba.dataSize + 18446744073709551616 < position + size) ∧
    ∀ len position, position ≤ ba.dataSize →
      (ViewsAt ba len position ↔ position = ba.position ∨
        len ≤ ba.dataSize - position ∧ len ≤ ba.dataSize - ba.position) := by
  obtain ⟨hl, -⟩ := reachable_linked hb hr
  exact ⟨readsAt_iff hl, fun len position hp => viewsAt_iff hl hp⟩

theorem positional_reads_two_nodes : ∃ ba, Reachable 2 (fun _ _ => 0) ba ∧
    (ReadsAt ba 2 1 ↔ 1 ≤ ba.dataSize ∨
      0 < 2 ∧ ba.dataSize + 18446744073709551616 < 1 + 2) ∧
    (ViewsAt ba 2 3 ↔ 3 = ba.position ∨
      2 ≤ ba.dataSize - 3 ∧ 2 ≤ ba.dataSize - ba.position) := by
  have h0 : (machine 2 fun _ _ => 0).Run [] (new 2 fun _ _ => 0) := .start rfl
  have h1 : (machine 2 fun _ _ => 0).Run [(.write [1, 2, 3], .done)] _ := h0.snoc ⟨trivial, rfl⟩
  have h := positional_reads_iff (by decide : 1 ≤ 2) ⟨_, h1⟩
  exact ⟨_, ⟨_, h1⟩, h.1 2 1, h.2 2 3 (Nat.le_refl 3)⟩

/-- After a write of three bytes: a read behind them passes the bound check, and the view of the
first byte is empty, since nothing is left at the cursor. -/
theorem positional_reads_behind : ∃ ba, Reachable 2 (fun _ _ => 0) ba ∧ ¬ ReadsAt ba 1 4 ∧
    0 ≤ ba.dataSize ∧ ¬ ViewsAt ba 1 0 := by
  have h0 : (machine 2 fun _ _ => 0).Run [] (new 2 fun _ _ => 0) := .start rfl
  have h1 : (machine 2 fun _ _ => 0).Run [(.write [1, 2, 3], .done)] _ := h0.snoc ⟨trivial, rfl⟩
  have hl := (reachable_linked (by decide : 1 ≤ 2) ⟨_, h1⟩).1
  refine ⟨_, ⟨_, h1⟩, fun hreads => ?_, Nat.zero_le _, fun hviews => ?_⟩
  · exact absurd ((readsAt_iff hl 1 4).mp hreads) (by decide)
  · exact absurd ((viewsAt_iff hl (Nat.zero_le _)).mp hviews) (by decide)

/-- The vectors of the loop point to consecutive places of the flat array. -/
theorem offsets_buffersLoop {chain : List Node} {cur npos len : Nat} {iovs : List Iovec}
    (hu : Uniform base chain) (hp : npos < base)
    (h : buffersLoop chain cur npos (base - npos) len = .ok iovs) :
    iovs.flatMap (Iovec.offsets base) = List.range' (base * cur + npos) len ∧
      ∀ iov ∈ iovs, iov.Inside base (cur + chain.length) := by
  induction chain generalizing cur npos len iovs with
  | nil => cases h
  | cons node chain ih =>
      unfold buffersLoop at h
      have hlen : cur + (node :: chain).length = cur + 1 + chain.length := by
        rw [List.length_cons]
        omega
      by_cases hlast : base - npos ≥ len
      · rw [if_pos hlast] at h
        cases h
        refine ⟨List.flatMap_singleton .., ?_⟩
        intro iov hiov
        obtain rfl := List.mem_singleton.mp hiov
        exact ⟨by simp only [List.length_cons]; omega, by simp only; omega⟩
      · rw [if_neg hlast] at h
        obtain ⟨hs, hu'⟩ := Uniform.cons.mp hu
        by_cases hnil : chain = []
        · subst hnil
          cases h
        · cases hl : buffersLoop chain (cur + 1) 0 base (len - (base - npos)) with
          | error e =>
              simp [nodeSize_uniform hu' hnil, hl, bind, Except.bind] at h
          | ok rest =>
              simp only [nodeSize_uniform hu' hnil, hl, bind, Except.bind, pure, Except.pure,
                Except.ok.injEq] at h
              obtain ⟨hoff, hin⟩ := ih hu' (Nat.zero_lt_of_lt hp) hl
              subst h
              have hnext : base * (cur + 1) + 0 = base * cur + npos + 1 * (base - npos) := by
                rw [Nat.mul_succ]
                omega
              have hsum : len = base - npos + (len - (base - npos)) := by omega
              refine ⟨?_, List.forall_mem_cons.mpr ⟨?_, hlen ▸ hin⟩⟩
              · rw [List.flatMap_cons, hoff, hnext, Iovec.offsets, List.range'_append, ← hsum]
              · exact ⟨by simp only [List.length_cons]; omega, by simp only; omega⟩

/-- The vectors at the cursor, as places of the flat array. -/
theorem Linked.offsets (h : Linked ba) {len : Nat} {iovs : List Iovec}
    (hloop : buffersLoop (ba.nodes.drop ba.curNode) ba.curNode (ba.position % ba.baseSize)
      (ba.baseSize - ba.position % ba.baseSize) len = .ok iovs) :
    iovs.flatMap (Iovec.offsets ba.baseSize) = List.range' ba.position len ∧
      ∀ iov ∈ iovs, iov.Inside ba.baseSize ba.nodes.length := by
  have ho := offsets_buffersLoop (h.uniform.drop _) h.npos_lt hloop
  have hcur := h.cur_le
  rw [← h.position_eq, List.length_drop, Nat.add_sub_cancel' hcur] at ho
  exact ho

theorem getWriteBuffers_places (h : Linked ba) (len : Nat) :
    ∃ iovs ba' fresh, getWriteBuffers len ba = .ok iovs ba' ∧ room iovs = len ∧
      ba.position + len ≤ ba'.capacity ∧
      iovs.flatMap (Iovec.offsets ba.baseSize) = List.range' ba.position len ∧
      (∀ iov ∈ iovs, iov.Inside ba.baseSize ba'.nodes.length) ∧
      storage ba'.nodes = storage ba.nodes ++ fresh ∧ ba'.dataSize = ba.dataSize ∧
      ba'.position = ba.position := by
  by_cases hz : len = 0
  · subst hz
    exact ⟨[], ba, [], by simp [getWriteBuffers], rfl, Nat.le_trans h.position_le h.dataSize_le,
      rfl, by simp, (List.append_nil _).symm, rfl, rfl⟩
  · obtain ⟨fresh, b, hadd, hb, hk, -, hflat, hroom⟩ := addCapacity_spec h (Nat.pos_of_ne_zero hz)
    have hpos : b.position = ba.position := congrArg Flat.cursor hflat
    rw [← hpos] at hroom
    obtain ⟨iovs, hloop, -⟩ := hb.buffers (Nat.pos_of_ne_zero hz) hroom
    obtain ⟨hoff, hin⟩ := hb.offsets hloop
    rw [hk.base] at hoff hin
    refine ⟨iovs, b, fresh, ?_, room_buffersLoop hloop, hpos ▸ hroom, hpos ▸ hoff, hin,
      congrArg Flat.storage hflat, congrArg Flat.size hflat, hpos⟩
    simp only [getWriteBuffers, if_neg hz, bind_apply, hadd, get_apply,
      hb.nodeSize_cur (Nat.pos_of_ne_zero hz) hroom, ofExcept_ok, hloop]

theorem of_ofExcept_ok {α : Type} {x : Except Fault α} {a : α} {ba' : ByteArray}
    (h : ofExcept x ba = .ok a ba') : x = .ok a := by
  cases x with
  | error e => cases h
  | ok b =>
      cases h
      rfl

theorem getReadBuffers_room {len : Nat} {iovs : List Iovec} {ba' : ByteArray}
    (h : getReadBuffers len ba = .ok iovs ba') : room iovs = readBuffersSize len ba := by
  unfold readBuffersSize
  obtain ⟨b, s, hget, h⟩ := of_bind_ok h
  cases hget
  by_cases hz : (if len > ba.getReadSize then ba.getReadSize else len) = 0
  · simp only [if_pos hz] at h ⊢
    cases h
    rfl
  · simp only [if_neg hz] at h ⊢
    obtain ⟨size, s, -, h⟩ := of_bind_ok h
    exact room_buffersLoop (of_ofExcept_ok h)

theorem readBuffersSize_eq (len : Nat) : readBuffersSize len ba = min len ba.getReadSize := by
  unfold readBuffersSize
  dsimp only
  split <;> split <;> omega

/-- The vectors to be read hold the next bytes, and those to be written are the storage behind
the cursor; neither call changes the bytes, the size or the cursor. -/
theorem buffers_views (hb : 1 ≤ base) {arena : Nat → Nat → UInt8}
    (hr : Reachable base arena ba) (len : Nat) :
    (∃ iovs, getReadBuffers len ba = .ok iovs ba ∧
      readBuffersSize len ba = min len ba.getReadSize ∧ room iovs = min len ba.getReadSize ∧
      gather ba.nodes iovs = slice (storage ba.nodes) ba.position (min len ba.getReadSize)) ∧
    ∃ iovs ba' fresh, getWriteBuffers len ba = .ok iovs ba' ∧ writeBuffersSize len = len ∧
      room iovs = len ∧ ba.position + len ≤ ba'.capacity ∧
      iovs.flatMap (Iovec.offsets base) = List.range' ba.position len ∧
      (∀ iov ∈ iovs, iov.Inside base ba'.nodes.length) ∧
      storage ba'.nodes = storage ba.nodes ++ fresh ∧ ba'.dataSize = ba.dataSize ∧
      ba'.position = ba.position := by
  obtain ⟨hl, rfl⟩ := reachable_linked hb hr
  obtain ⟨iovs, hg, hgather⟩ := getReadBuffers_spec hl len
  obtain ⟨iovs', ba', fresh, hw, hplaces⟩ := getWriteBuffers_places hl len
  have hsize : writeBuffersSize len = len := by
    unfold writeBuffersSize
    split <;> omega
  refine ⟨⟨iovs, hg, readBuffersSize_eq len, ?_, hgather⟩, iovs', ba', fresh, hw, hsize, hplaces⟩
  rw [getReadBuffers_room hg, readBuffersSize_eq]

theorem buffers_views_two_nodes : ∃ ba, Reachable 2 (fun _ _ => 0) ba ∧
    ∃ iovs ba' fresh, getWriteBuffers 3 ba = .ok iovs ba' ∧
      iovs.flatMap (Iovec.offsets 2) = List.range' ba.position 3 ∧
      storage ba'.nodes = storage ba.nodes ++ fresh := by
  have h0 : (machine 2 fun _ _ => 0).Run [] (new 2 fun _ _ => 0) := .start rfl
  have h1 : (machine 2 fun _ _ => 0).Run [(.write [1], .done)] _ := h0.snoc ⟨trivial, rfl⟩
  obtain ⟨-, iovs, ba', fresh, hw, -, -, -, hoff, -, hst, -⟩ :=
    buffers_views (by decide : 1 ≤ 2) ⟨_, h1⟩ 3
  exact ⟨_, ⟨_, h1⟩, iovs, ba', fresh, hw, hoff, hst⟩

end CIM.ByteArray
