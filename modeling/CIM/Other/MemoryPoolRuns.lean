import Mathlib.Data.List.Nodup
import CIM.Other.MemoryPool

/-!
# Where the memory pool is safe

Where the size is a multiple of the alignment that has room for the header, `last` is aligned
upwards to `end` at most. Where it is not, requests of one byte move `last` to `end`, and the next
aligned request is served from behind it.
-/
namespace CIM

open Transition

namespace NgxPool

theorem le_ngx_align (d : Nat) : d ≤ ngx_align d NGX_ALIGNMENT := by
  unfold ngx_align NGX_ALIGNMENT
  omega

theorem ngx_align_le {d n : Nat} (h : d ≤ n) (hn : n % NGX_ALIGNMENT = 0) :
    ngx_align d NGX_ALIGNMENT ≤ n := by
  unfold NGX_ALIGNMENT at hn
  unfold ngx_align NGX_ALIGNMENT
  omega

theorem le_place (align : Bool) (b : Region) : b.last ≤ place align b := by
  cases align
  · exact Nat.le_refl _
  · exact le_ngx_align _

/-- The blocks of a pool of this size, what was handed out of them, and the large blocks. -/
structure Chain (size : Nat) (rs : List Region) (pieces larges : List Piece) (mallocs : Nat) :
    Prop where
  chunks : (rs.map Region.chunk).Nodup
  first : ∃ b bs, rs = b :: bs ∧ b.chunk = 0
  given : ∀ b ∈ rs, b.chunk < mallocs
  end_ : ∀ b ∈ rs, b.end_ = size
  room : ∀ b ∈ rs, size ≤ b.room
  last : ∀ b ∈ rs, header b.chunk ≤ b.last ∧ b.last ≤ size
  small : ∀ p ∈ pieces, ∃ b ∈ rs, p.chunk = b.chunk ∧ header b.chunk ≤ p.off ∧
    p.off + p.size ≤ b.last
  disjoint : pieces.Pairwise Piece.Disjoint
  taken : ∀ p ∈ larges, p.chunk < mallocs ∧ ∀ b ∈ rs, b.chunk ≠ p.chunk
  apart : larges.Pairwise Piece.Disjoint

namespace Chain

variable {size mallocs n : Nat} {rs l r : List Region} {b : Region} {small taken : List Piece}

/-- A block serves a request from `m` on. -/
theorem serve {m : Nat} (h : Chain size (l ++ b :: r) small taken mallocs) (hm : b.last ≤ m)
    (hfit : m + n ≤ size) :
    Chain size (l ++ { b with last := m + n } :: r) (⟨b.chunk, m, n⟩ :: small) taken mallocs := by
  have hb : b ∈ l ++ b :: r := List.mem_append_right _ List.mem_cons_self
  have hcases : ∀ c ∈ l ++ { b with last := m + n } :: r,
      c = { b with last := m + n } ∨ c ∈ l ++ b :: r := by
    intro c hc
    rcases List.mem_append.mp hc with hl | hr
    · exact .inr (List.mem_append_left _ hl)
    · rcases List.mem_cons.mp hr with hb | hr
      · exact .inl hb
      · exact .inr (List.mem_append_right _ (List.mem_cons_of_mem _ hr))
  have hkeep : ∀ c ∈ l ++ b :: r, c = b ∨ c ∈ l ++ { b with last := m + n } :: r := by
    intro c hc
    rcases List.mem_append.mp hc with hl | hr
    · exact .inr (List.mem_append_left _ hl)
    · rcases List.mem_cons.mp hr with hb | hr
      · exact .inl hb
      · exact .inr (List.mem_append_right _ (List.mem_cons_of_mem _ hr))
  have hnew : { b with last := m + n } ∈ l ++ { b with last := m + n } :: r :=
    List.mem_append_right _ List.mem_cons_self
  refine ⟨?_, ?_, ?_, ?_, ?_, ?_, ?_, ?_, ?_, h.apart⟩
  · have hchunks := h.chunks
    simp only [List.map_append, List.map_cons] at hchunks ⊢
    exact hchunks
  · obtain ⟨c, cs, he, hc⟩ := h.first
    cases l with
    | nil => exact ⟨_, r, rfl, (List.cons.inj he).1 ▸ hc⟩
    | cons d l => exact ⟨d, _, rfl, (List.cons.inj he).1 ▸ hc⟩
  · intro c hc
    rcases hcases c hc with rfl | hc
    · exact h.given b hb
    · exact h.given c hc
  · intro c hc
    rcases hcases c hc with rfl | hc
    · exact h.end_ b hb
    · exact h.end_ c hc
  · intro c hc
    rcases hcases c hc with rfl | hc
    · exact h.room b hb
    · exact h.room c hc
  · intro c hc
    rcases hcases c hc with rfl | hc
    · exact ⟨Nat.le_trans (h.last b hb).1 (Nat.le_trans hm (Nat.le_add_right m n)), hfit⟩
    · exact h.last c hc
  · intro p hp
    rcases List.mem_cons.mp hp with rfl | hp
    · exact ⟨_, hnew, rfl, Nat.le_trans (h.last b hb).1 hm, Nat.le_refl _⟩
    · obtain ⟨c, hc, hchunk, hoff, hlast⟩ := h.small p hp
      rcases hkeep c hc with rfl | hc
      · exact ⟨_, hnew, hchunk, hoff, Nat.le_trans hlast (Nat.le_trans hm (Nat.le_add_right m n))⟩
      · exact ⟨c, hc, hchunk, hoff, hlast⟩
  · refine List.pairwise_cons.mpr ⟨fun p hp => ?_, h.disjoint⟩
    obtain ⟨c, hc, hchunk, -, hlast⟩ := h.small p hp
    by_cases heq : b.chunk = p.chunk
    · have hcb : c = b := List.inj_on_of_nodup_map h.chunks hc hb (hchunk.symm.trans heq.symm)
      rw [hcb] at hlast
      exact .inr (.inr (Nat.le_trans hlast hm))
    · exact .inl heq
  · intro p hp
    obtain ⟨hlt, hne⟩ := h.taken p hp
    refine ⟨hlt, fun c hc => ?_⟩
    rcases hcases c hc with rfl | hc
    · exact hne b hb
    · exact hne c hc

/-- A call of `malloc`. -/
theorem malloc (h : Chain size rs small taken mallocs) :
    Chain size rs small taken (mallocs + 1) :=
  { h with
    given := fun b hb => Nat.lt_succ_of_lt (h.given b hb)
    taken := fun p hp => ⟨Nat.lt_succ_of_lt (h.taken p hp).1, (h.taken p hp).2⟩ }

/-- The object that `malloc` gives is a new block, which serves a request. -/
theorem add (h : Chain size rs small taken mallocs)
    (hfit : sizeofNgxPoolData + n ≤ size) :
    Chain size (rs ++ [⟨mallocs, size, sizeofNgxPoolData + n, size⟩])
      (⟨mallocs, sizeofNgxPoolData, n⟩ :: small) taken (mallocs + 1) := by
  obtain ⟨b₀, bs, hrs, h₀⟩ := h.first
  have hpos : mallocs ≠ 0 := by
    have hlt := h.given b₀ (hrs ▸ List.mem_cons_self)
    omega
  have hheader : header mallocs = sizeofNgxPoolData := if_neg hpos
  have hcases : ∀ c ∈ rs ++ [(⟨mallocs, size, sizeofNgxPoolData + n, size⟩ : Region)],
      c ∈ rs ∨ c = ⟨mallocs, size, sizeofNgxPoolData + n, size⟩ := by
    intro c hc
    exact (List.mem_append.mp hc).imp_right List.mem_singleton.mp
  have hnew : (⟨mallocs, size, sizeofNgxPoolData + n, size⟩ : Region) ∈
      rs ++ [⟨mallocs, size, sizeofNgxPoolData + n, size⟩] :=
    List.mem_append_right _ List.mem_cons_self
  refine ⟨?_, ⟨b₀, bs ++ [_], by rw [hrs]; rfl, h₀⟩, ?_, ?_, ?_, ?_, ?_, ?_, ?_, h.apart⟩
  · rw [List.map_append, List.map_singleton]
    refine List.nodup_append.mpr ⟨h.chunks, List.nodup_singleton _, ?_⟩
    intro c hc d hd
    obtain ⟨b, hb, rfl⟩ := List.mem_map.mp hc
    rw [List.mem_singleton.mp hd]
    exact Nat.ne_of_lt (h.given b hb)
  · intro c hc
    rcases hcases c hc with hc | rfl
    · exact Nat.lt_succ_of_lt (h.given c hc)
    · exact Nat.lt_succ_self _
  · intro c hc
    rcases hcases c hc with hc | rfl
    · exact h.end_ c hc
    · rfl
  · intro c hc
    rcases hcases c hc with hc | rfl
    · exact h.room c hc
    · exact Nat.le_refl _
  · intro c hc
    rcases hcases c hc with hc | rfl
    · exact h.last c hc
    · exact ⟨Nat.le_trans (Nat.le_of_eq hheader) (Nat.le_add_right _ n), hfit⟩
  · intro p hp
    rcases List.mem_cons.mp hp with rfl | hp
    · exact ⟨_, hnew, rfl, Nat.le_of_eq hheader, Nat.le_refl _⟩
    · obtain ⟨c, hc, hin⟩ := h.small p hp
      exact ⟨c, List.mem_append_left _ hc, hin⟩
  · refine List.pairwise_cons.mpr ⟨fun p hp => ?_, h.disjoint⟩
    obtain ⟨c, hc, hchunk, -⟩ := h.small p hp
    exact .inl (hchunk ▸ (Nat.ne_of_lt (h.given c hc)).symm)
  · intro p hp
    obtain ⟨hlt, hne⟩ := h.taken p hp
    refine ⟨Nat.lt_succ_of_lt hlt, fun c hc => ?_⟩
    rcases hcases c hc with hc | rfl
    · exact hne c hc
    · exact (Nat.ne_of_lt hlt).symm

/-- A large block, of an object that was given before. -/
theorem take {p : Piece} (h : Chain size rs small taken mallocs) (hp : p.chunk < mallocs)
    (hrs : ∀ b ∈ rs, b.chunk ≠ p.chunk) (htaken : ∀ q ∈ taken, p.chunk ≠ q.chunk) :
    Chain size rs small (p :: taken) mallocs where
  chunks := h.chunks
  first := h.first
  given := h.given
  end_ := h.end_
  room := h.room
  last := h.last
  small := h.small
  disjoint := h.disjoint
  taken := List.forall_mem_cons.mpr ⟨⟨hp, hrs⟩, h.taken⟩
  apart := List.pairwise_cons.mpr ⟨fun q hq => .inl (htaken q hq), h.apart⟩

theorem free {taken' : List Piece} (h : Chain size rs small taken mallocs)
    (hs : taken'.Sublist taken) : Chain size rs small taken' mallocs :=
  { h with
    taken := fun p hp => h.taken p (hs.subset hp)
    apart := h.apart.sublist hs }

end Chain

/-- A request is served by one block, from its place on. -/
theorem serve_spec {n : Nat} {align : Bool} {bs bs' : List NgxPoolData} {p : Piece}
    (h : serve n align bs = some (p, bs')) :
    ∃ l b r, bs.map NgxPoolData.toRegion = l ++ b :: r ∧
      bs'.map NgxPoolData.toRegion = l ++ { b with last := place align b + n } :: r ∧
      p = ⟨b.chunk, place align b, n⟩ ∧ (n : Int) ≤ space b (place align b) := by
  induction bs generalizing bs' with
  | nil => cases h
  | cons c cs ih =>
      rw [serve] at h
      split at h
      · rename_i hfit
        obtain ⟨rfl, rfl⟩ := Prod.mk.inj (Option.some.inj h)
        exact ⟨[], c.toRegion, cs.map NgxPoolData.toRegion, rfl, rfl, rfl, hfit⟩
      · obtain ⟨⟨q, ds⟩, hq, he⟩ := Option.map_eq_some_iff.mp h
        obtain ⟨rfl, rfl⟩ := Prod.mk.inj he
        obtain ⟨l, b, r, hcs, hds, hp, hfit⟩ := ih hq
        refine ⟨c.toRegion :: l, b, r, ?_, ?_, hp, hfit⟩
        · rw [List.map_cons, hcs, List.cons_append]
        · rw [List.map_cons, hds, List.cons_append]

/-- The failures are counted, and nothing else in a block changes. -/
theorem fail_regions (i current : Nat) (bs : List NgxPoolData) :
    (fail i current bs).2.map NgxPoolData.toRegion = bs.map NgxPoolData.toRegion := by
  fun_induction fail i current bs with
  | case1 i current b c bs r ih =>
      simp only [List.map_cons] at ih ⊢
      rw [ih]
  | case2 i current bs h => rfl

section Safe

variable {size n : Nat} {s : NgxPool} {mem : Nat → Bool} {larges : List Piece}

theorem place_le (align : Bool) {b : Region} (hmod : size % NGX_ALIGNMENT = 0)
    (hb : b.last ≤ size) : place align b ≤ size := by
  cases align
  · exact hb
  · exact ngx_align_le hb hmod

/-- Where the place is not behind the end, the space does not wrap. -/
theorem fits_of_space {b : Region} {m : Nat} (hlt : size < 18446744073709551616)
    (hend : b.end_ = size) (hm : m ≤ size) (hn : (n : Int) ≤ space b m) : m + n ≤ size := by
  have hspace : space b m = (size : Int) - m := by
    rw [space, hend, Int.emod_eq_of_lt (by omega) (by omega)]
  rw [hspace] at hn
  omega

theorem psize_eq (h : Chain size s.regions s.small larges s.mallocs) : s.psize = size := by
  obtain ⟨b, bs, hbs, -⟩ := h.first
  unfold psize
  cases hs : s.blocks with
  | nil =>
      rw [regions, hs] at hbs
      cases hbs
  | cons c cs => exact h.end_ c.toRegion (by rw [regions, hs]; exact List.mem_cons_self)

theorem Chain.pallocBlock (h : Chain size s.regions s.small larges s.mallocs)
    (hn : sizeofNgxPoolData + n ≤ size) :
    Chain size (s.pallocBlock mem n).2.regions (s.pallocBlock mem n).2.small larges
      (s.pallocBlock mem n).2.mallocs := by
  have hregions : (s.blocks.take s.current).map NgxPoolData.toRegion ++
      (fail s.current s.current (s.blocks.drop s.current)).2.map NgxPoolData.toRegion =
        s.regions := by
    rw [fail_regions, ← List.map_append, List.take_append_drop, regions]
  unfold NgxPool.pallocBlock
  split
  · simp only [regions, List.map_append, hregions, psize_eq h]
    exact h.add hn
  · exact h.malloc

theorem Chain.pallocSmall (mem : Nat → Bool) (align : Bool)
    (h : Chain size s.regions s.small larges s.mallocs)
    (hlt : size < 18446744073709551616) (hmod : size % NGX_ALIGNMENT = 0)
    (hn : sizeofNgxPoolData + n ≤ size) :
    Chain size (s.pallocSmall mem n align).2.regions (s.pallocSmall mem n align).2.small larges
      (s.pallocSmall mem n align).2.mallocs := by
  unfold NgxPool.pallocSmall
  split
  · rename_i p bs hserve
    obtain ⟨l, b, r, hbs, hbs', rfl, hspace⟩ := serve_spec hserve
    have hregions : s.regions = (s.blocks.take s.current).map NgxPoolData.toRegion ++ l ++ b :: r := by
      rw [List.append_assoc, ← hbs, ← List.map_append, List.take_append_drop, regions]
    rw [hregions] at h
    have hb : b ∈ (s.blocks.take s.current).map NgxPoolData.toRegion ++ l ++ b :: r :=
      List.mem_append_right _ List.mem_cons_self
    have hplace := place_le align hmod (h.last b hb).2
    simp only [regions, List.map_append, hbs', ← List.append_assoc]
    exact h.serve (le_place align b) (fits_of_space hlt (h.end_ b hb) hplace hspace)
  · exact h.pallocBlock hn

theorem pallocSmall_max (s : NgxPool) (mem : Nat → Bool) (n : Nat) (align : Bool) :
    (s.pallocSmall mem n align).2.max = s.max ∧ (s.pallocSmall mem n align).2.taken = s.taken := by
  unfold NgxPool.pallocSmall NgxPool.pallocBlock
  split
  · exact ⟨rfl, rfl⟩
  · split <;> exact ⟨rfl, rfl⟩

structure Inv (size : Nat) (s : NgxPool) : Prop where
  max : s.max + sizeofNgxPool ≤ size
  chain : Chain size s.regions s.small s.taken s.mallocs

namespace Inv

theorem created {size : UInt64} (hsize : sizeofNgxPool ≤ size.toNat) :
    Inv size.toNat (create size) where
  max := by
    have hmax : (create size).max ≤ (size - UInt64.ofNat sizeofNgxPool).toNat := Nat.min_le_left _ _
    have hsub : (size - UInt64.ofNat sizeofNgxPool).toNat = size.toNat - sizeofNgxPool :=
      UInt64.toNat_sub_of_le _ _ hsize
    omega
  chain :=
    { chunks := List.nodup_singleton _
      first := ⟨_, [], rfl, rfl⟩
      given := List.forall_mem_singleton.mpr Nat.zero_lt_one
      end_ := List.forall_mem_singleton.mpr rfl
      room := List.forall_mem_singleton.mpr (Nat.le_max_left _ _)
      last := List.forall_mem_singleton.mpr ⟨Nat.le_refl _, hsize⟩
      small := nofun
      disjoint := .nil
      taken := nofun
      apart := .nil }

theorem pallocLarge (h : Inv size s) (hlt : size < 18446744073709551616)
    (hmod : size % NGX_ALIGNMENT = 0) : Inv size (s.pallocLarge mem n).2 := by
  have hnode : sizeofNgxPoolData + sizeofNgxPoolLarge ≤ size :=
    Nat.le_trans (by decide) (Nat.le_trans (Nat.le_add_left _ _) h.max)
  have htake : Chain size s.regions s.small (⟨s.mallocs, 0, n⟩ :: s.taken) (s.mallocs + 1) :=
    h.chain.malloc.take (Nat.lt_succ_self _) (fun b hb => Nat.ne_of_lt (h.chain.given b hb))
      fun q hq => (Nat.ne_of_lt (h.chain.taken q hq).1).symm
  unfold NgxPool.pallocLarge
  split
  · simp only []
    split
    · exact ⟨h.max, htake⟩
    · split
      · rename_i s' hs'
        have hmax := pallocSmall_max { s with mallocs := s.mallocs + 1 } mem sizeofNgxPoolLarge true
        have hchain := Chain.pallocSmall (s := { s with mallocs := s.mallocs + 1 }) mem true
          h.chain.malloc hlt hmod hnode
        rw [hs'] at hmax hchain
        exact ⟨hmax.1 ▸ h.max, hmax.2 ▸ hchain⟩
      · rename_i p s' hs'
        have hmax := pallocSmall_max { s with mallocs := s.mallocs + 1 } mem sizeofNgxPoolLarge true
        have hchain := Chain.pallocSmall (s := { s with mallocs := s.mallocs + 1 }) mem true
          htake hlt hmod hnode
        rw [hs'] at hmax hchain
        exact ⟨hmax.1 ▸ h.max, hchain⟩
  · exact ⟨h.max, h.chain.malloc⟩

theorem request {align : Bool} {n : UInt64} (h : Inv size s) (hlt : size < 18446744073709551616)
    (hmod : size % NGX_ALIGNMENT = 0) : Inv size (NgxPool.request align mem s n).2 := by
  unfold NgxPool.request
  split
  · rename_i hn
    have hfit : sizeofNgxPoolData + n.toNat ≤ size := by
      have hmax := h.max
      unfold sizeofNgxPool at hmax
      unfold sizeofNgxPoolData
      omega
    have hmax := pallocSmall_max s mem n.toNat align
    have hchain := h.chain.pallocSmall mem align hlt hmod hfit
    exact ⟨hmax.1 ▸ h.max, hmax.2 ▸ hchain⟩
  · exact h.pallocLarge hlt hmod

theorem pfree (h : Inv size s) (p : Option Ptr) : Inv size (s.pfree p) := by
  unfold NgxPool.pfree
  split
  · exact ⟨h.max, h.chain.free List.filter_sublist⟩
  · exact h

theorem resetPool (h : Inv size s) : Inv size s.resetPool := by
  obtain ⟨b, bs, hs, h₀⟩ := h.chain.first
  cases hblocks : s.blocks with
  | nil =>
      rw [regions, hblocks] at hs
      cases hs
  | cons c cs =>
      rw [regions, hblocks, List.map_cons] at hs
      obtain ⟨rfl, rfl⟩ := List.cons.inj hs
      have hregions : s.regions = c.toRegion :: cs.map NgxPoolData.toRegion := by
        rw [regions, hblocks, List.map_cons]
      have hreset : s.resetPool.regions = { c.toRegion with last := sizeofNgxPool } ::
          cs.map fun b => { b.toRegion with last := sizeofNgxPoolData } := by
        rw [regions, NgxPool.resetPool, hblocks]
        simp only [List.map_cons, List.map_map]
        rfl
      have hsize : sizeofNgxPool ≤ size := Nat.le_trans (Nat.le_add_left _ _) h.max
      have hchain := h.chain
      rw [hregions] at hchain
      -- every block of the new chain stands for one of the old chain with another `last`
      have hmem : ∀ b ∈ s.resetPool.regions, ∃ b' ∈ c.toRegion :: cs.map NgxPoolData.toRegion,
          b.chunk = b'.chunk ∧ b.end_ = b'.end_ ∧ b.room = b'.room := by
        intro b hb
        rw [hreset] at hb
        rcases List.mem_cons.mp hb with rfl | hb
        · exact ⟨_, List.mem_cons_self, rfl, rfl, rfl⟩
        · obtain ⟨d, hd, rfl⟩ := List.mem_map.mp hb
          exact ⟨_, List.mem_cons_of_mem _ (List.mem_map_of_mem hd), rfl, rfl, rfl⟩
      refine ⟨h.max, ⟨?_, ⟨_, _, hreset, h₀⟩, ?_, ?_, ?_, ?_, nofun, .nil, nofun, .nil⟩⟩
      · have hchunks := hchain.chunks
        rw [hreset]
        simp only [List.map_cons, List.map_map] at hchunks ⊢
        exact hchunks
      · intro b hb
        obtain ⟨b', hb', hc, -⟩ := hmem b hb
        rw [hc]
        exact hchain.given b' hb'
      · intro b hb
        obtain ⟨b', hb', -, he, -⟩ := hmem b hb
        rw [he]
        exact hchain.end_ b' hb'
      · intro b hb
        obtain ⟨b', hb', -, -, hr⟩ := hmem b hb
        rw [hr]
        exact hchain.room b' hb'
      · intro b hb
        rw [hreset] at hb
        rcases List.mem_cons.mp hb with rfl | hb
        · exact ⟨Nat.le_of_eq (if_pos h₀), hsize⟩
        · obtain ⟨d, hd, rfl⟩ := List.mem_map.mp hb
          have hne : d.chunk ≠ 0 := by
            intro hd₀
            have hnot := (List.nodup_cons.mp hchain.chunks).1
            refine hnot (List.mem_map.mpr ⟨d.toRegion, List.mem_map_of_mem hd, ?_⟩)
            exact hd₀.trans h₀.symm
          exact ⟨Nat.le_of_eq (if_neg hne), Nat.le_trans (show 32 ≤ 64 by decide) hsize⟩

theorem exec (h : Inv size s) (hlt : size < 18446744073709551616)
    (hmod : size % NGX_ALIGNMENT = 0) (mem : Nat → Bool) (op : NgxPool.Op) :
    Inv size (NgxPool.exec mem s op).2 := by
  cases op with
  | palloc n => exact h.request hlt hmod
  | pnalloc n => exact h.request hlt hmod
  | pcalloc n => exact h.request hlt hmod
  | pfree p => exact h.pfree p
  | resetPool => exact h.resetPool

theorem safe (h : Inv size s) (hmod : size % NGX_ALIGNMENT = 0) : Safe s where
  space b hb align := by
    rw [h.chain.end_ b hb]
    exact place_le align hmod (h.chain.last b hb).2
  room b hb := by
    rw [h.chain.end_ b hb]
    exact h.chain.room b hb
  inside p hp := by
    obtain ⟨b, hb, hchunk, hoff, hlast⟩ := h.chain.small p hp
    refine ⟨b, hb, hchunk, hoff, Nat.le_trans hlast ?_⟩
    rw [h.chain.end_ b hb]
    exact (h.chain.last b hb).2
  disjoint := by
    refine List.pairwise_append.mpr ⟨h.chain.disjoint, h.chain.apart, fun p hp q hq => ?_⟩
    obtain ⟨b, hb, hchunk, -⟩ := h.chain.small p hp
    exact .inl (hchunk ▸ (h.chain.taken q hq).2 b hb)

end Inv

end Safe

section Unsafe

variable {size : UInt64} {s : NgxPool}

/-- The pool after requests of one byte: one block, whose `last` they have moved. -/
structure OneBlock (size : UInt64) (last : Nat) (s : NgxPool) : Prop where
  block : ∃ b, s.blocks = [b] ∧ b.end_ = size.toNat ∧ b.last = last
  current : s.current = 0
  max : 1 ≤ s.max

theorem OneBlock.created (hsize : size.toNat < sizeofNgxPool ∨ size.toNat % NGX_ALIGNMENT ≠ 0) :
    OneBlock size sizeofNgxPool (create size) where
  block := ⟨_, rfl, rfl, rfl⟩
  current := rfl
  max := by
    have hlt := size.toNat_lt
    have hsub : (size - UInt64.ofNat sizeofNgxPool).toNat =
        (18446744073709551616 - sizeofNgxPool + size.toNat) % 18446744073709551616 :=
      UInt64.toNat_sub _ _
    have hpos : 1 ≤ (size - UInt64.ofNat sizeofNgxPool).toNat := by
      rw [hsub]
      unfold sizeofNgxPool NGX_ALIGNMENT at *
      omega
    exact Nat.le_min.mpr ⟨hpos, by decide⟩

/-- A request of one byte is served where the space, wrapped or not, has one. -/
theorem OneBlock.request {last : Nat} (h : OneBlock size last s) (align : Bool)
    (mem : Nat → Bool) (hspace : ∀ b : Region, b.end_ = size.toNat → b.last = last →
      1 ≤ space b (place align b)) :
    ∃ b : Region, b.last = last ∧ b.end_ = size.toNat ∧
      OneBlock size (place align b + 1) (NgxPool.request align mem s 1).2 ∧
      (⟨b.chunk, place align b, 1⟩ : Piece) ∈ (NgxPool.request align mem s 1).2.small := by
  obtain ⟨b, hb, hend, hlast⟩ := h.block
  have hserve : serve 1 align (s.blocks.drop s.current) =
      some (⟨b.chunk, place align b.toRegion, 1⟩,
        [{ b with last := place align b.toRegion + 1 }]) := by
    rw [h.current, hb, List.drop_zero, serve]
    exact if_pos (hspace b.toRegion hend hlast)
  refine ⟨b.toRegion, hlast, hend, ?_⟩
  have hr : (NgxPool.request align mem s 1).2 = { s with
      blocks := [{ b with last := place align b.toRegion + 1 }]
      small := ⟨b.chunk, place align b.toRegion, 1⟩ :: s.small } := by
    rw [NgxPool.request, if_pos (show (1 : UInt64).toNat ≤ s.max from h.max), NgxPool.pallocSmall]
    have hone : (1 : UInt64).toNat = 1 := rfl
    rw [hone, hserve, h.current, List.take_zero]
    rfl
  rw [hr]
  exact ⟨⟨⟨_, rfl, hend, rfl⟩, h.current, h.max⟩, List.mem_cons_self⟩

/-- Requests of one byte move `last` as far as `end`. -/
theorem run_last (hsize : size.toNat < sizeofNgxPool ∨ size.toNat % NGX_ALIGNMENT ≠ 0) (k : Nat)
    (hk : k ≤ size.toNat - sizeofNgxPool) :
    ∃ es s, (ngxMemPool size).Run es s ∧ OneBlock size (sizeofNgxPool + k) s := by
  induction k with
  | zero => exact ⟨[], _, .start rfl, .created hsize⟩
  | succ k ih =>
      obtain ⟨es, s, hrun, hone⟩ := ih (by omega)
      obtain ⟨b, hlast, -, hnext, -⟩ := hone.request false (fun _ => false) (by
        intro b hend hlast
        have hlt := size.toNat_lt
        rw [space, place, if_neg Bool.false_ne_true, hend, hlast]
        omega)
      rw [place, if_neg Bool.false_ne_true, hlast] at hnext
      exact ⟨_, _, hrun.snoc (e := (.pnalloc 1, _)) ⟨fun _ => false, rfl⟩, hnext⟩

/-- Where the size is too small or not aligned, some run is served from behind the end. -/
theorem run_unsafe (hsize : size.toNat < sizeofNgxPool ∨ size.toNat % NGX_ALIGNMENT ≠ 0) :
    ∃ es s, (ngxMemPool size).Run es s ∧
      ∃ p ∈ s.small, ∀ b ∈ s.regions, b.end_ < p.off + p.size := by
  obtain ⟨es, s, hrun, hone⟩ := run_last hsize (size.toNat - sizeofNgxPool) (Nat.le_refl _)
  have hplace : ∀ b : Region, b.last = sizeofNgxPool + (size.toNat - sizeofNgxPool) →
      size.toNat < place true b ∧ place true b ≤ size.toNat + 72 := by
    intro b hb
    rw [place, if_pos rfl, hb]
    unfold ngx_align NGX_ALIGNMENT sizeofNgxPool at *
    omega
  obtain ⟨b, hb, -, hnext, hp⟩ := hone.request true (fun _ => false) (by
    intro b hend hb
    have hbound := hplace b hb
    have hlt := size.toNat_lt
    rw [space, hend]
    omega)
  refine ⟨_, _, hrun.snoc (e := (.palloc 1, _)) ⟨fun _ => false, rfl⟩, _, hp, ?_⟩
  obtain ⟨c, hc, hend, -⟩ := hnext.block
  intro d hd
  change d ∈ (NgxPool.request true (fun _ => false) s 1).2.blocks.map NgxPoolData.toRegion at hd
  rw [hc] at hd
  rw [List.mem_singleton.mp hd, hend]
  exact Nat.lt_succ_of_lt (hplace b hb).1

end Unsafe

/-- The runs of a pool are safe exactly for the sizes that are a multiple of the alignment and have
room for the header. -/
theorem run_safe (size : UInt64) :
    (∀ es s, (ngxMemPool size).Run es s → Safe s) ↔
      sizeofNgxPool ≤ size.toNat ∧ size.toNat % NGX_ALIGNMENT = 0 := by
  constructor
  · intro hall
    by_contra hno
    have hsize : size.toNat < sizeofNgxPool ∨ size.toNat % NGX_ALIGNMENT ≠ 0 := by omega
    obtain ⟨es, s, hrun, p, hp, hout⟩ := run_unsafe hsize
    obtain ⟨b, hb, -, -, hin⟩ := (hall es s hrun).inside p hp
    exact Nat.not_lt.mpr hin (hout b hb)
  · rintro ⟨hsize, hmod⟩ es s hrun
    have hinv : Inv size.toNat s := by
      refine hrun.invariant (I := Inv size.toNat) ?_ ?_
      · rintro s₀ rfl
        exact .created hsize
      · rintro s₁ ⟨op, p⟩ s₂ h ⟨mem, hexec⟩
        have hnext := h.exec size.toNat_lt hmod mem op
        rw [hexec] at hnext
        exact hnext
    exact hinv.safe hmod

/-- A pool of 100 bytes serves 36 bytes up to its end and the next 8 bytes from behind it. -/
theorem request_behind_end :
    ∃ s, (ngxMemPool 100).Run [(.pnalloc 36, some (0, 64)), (.palloc 8, some (0, 104))] s ∧
      s.small = [⟨0, 104, 8⟩, ⟨0, 64, 36⟩] ∧ ∀ b ∈ s.regions, b.end_ = 100 := by
  have h₀ : (ngxMemPool 100).Run [] (create 100) := .start rfl
  have h₁ := h₀.snoc (e := (.pnalloc 36, some (0, 64))) ⟨fun _ => true, rfl⟩
  have h₂ := h₁.snoc (e := (.palloc 8, some (0, 104))) ⟨fun _ => true, rfl⟩
  exact ⟨_, h₂, rfl, List.forall_mem_singleton.mpr rfl⟩

end NgxPool

end CIM
