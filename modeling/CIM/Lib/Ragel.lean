import Mathlib.Data.List.Basic
import Mathlib.Tactic.Common

/-!
# Regular expressions with embedded actions

Expressions of the Ragel language and the machine that is made of them. An action is a number in
the order in which the embeddings stand in the text. The machine follows all residuals of an
expression at once, and on a byte performs every action that some residual has there, once and in
order.
-/
namespace Ragel

inductive Rx
  | sym (p : UInt8 → Bool)
  | eps
  | alt (r s : Rx)
  | seq (r s : Rx)
  | star (r : Rx)
  /-- `r >n` -/
  | enter (n : Nat) (r : Rx)
  /-- `r %n` -/
  | leave (n : Nat) (r : Rx)

namespace Rx

/-- `r?` -/
def opt (r : Rx) : Rx := .alt r .eps

/-- `r+` -/
def plus (r : Rx) : Rx := .seq r (.star r)

def chr (c : UInt8) : Rx := .sym (· == c)

/-- `r{n}` -/
def times (r : Rx) : Nat → Rx
  | 0 => .eps
  | n + 1 => .seq r (r.times n)

/-- The empty text is accepted. -/
@[simp] def nullable : Rx → Bool
  | sym _ => false
  | eps => true
  | alt r s => r.nullable || s.nullable
  | seq r s => r.nullable && s.nullable
  | star _ => true
  | enter _ r => r.nullable
  | leave _ r => r.nullable

/-- The actions that are pending where the expression is left; an entering action is one of them
where nothing was read. -/
@[simp] def out : Rx → List Nat
  | sym _ => []
  | eps => []
  | alt r s => (if r.nullable then r.out else []) ++ (if s.nullable then s.out else [])
  | seq r s => r.out ++ s.out
  | star r => if r.nullable then r.out else []
  | enter n r => n :: r.out
  | leave n r => n :: r.out

/-- What one byte leads to, with the actions on the way. -/
@[simp] def next : Rx → UInt8 → List (List Nat × Rx)
  | sym p, c => if p c then [([], eps)] else []
  | eps, _ => []
  | alt r s, c => r.next c ++ s.next c
  | seq r s, c => ((r.next c).map fun t => (t.1, seq t.2 s)) ++
      if r.nullable then (s.next c).map fun t => (r.out ++ t.1, t.2) else []
  | star r, c => (r.next c).map fun t =>
      ((if r.nullable then r.out else []) ++ t.1, seq t.2 (star r))
  | enter n r, c => (r.next c).map fun t => (n :: t.1, t.2)
  | leave n r, c => (r.next c).map fun t => (t.1, leave n t.2)

end Rx

variable {σ : Type}

/-- The actions below `k` that are to be performed, in their order, at the place `p`. -/
def perform (act : Nat → Nat → σ → σ) (p : Nat) (P : Nat → Prop) [DecidablePred P] : Nat → σ → σ
  | 0, s => s
  | k + 1, s => if P k then act p k (perform act p P k s) else perform act p P k s

/-- The machine in some residuals, on the bytes from the place `p` on. At the end of the text the
pending actions of the final residuals are performed. -/
def exec (act : Nat → Nat → σ → σ) (k : Nat) : List Rx → Nat → List UInt8 → σ → Option σ
  | states, p, [], s =>
      if states.any Rx.nullable then
        some (perform act p
          (· ∈ states.flatMap fun r => if r.nullable then r.out else []) k s)
      else none
  | states, p, c :: rest, s =>
      let ts := states.flatMap (·.next c)
      if ts.isEmpty then none
      else exec act k (ts.map Prod.snd) (p + 1) rest
        (perform act p (· ∈ ts.flatMap Prod.fst) k s)

namespace Rx

/-! ## Residuals -/

/-- `x` is a residual of `r` after some bytes. -/
@[simp] def Reach : Rx → List UInt8 → Rx → Prop
  | r, [], x => x = r
  | r, c :: u, x => ∃ t ∈ r.next c, Reach t.2 u x

/-- The bytes are the front of an accepted text. -/
def Viable (r : Rx) (u : List UInt8) : Prop := ∃ x, r.Reach u x

def Accepts (r : Rx) (u : List UInt8) : Prop := ∃ x, r.Reach u x ∧ x.nullable = true

/-- Action `n` is pending behind the bytes. -/
def Pending (r : Rx) (u : List UInt8) (n : Nat) : Prop :=
  ∃ x, r.Reach u x ∧ x.nullable = true ∧ n ∈ x.out

/-- Action `n` is performed on the byte `c` behind the bytes `u`. -/
def Fires (r : Rx) (u : List UInt8) (c : UInt8) (n : Nat) : Prop :=
  ∃ x, r.Reach u x ∧ ∃ t ∈ x.next c, n ∈ t.1

variable {r s x : Rx} {u v : List UInt8} {c : UInt8} {n : Nat}

/-- All residuals. -/
def residuals : Rx → List UInt8 → List Rx
  | r, [] => [r]
  | r, c :: u => (r.next c).flatMap fun t => t.2.residuals u

theorem mem_residuals : x ∈ r.residuals u ↔ r.Reach u x := by
  induction u generalizing r with
  | nil => exact List.mem_singleton
  | cons c u ih => simp only [residuals, Reach, List.mem_flatMap, ih]

instance : Decidable (r.Accepts u) :=
  decidable_of_iff (∃ x ∈ r.residuals u, x.nullable = true) (by simp only [mem_residuals, Accepts])

theorem reach_append : r.Reach (u ++ v) x ↔ ∃ y, r.Reach u y ∧ y.Reach v x := by
  induction u generalizing r with
  | nil => simp [Reach]
  | cons c u ih =>
      simp only [List.cons_append, Reach, ih]
      constructor
      · rintro ⟨t, ht, y, hy, hx⟩
        exact ⟨y, ⟨t, ht, hy⟩, hx⟩
      · rintro ⟨y, ⟨t, ht, hy⟩, hx⟩
        exact ⟨t, ht, y, hy, hx⟩

theorem reach_singleton : r.Reach [c] x ↔ ∃ t ∈ r.next c, t.2 = x := by
  simp only [Reach, eq_comm]

theorem Viable.front (h : r.Viable (u ++ v)) : r.Viable u := by
  obtain ⟨x, hx⟩ := h
  obtain ⟨y, hy, -⟩ := reach_append.mp hx
  exact ⟨y, hy⟩

theorem Accepts.viable (h : r.Accepts u) : r.Viable u := h.imp fun _ hx => hx.1

theorem Fires.viable (h : r.Fires u c n) : r.Viable (u ++ [c]) := by
  obtain ⟨x, hx, t, ht, -⟩ := h
  exact ⟨t.2, reach_append.mpr ⟨x, hx, reach_singleton.mpr ⟨t, ht, rfl⟩⟩⟩

theorem Pending.accepts (h : r.Pending u n) : r.Accepts u := h.imp fun _ hx => ⟨hx.1, hx.2.1⟩

theorem viable_singleton : r.Viable [c] ↔ r.next c ≠ [] := by
  simp only [Viable, reach_singleton]
  constructor
  · rintro ⟨x, t, ht, -⟩ hnil
    rw [hnil] at ht
    cases ht
  · intro h
    obtain ⟨t, ht⟩ := List.exists_mem_of_ne_nil _ h
    exact ⟨t.2, t, ht, rfl⟩

theorem accepts_nil : r.Accepts [] ↔ r.nullable = true := by
  simp [Accepts, Reach]

theorem reach_alt (hu : u ≠ []) : (alt r s).Reach u x ↔ r.Reach u x ∨ s.Reach u x := by
  obtain ⟨c, u, rfl⟩ := List.exists_cons_of_ne_nil hu
  simp only [Reach, next, List.mem_append, or_and_right, exists_or]

/-- A concatenation is in its first part, or has handed over to the second. -/
theorem reach_seq : (seq r s).Reach u x ↔ (∃ y, r.Reach u y ∧ x = seq y s) ∨
    ∃ v w, u = v ++ w ∧ w ≠ [] ∧ r.Accepts v ∧ s.Reach w x := by
  induction u generalizing r with
  | nil => simp [Reach]
  | cons c u ih =>
      simp only [Reach, next, List.mem_append, List.mem_map, or_and_right, exists_or]
      constructor
      · rintro (⟨t, ⟨t', ht', rfl⟩, hx⟩ | ⟨t, ht, hx⟩)
        · rcases ih.mp hx with ⟨y, hy, rfl⟩ | ⟨v, w, rfl, hw, ⟨y, hy, hnull⟩, hx⟩
          · exact .inl ⟨y, ⟨t', ht', hy⟩, rfl⟩
          · exact .inr ⟨c :: v, w, rfl, hw, ⟨y, ⟨t', ht', hy⟩, hnull⟩, hx⟩
        · split at ht
          · rename_i hnull
            obtain ⟨t', ht', rfl⟩ := List.mem_map.mp ht
            exact .inr ⟨[], c :: u, rfl, by simp, accepts_nil.mpr hnull, t', ht', hx⟩
          · cases ht
      · rintro (⟨y, ⟨t, ht, hy⟩, rfl⟩ | ⟨v, w, huv, hw, hv, hx⟩)
        · exact .inl ⟨_, ⟨t, ht, rfl⟩, ih.mpr (.inl ⟨y, hy, rfl⟩)⟩
        · cases v with
          | nil =>
              have hnull := accepts_nil.mp hv
              obtain rfl : c :: u = w := huv
              obtain ⟨t, ht, hx⟩ := hx
              refine .inr ⟨(r.out ++ t.1, t.2), ?_, hx⟩
              rw [if_pos hnull]
              exact List.mem_map.mpr ⟨t, ht, rfl⟩
          | cons c' v =>
              obtain ⟨rfl, rfl⟩ := List.cons.inj huv
              obtain ⟨y, ⟨t, ht, hy⟩, hnull⟩ := hv
              exact .inl ⟨_, ⟨t, ht, rfl⟩, ih.mpr (.inr ⟨v, w, rfl, hw, ⟨y, hy, hnull⟩, hx⟩)⟩

/-- The actions that are embedded in the expression. -/
@[simp] def labels : Rx → List Nat
  | sym _ => []
  | eps => []
  | alt r s => r.labels ++ s.labels
  | seq r s => r.labels ++ s.labels
  | star r => r.labels
  | enter n r => n :: r.labels
  | leave n r => n :: r.labels

theorem labels_out (h : n ∈ r.out) : n ∈ r.labels := by
  induction r with
  | sym p => cases h
  | eps => cases h
  | alt r s ihr ihs =>
      rcases List.mem_append.mp h with h | h
      · split at h
        · exact List.mem_append_left _ (ihr h)
        · cases h
      · split at h
        · exact List.mem_append_right _ (ihs h)
        · cases h
  | seq r s ihr ihs =>
      rcases List.mem_append.mp h with h | h
      · exact List.mem_append_left _ (ihr h)
      · exact List.mem_append_right _ (ihs h)
  | star r ih =>
      rw [out] at h
      split at h
      · exact ih h
      · cases h
  | enter i r ih =>
      rcases List.mem_cons.mp h with rfl | h
      · exact List.mem_cons_self ..
      · exact List.mem_cons_of_mem _ (ih h)
  | leave i r ih =>
      rcases List.mem_cons.mp h with rfl | h
      · exact List.mem_cons_self ..
      · exact List.mem_cons_of_mem _ (ih h)

theorem labels_next {t : List Nat × Rx} (ht : t ∈ r.next c) (h : n ∈ t.1 ∨ n ∈ t.2.labels) :
    n ∈ r.labels := by
  induction r generalizing t with
  | sym p =>
      rw [next] at ht
      split at ht
      · rw [List.mem_singleton.mp ht] at h
        rcases h with h | h <;> cases h
      · cases ht
  | eps => cases ht
  | alt r s ihr ihs =>
      rcases List.mem_append.mp ht with ht | ht
      · exact List.mem_append_left _ (ihr ht h)
      · exact List.mem_append_right _ (ihs ht h)
  | seq r s ihr ihs =>
      rcases List.mem_append.mp ht with ht | ht
      · obtain ⟨t', ht', rfl⟩ := List.mem_map.mp ht
        rcases h with h | h
        · exact List.mem_append_left _ (ihr ht' (.inl h))
        · rcases List.mem_append.mp h with h | h
          · exact List.mem_append_left _ (ihr ht' (.inr h))
          · exact List.mem_append_right _ h
      · split at ht
        · obtain ⟨t', ht', rfl⟩ := List.mem_map.mp ht
          rcases h with h | h
          · rcases List.mem_append.mp h with h | h
            · exact List.mem_append_left _ (labels_out h)
            · exact List.mem_append_right _ (ihs ht' (.inl h))
          · exact List.mem_append_right _ (ihs ht' (.inr h))
        · cases ht
  | star r ih =>
      obtain ⟨t', ht', rfl⟩ := List.mem_map.mp ht
      rcases h with h | h
      · rcases List.mem_append.mp h with h | h
        · split at h
          · exact (labels_out h : n ∈ r.labels)
          · cases h
        · exact ih ht' (.inl h)
      · rcases List.mem_append.mp h with h | h
        · exact ih ht' (.inr h)
        · exact h
  | enter i r ih =>
      obtain ⟨t', ht', rfl⟩ := List.mem_map.mp ht
      rcases h with h | h
      · rcases List.mem_cons.mp h with rfl | h
        · exact List.mem_cons_self ..
        · exact List.mem_cons_of_mem _ (ih ht' (.inl h))
      · exact List.mem_cons_of_mem _ (ih ht' (.inr h))
  | leave i r ih =>
      obtain ⟨t', ht', rfl⟩ := List.mem_map.mp ht
      rcases h with h | h
      · exact List.mem_cons_of_mem _ (ih ht' (.inl h))
      · rcases List.mem_cons.mp h with rfl | h
        · exact List.mem_cons_self ..
        · exact List.mem_cons_of_mem _ (ih ht' (.inr h))

theorem labels_reach (hx : r.Reach u x) (h : n ∈ x.labels) : n ∈ r.labels := by
  induction u generalizing r with
  | nil =>
      rw [← show x = r from hx]
      exact h
  | cons c u ih =>
      obtain ⟨t, ht, hx⟩ := hx
      exact labels_next ht (.inr (ih hx))

theorem Fires.mem_labels (h : r.Fires u c n) : n ∈ r.labels := by
  obtain ⟨x, hx, t, ht, hn⟩ := h
  exact labels_reach hx (labels_next ht (.inl hn))

theorem Pending.mem_labels (h : r.Pending u n) : n ∈ r.labels := by
  obtain ⟨x, hx, -, hn⟩ := h
  exact labels_reach hx (labels_out hn)

/-- No action is embedded in the expression. -/
def plain (r : Rx) : Bool := r.labels.isEmpty

theorem plain_iff : r.plain = true ↔ r.labels = [] := List.isEmpty_iff

theorem not_mem_labels (h : r.plain = true) (n : Nat) : n ∉ r.labels := by
  rw [plain_iff.mp h]
  exact List.not_mem_nil

/-- No text of the expression has the byte in it. -/
@[simp] def avoids (c : UInt8) : Rx → Bool
  | sym p => !p c
  | eps => true
  | alt r s => r.avoids c && s.avoids c
  | seq r s => r.avoids c && s.avoids c
  | star r => r.avoids c
  | enter _ r => r.avoids c
  | leave _ r => r.avoids c

theorem avoids_next {d : UInt8} (h : r.avoids d = true) {t : List Nat × Rx} (ht : t ∈ r.next c) :
    c ≠ d ∧ t.2.avoids d = true := by
  induction r generalizing t with
  | sym p =>
      rw [next] at ht
      split at ht
      · rename_i hp
        rw [List.mem_singleton.mp ht]
        refine ⟨?_, rfl⟩
        rintro rfl
        simp [avoids, hp] at h
      · cases ht
  | eps => cases ht
  | alt r s ihr ihs =>
      rw [avoids, Bool.and_eq_true] at h
      rcases List.mem_append.mp ht with ht | ht
      · exact ihr h.1 ht
      · exact ihs h.2 ht
  | seq r s ihr ihs =>
      rw [avoids, Bool.and_eq_true] at h
      rcases List.mem_append.mp ht with ht | ht
      · obtain ⟨t', ht', rfl⟩ := List.mem_map.mp ht
        obtain ⟨hne, hav⟩ := ihr h.1 ht'
        exact ⟨hne, by simp [avoids, hav, h.2]⟩
      · split at ht
        · obtain ⟨t', ht', rfl⟩ := List.mem_map.mp ht
          obtain ⟨hne, hav⟩ := ihs h.2 ht'
          exact ⟨hne, hav⟩
        · cases ht
  | star r ih =>
      have hr : r.avoids d = true := h
      obtain ⟨t', ht', rfl⟩ := List.mem_map.mp ht
      obtain ⟨hne, hav⟩ := ih hr ht'
      exact ⟨hne, by simp [avoids, hav, hr]⟩
  | enter i r ih =>
      obtain ⟨t', ht', rfl⟩ := List.mem_map.mp ht
      obtain ⟨hne, hav⟩ := ih h ht'
      exact ⟨hne, hav⟩
  | leave i r ih =>
      obtain ⟨t', ht', rfl⟩ := List.mem_map.mp ht
      obtain ⟨hne, hav⟩ := ih h ht'
      exact ⟨hne, hav⟩

theorem Viable.not_mem {d : UInt8} (hv : r.Viable u) (h : r.avoids d = true) : d ∉ u := by
  obtain ⟨x, hx⟩ := hv
  induction u generalizing r with
  | nil => exact List.not_mem_nil
  | cons c u ih =>
      obtain ⟨t, ht, hx⟩ := hx
      obtain ⟨hne, hav⟩ := avoids_next h ht
      rw [List.mem_cons, not_or]
      exact ⟨hne.symm, ih hav hx⟩

theorem viable_chr_seq {d : UInt8} (h : (seq (chr d) r).Viable (c :: u)) : c = d := by
  have hnext := viable_singleton.mp (Viable.front (u := [c]) (v := u) h)
  by_contra hne
  exact hnext (by simp [next, chr, nullable, hne])

theorem mem_of_viable_chr_seq {d : UInt8} (hu : u ≠ []) (h : (seq (chr d) r).Viable u) : d ∈ u := by
  obtain ⟨c, u, rfl⟩ := List.exists_cons_of_ne_nil hu
  rw [viable_chr_seq h]
  exact List.mem_cons_self ..

theorem viable_opt (hu : u ≠ []) : (opt r).Viable u ↔ r.Viable u := by
  obtain ⟨c, u, rfl⟩ := List.exists_cons_of_ne_nil hu
  simp [Viable, opt, Reach, next]

theorem accepts_alt : (alt r s).Accepts u ↔ r.Accepts u ∨ s.Accepts u := by
  by_cases hu : u = []
  · simp [hu, accepts_nil, nullable]
  · simp only [Accepts, reach_alt hu, or_and_right, exists_or]

theorem viable_alt : (alt r s).Viable u ↔ r.Viable u ∨ s.Viable u := by
  by_cases hu : u = []
  · exact hu ▸ iff_of_true ⟨_, rfl⟩ (.inl ⟨_, rfl⟩)
  · simp only [Viable, reach_alt hu, exists_or]

theorem accepts_opt : (opt r).Accepts u ↔ r.Accepts u ∨ u = [] := by
  rw [opt, accepts_alt]
  refine or_congr_right ?_
  cases u with
  | nil => simp [accepts_nil, nullable]
  | cons c u => simp [Accepts, Reach, next]

theorem Accepts.seq (hr : r.Accepts u) (hs : s.Accepts v) : (Rx.seq r s).Accepts (u ++ v) := by
  obtain ⟨y, hy, hnull⟩ := hs
  by_cases hv : v = []
  · obtain ⟨x, hx, hnull'⟩ := hr
    subst hv
    obtain rfl : y = s := hy
    rw [List.append_nil]
    exact ⟨_, reach_seq.mpr (.inl ⟨x, hx, rfl⟩), by simp [nullable, hnull, hnull']⟩
  · exact ⟨y, reach_seq.mpr (.inr ⟨u, v, rfl, hv, hr, hy⟩), hnull⟩

theorem Viable.of_seq (h : (Rx.seq r s).Viable u) :
    r.Viable u ∨ ∃ v w, u = v ++ w ∧ w ≠ [] ∧ r.Accepts v ∧ s.Viable w := by
  obtain ⟨x, hx⟩ := h
  rcases reach_seq.mp hx with ⟨y, hy, -⟩ | ⟨v, w, huv, hw, hv, hx⟩
  · exact .inl ⟨y, hy⟩
  · exact .inr ⟨v, w, huv, hw, hv, x, hx⟩

/-- Where an action of a concatenation comes from. -/
theorem Fires.of_seq (h : (Rx.seq r s).Fires u c n) :
    r.Fires u c n ∨ r.Pending u n ∧ s.Viable [c] ∨
      ∃ v w, u = v ++ w ∧ r.Accepts v ∧ s.Fires w c n := by
  obtain ⟨x, hx, e, he, hn⟩ := h
  rcases reach_seq.mp hx with ⟨y, hy, rfl⟩ | ⟨v, w, huv, -, hv, hx⟩
  · rcases List.mem_append.mp he with he | he
    · obtain ⟨e', he', rfl⟩ := List.mem_map.mp he
      exact .inl ⟨y, hy, e', he', hn⟩
    · split at he
      · rename_i hnull
        obtain ⟨e', he', rfl⟩ := List.mem_map.mp he
        rcases List.mem_append.mp hn with hn | hn
        · exact .inr (.inl ⟨⟨y, hy, hnull, hn⟩,
            viable_singleton.mpr (List.ne_nil_of_mem he')⟩)
        · exact .inr (.inr ⟨u, [], by simp, ⟨y, hy, hnull⟩, s, rfl, e', he', hn⟩)
      · cases he
  · exact .inr (.inr ⟨v, w, huv, hv, x, hx, e, he, hn⟩)

theorem Pending.of_seq (h : (Rx.seq r s).Pending u n) :
    r.Pending u n ∧ s.Accepts [] ∨ ∃ v w, u = v ++ w ∧ r.Accepts v ∧ s.Pending w n := by
  obtain ⟨x, hx, hnull, hn⟩ := h
  rcases reach_seq.mp hx with ⟨y, hy, rfl⟩ | ⟨v, w, huv, -, hv, hx⟩
  · rw [nullable, Bool.and_eq_true] at hnull
    rcases List.mem_append.mp hn with hn | hn
    · exact .inl ⟨⟨y, hy, hnull.1, hn⟩, accepts_nil.mpr hnull.2⟩
    · exact .inr ⟨u, [], by simp, ⟨y, hy, hnull.1⟩, s, rfl, hnull.2, hn⟩
  · exact .inr ⟨v, w, huv, hv, x, hx, hnull, hn⟩

theorem accepts_chr (d : UInt8) : (chr d).Accepts [d] :=
  ⟨eps, ⟨([], eps), by simp [next, chr], rfl⟩, rfl⟩

theorem fires_alt : (alt r s).Fires u c n ↔ r.Fires u c n ∨ s.Fires u c n := by
  by_cases hu : u = []
  · simp only [hu, Fires, Reach, exists_eq_left, next, List.mem_append, or_and_right, exists_or]
  · simp only [Fires, reach_alt hu, or_and_right, exists_or]

theorem pending_alt : (alt r s).Pending u n ↔ r.Pending u n ∨ s.Pending u n := by
  by_cases hu : u = []
  · simp only [hu, Pending, Reach, exists_eq_left, nullable, out, Bool.or_eq_true]
    cases r.nullable <;> cases s.nullable <;> simp
  · simp only [Pending, reach_alt hu, or_and_right, exists_or]

theorem plain_fires (h : r.plain = true) : ¬ r.Fires u c n := fun hf =>
  not_mem_labels h n hf.mem_labels

theorem plain_pending (h : r.plain = true) : ¬ r.Pending u n := fun hp =>
  not_mem_labels h n hp.mem_labels

/-! ## One component -/

/-- `r >i %j` -/
def part (i j : Nat) (r : Rx) : Rx := .enter i (.leave j r)

theorem reach_leave {j : Nat} : (leave j r).Reach u x ↔ ∃ y, r.Reach u y ∧ x = leave j y := by
  induction u generalizing r with
  | nil => simp [Reach]
  | cons c u ih =>
      simp only [Reach, next, List.mem_map]
      constructor
      · rintro ⟨t, ⟨t', ht', rfl⟩, hx⟩
        obtain ⟨y, hy, rfl⟩ := ih.mp hx
        exact ⟨y, ⟨t', ht', hy⟩, rfl⟩
      · rintro ⟨y, ⟨t, ht, hy⟩, rfl⟩
        exact ⟨_, ⟨t, ht, rfl⟩, ih.mpr ⟨y, hy, rfl⟩⟩

theorem reach_enter {i : Nat} (hu : u ≠ []) : (enter i r).Reach u x ↔ r.Reach u x := by
  obtain ⟨c, u, rfl⟩ := List.exists_cons_of_ne_nil hu
  simp only [Reach, next, List.mem_map]
  constructor
  · rintro ⟨t, ⟨t', ht', rfl⟩, hx⟩
    exact ⟨t', ht', hx⟩
  · rintro ⟨t, ht, hx⟩
    exact ⟨_, ⟨t, ht, rfl⟩, hx⟩

theorem accepts_leave {j : Nat} : (leave j r).Accepts u ↔ r.Accepts u := by
  simp only [Accepts, reach_leave]
  constructor
  · rintro ⟨x, ⟨y, hy, rfl⟩, hnull⟩
    exact ⟨y, hy, hnull⟩
  · rintro ⟨y, hy, hnull⟩
    exact ⟨_, ⟨y, hy, rfl⟩, hnull⟩

theorem accepts_enter {i : Nat} : (enter i r).Accepts u ↔ r.Accepts u := by
  by_cases hu : u = []
  · rw [hu, accepts_nil, accepts_nil]
    rfl
  · simp only [Accepts, reach_enter hu]

theorem accepts_part {i j : Nat} : (part i j r).Accepts u ↔ r.Accepts u :=
  accepts_enter.trans accepts_leave

theorem viable_leave {j : Nat} : (leave j r).Viable u ↔ r.Viable u := by
  simp only [Viable, reach_leave]
  exact ⟨fun ⟨_, y, hy, _⟩ => ⟨y, hy⟩, fun ⟨y, hy⟩ => ⟨_, y, hy, rfl⟩⟩

theorem viable_enter {i : Nat} : (enter i r).Viable u ↔ r.Viable u := by
  by_cases hu : u = []
  · exact hu ▸ iff_of_true ⟨_, rfl⟩ ⟨_, rfl⟩
  · simp only [Viable, reach_enter hu]

theorem viable_part {i j : Nat} : (part i j r).Viable u ↔ r.Viable u :=
  viable_enter.trans viable_leave

theorem fires_leave {j : Nat} : (leave j r).Fires u c n ↔ r.Fires u c n := by
  simp only [Fires, reach_leave]
  constructor
  · rintro ⟨x, ⟨y, hy, rfl⟩, t, ht, hn⟩
    obtain ⟨t', ht', rfl⟩ := List.mem_map.mp ht
    exact ⟨y, hy, t', ht', hn⟩
  · rintro ⟨y, hy, t, ht, hn⟩
    exact ⟨_, ⟨y, hy, rfl⟩, (t.1, leave j t.2), List.mem_map.mpr ⟨t, ht, rfl⟩, hn⟩

theorem pending_leave {j : Nat} :
    (leave j r).Pending u n ↔ r.Pending u n ∨ n = j ∧ r.Accepts u := by
  simp only [Pending, reach_leave]
  constructor
  · rintro ⟨x, ⟨y, hy, rfl⟩, hnull, hn⟩
    rcases List.mem_cons.mp hn with rfl | hn
    · exact .inr ⟨rfl, y, hy, hnull⟩
    · exact .inl ⟨y, hy, hnull, hn⟩
  · rintro (⟨y, hy, hnull, hn⟩ | ⟨rfl, y, hy, hnull⟩)
    · exact ⟨_, ⟨y, hy, rfl⟩, hnull, List.mem_cons_of_mem _ hn⟩
    · exact ⟨_, ⟨y, hy, rfl⟩, hnull, List.mem_cons_self ..⟩

theorem fires_enter {i : Nat} : (enter i r).Fires u c n ↔
    u = [] ∧ n = i ∧ r.Viable [c] ∨ r.Fires u c n := by
  by_cases hu : u = []
  · subst hu
    simp only [Fires, Reach, exists_eq_left, viable_singleton]
    constructor
    · rintro ⟨t, ht, hn⟩
      obtain ⟨t', ht', rfl⟩ := List.mem_map.mp ht
      rcases List.mem_cons.mp hn with rfl | hn
      · exact .inl ⟨trivial, rfl, List.ne_nil_of_mem ht'⟩
      · exact .inr ⟨t', ht', hn⟩
    · rintro (⟨-, rfl, hne⟩ | ⟨t, ht, hn⟩)
      · obtain ⟨t, ht⟩ := List.exists_mem_of_ne_nil _ hne
        exact ⟨(n :: t.1, t.2), List.mem_map.mpr ⟨t, ht, rfl⟩, List.mem_cons_self ..⟩
      · exact ⟨(i :: t.1, t.2), List.mem_map.mpr ⟨t, ht, rfl⟩, List.mem_cons_of_mem _ hn⟩
  · simp only [Fires, reach_enter hu, hu, false_and, false_or]

theorem pending_enter {i : Nat} : (enter i r).Pending u n ↔
    u = [] ∧ n = i ∧ r.Accepts [] ∨ r.Pending u n := by
  by_cases hu : u = []
  · subst hu
    simp only [Pending, Reach, exists_eq_left, accepts_nil, out, List.mem_cons, nullable]
    constructor
    · rintro ⟨hnull, rfl | hn⟩
      · exact .inl ⟨trivial, rfl, hnull⟩
      · exact .inr ⟨hnull, hn⟩
    · rintro (⟨-, rfl, hnull⟩ | ⟨hnull, hn⟩)
      · exact ⟨hnull, .inl rfl⟩
      · exact ⟨hnull, .inr hn⟩
  · simp only [Pending, reach_enter hu, hu, false_and, false_or]

/-! ## A closing byte -/

theorem viable_chr {d : UInt8} (h : (chr d).Viable u) : u = [] ∨ u = [d] := by
  cases u with
  | nil => exact .inl rfl
  | cons c u =>
      obtain ⟨x, t, ht, hx⟩ := h
      rw [chr, next] at ht
      split at ht
      · rename_i hc
        rw [List.mem_singleton.mp ht] at hx
        cases u with
        | nil => exact .inr (by rw [eq_of_beq hc])
        | cons c' u =>
            obtain ⟨t', ht', -⟩ := hx
            cases ht'
      · cases ht

/-- The byte stands at the end, and only there. -/
theorem viable_closed {d : UInt8} (hv : (seq r (chr d)).Viable u) :
    r.Viable u ∨ ∃ v, u = v ++ [d] ∧ r.Accepts v := by
  obtain ⟨x, hx⟩ := hv
  rcases reach_seq.mp hx with ⟨y, hy, -⟩ | ⟨v, w, rfl, hw, hv, hx⟩
  · exact .inl ⟨y, hy⟩
  · rw [(viable_chr ⟨x, hx⟩).resolve_left hw]
    exact .inr ⟨v, rfl, hv⟩

theorem accepts_closed {d : UInt8} (hv : (seq r (chr d)).Accepts u) :
    ∃ v, u = v ++ [d] ∧ r.Accepts v := by
  obtain ⟨x, hx, hnull⟩ := hv
  rcases reach_seq.mp hx with ⟨y, hy, rfl⟩ | ⟨v, w, rfl, hw, hv, hx⟩
  · simp [nullable, chr] at hnull
  · rw [(viable_chr ⟨x, hx⟩).resolve_left hw]
    exact ⟨v, rfl, hv⟩

/-! ## Repetition -/

/-- A repetition is in its first piece, or goes on behind it. -/
theorem reach_star (hu : u ≠ []) : (star r).Reach u x ↔ (∃ y, r.Reach u y ∧ x = seq y (star r)) ∨
    ∃ v w, u = v ++ w ∧ v ≠ [] ∧ w ≠ [] ∧ r.Accepts v ∧ (star r).Reach w x := by
  obtain ⟨c, u, rfl⟩ := List.exists_cons_of_ne_nil hu
  simp only [Reach, next, List.mem_map]
  constructor
  · rintro ⟨t, ⟨t', ht', rfl⟩, hx⟩
    rcases reach_seq.mp hx with ⟨y, hy, rfl⟩ | ⟨v, w, rfl, hw, ⟨y, hy, hnull⟩, hx⟩
    · exact .inl ⟨y, ⟨t', ht', hy⟩, rfl⟩
    · exact .inr ⟨c :: v, w, rfl, by simp, hw, ⟨y, ⟨t', ht', hy⟩, hnull⟩, hx⟩
  · rintro (⟨y, ⟨t, ht, hy⟩, rfl⟩ | ⟨v, w, huv, hv, hw, hacc, hx⟩)
    · exact ⟨_, ⟨t, ht, rfl⟩, reach_seq.mpr (.inl ⟨y, hy, rfl⟩)⟩
    · obtain ⟨c', v, rfl⟩ := List.exists_cons_of_ne_nil hv
      obtain ⟨rfl, rfl⟩ := List.cons.inj huv
      obtain ⟨y, ⟨t, ht, hy⟩, hnull⟩ := hacc
      exact ⟨_, ⟨t, ht, rfl⟩, reach_seq.mpr (.inr ⟨v, w, rfl, hw, ⟨y, hy, hnull⟩, hx⟩)⟩

theorem Accepts.star (hr : r.Accepts u) (hs : (Rx.star r).Accepts v) :
    (Rx.star r).Accepts (u ++ v) := by
  by_cases hu : u = []
  · rwa [hu]
  · by_cases hv : v = []
    · obtain ⟨y, hy, hnull⟩ := hr
      rw [hv, List.append_nil]
      exact ⟨_, (reach_star hu).mpr (.inl ⟨y, hy, rfl⟩), by simp [nullable, hnull]⟩
    · obtain ⟨y, hy, hnull⟩ := hs
      exact ⟨y, (reach_star (by simp [hu])).mpr (.inr ⟨u, v, rfl, hu, hv, hr, hy⟩), hnull⟩

theorem Viable.first_piece (h : (Rx.star r).Viable (c :: u)) : r.Viable [c] := by
  obtain ⟨x, hx⟩ := Viable.front (u := [c]) (v := u) h
  rcases (reach_star (by simp)).mp hx with ⟨y, hy, -⟩ | ⟨v, w, hvw, hv, hw, -⟩
  · exact ⟨y, hy⟩
  · have hlen := congrArg List.length hvw
    have hv' := List.length_pos_iff.mpr hv
    have hw' := List.length_pos_iff.mpr hw
    rw [List.length_append, List.length_singleton] at hlen
    omega

/-- In front of a byte that is a piece of its own, a repetition of `r` is one of `s`. -/
theorem star_front {d : UInt8} (hsub : ∀ w, r.Accepts w → d ∉ w → s.Accepts w)
    (hend : ∀ w, r.Viable (w ++ [d]) → d ∉ w → w = []) (h : (star r).Viable (u ++ [d]))
    (hd : d ∉ u) : (star s).Accepts u := by
  induction hlen : u.length using Nat.strongRecOn generalizing u with
  | ind n ih =>
      obtain ⟨x, hx⟩ := h
      rcases (reach_star (by simp)).mp hx with ⟨y, hy, -⟩ | ⟨v, w, huv, hv, hw, hacc, hx⟩
      · rw [hend u ⟨y, hy⟩ hd]
        exact accepts_nil.mpr rfl
      · obtain ⟨w, e, rfl⟩ := (List.eq_nil_or_concat w).resolve_left hw
        rw [List.concat_eq_append] at huv hx
        rw [← List.append_assoc, List.append_singleton_inj] at huv
        obtain ⟨rfl, rfl⟩ := huv
        rw [List.mem_append, not_or] at hd
        rw [List.length_append] at hlen
        have hpos := List.length_pos_iff.mpr hv
        exact (hsub v hacc hd.1).star (ih w.length (by omega) ⟨x, hx⟩ hd.2 rfl)

/-! ## Handing over -/

/-- `r` accepts the text `t` and `k` cannot go on before its end. -/
structure Handover (r k : Rx) (t : List UInt8) : Prop where
  accepts : r.Accepts t
  early : ∀ x c y, t = x ++ c :: y → r.Accepts x → ¬ k.Viable [c]

namespace Handover

variable {k : Rx} {t y : List UInt8}

theorem not_split (h : Handover r k t) (htu : t = u ++ y) :
    ¬ ∃ v w, u = v ++ w ∧ w ≠ [] ∧ r.Accepts v ∧ k.Viable w := by
  rintro ⟨v, w, rfl, hw, hv, hk⟩
  obtain ⟨c, w, rfl⟩ := List.exists_cons_of_ne_nil hw
  refine h.early v c (w ++ y) ?_ hv (Viable.front (v := w) hk)
  rw [htu, List.append_assoc]
  rfl

theorem reach_front (h : Handover r k t) (htu : t = u ++ y) :
    (seq r k).Reach u x ↔ ∃ z, r.Reach u z ∧ x = seq z k := by
  rw [reach_seq, or_iff_left]
  rintro ⟨v, w, huv, hw, hv, hk⟩
  exact h.not_split htu ⟨v, w, huv, hw, hv, x, hk⟩

theorem reach_behind (h : Handover r k t) (hdead : ¬ r.Viable (t ++ [c])) :
    (seq r k).Reach (t ++ c :: u) x ↔ k.Reach (c :: u) x := by
  have hlong : ∀ z, ¬ r.Viable (t ++ c :: z) := fun z hz =>
    hdead (Viable.front (v := z) (by simpa using hz))
  rw [reach_seq]
  constructor
  · rintro (⟨z, hz, -⟩ | ⟨v, w, heq, hw, hv, hk⟩)
    · exact absurd ⟨z, hz⟩ (hlong u)
    · rcases List.append_eq_append_iff.mp heq with ⟨z, rfl, hz⟩ | ⟨z, rfl, rfl⟩
      · cases z with
        | nil =>
            rw [List.nil_append] at hz
            rwa [hz]
        | cons c' z =>
            obtain ⟨rfl, -⟩ := List.cons.inj hz
            exact absurd hv.viable (hlong z)
      · cases z with
        | nil => exact hk
        | cons c' z =>
            exact absurd (Viable.front (u := [c']) (v := z ++ c :: u) ⟨x, hk⟩)
              (h.early v c' z rfl hv)
  · intro hk
    exact .inr ⟨t, c :: u, rfl, by simp, h.accepts, hk⟩

theorem fires_front (h : Handover r k t) (ht : t = u ++ c :: y) :
    (seq r k).Fires u c n ↔ r.Fires u c n := by
  simp only [Fires, h.reach_front ht]
  constructor
  · rintro ⟨x, ⟨z, hz, rfl⟩, e, he, hn⟩
    rcases List.mem_append.mp he with he | he
    · obtain ⟨e', he', rfl⟩ := List.mem_map.mp he
      exact ⟨z, hz, e', he', hn⟩
    · split at he
      · rename_i hnull
        obtain ⟨e', he', -⟩ := List.mem_map.mp he
        exact absurd (viable_singleton.mpr (List.ne_nil_of_mem he'))
          (h.early u c y ht ⟨z, hz, hnull⟩)
      · cases he
  · rintro ⟨z, hz, e, he, hn⟩
    exact ⟨_, ⟨z, hz, rfl⟩, (e.1, seq e.2 k),
      List.mem_append_left _ (List.mem_map.mpr ⟨e, he, rfl⟩), hn⟩

theorem fires_at (h : Handover r k t) (hdead : ¬ r.Viable (t ++ [c])) :
    (seq r k).Fires t c n ↔ r.Pending t n ∧ k.Viable [c] ∨ k.Fires [] c n := by
  simp only [Fires, h.reach_front (List.append_nil t).symm]
  constructor
  · rintro ⟨x, ⟨z, hz, rfl⟩, e, he, hn⟩
    rcases List.mem_append.mp he with he | he
    · obtain ⟨e', he', rfl⟩ := List.mem_map.mp he
      exact absurd ⟨e'.2, reach_append.mpr ⟨z, hz, reach_singleton.mpr ⟨e', he', rfl⟩⟩⟩ hdead
    · split at he
      · rename_i hnull
        obtain ⟨e', he', rfl⟩ := List.mem_map.mp he
        rcases List.mem_append.mp hn with hn | hn
        · exact .inl ⟨⟨z, hz, hnull, hn⟩, viable_singleton.mpr (List.ne_nil_of_mem he')⟩
        · exact .inr ⟨k, rfl, e', he', hn⟩
      · cases he
  · have hgo : ∀ z : Rx, r.Reach t z → z.nullable = true → ∀ e ∈ k.next c,
        (z.out ++ e.1, e.2) ∈ (seq z k).next c := by
      intro z hz hnull e he
      rw [next, if_pos hnull]
      exact List.mem_append_right _ (List.mem_map.mpr ⟨e, he, rfl⟩)
    rintro (⟨⟨z, hz, hnull, hn⟩, hk⟩ | ⟨k', rfl, e, he, hn⟩)
    · obtain ⟨e, he⟩ := List.exists_mem_of_ne_nil _ (viable_singleton.mp hk)
      exact ⟨_, ⟨z, hz, rfl⟩, _, hgo z hz hnull e he, List.mem_append_left _ hn⟩
    · obtain ⟨z, hz, hnull⟩ := h.accepts
      exact ⟨_, ⟨z, hz, rfl⟩, _, hgo z hz hnull e he, List.mem_append_right _ hn⟩

theorem pending_at (h : Handover r k t) :
    (seq r k).Pending t n ↔ r.Pending t n ∧ k.Accepts [] ∨ k.Pending [] n := by
  simp only [Pending, h.reach_front (List.append_nil t).symm, accepts_nil]
  constructor
  · rintro ⟨x, ⟨z, hz, rfl⟩, hnull, hn⟩
    rw [nullable, Bool.and_eq_true] at hnull
    rcases List.mem_append.mp hn with hn | hn
    · exact .inl ⟨⟨z, hz, hnull.1, hn⟩, hnull.2⟩
    · exact .inr ⟨k, rfl, hnull.2, hn⟩
  · rintro (⟨⟨z, hz, hnull, hn⟩, hk⟩ | ⟨k', rfl, hk, hn⟩)
    · exact ⟨_, ⟨z, hz, rfl⟩, by simp [nullable, hnull, hk], List.mem_append_left _ hn⟩
    · obtain ⟨z, hz, hnull⟩ := h.accepts
      exact ⟨_, ⟨z, hz, rfl⟩, by simp [nullable, hnull, hk], List.mem_append_right _ hn⟩

theorem fires_behind (h : Handover r k t) (hdead : ¬ r.Viable (t ++ [c])) {d : UInt8} :
    (seq r k).Fires (t ++ c :: u) d n ↔ k.Fires (c :: u) d n := by
  simp only [Fires, h.reach_behind hdead]

theorem pending_behind (h : Handover r k t) (hdead : ¬ r.Viable (t ++ [c])) :
    (seq r k).Pending (t ++ c :: u) n ↔ k.Pending (c :: u) n := by
  simp only [Pending, h.reach_behind hdead]

end Handover

/-- Behind a first part that leaves nothing pending. -/
theorem Handover.fires_after {k : Rx} {t : List UInt8} (h : Handover r k t)
    (hdead : ∀ c, ¬ r.Viable (t ++ [c])) (hquiet : ∀ n, ¬ r.Pending t n) :
    (seq r k).Fires (t ++ u) c n ↔ k.Fires u c n := by
  cases u with
  | nil => rw [List.append_nil, h.fires_at (hdead c), or_iff_right fun hp => hquiet n hp.1]
  | cons d u => exact h.fires_behind (hdead d)

theorem Handover.pending_after {k : Rx} {t : List UInt8} (h : Handover r k t)
    (hdead : ∀ c, ¬ r.Viable (t ++ [c])) (hquiet : ∀ n, ¬ r.Pending t n) :
    (seq r k).Pending (t ++ u) n ↔ k.Pending u n := by
  cases u with
  | nil => rw [List.append_nil, h.pending_at, or_iff_right fun hp => hquiet n hp.1]
  | cons d u => exact h.pending_behind (hdead d)

/-- What can go on has a first byte that the first part avoids. -/
theorem handover_of_avoids {k : Rx} {t : List UInt8} (h : r.Accepts t)
    (hk : ∀ c, k.Viable [c] → r.avoids c = true) : Handover r k t where
  accepts := h
  early x c y ht _ hc := h.viable.not_mem (hk c hc) (by simp [ht])

theorem handover_chr (d : UInt8) (k : Rx) : Handover (chr d) k [d] where
  accepts := accepts_chr d
  early x c y ht hx _ := by
    cases x with
    | nil => cases accepts_nil.mp hx
    | cons e x => simp at ht

/-- An optional part that reads something is there or is not. -/
theorem reach_opt_seq {k : Rx} (hu : u ≠ []) :
    (seq (opt r) k).Reach u x ↔ (seq r k).Reach u x ∨ k.Reach u x := by
  have hopt : ∀ y, (opt r).Reach u y ↔ r.Reach u y := fun y => by
    obtain ⟨c, u, rfl⟩ := List.exists_cons_of_ne_nil hu
    simp [opt, Reach, next]
  simp only [reach_seq, hopt, accepts_opt]
  constructor
  · rintro (hx | ⟨v, w, huv, hw, hv | rfl, hx⟩)
    · exact .inl (.inl hx)
    · exact .inl (.inr ⟨v, w, huv, hw, hv, hx⟩)
    · exact .inr (huv ▸ hx)
  · rintro ((hx | ⟨v, w, huv, hw, hv, hx⟩) | hx)
    · exact .inl hx
    · exact .inr ⟨v, w, huv, hw, .inl hv, hx⟩
    · exact .inr ⟨[], u, rfl, hu, .inr rfl, hx⟩

theorem fires_opt_seq {k : Rx} (h : r.nullable = false) :
    (seq (opt r) k).Fires u c n ↔ (seq r k).Fires u c n ∨ k.Fires u c n := by
  by_cases hu : u = []
  · subst hu
    simp [Fires, Reach, next, opt, out, nullable, h, or_and_right, exists_or]
  · simp only [Fires, reach_opt_seq hu, or_and_right, exists_or]

theorem pending_opt_seq {k : Rx} (h : r.nullable = false) :
    (seq (opt r) k).Pending u n ↔ (seq r k).Pending u n ∨ k.Pending u n := by
  by_cases hu : u = []
  · subst hu
    simp [Pending, Reach, opt, out, nullable, h]
  · simp only [Pending, reach_opt_seq hu, or_and_right, exists_or]

end Rx

/-! ## Performing actions -/

section

variable {act : Nat → Nat → σ → σ} {p k i : Nat} {st : σ} {P Q : Nat → Prop} [DecidablePred P]
  [DecidablePred Q]

theorem perform_congr (h : ∀ n, P n ↔ Q n) : perform act p P k st = perform act p Q k st := by
  induction k with
  | zero => rfl
  | succ k ih =>
      simp only [perform, ih]
      by_cases hk : P k
      · rw [if_pos hk, if_pos ((h k).mp hk)]
      · rw [if_neg hk, if_neg (mt (h k).mpr hk)]

theorem perform_none (h : ∀ n, n < k → ¬ P n) : perform act p P k st = st := by
  induction k with
  | zero => rfl
  | succ k ih =>
      rw [perform, if_neg (h k (Nat.lt_succ_self k)), ih fun n hn => h n (Nat.lt_succ_of_lt hn)]

theorem perform_one (h : ∀ n, P n ↔ n = i) (hi : i < k) : perform act p P k st = act p i st := by
  induction k with
  | zero => omega
  | succ k ih =>
      rw [perform]
      by_cases hk : k = i
      · rw [if_pos ((h k).mpr hk), perform_none fun n hn hP => by
          have := (h n).mp hP
          omega, hk]
      · rw [if_neg (mt (h k).mp hk), ih (by omega)]

/-- Actions of which some come before all the others. -/
theorem perform_or (h : ∀ m n, P m → Q n → m < n) [DecidablePred fun n => P n ∨ Q n] :
    perform act p (fun n => P n ∨ Q n) k st = perform act p Q k (perform act p P k st) := by
  induction k with
  | zero => rfl
  | succ k ih =>
      simp only [perform, ih]
      by_cases hP : P k
      · have hQ : ∀ n, n < k + 1 → ¬ Q n := by
          intro n hn hq
          have := h k n hP hq
          omega
        have hnone : ∀ s, perform act p Q k s = s := fun s =>
          perform_none fun n hn => hQ n (Nat.lt_succ_of_lt hn)
        rw [if_pos (.inl hP), if_pos hP, if_neg (hQ k (Nat.lt_succ_self k)), hnone, hnone]
      · by_cases hQ : Q k
        · rw [if_pos (.inr hQ), if_neg hP, if_pos hQ]
        · rw [if_neg (by simp [hP, hQ]), if_neg hP, if_neg hQ]

end

/-! ## The effect of a text -/

open Classical in
/-- The actions of an expression along a text, with those that are pending at its end. -/
noncomputable def sweep (act : Nat → Nat → σ → σ) (k : Nat) (r : Rx) :
    List UInt8 → Nat → List UInt8 → σ → σ
  | u, p, [], st => perform act p (r.Pending u) k st
  | u, p, c :: v, st => sweep act k r (u ++ [c]) (p + 1) v (perform act p (r.Fires u c) k st)

section

open Classical

variable {act : Nat → Nat → σ → σ} {p k i : Nat} {st : σ} {r q : Rx} {u v t : List UInt8}

theorem exec_eq {states : List Rx} (h : r.Accepts (u ++ v))
    (hstates : ∀ x, x ∈ states ↔ r.Reach u x) :
    exec act k states p v st = some (sweep act k r u p v st) := by
  induction v generalizing u p st states with
  | nil =>
      rw [List.append_nil] at h
      obtain ⟨x, hx, hnull⟩ := h
      have hany : states.any Rx.nullable = true :=
        List.any_eq_true.mpr ⟨x, (hstates x).mpr hx, hnull⟩
      rw [exec, if_pos hany, sweep]
      refine congrArg some (perform_congr fun n => ?_)
      simp only [List.mem_flatMap, hstates, Rx.Pending]
      refine exists_congr fun y => and_congr_right fun _ => ?_
      cases hy : y.nullable <;> simp
  | cons c v ih =>
      have hnext : ∀ x, x ∈ (states.flatMap (·.next c)).map Prod.snd ↔ r.Reach (u ++ [c]) x := by
        intro x
        simp only [List.mem_map, List.mem_flatMap, Rx.reach_append, Rx.reach_singleton, hstates]
        constructor
        · rintro ⟨t, ⟨y, hy, ht⟩, rfl⟩
          exact ⟨y, hy, t, ht, rfl⟩
        · rintro ⟨y, hy, t, ht, rfl⟩
          exact ⟨t, ⟨y, hy, ht⟩, rfl⟩
      have hmore : u ++ c :: v = u ++ [c] ++ v := by simp
      rw [hmore] at h
      obtain ⟨x, hx⟩ := Rx.Viable.front h.viable
      have hne : (states.flatMap (·.next c)).isEmpty = false := by
        rw [List.isEmpty_eq_false_iff]
        intro hnil
        have hmem := (hnext x).mpr hx
        rw [hnil] at hmem
        cases hmem
      rw [exec, sweep, ← ih h hnext]
      simp only [hne, Bool.false_eq_true, if_false]
      refine congrArg _ (perform_congr fun n => ?_)
      simp only [List.mem_flatMap, hstates, Rx.Fires]
      constructor
      · rintro ⟨t, ⟨y, hy, ht⟩, hn⟩
        exact ⟨y, hy, t, ht, hn⟩
      · rintro ⟨y, hy, t, ht, hn⟩
        exact ⟨t, ⟨y, hy, ht⟩, hn⟩

/-- Two expressions have the same actions along a text, each from where it is. -/
theorem sweep_congr {r' : Rx} {u' : List UInt8}
    (hfires : ∀ x c y, v = x ++ c :: y → ∀ n, r.Fires (u ++ x) c n ↔ r'.Fires (u' ++ x) c n)
    (hpending : ∀ n, r.Pending (u ++ v) n ↔ r'.Pending (u' ++ v) n) :
    sweep act k r u p v st = sweep act k r' u' p v st := by
  induction v generalizing u u' p st with
  | nil =>
      rw [List.append_nil, List.append_nil] at hpending
      exact perform_congr hpending
  | cons c v ih =>
      rw [sweep, sweep]
      have hfirst := hfires [] c v rfl
      rw [List.append_nil, List.append_nil] at hfirst
      rw [perform_congr hfirst]
      refine ih ?_ ?_
      · intro x d y hv n
        simpa using hfires (c :: x) d y (congrArg (c :: ·) hv) n
      · simpa using hpending

/-- The text of the first part, then that of the second. -/
theorem sweep_seq (h : Rx.Handover r q t) (hq : q.Accepts v)
    (hdead : ∀ c v', v = c :: v' → ¬ r.Viable (t ++ [c]))
    (hlt : ∀ m n, r.Pending t m → (∃ u c, q.Fires u c n) ∨ (∃ u, q.Pending u n) → m < n) :
    sweep act k (.seq r q) [] p (t ++ v) st =
      sweep act k q [] (p + t.length) v (sweep act k r [] p t st) := by
  have hfront : ∀ (u w : List UInt8) (p : Nat) (st : σ), t = u ++ w →
      sweep act k (.seq r q) u p (w ++ v) st =
        sweep act k q [] (p + w.length) v (sweep act k r u p w st) := by
    intro u w
    induction w generalizing u with
    | nil =>
        intro p st ht
        rw [List.append_nil] at ht
        subst ht
        rw [List.nil_append, sweep]
        cases v with
        | nil =>
            rw [sweep, sweep, List.length_nil, Nat.add_zero, ← perform_or]
            · refine perform_congr fun n => ?_
              rw [h.pending_at]
              simp [hq]
            · exact fun m n hm hn => hlt m n hm (.inr ⟨_, hn⟩)
        | cons c v =>
            have hc : q.Viable [c] := Rx.Viable.front (v := v) hq.viable
            have hd := hdead c v rfl
            rw [sweep, sweep]
            simp only [List.length_nil, Nat.add_zero, List.nil_append]
            rw [← perform_or]
            · rw [perform_congr (fun n => show _ ↔ r.Pending t n ∨ q.Fires [] c n by
                rw [h.fires_at hd]
                simp [hc])]
              refine sweep_congr ?_ ?_
              · intro x d y _ n
                simpa using h.fires_behind (u := x) (n := n) (d := d) hd
              · intro n
                simpa using h.pending_behind (u := v) (n := n) hd
            · exact fun m n hm hn => hlt m n hm (.inl ⟨_, _, hn⟩)
    | cons c w ih =>
        intro p st ht
        rw [List.cons_append, sweep, sweep, ih (u ++ [c]) _ _ (by simpa using ht),
          perform_congr fun n => h.fires_front ht, List.length_cons]
        congr 1
        omega
  exact hfront [] t p st rfl

theorem sweep_silent (hfires : ∀ x c y, v = x ++ c :: y → ∀ n, ¬ r.Fires (u ++ x) c n)
    (hpending : ∀ n, ¬ r.Pending (u ++ v) n) : sweep act k r u p v st = st := by
  induction v generalizing u p st with
  | nil =>
      rw [List.append_nil] at hpending
      exact perform_none fun n _ => hpending n
  | cons c v ih =>
      have hfirst := hfires [] c v rfl
      rw [List.append_nil] at hfirst
      rw [sweep, perform_none fun n _ => hfirst n]
      refine ih ?_ ?_
      · intro x d y hv n
        simpa using hfires (c :: x) d y (congrArg (c :: ·) hv) n
      · simpa using hpending

theorem sweep_plain (h : r.plain = true) : sweep act k r u p v st = st :=
  sweep_silent (fun _ _ _ _ _ => Rx.plain_fires h) fun _ => Rx.plain_pending h

/-- An entering action comes before everything else. -/
theorem sweep_enter {i : Nat} (hv : r.Accepts v) (hi : i < k) (hlt : ∀ n ∈ r.labels, i < n) :
    sweep act k (.enter i r) [] p v st = sweep act k r [] p v (act p i st) := by
  have hone : perform act p (· = i) k st = act p i st := perform_one (fun _ => Iff.rfl) hi
  cases v with
  | nil =>
      rw [sweep, sweep, ← hone, ← perform_or]
      · refine perform_congr fun n => ?_
        rw [Rx.pending_enter]
        simp [hv]
      · rintro m n rfl hn
        exact hlt n hn.mem_labels
  | cons c v =>
      have hc : r.Viable [c] := Rx.Viable.front (v := v) hv.viable
      rw [sweep, sweep, ← hone, ← perform_or]
      · rw [perform_congr (fun n => show _ ↔ n = i ∨ r.Fires [] c n by
          rw [Rx.fires_enter]
          simp [hc])]
        refine sweep_congr ?_ ?_
        · intro x d y _ n
          rw [Rx.fires_enter]
          simp
        · intro n
          rw [Rx.pending_enter]
          simp
      · rintro m n rfl hn
        exact hlt n hn.mem_labels

theorem sweep_leave {j : Nat} (h : r.plain = true) (hv : r.Accepts v) (hj : j < k) :
    sweep act k (.leave j r) [] p v st = act (p + v.length) j st := by
  have hrest : ∀ (u w : List UInt8) (p : Nat), v = u ++ w →
      sweep act k (.leave j r) u p w st = act (p + w.length) j st := by
    intro u w
    induction w generalizing u with
    | nil =>
        intro p ht
        rw [List.append_nil] at ht
        rw [sweep, perform_one (i := j) (fun n => ?_) hj]
        · rfl
        · rw [Rx.pending_leave, ← ht]
          simp [hv, Rx.plain_pending h]
    | cons d w ih =>
        intro p ht
        rw [sweep, perform_none fun n _ hn => Rx.plain_fires h (Rx.fires_leave.mp hn),
          ih (u ++ [d]) _ (by simpa using ht), List.length_cons]
        congr 1
        omega
  exact hrest [] v p rfl

/-- The entering action at the start, the leaving action at the end. -/
theorem sweep_part {i j : Nat} (h : r.plain = true) (hv : r.Accepts v) (hij : i < j) (hj : j < k) :
    sweep act k (Rx.part i j r) [] p v st = act (p + v.length) j (act p i st) := by
  rw [Rx.part, sweep_enter (Rx.accepts_leave.mpr hv) (Nat.lt_trans hij hj), sweep_leave h hv hj]
  intro n hn
  rcases List.mem_cons.mp hn with rfl | hn
  · exact hij
  · exact absurd hn (Rx.not_mem_labels h n)

/-- The second part begins with a byte that the first one avoids. -/
theorem sweep_seq_of_avoids (h : r.Accepts t) (hq : q.Accepts v)
    (havoids : ∀ c, q.Viable [c] → r.avoids c = true)
    (hlt : ∀ m ∈ r.labels, ∀ n ∈ q.labels, m < n) :
    sweep act k (.seq r q) [] p (t ++ v) st =
      sweep act k q [] (p + t.length) v (sweep act k r [] p t st) := by
  refine sweep_seq (Rx.handover_of_avoids h havoids) hq ?_ ?_
  · rintro c v' rfl hv
    have hc : q.Viable [c] := Rx.Viable.front (v := v') hq.viable
    exact hv.not_mem (havoids c hc) (by simp)
  · rintro m n hm (⟨u, c, hn⟩ | ⟨u, hn⟩)
    · exact hlt m hm.mem_labels n hn.mem_labels
    · exact hlt m hm.mem_labels n hn.mem_labels

theorem sweep_chr_seq (d : UInt8) (hq : q.Accepts v) :
    sweep act k (.seq (.chr d) q) [] p (d :: v) st = sweep act k q [] (p + 1) v st := by
  have hplain : (Rx.chr d).plain = true := rfl
  have hseq : sweep act k (.seq (.chr d) q) [] p ([d] ++ v) st =
      sweep act k q [] (p + 1) v (sweep act k (.chr d) [] p [d] st) := by
    refine sweep_seq (Rx.handover_chr d q) hq ?_ fun m n hm => absurd hm (Rx.plain_pending hplain)
    rintro c v' rfl hv
    rcases Rx.viable_chr hv with hv | hv <;> simp at hv
  rw [sweep_plain hplain] at hseq
  exact hseq

/-- An alternative that has no actions along the text. -/
theorem sweep_alt_left (hfires : ∀ x c y, v = x ++ c :: y → ∀ n, ¬ q.Fires x c n)
    (hpending : ∀ n, ¬ q.Pending v n) :
    sweep act k (.alt r q) [] p v st = sweep act k r [] p v st := by
  refine sweep_congr ?_ ?_
  · intro x c y hv n
    rw [List.nil_append, Rx.fires_alt, or_iff_left (hfires x c y hv n)]
  · intro n
    rw [List.nil_append, Rx.pending_alt, or_iff_left (hpending n)]

theorem sweep_opt_nil (h : r.nullable = false) : sweep act k r.opt [] p [] st = st := by
  rw [sweep]
  refine perform_none fun n _ hn => ?_
  rcases Rx.pending_alt.mp hn with ⟨x, rfl, hnull, -⟩ | hn
  · rw [h] at hnull
    cases hnull
  · exact Rx.plain_pending rfl hn

theorem sweep_opt : sweep act k r.opt [] p v st = sweep act k r [] p v st :=
  sweep_alt_left (fun _ _ _ _ _ => Rx.plain_fires rfl) fun _ => Rx.plain_pending rfl

theorem perform_invariant {I : σ → Prop} {P : Nat → Prop} (h : I st)
    (hstep : ∀ n st, P n → I st → I (act p n st)) : I (perform act p P k st) := by
  induction k with
  | zero => exact h
  | succ k ih =>
      rw [perform]
      split
      · exact hstep k _ ‹_› ih
      · exact ih

/-- Nothing is performed behind the last action. -/
theorem perform_last {P : Nat → Prop} (hi : P i) (hlt : i < k) (hlast : ∀ n, P n → n ≤ i) :
    perform act p P k st = act p i (perform act p P i st) := by
  induction k with
  | zero => omega
  | succ k ih =>
      rw [perform]
      split
      · rename_i hk
        obtain rfl : k = i := by
          have hle := hlast k hk
          omega
        rfl
      · rename_i hk
        refine ih ?_
        have hne : i ≠ k := fun h => hk (h ▸ hi)
        omega

/-- What holds after each byte of a front of the text. -/
theorem sweep_through {I : Nat → σ → Prop} (h : I p st)
    (hstep : ∀ x c y, t = x ++ c :: y → ∀ st, I (p + x.length) st →
      I (p + x.length + 1) (perform act (p + x.length) (r.Fires (u ++ x) c) k st)) :
    ∃ st', sweep act k r u p (t ++ v) st = sweep act k r (u ++ t) (p + t.length) v st' ∧
      I (p + t.length) st' := by
  induction t generalizing u p st with
  | nil => exact ⟨st, by simp, h⟩
  | cons c t ih =>
      have hfirst := hstep [] c t rfl st h
      simp only [List.length_nil, Nat.add_zero, List.append_nil] at hfirst
      obtain ⟨st', hsweep, hst⟩ := ih (u := u ++ [c]) hfirst (by
        intro x d y hv st hx
        have hnext := hstep (c :: x) d y (congrArg (c :: ·) hv) st (by
          simpa [Nat.add_comm, Nat.add_left_comm, Nat.add_assoc] using hx)
        simpa [Nat.add_comm, Nat.add_left_comm, Nat.add_assoc] using hnext)
      refine ⟨st', ?_, ?_⟩
      · rw [List.cons_append, sweep, hsweep, List.append_assoc, List.length_cons]
        congr 1
        omega
      · rw [List.length_cons]
        have hplace : p + (t.length + 1) = p + 1 + t.length := by omega
        rw [hplace]
        exact hst

end

end Ragel
