import CIM.Io.IOManager

/-!
# The table of contexts

The size for a file descriptor that does not fit is chosen under the read lock and used later,
when other calls may have made the table longer.
-/
namespace CIM

open Transition

namespace IOManager

variable {s s' : IOManager} {e : Step}

/-- The context of every file descriptor is still where it was. -/
def Keeps (s s' : IOManager) : Prop :=
  ∀ fd ctx : Nat, s.m_fdContexts[fd]? = some ctx → s'.m_fdContexts[fd]? = some ctx

/-- A call that waited for the write lock finds no table that is longer than the one it makes. -/
def Grows (s : IOManager) : Step → Prop
  | .resize t => ∀ fd op, s.calls t = some (.resize fd op) → s.m_fdContexts.length ≤ fd * 3 / 2
  | _ => True

theorem Keeps.of_eq (h : s'.m_fdContexts = s.m_fdContexts) : Keeps s s' := by
  intro fd ctx hfd
  rw [h]
  exact hfd

theorem length_contextResize (s : IOManager) (size : Nat) :
    (s.contextResize size).m_fdContexts.length = size := by
  change (s.m_fdContexts.take size ++
    List.range' _ (size - (s.m_fdContexts.take size).length)).length
    = size
  rw [List.length_append, List.length_range', List.length_take]
  omega

theorem keeps_contextResize {size : Nat} (h : s.m_fdContexts.length ≤ size) :
    Keeps s (s.contextResize size) := by
  intro fd ctx hfd
  have hlt := (List.getElem?_eq_some_iff.mp hfd).1
  change (s.m_fdContexts.take size ++ List.range' _ _)[fd]? = some ctx
  rw [List.take_of_length_le h, List.getElem?_append_left hlt]
  exact hfd

/-- A section under the lock of a context does not touch the table. -/
theorem lock_table {α : Type} {ctx : Nat} {f : Locked → Option (α × Locked)}
    (h : s.lock ctx f = some s') : s'.m_fdContexts = s.m_fdContexts := by
  unfold IOManager.lock at h
  obtain ⟨c, -, h⟩ := Option.bind_eq_some_iff.mp h
  obtain ⟨r, -, h⟩ := Option.map_eq_some_iff.mp h
  rw [← h]

/-- What a step does to the table: only a call that has its turn to resize changes it. -/
theorem exec_table (h : s.exec e = some s') :
    s'.m_fdContexts = s.m_fdContexts ∨
      ∃ t fd op, e = .resize t ∧ s.calls t = some (.resize fd op) ∧
        s'.m_fdContexts = (s.contextResize (fd * 3 / 2)).m_fdContexts := by
  cases e with
  | call t fd op =>
      left
      unfold IOManager.exec at h
      dsimp only at h
      split at h <;> cases h <;> rfl
  | resize t =>
      unfold IOManager.exec at h
      dsimp only at h
      split at h
      · rename_i fd op hcall
        obtain ⟨ctx, -, h⟩ := Option.map_eq_some_iff.mp h
        cases h
        exact .inr ⟨t, fd, op, rfl, hcall, rfl⟩
      · cases h
        exact .inl rfl
  | locked t ok =>
      left
      unfold IOManager.exec at h
      dsimp only at h
      split at h
      · obtain ⟨s₁, h₁, h⟩ := Option.map_eq_some_iff.mp h
        rw [← h]
        exact (lock_table h₁ : s₁.m_fdContexts = s.m_fdContexts)
      · cases h
        rfl
  | harvest t events =>
      cases h
      exact .inl rfl
  | process t ok =>
      left
      unfold IOManager.exec at h
      dsimp only at h
      split at h
      · cases h
        rfl
      · cases h
        rfl
      · obtain ⟨s₁, h₁, h⟩ := Option.map_eq_some_iff.mp h
        rw [← h]
        exact (lock_table h₁ : s₁.m_fdContexts = s.m_fdContexts)

theorem exec_keeps (hg : s.Grows e) (h : s.exec e = some s') : Keeps s s' := by
  rcases exec_table h with hsame | ⟨t, fd, op, rfl, hcall, htable⟩
  · exact .of_eq hsame
  · intro fd' ctx hfd
    rw [htable]
    exact keeps_contextResize (hg fd op hcall) fd' ctx hfd

/-- A shorter table has lost the last context of the longer one. -/
theorem exec_loses (hg : ¬s.Grows e) (h : s.exec e = some s') : ¬Keeps s s' := by
  rcases exec_table h with hsame | ⟨t, fd, op, rfl, hcall, htable⟩
  · cases e with
    | resize t =>
        unfold Grows at hg
        simp only [not_forall] at hg
        obtain ⟨fd, op, hcall, hlt⟩ := hg
        simp only [IOManager.exec, hcall] at h
        obtain ⟨ctx, -, h⟩ := Option.map_eq_some_iff.mp h
        have hlen := length_contextResize s (fd * 3 / 2)
        rw [← h] at hsame
        rw [hsame] at hlen
        omega
    | _ => exact absurd trivial hg
  · have hlt : fd * 3 / 2 < s.m_fdContexts.length := by
      by_contra hle
      refine hg fun fd' op' hcall' => ?_
      rw [hcall] at hcall'
      cases hcall'
      omega
    intro hkeeps
    have hlast := hkeeps (fd * 3 / 2) _ (List.getElem?_eq_getElem hlt)
    have hin := (List.getElem?_eq_some_iff.mp hlast).1
    rw [htable, length_contextResize] at hin
    exact Nat.lt_irrefl _ hin

/-- From any state on, the contexts of the table stay where they are as long as no call resizes a
table that has become longer than what it asks for, and the first call that does loses one. -/
theorem table_grows {es : List Step} (h : ((ioManager.restrict Grows).resume s).Run es s') :
    Keeps s s' ∧ ∀ e s'', ioManager.step s' e s'' → ¬s'.Grows e → ¬Keeps s' s'' := by
  refine ⟨?_, fun e s'' hstep hg => exec_loses hg hstep.2⟩
  refine h.invariant (I := Keeps s) ?_ ?_
  · rintro _ rfl
    exact .of_eq rfl
  · rintro s₁ e s₂ hs ⟨hg, -, hexec⟩ fd ctx hfd
    exact exec_keeps hg hexec fd ctx (hs fd ctx hfd)

/-- A context for 64 in a new table, which becomes longer for it. -/
theorem table_grows_once :
    ∃ es s, ((ioManager.restrict Grows).resume IOManager.create).Run es s ∧
      s.m_fdContexts.length = 96 ∧ Keeps IOManager.create s ∧
      ∀ e s'', ioManager.step s e s'' → ¬s.Grows e → ¬Keeps s s'' := by
  have h₀ : ((ioManager.restrict Grows).resume IOManager.create).Run [] IOManager.create :=
    .start rfl
  have h₁ := h₀.snoc (e := Step.call 1 64 (.addEvent .READ (some 0) (.cb 1)))
    ⟨trivial, rfl, rfl⟩
  have h₂ := h₁.snoc (e := Step.resize 1)
    ⟨fun fd op hcall => by cases hcall; decide, trivial, rfl⟩
  exact ⟨_, _, h₂, rfl, table_grows h₂⟩

set_option maxRecDepth 4000 in
/-- Two calls find the new table too short, for 100 and for 64, and take their turns in this
order. The context of 100 waits for an event when it disappears. -/
theorem table_shrinks :
    ∃ es s e s', ioManager.Run es s ∧ ioManager.step s e s' ∧
      s.m_fdContexts[100]? = some 100 ∧ s.heap[100]?.map (fun c => c.events) = some ⟨true, false⟩ ∧
      s'.m_fdContexts[100]? = none := by
  have h₀ : ioManager.Run [] IOManager.create := .start rfl
  have h₁ := h₀.snoc (e := Step.call 1 100 (.addEvent .READ (some 0) (.cb 1))) ⟨rfl, rfl⟩
  have h₂ := h₁.snoc (e := Step.call 2 64 (.addEvent .READ (some 0) (.cb 2))) ⟨rfl, rfl⟩
  have h₃ := h₂.snoc (e := Step.resize 1) ⟨trivial, rfl⟩
  have h₄ := h₃.snoc (e := Step.locked 1 true) ⟨trivial, rfl⟩
  exact ⟨_, _, Step.resize 2, _, h₄, ⟨trivial, rfl⟩, rfl, rfl, rfl⟩

end IOManager

end CIM
