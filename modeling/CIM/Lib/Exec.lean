/-!
# Running programs with state and failure

The equations that run an `EStateM` program one operation at a time. A proof rewrites with the
outcome of each operation and with these.
-/
namespace Exec

variable {ε σ α β : Type}

@[simp] theorem bind_apply (x : EStateM ε σ α) (f : α → EStateM ε σ β) (s : σ) :
    (x >>= f) s = match x s with
      | .ok a s' => f a s'
      | .error e s' => .error e s' := by
  simp only [bind, EStateM.bind]
  cases x s <;> rfl

@[simp] theorem pure_apply (a : α) (s : σ) : (pure a : EStateM ε σ α) s = .ok a s := rfl

@[simp] theorem get_apply (s : σ) : (get : EStateM ε σ σ) s = .ok s s := rfl

@[simp] theorem set_apply (s s' : σ) : (set s' : EStateM ε σ PUnit) s = .ok ⟨⟩ s' := rfl

@[simp] theorem modify_apply (f : σ → σ) (s : σ) :
    (modify f : EStateM ε σ PUnit) s = .ok ⟨⟩ (f s) := rfl

@[simp] theorem throw_apply (e : ε) (s : σ) : (throw e : EStateM ε σ α) s = .error e s := rfl

/-- An operation that succeeds hands its value and state to the rest of the program. -/
theorem bind_ok {x : EStateM ε σ α} {f : α → EStateM ε σ β} {s s' : σ} {a : α}
    (h : x s = .ok a s') : (x >>= f) s = f a s' := by
  rw [bind_apply, h]

/-- A program that succeeds has come through its first operation. -/
theorem of_bind_ok {x : EStateM ε σ α} {f : α → EStateM ε σ β} {s t : σ} {b : β}
    (h : (x >>= f) s = .ok b t) : ∃ a s', x s = .ok a s' ∧ f a s' = .ok b t := by
  rw [bind_apply] at h
  cases hx : x s with
  | ok a s' => exact ⟨a, s', rfl, by simpa only [hx] using h⟩
  | error e s' => simp only [hx, reduceCtorEq] at h

end Exec
