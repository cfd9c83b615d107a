import CIM.Config.ConfigVar

/-!
# Values from text

`fromString` converts, stores and notifies inside one `try`. A listener may do anything to the
variable and to what it shares with the others.
-/
namespace CIM.ConfigVar

/-- What is thrown is a `std::exception` or something else. -/
inductive Thrown
  | exception
  | other

/-- `aborted` is the assertion. -/
inductive Result
  | returned (ok : Bool)
  | escaped
  | aborted

/-- A call `i.second(old_value, v)`, `i` the listener's id. -/
abbrev ConfigChangeCb (T σ : Type) : Type :=
  Nat → T → T → ConfigVar T × σ → Option Thrown × ConfigVar T × σ

variable {T σ : Type}

/-- The calls of the listeners, until one throws. -/
def notify (cb : ConfigChangeCb T σ) (old_value v : T) :
    List Nat → ConfigVar T × σ → Option Thrown × ConfigVar T × σ
  | [], w => (none, w)
  | i :: rest, w =>
      match cb i old_value v w with
      | (none, w) => notify cb old_value v rest w
      | (some e, w) => (some e, w)

/-- The listeners return, one after the other. -/
inductive Returned (cb : ConfigChangeCb T σ) (old_value v : T) :
    List Nat → ConfigVar T × σ → ConfigVar T × σ → Prop
  | nil {w : ConfigVar T × σ} : Returned cb old_value v [] w w
  | cons {i : Nat} {rest : List Nat} {w w₁ w' : ConfigVar T × σ} :
      cb i old_value v w = (none, w₁) → Returned cb old_value v rest w₁ w' →
      Returned cb old_value v (i :: rest) w w'

/-- The first listener to throw throws a `std::exception`, and leaves `w'`. -/
def Throws (cb : ConfigChangeCb T σ) (old_value v : T) (cbs : List Nat)
    (w w' : ConfigVar T × σ) : Prop :=
  ∃ before i behind w₁, cbs = before ++ i :: behind ∧ Returned cb old_value v before w w₁ ∧
    cb i old_value v w₁ = (some .exception, w')

theorem notify_eq_exception {cb : ConfigChangeCb T σ} {old_value v : T} {cbs : List Nat}
    {w w' : ConfigVar T × σ} :
    notify cb old_value v cbs w = (some .exception, w') ↔ Throws cb old_value v cbs w w' := by
  constructor
  · intro h
    induction cbs generalizing w with
    | nil => cases h
    | cons i rest ih =>
        rw [notify] at h
        split at h
        · rename_i w₁ hi
          obtain ⟨before, k, behind, w₂, rfl, hret, hk⟩ := ih h
          exact ⟨i :: before, k, behind, w₂, rfl, .cons hi hret, hk⟩
        · rename_i e w₁ hi
          rw [h] at hi
          exact ⟨[], i, rest, w, rfl, .nil, hi⟩
  · rintro ⟨before, k, behind, w₁, rfl, hret, hk⟩
    induction hret with
    | nil => rw [List.nil_append, notify, hk]
    | cons hi _ ih =>
        rw [List.cons_append, notify, hi]
        exact ih hk

variable [DecidableEq T]

/-- The whole of `setValue`. -/
def setValueNotify (cb : ConfigChangeCb T σ) (v : T) (w : ConfigVar T × σ) :
    Option Thrown × ConfigVar T × σ :=
  match w.1.setValue v with
  | (none, cv) => (none, cv, w.2)
  | (some (old_value, cbs), cv) => notify cb old_value v cbs (cv, w.2)

def fromString (fromStr : String → Except Thrown T) (cb : ConfigChangeCb T σ) (val : String)
    (w : ConfigVar T × σ) : Result × ConfigVar T × σ :=
  if val.isEmpty then (.aborted, w)
  else
    match fromStr val with
    | .error .exception => (.returned false, w)
    | .error .other => (.escaped, w)
    | .ok v =>
        match setValueNotify cb v w with
        | (none, w) => (.returned true, w)
        | (some .exception, w) => (.returned false, w)
        | (some .other, w) => (.escaped, w)

/-- Where it returns false the value is the one from before. -/
def Atomic (fromStr : String → Except Thrown T) (cb : ConfigChangeCb T σ) (val : String)
    (w : ConfigVar T × σ) : Prop :=
  ∀ w', fromString fromStr cb val w = (.returned false, w') → w'.1.m_val = w.1.m_val

/-- The calls that return false: the text is no value, or a listener threw. -/
theorem fromString_false_iff {fromStr : String → Except Thrown T} {cb : ConfigChangeCb T σ}
    {val : String} {w w' : ConfigVar T × σ} :
    fromString fromStr cb val w = (.returned false, w') ↔ val ≠ "" ∧
      (fromStr val = .error .exception ∧ w' = w ∨
        ∃ v, fromStr val = .ok v ∧ v ≠ w.1.m_val ∧
          Throws cb w.1.m_val v w.1.m_cbs ({ w.1 with m_val := v }, w.2) w') := by
  unfold fromString
  by_cases hval : val = ""
  · simp [hval]
  rw [if_neg (by simpa using hval)]
  rcases hv : fromStr val with e | v
  · cases e with
    | exception => simp [hval, eq_comm]
    | other => simp
  · by_cases hsame : v = w.1.m_val
    · simp [setValueNotify, setValue, hsame]
    · have hset : setValueNotify cb v w =
          notify cb w.1.m_val v w.1.m_cbs ({ w.1 with m_val := v }, w.2) := by
        simp [setValueNotify, setValue, hsame]
      simp only [hset, ← notify_eq_exception]
      rcases hn : notify cb w.1.m_val v w.1.m_cbs ({ w.1 with m_val := v }, w.2) with ⟨_ | e, w₁⟩
      · simp [hn]
      · cases e with
        | exception => simp [hval, hsame, hn]
        | other => simp [hn]

/-- A listener that leaves the value alone, also where it throws. -/
def Quiet (cb : ConfigChangeCb T σ) : Prop :=
  ∀ i old_value v w, (cb i old_value v w).2.1.m_val = w.1.m_val

omit [DecidableEq T] in
theorem Quiet.returned {cb : ConfigChangeCb T σ} (hq : Quiet cb) {old_value v : T}
    {cbs : List Nat} {w w' : ConfigVar T × σ} (h : Returned cb old_value v cbs w w') :
    w'.1.m_val = w.1.m_val := by
  induction h with
  | nil => rfl
  | @cons i rest w w₁ w' hi _ ih =>
      have hstep := hq i old_value v w
      rw [hi] at hstep
      exact ih.trans hstep

omit [DecidableEq T] in
theorem Quiet.throws {cb : ConfigChangeCb T σ} (hq : Quiet cb) {old_value v : T}
    {cbs : List Nat} {w w' : ConfigVar T × σ} (h : Throws cb old_value v cbs w w') :
    w'.1.m_val = w.1.m_val := by
  obtain ⟨before, i, behind, w₁, -, hret, hi⟩ := h
  have hlast := hq i old_value v w₁
  rw [hi] at hlast
  exact hlast.trans (hq.returned hret)

theorem atomic_iff (fromStr : String → Except Thrown T) (cb : ConfigChangeCb T σ)
    (val : String) (w : ConfigVar T × σ) :
    Atomic fromStr cb val w ↔
      (val ≠ "" → ∀ v, fromStr val = .ok v → v ≠ w.1.m_val → ∀ w',
        Throws cb w.1.m_val v w.1.m_cbs ({ w.1 with m_val := v }, w.2) w' →
        w'.1.m_val = w.1.m_val) := by
  constructor
  · intro h hval v hv hne w' hthrows
    exact h w' (fromString_false_iff.mpr ⟨hval, .inr ⟨v, hv, hne, hthrows⟩⟩)
  · intro h w' hfalse
    obtain ⟨hval, ⟨-, rfl⟩ | ⟨v, hv, hne, hthrows⟩⟩ := fromString_false_iff.mp hfalse
    · rfl
    · exact h hval v hv hne w' hthrows

/-- The value is stored before the listeners are called, and nothing takes it back: a listener that
throws has to put the old one back, and one that leaves the value alone must not throw. -/
theorem fromString_atomic_iff (fromStr : String → Except Thrown T) (cb : ConfigChangeCb T σ)
    (val : String) (w : ConfigVar T × σ) :
    (Atomic fromStr cb val w ↔
      (val ≠ "" → ∀ v, fromStr val = .ok v → v ≠ w.1.m_val → ∀ w',
        Throws cb w.1.m_val v w.1.m_cbs ({ w.1 with m_val := v }, w.2) w' →
        w'.1.m_val = w.1.m_val)) ∧
    (Quiet cb → (Atomic fromStr cb val w ↔
      (val ≠ "" → ∀ v, fromStr val = .ok v → v ≠ w.1.m_val → ∀ w',
        ¬ Throws cb w.1.m_val v w.1.m_cbs ({ w.1 with m_val := v }, w.2) w'))) := by
  refine ⟨atomic_iff fromStr cb val w, ?_⟩
  intro hq
  rw [atomic_iff]
  refine forall_congr' fun _ => forall_congr' fun v => forall_congr' fun _ =>
    forall_congr' fun hne => forall_congr' fun w' => ?_
  constructor
  · intro h hthrows
    exact hne ((hq.throws hthrows).symm.trans (h hthrows))
  · intro h hthrows
    exact absurd hthrows h

/-- A listener that throws and does nothing else. -/
def refusing : ConfigChangeCb Nat Unit := fun _ _ _ w => (some .exception, w)

/-- The refused value stays. -/
theorem refused_value_stays :
    fromString (fun val => .ok val.length) refusing "new" (⟨1, [1]⟩, ()) =
      (.returned false, ⟨3, [1]⟩, ()) ∧
    ¬ Atomic (fun val => .ok val.length) refusing "new" (⟨1, [1]⟩, ()) := by
  have hfalse : fromString (fun val => .ok val.length) refusing "new" (⟨1, [1]⟩, ()) =
      (.returned false, ⟨3, [1]⟩, ()) := rfl
  exact ⟨hfalse, fun h => absurd (h _ hfalse) (by decide)⟩

end CIM.ConfigVar
