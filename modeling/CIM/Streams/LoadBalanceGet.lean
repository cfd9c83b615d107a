import CIM.Streams.LoadBalance

/-!
# `SDLoadBalance::get` by several threads

Each call looks for a balancer under the read lock and, where there is none, creates one and
stores it under the write lock. Between its sections the other calls take their steps.
-/
namespace CIM

open Transition

/-- The program points of `get`: before each of its sections, and before the creation. -/
inductive GetPoint
  | out
  | find (key : ServiceKey) (auto_create : Bool)
  | getType (key : ServiceKey)
  | create (key : ServiceKey) (type : LoadBalanceType)
  | store (key : ServiceKey) (lb : Nat)

/-- Balancers are numbered as they are created. `returned` records the calls that have ended,
with `auto_create` and what they gave. -/
structure SDLoadBalance where
  m_datas : ServiceKey → Option Nat
  m_types : ServiceKey → Option LoadBalanceType
  heap : List LoadBalance
  point : Nat → GetPoint
  returned : List (ServiceKey × Bool × Option Nat)

namespace SDLoadBalance

inductive Step
  | get (t : Nat) (key : ServiceKey) (auto_create : Bool)
  | initConf (types : ServiceKey → Option LoadBalanceType)
  | next (t : Nat)

def init (types : ServiceKey → Option LoadBalanceType) : SDLoadBalance :=
  ⟨fun _ => none, types, [], fun _ => .out, []⟩

def goto (s : SDLoadBalance) (t : Nat) (p : GetPoint) : SDLoadBalance :=
  { s with point := Function.update s.point t p }

def ret (s : SDLoadBalance) (t : Nat) (key : ServiceKey) (auto_create : Bool) (lb : Option Nat) :
    SDLoadBalance :=
  { s.goto t .out with returned := s.returned ++ [(key, auto_create, lb)] }

/-- One section of the call of thread `t`. The last one stores without looking again. -/
def next (s : SDLoadBalance) (t : Nat) : Option SDLoadBalance :=
  match s.point t with
  | .out => none
  | .find key auto_create =>
      match s.m_datas key with
      | some lb => some (s.ret t key auto_create (some lb))
      | none => some (if auto_create then s.goto t (.getType key) else s.ret t key false none)
  | .getType key => some (s.goto t (.create key ((s.m_types key).getD .fair)))
  | .create key type =>
      some { s.goto t (.store key s.heap.length) with heap := s.heap ++ [createLoadBalance type] }
  | .store key lb =>
      some { s.ret t key true (some lb) with m_datas := Function.update s.m_datas key (some lb) }

def exec (s : SDLoadBalance) : Step → Option SDLoadBalance
  | .get t key auto_create =>
      match s.point t with
      | .out => some (s.goto t (.find key auto_create))
      | _ => none
  | .initConf types => some { s with m_types := types }
  | .next t => s.next t

/-- Every finished call that may create has returned the balancer that is stored now. -/
def Agrees (s : SDLoadBalance) : Prop :=
  ∀ key lb, (key, true, lb) ∈ s.returned → lb.isSome = true ∧ s.m_datas key = lb

/-- A call that comes to its store finds no balancer there. -/
def StoresFirst (s : SDLoadBalance) : Step → Prop
  | .next t => ∀ key lb, s.point t = .store key lb → s.m_datas key = none
  | _ => True

end SDLoadBalance

def sdLoadBalance : System SDLoadBalance SDLoadBalance.Step where
  init s := ∃ types, s = SDLoadBalance.init types
  step s e s' := s.exec e = some s'

namespace SDLoadBalance

variable {s s' : SDLoadBalance} {e : Step}

/-- What was stored is what a call returned, and a balancer that waits for its store is nowhere
else. -/
structure Inv (s : SDLoadBalance) : Prop where
  agrees : s.Agrees
  stored : ∀ key lb, s.m_datas key = some lb →
    lb < s.heap.length ∧ (key, true, some lb) ∈ s.returned
  waiting : ∀ t key lb, s.point t = .store key lb →
    lb < s.heap.length ∧ ∀ key', s.m_datas key' ≠ some lb
  distinct : ∀ t u key key' lb, s.point t = .store key lb → s.point u = .store key' lb → t = u

theorem goto_point {t u : Nat} {p : GetPoint} (h : u ≠ t) :
    (s.goto t p).point u = s.point u := by
  change Function.update s.point t p u = s.point u
  exact Function.update_of_ne h _ _

theorem goto_self (t : Nat) (p : GetPoint) : (s.goto t p).point t = p := by
  change Function.update s.point t p t = p
  exact Function.update_self _ _ _

/-- A step to a point that is no store leaves the other calls where they are. -/
theorem Inv.goto (h : Inv s) (t : Nat) {p : GetPoint} (hp : ∀ key lb, p ≠ .store key lb) :
    Inv (s.goto t p) := by
  have hback : ∀ u key lb, (s.goto t p).point u = .store key lb → s.point u = .store key lb := by
    intro u key lb hu
    by_cases hut : u = t
    · subst hut
      rw [goto_self] at hu
      exact absurd hu (hp key lb)
    · rw [goto_point hut] at hu
      exact hu
  exact
    { agrees := h.agrees
      stored := h.stored
      waiting := fun u key lb hu => h.waiting u key lb (hback u key lb hu)
      distinct := fun u v key key' lb hu hv =>
        h.distinct u v key key' lb (hback u key lb hu) (hback v key' lb hv) }

/-- A call returns what is stored, or nothing where it may not create. -/
theorem Inv.ret (h : Inv s) (t : Nat) (key : ServiceKey) {auto_create : Bool} {lb : Option Nat}
    (hlb : auto_create = true → lb.isSome = true ∧ s.m_datas key = lb) :
    Inv (s.ret t key auto_create lb) := by
  have hg := h.goto t (p := .out) (fun _ _ hp => nomatch hp)
  refine
    { agrees := ?_
      stored := ?_
      waiting := hg.waiting
      distinct := hg.distinct }
  · intro key' lb' hmem
    rcases List.mem_append.mp hmem with hold | hnew
    · exact h.agrees key' lb' hold
    · cases List.mem_singleton.mp hnew
      exact hlb rfl
  · intro key' lb' hs
    obtain ⟨hlt, hret⟩ := h.stored key' lb' hs
    exact ⟨hlt, List.mem_append_left _ hret⟩

theorem Inv.create (h : Inv s) (t : Nat) (key : ServiceKey) (type : LoadBalanceType) :
    Inv { s.goto t (.store key s.heap.length) with
      heap := s.heap ++ [createLoadBalance type] } := by
  have hlen : (s.heap ++ [createLoadBalance type]).length = s.heap.length + 1 :=
    List.length_append
  refine
    { agrees := h.agrees
      stored := ?_
      waiting := ?_
      distinct := ?_ }
  · intro key' lb hs
    obtain ⟨hlt, hret⟩ := h.stored key' lb hs
    exact ⟨hlen ▸ Nat.lt_succ_of_lt hlt, hret⟩
  · intro u key' lb hu
    change (s.goto t (.store key s.heap.length)).point u = _ at hu
    change lb < (s.heap ++ [createLoadBalance type]).length ∧ _
    rw [hlen]
    by_cases hut : u = t
    · rw [hut, goto_self] at hu
      cases hu
      exact ⟨Nat.lt_succ_self _, fun key'' hs => Nat.lt_irrefl _ (h.stored key'' _ hs).1⟩
    · rw [goto_point hut] at hu
      obtain ⟨hlt, hnot⟩ := h.waiting u key' lb hu
      exact ⟨Nat.lt_succ_of_lt hlt, hnot⟩
  · intro u v key₁ key₂ lb hu hv
    change (s.goto t (.store key s.heap.length)).point u = _ at hu
    change (s.goto t (.store key s.heap.length)).point v = _ at hv
    by_cases hut : u = t
    · by_cases hvt : v = t
      · rw [hut, hvt]
      · rw [hut, goto_self] at hu
        rw [goto_point hvt] at hv
        cases hu
        exact absurd (h.waiting v key₂ _ hv).1 (Nat.lt_irrefl _)
    · rw [goto_point hut] at hu
      by_cases hvt : v = t
      · rw [hvt, goto_self] at hv
        cases hv
        exact absurd (h.waiting u key₁ _ hu).1 (Nat.lt_irrefl _)
      · rw [goto_point hvt] at hv
        exact h.distinct u v key₁ key₂ lb hu hv

theorem Inv.store (h : Inv s) {t lb : Nat} {key : ServiceKey} (ht : s.point t = .store key lb)
    (hnone : s.m_datas key = none) :
    Inv { s.ret t key true (some lb) with
      m_datas := Function.update s.m_datas key (some lb) } := by
  have hself : ∀ key', Function.update s.m_datas key (some lb) key' = s.m_datas key' ∨
      key' = key ∧ Function.update s.m_datas key (some lb) key' = some lb := by
    intro key'
    by_cases hk : key' = key
    · rw [hk, Function.update_self]
      exact .inr ⟨rfl, rfl⟩
    · exact .inl (Function.update_of_ne hk _ _)
  have hback : ∀ u key' lb', (s.goto t .out).point u = .store key' lb' →
      u ≠ t ∧ s.point u = .store key' lb' := by
    intro u key' lb' hu
    by_cases hut : u = t
    · rw [hut, goto_self] at hu
      cases hu
    · rw [goto_point hut] at hu
      exact ⟨hut, hu⟩
  refine
    { agrees := ?_
      stored := ?_
      waiting := ?_
      distinct := ?_ }
  · intro key' lb' hmem
    change lb'.isSome = true ∧ Function.update s.m_datas key (some lb) key' = lb'
    rcases List.mem_append.mp hmem with hold | hnew
    · obtain ⟨hsome, hs⟩ := h.agrees key' lb' hold
      rcases hself key' with hsame | ⟨rfl, -⟩
      · exact ⟨hsome, hsame.trans hs⟩
      · -- nothing was stored for the pair, so that no call has returned for it
        rw [← hs, hnone] at hsome
        cases hsome
    · cases List.mem_singleton.mp hnew
      exact ⟨rfl, Function.update_self _ _ _⟩
  · intro key' lb' hs
    change Function.update s.m_datas key (some lb) key' = some lb' at hs
    rcases hself key' with hsame | ⟨rfl, hnew⟩
    · obtain ⟨hlt, hret⟩ := h.stored key' lb' (hsame.symm.trans hs)
      exact ⟨hlt, List.mem_append_left _ hret⟩
    · cases hnew.symm.trans hs
      exact ⟨(h.waiting t key' lb ht).1, List.mem_append_right _ (List.mem_singleton.mpr rfl)⟩
  · intro u key' lb' hu
    obtain ⟨hut, hu⟩ := hback u key' lb' hu
    obtain ⟨hlt, hnot⟩ := h.waiting u key' lb' hu
    refine ⟨hlt, fun key'' hs => ?_⟩
    change Function.update s.m_datas key (some lb) key'' = some lb' at hs
    rcases hself key'' with hsame | ⟨-, hnew⟩
    · exact hnot key'' (hsame.symm.trans hs)
    · cases hnew.symm.trans hs
      exact hut (h.distinct u t key' key lb hu ht)
  · intro u v key₁ key₂ lb' hu hv
    exact h.distinct u v key₁ key₂ lb' (hback u key₁ lb' hu).2 (hback v key₂ lb' hv).2

theorem Inv.next (h : Inv s) {t : Nat} (hg : s.StoresFirst (.next t)) (hs : s.next t = some s') :
    Inv s' := by
  unfold SDLoadBalance.next at hs
  split at hs
  · cases hs
  · rename_i key auto_create ht
    split at hs
    · rename_i lb hlb
      cases hs
      exact h.ret t key fun _ => ⟨rfl, hlb⟩
    · cases hs
      split
      · exact h.goto t fun _ _ hp => nomatch hp
      · exact h.ret t key fun hf => nomatch hf
  · cases hs
    exact h.goto t fun _ _ hp => nomatch hp
  · cases hs
    exact h.create t _ _
  · rename_i key lb ht
    cases hs
    exact h.store ht (hg key lb ht)

theorem Inv.exec (h : Inv s) (hg : s.StoresFirst e) (hs : s.exec e = some s') : Inv s' := by
  cases e with
  | get t key auto_create =>
      unfold SDLoadBalance.exec at hs
      dsimp only at hs
      split at hs
      · cases hs
        exact h.goto t fun _ _ hp => nomatch hp
      · cases hs
  | initConf types =>
      cases hs
      exact ⟨h.agrees, h.stored, h.waiting, h.distinct⟩
  | next t => exact h.next hg hs

theorem inv_init (types : ServiceKey → Option LoadBalanceType) : Inv (init types) where
  agrees _ _ hmem := nomatch hmem
  stored _ _ hs := nomatch hs
  waiting _ _ _ hp := nomatch hp
  distinct _ _ _ _ _ hp := nomatch hp

theorem run_inv {es : List Step} (h : (sdLoadBalance.restrict StoresFirst).Run es s) : Inv s := by
  refine h.invariant (I := Inv) ?_ ?_
  · rintro s ⟨types, rfl⟩
    exact inv_init types
  · rintro s e s' hs ⟨hg, hstep⟩
    exact hs.exec hg hstep

/-- A second store leaves the calls that returned the first balancer behind. -/
theorem Inv.not_agrees (h : Inv s) (hg : ¬s.StoresFirst e) (hs : s.exec e = some s') :
    ¬s'.Agrees := by
  cases e with
  | get t key auto_create => exact absurd trivial hg
  | initConf types => exact absurd trivial hg
  | next t =>
      unfold StoresFirst at hg
      simp only [not_forall] at hg
      obtain ⟨key, lb, ht, hsome⟩ := hg
      obtain ⟨old, hold⟩ := Option.ne_none_iff_exists'.mp hsome
      have hstep : s.next t = some s' := hs
      unfold SDLoadBalance.next at hstep
      rw [ht] at hstep
      cases hstep
      intro hagrees
      have hret := (h.stored key old hold).2
      have hnow := (hagrees key (some old) (List.mem_append_left _ hret)).2
      change Function.update s.m_datas key (some lb) key = some old at hnow
      rw [Function.update_self] at hnow
      cases hnow
      exact (h.waiting t key lb ht).2 key hold

/-- As long as every call that comes to its store finds none there, all calls for a pair have
returned the balancer that is stored; the first store over another one ends that. -/
theorem get_agrees {es : List Step} (h : (sdLoadBalance.restrict StoresFirst).Run es s) :
    s.Agrees ∧ ∀ e s', sdLoadBalance.step s e s' → ¬s.StoresFirst e → ¬s'.Agrees :=
  ⟨(run_inv h).agrees, fun _ _ hs hg => (run_inv h).not_agrees hg hs⟩

/-- Two calls of which the second begins when the first has ended. -/
theorem get_agrees_in_turn :
    ∃ es s, (sdLoadBalance.restrict StoresFirst).Run es s ∧
      s.returned = [(("d", "s"), true, some 0), (("d", "s"), true, some 0)] ∧
      s.Agrees ∧ ∀ e s', sdLoadBalance.step s e s' → ¬s.StoresFirst e → ¬s'.Agrees := by
  have h₀ : (sdLoadBalance.restrict StoresFirst).Run [] (init fun _ => none) := .start ⟨_, rfl⟩
  have h₁ := h₀.snoc (e := Step.get 1 ("d", "s") true) ⟨trivial, rfl⟩
  have h₂ := h₁.snoc (e := Step.next 1) ⟨fun _ _ hp => (nomatch hp), rfl⟩
  have h₃ := h₂.snoc (e := Step.next 1) ⟨fun _ _ hp => (nomatch hp), rfl⟩
  have h₄ := h₃.snoc (e := Step.next 1) ⟨fun _ _ hp => (nomatch hp), rfl⟩
  have h₅ := h₄.snoc (e := Step.next 1) ⟨fun _ _ hp => by cases hp; rfl, rfl⟩
  have h₆ := h₅.snoc (e := Step.get 2 ("d", "s") true) ⟨trivial, rfl⟩
  have h₇ := h₆.snoc (e := Step.next 2) ⟨fun _ _ hp => (nomatch hp), rfl⟩
  exact ⟨_, _, h₇, rfl, get_agrees h₇⟩

/-- Two calls look before either of them stores. -/
theorem get_twice :
    ∃ es s, sdLoadBalance.Run es s ∧
      s.returned = [(("d", "s"), true, some 0), (("d", "s"), true, some 1)] ∧
      s.m_datas ("d", "s") = some 1 ∧ ¬s.Agrees := by
  have h₀ : sdLoadBalance.Run [] (init fun _ => none) := .start ⟨_, rfl⟩
  have h₁ := h₀.snoc (e := Step.get 1 ("d", "s") true) rfl
  have h₂ := h₁.snoc (e := Step.get 2 ("d", "s") true) rfl
  have h₃ := h₂.snoc (e := Step.next 1) rfl
  have h₄ := h₃.snoc (e := Step.next 2) rfl
  have h₅ := h₄.snoc (e := Step.next 1) rfl
  have h₆ := h₅.snoc (e := Step.next 1) rfl
  have h₇ := h₆.snoc (e := Step.next 1) rfl
  have h₈ := h₇.snoc (e := Step.next 2) rfl
  have h₉ := h₈.snoc (e := Step.next 2) rfl
  have h₁₀ := h₉.snoc (e := Step.next 2) rfl
  refine ⟨_, _, h₁₀, rfl, rfl, fun hagrees => ?_⟩
  exact absurd (hagrees ("d", "s") (some 0) List.mem_cons_self).2 (by decide)

end SDLoadBalance

end CIM
