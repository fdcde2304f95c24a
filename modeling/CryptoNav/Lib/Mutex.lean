import Mathlib.Logic.Function.Basic

/-!
# One lock

Any number of processes share a resource behind one lock. Only the process that holds the lock
changes the resource, and `Disciplined` is what then stays true: the lock is held by the one process
that is `inside`, the resource satisfies `I`, and each process satisfies `J`, which for a process
outside does not depend on the resource. Each operation keeps it.

There is one lock and it is not reentrant; a process that asks for it while another holds it
simply takes no step, so nothing is said about fairness or about a process ever getting its
turn. What a process does between two steps is its own state `π`, which may hold what it read
under the lock earlier: `J` is where the user says what such a copy is still worth once the lock
is released.
-/

set_option autoImplicit false

namespace CryptoNav.Lib

variable {ι σ π : Type*}

structure Mutex (ι σ π : Type*) where
  resource : σ
  holder : Option ι := none
  processes : ι → π

namespace Mutex

variable [DecidableEq ι]

def setProcess (m : Mutex ι σ π) (p : ι) (q : π) : Mutex ι σ π :=
  { m with processes := Function.update m.processes p q }

/-- The lock is taken. -/
def enter (m : Mutex ι σ π) (p : ι) (q : π) : Mutex ι σ π := { m.setProcess p q with holder := some p }

/-- The lock is released, and the resource left as `r`. -/
def leave (m : Mutex ι σ π) (p : ι) (r : σ) (q : π) : Mutex ι σ π :=
  { m.setProcess p q with resource := r, holder := none }

/-- The process ends wherever it is; the lock is released if it was its own. -/
def quit (m : Mutex ι σ π) (p : ι) (q : π) : Mutex ι σ π :=
  { m.setProcess p q with holder := if m.holder = some p then none else m.holder }

/-- A process goes on, or ends with the error. -/
def attempt {ε : Type*} (m : Mutex ι σ π) (p : ι) (ended : ε → π) : Except ε π → Mutex ι σ π
  | .ok q => m.setProcess p q
  | .error e => m.quit p (ended e)

structure Disciplined (inside : π → Bool) (I : σ → Prop) (J : σ → π → Prop) (m : Mutex ι σ π) :
    Prop where
  holds : ∀ p, inside (m.processes p) ↔ m.holder = some p
  resource : I m.resource
  process : ∀ p, J m.resource (m.processes p)

namespace Disciplined

variable {inside : π → Bool} {I : σ → Prop} {J : σ → π → Prop} {m : Mutex ι σ π} {p : ι} {q : π}

/-- A step on one side of the lock. -/
theorem setProcess (h : Disciplined inside I J m) (hq : inside q = inside (m.processes p))
    (hJ : J m.resource q) : Disciplined inside I J (m.setProcess p q) := by
  have hpoint : ∀ p', (m.setProcess p q).processes p' = if p' = p then q else m.processes p' :=
    Function.update_apply m.processes p q
  refine ⟨fun p' => ?_, h.resource, fun p' => ?_⟩
  · rw [hpoint]
    by_cases hp : p' = p
    · rw [if_pos hp, hq, hp]
      exact h.holds p
    · rw [if_neg hp]
      exact h.holds p'
  · rw [hpoint]
    by_cases hp : p' = p
    · rw [if_pos hp]
      exact hJ
    · rw [if_neg hp]
      exact h.process p'

theorem enter (h : Disciplined inside I J m) (hfree : m.holder = none) (hq : inside q)
    (hJ : J m.resource q) : Disciplined inside I J (m.enter p q) := by
  have hpoint : ∀ p', (m.enter p q).processes p' = if p' = p then q else m.processes p' :=
    Function.update_apply m.processes p q
  refine ⟨fun p' => ?_, h.resource, fun p' => ?_⟩
  · rw [hpoint]
    show _ ↔ some p = some p'
    by_cases hp : p' = p
    · rw [if_pos hp, hp]
      exact iff_of_true hq rfl
    · rw [if_neg hp, h.holds, hfree]
      exact iff_of_false (by simp) fun hp' => hp (Option.some.inj hp').symm
  · rw [hpoint]
    by_cases hp : p' = p
    · rw [if_pos hp]
      exact hJ
    · rw [if_neg hp]
      exact h.process p'

/-- The others are outside, so that what holds of them does not depend on the resource. -/
theorem leave (h : Disciplined inside I J m)
    (outside : ∀ r r' q, inside q = false → J r q → J r' q) (hp : inside (m.processes p))
    (hq : inside q = false) {r : σ} (hI : I r) (hJ : J r q) :
    Disciplined inside I J (m.leave p r q) := by
  have hpoint : ∀ p', (m.leave p r q).processes p' = if p' = p then q else m.processes p' :=
    Function.update_apply m.processes p q
  have hother : ∀ p', p' ≠ p → inside (m.processes p') = false := by
    intro p' hne
    rw [← Bool.not_eq_true, h.holds p', (h.holds p).mp hp]
    exact fun hp' => hne (Option.some.inj hp').symm
  refine ⟨fun p' => ?_, hI, fun p' => ?_⟩
  · rw [hpoint]
    show _ ↔ none = some p'
    by_cases hp' : p' = p
    · rw [if_pos hp', hq]
      exact iff_of_false (by simp) (by simp)
    · rw [if_neg hp', hother p' hp']
      exact iff_of_false (by simp) (by simp)
  · rw [hpoint]
    by_cases hp' : p' = p
    · rw [if_pos hp']
      exact hJ
    · rw [if_neg hp']
      exact outside _ _ _ (hother p' hp') (h.process p')

theorem quit (h : Disciplined inside I J m)
    (outside : ∀ r r' q, inside q = false → J r q → J r' q) (hq : inside q = false)
    (hJ : J m.resource q) : Disciplined inside I J (m.quit p q) := by
  by_cases hp : m.holder = some p
  · have hleave : m.quit p q = m.leave p m.resource q := by
      unfold Mutex.quit Mutex.leave
      rw [if_pos hp]
      rfl
    rw [hleave]
    exact h.leave outside ((h.holds p).mpr hp) hq h.resource hJ
  · have hset : m.quit p q = m.setProcess p q := by
      unfold Mutex.quit
      rw [if_neg hp]
      rfl
    rw [hset]
    refine h.setProcess ?_ hJ
    rw [hq]
    exact (Bool.eq_false_iff.mpr fun hin => hp ((h.holds p).mp hin)).symm

theorem attempt {ε : Type*} {ended : ε → π} {x : Except ε π} (h : Disciplined inside I J m)
    (outside : ∀ r r' q, inside q = false → J r q → J r' q)
    (hended : ∀ e, inside (ended e) = false ∧ J m.resource (ended e))
    (hok : ∀ q, x = .ok q → inside q = inside (m.processes p) ∧ J m.resource q) :
    Disciplined inside I J (m.attempt p ended x) := by
  cases x with
  | error e => exact h.quit outside (hended e).1 (hended e).2
  | ok q => exact h.setProcess (hok q rfl).1 (hok q rfl).2

end Disciplined

end Mutex

end CryptoNav.Lib
