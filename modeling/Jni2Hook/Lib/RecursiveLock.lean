import Mathlib.Logic.Function.Basic

/-!
# A lock that its owner may take again

* `RecursiveLock`: a lock is free, or belongs to a thread that has taken it some number of times.
* `heldBy` counts for each thread how often it has the lock: taking it and giving it back change the count of one thread
  by one (`heldBy_acquire`, `heldBy_release`).
* Only one thread has a count at all (`eq_of_heldBy`), and only for another's does a thread have to wait
  (`acquire_eq_none`).
-/

namespace Lib

/-- A lock that is free, or belongs to a thread that has taken it once and then again. -/
inductive RecursiveLock (τ : Type) where
  | free
  | owned (owner : τ) (again : Nat)

namespace RecursiveLock

variable {τ : Type} [DecidableEq τ]

/-- Takes the lock, if it is free or the thread's own. -/
def acquire (t : τ) : RecursiveLock τ → Option (RecursiveLock τ)
  | free => some (owned t 0)
  | owned owner again => if owner = t then some (owned owner (again + 1)) else none

/-- Gives the lock back once. Another's lock stays as it is. -/
def release (t : τ) : RecursiveLock τ → RecursiveLock τ
  | free => free
  | owned owner 0 => if owner = t then free else owned owner 0
  | owned owner (again + 1) => if owner = t then owned owner again else owned owner (again + 1)

/-- How often the thread has the lock. -/
def heldBy : RecursiveLock τ → τ → Nat
  | free, _ => 0
  | owned owner again, t => if owner = t then again + 1 else 0

variable {lock lock' : RecursiveLock τ} {t t' : τ}

@[simp] theorem heldBy_free (t : τ) : heldBy free t = 0 := rfl

@[simp] theorem heldBy_owner (t : τ) (again : Nat) : heldBy (owned t again) t = again + 1 := if_pos rfl

theorem heldBy_owned_of_ne {owner : τ} (again : Nat) (h : t ≠ owner) : heldBy (owned owner again) t = 0 :=
  if_neg (Ne.symm h)

theorem heldBy_acquire (h : acquire t lock = some lock') :
    heldBy lock' = Function.update (heldBy lock) t (heldBy lock t + 1) := by
  funext u
  cases lock with
  | free =>
    cases h
    by_cases hu : u = t
    · subst hu
      simp
    · rw [Function.update_of_ne hu, heldBy_owned_of_ne 0 hu, heldBy_free]
  | owned owner again =>
    simp only [acquire] at h
    split at h
    · rename_i howner
      subst howner
      cases h
      by_cases hu : u = owner
      · subst hu
        simp
      · rw [Function.update_of_ne hu, heldBy_owned_of_ne _ hu, heldBy_owned_of_ne _ hu]
    · cases h

theorem heldBy_release (h : 0 < heldBy lock t) :
    heldBy (release t lock) = Function.update (heldBy lock) t (heldBy lock t - 1) := by
  cases lock with
  | free => cases h
  | owned owner again =>
    by_cases howner : t = owner
    · subst howner
      funext u
      by_cases hu : u = t
      · subst hu
        cases again <;> simp [release]
      · rw [Function.update_of_ne hu, heldBy_owned_of_ne _ hu]
        cases again with
        | zero => simp [release]
        | succ again => simpa [release] using heldBy_owned_of_ne again hu
    · rw [heldBy_owned_of_ne _ howner] at h
      cases h

/-- Two threads that have the lock are one. -/
theorem eq_of_heldBy (h : 0 < heldBy lock t) (h' : 0 < heldBy lock t') : t = t' := by
  cases lock with
  | free => cases h
  | owned owner again =>
    have howner : t = owner := by
      by_contra hne
      rw [heldBy_owned_of_ne _ hne] at h
      cases h
    have howner' : t' = owner := by
      by_contra hne
      rw [heldBy_owned_of_ne _ hne] at h'
      cases h'
    exact howner.trans howner'.symm

/-- A thread waits for one other that has the lock. -/
theorem acquire_eq_none (h : acquire t lock = none) : ∃ u, u ≠ t ∧ 0 < heldBy lock u := by
  cases lock with
  | free => cases h
  | owned owner again =>
    refine ⟨owner, fun howner => ?_, by simp⟩
    subst howner
    simp [acquire] at h

end RecursiveLock

end Lib
