import Jni2Hook.Lib.Program

/-!
# Loops over slots that grow

A program that visits the slots of a list in its state, one position after the other, while the visits may append slots
and rewrite the slot they are at.

* `scanSlots`: the loop; slots appended on the way are visited too.
* `after_scanSlots`: what each visit leaves of the slots, and achieves for its own one, the loop does for all of them.
* `after_scanSlots_at`: a property of the position and the state that every visit hands on, and the errors of the
  visits.
* `scanSlots_checks`: a loop whose visits only check their slots.
-/

namespace Lib

section Scan

variable {ε σ α : Type} (slots : σ → List α) (body : Nat → α → EStateM ε σ Unit)

def scanSlots : Nat → Nat → EStateM ε σ Unit
  | 0, _ => return ()
  | fuel + 1, position => do
    match (slots (← get))[position]? with
    | none => return ()
    | some slot => do
      body position slot
      scanSlots fuel (position + 1)

/-- Every slot but one is as it was. -/
def KeepsOthers (position : Nat) (s t : σ) : Prop :=
  ∀ k a, k ≠ position → (slots s)[k]? = some a → (slots t)[k]? = some a

/-- A visit of a loop over slots, with an invariant of the state, a relation between the states before and after, and
what it has achieved for its slot when it is over. -/
structure Visits (I : σ → Prop) (R : σ → σ → Prop) (Done : Nat → α → σ → σ → Prop) : Prop where
  visit : ∀ position a s, I s → (slots s)[position]? = some a → After (body position a) s
    (fun _ t => I t ∧ R s t ∧ KeepsOthers slots position s t ∧ Done position a s t) fun _ _ => True
  /-- What holds from a later state on holds from an earlier one on. -/
  earlier : ∀ {k a s t u}, R s t → Done k a t u → Done k a s u
  /-- What was achieved is not undone by visits of other slots. -/
  later : ∀ {k a s t u}, I u → R t u → (∀ b, (slots t)[k]? = some b → (slots u)[k]? = some b) → Done k a s t →
    Done k a s u

variable {slots body} {I : σ → Prop} {R : σ → σ → Prop} {Done : Nat → α → σ → σ → Prop}

theorem after_scanSlots [Std.Refl R] [IsTrans σ R] (h : Visits slots body I R Done) (fuel position : Nat) (s : σ)
    (hs : I s) : After (scanSlots slots body fuel position) s
      (fun _ t => I t ∧ R s t ∧ (∀ k a, k < position → (slots s)[k]? = some a → (slots t)[k]? = some a) ∧
        ∀ k a, position ≤ k → k < position + fuel → (slots s)[k]? = some a → Done k a s t)
      fun _ _ => True := by
  induction fuel generalizing position s with
  | zero => exact ⟨hs, Std.Refl.refl s, fun _ _ _ ha => ha, fun k a hlow hhigh => absurd hhigh (by omega)⟩
  | succ fuel ih =>
    unfold scanSlots
    rw [after_bind, after_get]
    cases hslot : (slots s)[position]? with
    | none =>
      refine ⟨hs, Std.Refl.refl s, fun _ _ _ ha => ha, fun k a hlow hhigh ha => ?_⟩
      -- a slot behind the end does not exist
      have hend := List.getElem?_eq_none_iff.mp hslot
      have hk := (List.getElem?_eq_some_iff.mp ha).1
      omega
    | some slot =>
      dsimp only
      rw [after_bind]
      refine (h.visit position slot s hs hslot).mono (fun _ t ht => ?_) fun _ _ _ => trivial
      obtain ⟨hIt, hst, hothers, hdone⟩ := ht
      refine (ih (position + 1) t hIt).mono (fun _ u hu => ?_) fun _ _ _ => trivial
      obtain ⟨hIu, htu, hbefore, hbehind⟩ := hu
      refine ⟨hIu, IsTrans.trans _ _ _ hst htu, fun k a hk ha => ?_, fun k a hlow hhigh ha => ?_⟩
      · exact hbefore k a (by omega) (hothers k a (by omega) ha)
      · by_cases hk : k = position
        · subst hk
          rw [hslot] at ha
          cases ha
          exact h.later hIu htu (fun b hb => hbefore k b (by omega) hb) hdone
        · exact h.earlier hst (hbehind k a (by omega) (by omega) (hothers k a hk ha))

/-- The loop hands on what each visit does, and fails as the visits fail. -/
theorem after_scanSlots_at {J : Nat → σ → Prop} {E : ε → σ → Prop} (hvisit : ∀ position a s, J position s →
      (slots s)[position]? = some a → After (body position a) s (fun _ t => J (position + 1) t) E)
    (fuel position : Nat) (s : σ) (hs : J position s) :
    After (scanSlots slots body fuel position) s (fun _ t => ∃ position', J position' t) E := by
  induction fuel generalizing position s with
  | zero => exact ⟨position, hs⟩
  | succ fuel ih =>
    unfold scanSlots
    rw [after_bind, after_get]
    cases hslot : (slots s)[position]? with
    | none => exact ⟨position, hs⟩
    | some slot =>
      dsimp only
      rw [after_bind]
      exact (hvisit position slot s hs hslot).mono (fun _ t ht => ih (position + 1) t ht) fun _ _ he => he

/-- When every visit leaves the state alone, the loop returns if all slots are good, and fails if one is not. -/
theorem scanSlots_checks {s : σ} {e : ε} {good : Nat → α → Prop}
    (hgood : ∀ position a, (slots s)[position]? = some a → good position a → body position a s = .ok () s)
    (hbad : ∀ position a, (slots s)[position]? = some a → ¬good position a → body position a s = .error e s)
    (fuel position : Nat) :
    ((∀ k a, position ≤ k → (slots s)[k]? = some a → good k a) → scanSlots slots body fuel position s = .ok () s) ∧
    ((∃ k a, position ≤ k ∧ k < position + fuel ∧ (slots s)[k]? = some a ∧ ¬good k a) →
      scanSlots slots body fuel position s = .error e s) := by
  induction fuel generalizing position with
  | zero =>
    refine ⟨fun _ => rfl, ?_⟩
    rintro ⟨k, a, hlow, hhigh, -⟩
    omega
  | succ fuel ih =>
    unfold scanSlots
    rw [run_bind, run_get]
    dsimp only
    cases hslot : (slots s)[position]? with
    | none =>
      refine ⟨fun _ => rfl, ?_⟩
      rintro ⟨k, a, hlow, -, ha, -⟩
      have hend := List.getElem?_eq_none_iff.mp hslot
      have hk := (List.getElem?_eq_some_iff.mp ha).1
      omega
    | some slot =>
      dsimp only
      rw [run_bind]
      obtain ⟨ihgood, ihbad⟩ := ih (position + 1)
      refine ⟨fun hall => ?_, ?_⟩
      · rw [hgood position slot hslot (hall position slot (Nat.le_refl _) hslot)]
        exact ihgood fun k a hk ha => hall k a (by omega) ha
      · rintro ⟨k, a, hlow, hhigh, ha, hno⟩
        by_cases hhere : good position slot
        · rw [hgood position slot hslot hhere]
          -- the bad slot is a later one
          have hk : k ≠ position := by
            rintro rfl
            rw [hslot] at ha
            cases ha
            exact hno hhere
          exact ihbad ⟨k, a, by omega, by omega, ha, hno⟩
        · rw [hbad position slot hslot hhere]

end Scan

end Lib
