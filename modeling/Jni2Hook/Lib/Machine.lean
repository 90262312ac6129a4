import Mathlib.Data.List.Nodup

/-!
# Runs of an event-driven machine

A machine is a step function on states and events. The invariant rules carry a property of the state, and of the
events seen so far, along every run.

* `invariant_run`: a property that each step keeps holds after every run.
* `history_run`: the same for a property of the past events and the state, along runs whose steps all meet a condition.
* `refines_run`: a machine whose steps are those of a smaller one, on the events and what it puts out for them.
* `Population.evolves_run`: how the members of the state, told apart by a number each, change along a run.
-/

namespace Lib

section Machine

variable {σ ε : Type} (step : σ → ε → σ)

/-- The state after a list of events. -/
def runEvents : σ → List ε → σ
  | s, [] => s
  | s, e :: es => runEvents (step s e) es

/-- Every event of a run meets `ok` in the state where it happens. -/
def AllMeet (ok : σ → ε → Prop) : σ → List ε → Prop
  | _, [] => True
  | s, e :: es => ok s e ∧ AllMeet ok (step s e) es

variable {step}

instance AllMeet.decidable {ok : σ → ε → Prop} [∀ s e, Decidable (ok s e)] : ∀ s es, Decidable (AllMeet step ok s es)
  | _, [] => inferInstanceAs (Decidable True)
  | s, e :: es =>
    have : Decidable (AllMeet step ok (step s e) es) := AllMeet.decidable (step s e) es
    inferInstanceAs (Decidable (ok s e ∧ AllMeet step ok (step s e) es))

theorem runEvents_append (s : σ) (es es' : List ε) :
    runEvents step s (es ++ es') = runEvents step (runEvents step s es) es' := by
  induction es generalizing s with
  | nil => rfl
  | cons e es ih => exact ih (step s e)

theorem AllMeet.of_forall {ok : σ → ε → Prop} (h : ∀ s e, ok s e) (s : σ) (es : List ε) : AllMeet step ok s es := by
  induction es generalizing s with
  | nil => trivial
  | cons e es ih => exact ⟨h s e, ih (step s e)⟩

theorem AllMeet.split {ok : σ → ε → Prop} {s : σ} {es es' : List ε} (h : AllMeet step ok s (es ++ es')) :
    AllMeet step ok s es ∧ AllMeet step ok (runEvents step s es) es' := by
  induction es generalizing s with
  | nil => exact ⟨trivial, h⟩
  | cons e es ih =>
    obtain ⟨hes, hes'⟩ := ih h.2
    exact ⟨⟨h.1, hes⟩, hes'⟩

theorem AllMeet.append {ok : σ → ε → Prop} {s : σ} {es es' : List ε} (h : AllMeet step ok s es)
    (h' : AllMeet step ok (runEvents step s es) es') : AllMeet step ok s (es ++ es') := by
  induction es generalizing s with
  | nil => exact h'
  | cons e es ih => exact ⟨h.1, ih h.2 h'⟩

/-- A run meets a condition when each of its events does after the events before it. -/
theorem allMeet_iff {ok : σ → ε → Prop} {s : σ} {es : List ε} : AllMeet step ok s es ↔
    ∀ before e after, es = before ++ e :: after → ok (runEvents step s before) e := by
  constructor
  · intro h before e after hes
    subst hes
    exact h.split.2.1
  · induction es generalizing s with
    | nil => exact fun _ => trivial
    | cons e es ih =>
      intro h
      refine ⟨h [] e es rfl, ih fun before e' after hes => ?_⟩
      exact h (e :: before) e' after (by rw [hes, List.cons_append])

/-- The run rule for a property of the past and the state. -/
theorem history_run {ok : σ → ε → Prop} {I : List ε → σ → Prop}
    (hstep : ∀ past s e, I past s → ok s e → I (past ++ [e]) (step s e)) :
    ∀ (past : List ε) {es : List ε} {s : σ}, I past s → AllMeet step ok s es → I (past ++ es) (runEvents step s es)
  | past, [], s, h, _ => by simpa [runEvents] using h
  | past, e :: es, s, h, hm => by
    have h₁ := hstep past s e h hm.1
    have h₂ := history_run hstep (past ++ [e]) h₁ hm.2
    simpa [runEvents] using h₂

/-- The run rule for a property of the state. -/
theorem invariant_run {ok : σ → ε → Prop} {I : σ → Prop} (hstep : ∀ s e, I s → ok s e → I (step s e))
    {es : List ε} {s : σ} (h : I s) (hm : AllMeet step ok s es) : I (runEvents step s es) :=
  history_run (I := fun _ s => I s) (fun _ s e => hstep s e) [] h hm

/-! ## Refinement -/

/-- The events of a run, each with what the machine puts out for it. -/
def loggedEvents {ω : Type} (step : σ → ε → σ) (out : σ → ε → ω) : σ → List ε → List (ε × ω)
  | _, [] => []
  | s, e :: es => (e, out s e) :: loggedEvents step out (step s e) es

/-- The run rule for a view of the state on which each step is a step of another machine. -/
theorem refines_run {τ ω : Type} {out : σ → ε → ω} {view : σ → τ} {step' : τ → ε × ω → τ} {ok : σ → ε → Prop}
    {I : σ → Prop} (hkeep : ∀ s e, I s → ok s e → I (step s e))
    (hstep : ∀ s e, I s → ok s e → view (step s e) = step' (view s) (e, out s e)) {es : List ε} {s : σ} (h : I s)
    (hm : AllMeet step ok s es) :
    view (runEvents step s es) = runEvents step' (view s) (loggedEvents step out s es) := by
  induction es generalizing s with
  | nil => rfl
  | cons e es ih =>
    rw [runEvents, ih (hkeep s e h hm.1) hm.2, hstep s e h hm.1]
    rfl

end Machine

/-! ## Members of the state -/

/-- The state holds members, each with a number of its own; new members get numbers from `next` on. -/
structure Population (σ ω : Type) where
  members : σ → List ω
  ident : ω → Nat
  next : σ → Nat

namespace Population

variable {σ ε ω : Type} (P : Population σ ω)

/-- No number is given twice, and none from `next` on. -/
structure Distinct (s : σ) : Prop where
  below : ∀ w ∈ P.members s, P.ident w < P.next s
  nodup : ((P.members s).map P.ident).Nodup

/-- Every member of the later state was a member before, in relation to what it is now, or is new. -/
structure Evolves (R : ω → ω → Prop) (s s' : σ) : Prop where
  next : P.next s ≤ P.next s'
  members : ∀ w' ∈ P.members s', (∃ w ∈ P.members s, P.ident w = P.ident w' ∧ R w w') ∨ P.next s ≤ P.ident w'

variable {P} {R : ω → ω → Prop}

theorem Evolves.refl (hR : ∀ w, R w w) (s : σ) : P.Evolves R s s :=
  ⟨Nat.le_refl _, fun w hw => .inl ⟨w, hw, rfl, hR w⟩⟩

theorem Evolves.trans (hR : ∀ a b c, R a b → R b c → R a c) {s₁ s₂ s₃ : σ} (h₁ : P.Evolves R s₁ s₂)
    (h₂ : P.Evolves R s₂ s₃) : P.Evolves R s₁ s₃ := by
  refine ⟨Nat.le_trans h₁.next h₂.next, fun w₃ hw₃ => ?_⟩
  obtain ⟨w₂, hw₂, hid₂, hr₂⟩ | hnew := h₂.members w₃ hw₃
  · obtain ⟨w₁, hw₁, hid₁, hr₁⟩ | hnew := h₁.members w₂ hw₂
    · exact .inl ⟨w₁, hw₁, hid₁.trans hid₂, hR _ _ _ hr₁ hr₂⟩
    · exact .inr (hid₂ ▸ hnew)
  · exact .inr (Nat.le_trans h₁.next hnew)

/-- Members with different numbers are found by their numbers. -/
theorem Distinct.eq {s : σ} (h : P.Distinct s) {w w' : ω} (hw : w ∈ P.members s) (hw' : w' ∈ P.members s)
    (hid : P.ident w = P.ident w') : w = w' :=
  List.inj_on_of_nodup_map h.nodup hw hw' hid

/-- A member and what has become of it. -/
theorem Evolves.related {s s' : σ} (h : P.Evolves R s s') (hd : P.Distinct s) {w w' : ω} (hw : w ∈ P.members s)
    (hw' : w' ∈ P.members s') (hid : P.ident w = P.ident w') : R w w' := by
  obtain ⟨old, hold, hsame, hr⟩ | hnew := h.members w' hw'
  · rw [hd.eq hw hold (hid.trans hsame.symm)]
    exact hr
  · have := hd.below w hw
    omega

/-- The run rule for members. -/
theorem evolves_run {step : σ → ε → σ} {ok : σ → ε → Prop} (hrefl : ∀ w, R w w)
    (htrans : ∀ a b c, R a b → R b c → R a c) (hstep : ∀ s e, ok s e → P.Evolves R s (step s e)) :
    ∀ {es : List ε} {s : σ}, AllMeet step ok s es → P.Evolves R s (runEvents step s es)
  | [], s, _ => Evolves.refl hrefl s
  | e :: _, s, hm => (hstep s e hm.1).trans htrans (evolves_run hrefl htrans hstep hm.2)

end Population

end Lib
