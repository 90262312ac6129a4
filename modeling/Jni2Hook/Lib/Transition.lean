import Mathlib.Data.List.Basic

/-!
# Runs of labelled transition systems

A system is a relation between a state, an event and a next state. Two systems are compared by a relation between their
states: a bisimulation matches step by step, a weak one matches a step by a run with the same visible events.

* `Path`: a finite run with its events; `Path.append`.
* `Bisimulation.path`, `Bisimulation.path_back`: related states have the same runs.
* `WeakBisimulation.path`, `WeakBisimulation.path_back`: related states have the same visible events.
-/

namespace Lib

section Paths

variable {σ ε : Type} {step : σ → ε → σ → Prop} {s t u : σ} {e : ε} {es es' : List ε}

/-- A finite run and its events. -/
inductive Path (step : σ → ε → σ → Prop) : σ → List ε → σ → Prop
  | nil (s : σ) : Path step s [] s
  | cons {s t u : σ} {e : ε} {es : List ε} (first : step s e t) (rest : Path step t es u) : Path step s (e :: es) u

theorem Path.single (h : step s e t) : Path step s [e] t := .cons h (.nil t)

theorem Path.append (h : Path step s es t) (h' : Path step t es' u) : Path step s (es ++ es') u := by
  induction h with
  | nil s => exact h'
  | cons first _ ih => exact .cons first (ih h')

end Paths

section Related

variable {σ τ ε : Type} {step : σ → ε → σ → Prop} {step' : τ → ε → τ → Prop}
  {R : σ → τ → Prop} {visible : ε → Bool} {s s' : σ} {t t' : τ} {es : List ε}

/-! ## Step by step -/

/-- Related states can make the same steps, into related states. -/
structure Bisimulation (step : σ → ε → σ → Prop) (step' : τ → ε → τ → Prop) (R : σ → τ → Prop) : Prop where
  forth : ∀ {s t e s'}, R s t → step s e s' → ∃ t', step' t e t' ∧ R s' t'
  back : ∀ {s t e t'}, R s t → step' t e t' → ∃ s', step s e s' ∧ R s' t'

theorem Bisimulation.symm (h : Bisimulation step step' R) : Bisimulation step' step fun t s => R s t :=
  ⟨fun hr hstep => h.back hr hstep, fun hr hstep => h.forth hr hstep⟩

theorem Bisimulation.path (h : Bisimulation step step' R) (hr : R s t) (hpath : Path step s es s') :
    ∃ t', Path step' t es t' ∧ R s' t' := by
  induction hpath generalizing t with
  | nil s => exact ⟨t, .nil t, hr⟩
  | cons first _ ih =>
    obtain ⟨t₁, hfirst, hr₁⟩ := h.forth hr first
    obtain ⟨t', hrest, hr'⟩ := ih hr₁
    exact ⟨t', .cons hfirst hrest, hr'⟩

theorem Bisimulation.path_back (h : Bisimulation step step' R) (hr : R s t) (hpath : Path step' t es t') :
    ∃ s', Path step s es s' ∧ R s' t' :=
  h.symm.path hr hpath

/-! ## By what is visible -/

/-- A step of one system is a run of the other with the same visible events, into related states. -/
structure WeakBisimulation (visible : ε → Bool) (step : σ → ε → σ → Prop) (step' : τ → ε → τ → Prop)
    (R : σ → τ → Prop) : Prop where
  forth : ∀ {s t e s'}, R s t → step s e s' →
    ∃ es t', Path step' t es t' ∧ es.filter visible = [e].filter visible ∧ R s' t'
  back : ∀ {s t e t'}, R s t → step' t e t' →
    ∃ es s', Path step s es s' ∧ es.filter visible = [e].filter visible ∧ R s' t'

theorem WeakBisimulation.symm (h : WeakBisimulation visible step step' R) :
    WeakBisimulation visible step' step fun t s => R s t :=
  ⟨fun hr hstep => h.back hr hstep, fun hr hstep => h.forth hr hstep⟩

theorem WeakBisimulation.path (h : WeakBisimulation visible step step' R) (hr : R s t) (hpath : Path step s es s') :
    ∃ es' t', Path step' t es' t' ∧ es'.filter visible = es.filter visible ∧ R s' t' := by
  induction hpath generalizing t with
  | nil s => exact ⟨[], t, .nil t, rfl, hr⟩
  | @cons s s₁ s' e es first _ ih =>
    obtain ⟨es₁, t₁, hfirst, hsame₁, hr₁⟩ := h.forth hr first
    obtain ⟨es₂, t', hrest, hsame₂, hr'⟩ := ih hr₁
    refine ⟨es₁ ++ es₂, t', hfirst.append hrest, ?_, hr'⟩
    rw [List.filter_append, hsame₁, hsame₂, ← List.filter_append, List.singleton_append]

theorem WeakBisimulation.path_back (h : WeakBisimulation visible step step' R) (hr : R s t)
    (hpath : Path step' t es t') : ∃ es' s', Path step s es' s' ∧ es'.filter visible = es.filter visible ∧ R s' t' :=
  h.symm.path hr hpath

end Related

end Lib
