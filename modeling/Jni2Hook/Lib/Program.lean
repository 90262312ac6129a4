import Mathlib.Data.List.Basic
import Mathlib.Order.Defs.Unbundled

/-!
# Pre- and postconditions of stateful, fallible programs

`EStateM ε σ` keeps the state a program has reached when it throws, so a program has a postcondition for each way it can
end.

* `After`: the outcome of a program in a state meets one of two postconditions.
* `After.mono` and the `after_` equations: the verification condition of a program is computed from its text.
* `Keeps`: a program keeps a property of the state, however it ends; its rules follow the text of the program.
* `Relates`, `FailsWithin`: a program moves the state along a relation, always or when it fails.
* `FailsWith`: the errors of a program are among some; `FailsWith.of_bind` finds the step that threw another one.
* `Embeds`: a program on a larger state does what another one does on the part of it.
-/

namespace Lib

section Program

variable {ε σ α β : Type}

/-- Started in `s`, the program returns into `Q` or throws into `E`. -/
def After (x : EStateM ε σ α) (s : σ) (Q : α → σ → Prop) (E : ε → σ → Prop) : Prop :=
  match x s with
  | .ok a t => Q a t
  | .error e t => E e t

/-- The state a program leaves behind. -/
def endState (x : EStateM ε σ α) (s : σ) : σ :=
  match x s with
  | .ok _ t => t
  | .error _ t => t

variable {x : EStateM ε σ α} {f : α → EStateM ε σ β} {s t : σ} {Q Q' : α → σ → Prop} {E E' : ε → σ → Prop}
  {Q₂ : β → σ → Prop}

/-! ## Runs of the commands -/

@[simp] theorem run_pure (a : α) : (pure a : EStateM ε σ α) s = .ok a s := rfl

@[simp] theorem run_throw (e : ε) : (throw e : EStateM ε σ α) s = .error e s := rfl

@[simp] theorem run_get : (get : EStateM ε σ σ) s = .ok s s := rfl

@[simp] theorem run_modify (g : σ → σ) : (modify g : EStateM ε σ PUnit) s = .ok ⟨⟩ (g s) := rfl

theorem run_bind : (x >>= f) s = match x s with
    | .ok a t => f a t
    | .error e t => .error e t := by
  simp only [bind, EStateM.bind]
  cases x s <;> rfl

/-- A sequence that returns has returned twice. -/
theorem exists_of_bind_ok {b : β} {u : σ} (h : (x >>= f) s = .ok b u) : ∃ a t, x s = .ok a t ∧ f a t = .ok b u := by
  rw [run_bind] at h
  cases hx : x s with
  | ok a t =>
    rw [hx] at h
    exact ⟨a, t, rfl, h⟩
  | error e t =>
    rw [hx] at h
    cases h

theorem run_tryCatch (handle : ε → EStateM ε σ α) : tryCatch x handle s = match x s with
    | .ok a t => .ok a t
    | .error e t => handle e t := by
  simp only [tryCatch, tryCatchThe, MonadExceptOf.tryCatch, EStateM.tryCatch]
  cases x s <;> rfl

/-! ## Consequences -/

theorem After.mono (h : After x s Q E) (hQ : ∀ a t, Q a t → Q' a t) (hE : ∀ e t, E e t → E' e t) :
    After x s Q' E' := by
  unfold After at h ⊢
  cases hx : x s with
  | ok a t =>
    rw [hx] at h
    exact hQ a t h
  | error e t =>
    rw [hx] at h
    exact hE e t h

theorem After.of_ok {a : α} (h : After x s Q E) (hx : x s = .ok a t) : Q a t := by
  unfold After at h
  rw [hx] at h
  exact h

theorem After.of_error {e : ε} (h : After x s Q E) (hx : x s = .error e t) : E e t := by
  unfold After at h
  rw [hx] at h
  exact h

/-- Two things known about the outcome of a program hold together. -/
theorem After.and (h : After x s Q E) (h' : After x s Q' E') :
    After x s (fun a t => Q a t ∧ Q' a t) fun e t => E e t ∧ E' e t := by
  unfold After at h h' ⊢
  cases hx : x s with
  | ok a t =>
    rw [hx] at h h'
    exact ⟨h, h'⟩
  | error e t =>
    rw [hx] at h h'
    exact ⟨h, h'⟩

/-- What holds however the program ends holds of the state it leaves behind. -/
theorem After.endState {P : σ → Prop} (h : After x s (fun _ => P) (fun _ => P)) : P (endState x s) := by
  unfold After at h
  unfold Lib.endState
  cases hx : x s with
  | ok a t =>
    rw [hx] at h
    exact h
  | error e t =>
    rw [hx] at h
    exact h

/-! ## Verification conditions -/

@[simp] theorem after_pure (a : α) : After (pure a : EStateM ε σ α) s Q E ↔ Q a s := Iff.rfl

@[simp] theorem after_throw (e : ε) : After (throw e : EStateM ε σ α) s Q E ↔ E e s := Iff.rfl

@[simp] theorem after_bind : After (x >>= f) s Q₂ E ↔ After x s (fun a t => After (f a) t Q₂ E) E := by
  unfold After
  rw [run_bind]
  cases x s <;> rfl

@[simp] theorem after_get {R : σ → σ → Prop} : After (get : EStateM ε σ σ) s R E ↔ R s s := Iff.rfl

@[simp] theorem after_modify {R : PUnit → σ → Prop} (g : σ → σ) :
    After (modify g : EStateM ε σ PUnit) s R E ↔ R ⟨⟩ (g s) := Iff.rfl

@[simp] theorem after_tryCatch (handle : ε → EStateM ε σ α) :
    After (tryCatch x handle) s Q E ↔ After x s Q fun e t => After (handle e) t Q E := by
  unfold After
  rw [run_tryCatch]
  cases x s <;> rfl

theorem after_ite (c : Prop) [Decidable c] (y : EStateM ε σ α) :
    After (if c then x else y) s Q E ↔ (c → After x s Q E) ∧ (¬c → After y s Q E) := by
  by_cases hc : c <;> simp [hc]

/-! ## Invariants of programs -/

/-- The program keeps `I`, however it ends. -/
def Keeps (I : σ → Prop) (x : EStateM ε σ α) : Prop := ∀ s, I s → After x s (fun _ => I) (fun _ => I)

section Keeps

variable {I : σ → Prop}

theorem Keeps.endState (h : Keeps I x) (hs : I s) : I (endState x s) := (h s hs).endState

theorem Keeps.pure (a : α) : Keeps I (pure a : EStateM ε σ α) := fun _ hs => hs

theorem Keeps.throw (e : ε) : Keeps I (throw e : EStateM ε σ α) := fun _ hs => hs

theorem Keeps.get : Keeps I (get : EStateM ε σ σ) := fun _ hs => hs

theorem Keeps.modify {g : σ → σ} (h : ∀ s, I s → I (g s)) : Keeps I (modify g : EStateM ε σ PUnit) :=
  fun s hs => h s hs

theorem Keeps.bind (hx : Keeps I x) (hf : ∀ a, Keeps I (f a)) : Keeps I (x >>= f) := by
  intro s hs
  rw [after_bind]
  exact (hx s hs).mono (fun a t ht => hf a t ht) (fun _ _ ht => ht)

theorem Keeps.pure_bind {a : α} (h : Keeps I (f a)) : Keeps I ((Pure.pure a : EStateM ε σ α) >>= f) := h

theorem Keeps.throw_bind (e : ε) : Keeps I ((MonadExcept.throw e : EStateM ε σ α) >>= f) := fun _ hs => hs

theorem Keeps.tryCatch {handle : ε → EStateM ε σ α} (hx : Keeps I x) (hh : ∀ e, Keeps I (handle e)) :
    Keeps I (tryCatch x handle) := by
  intro s hs
  rw [after_tryCatch]
  exact (hx s hs).mono (fun _ _ ht => ht) (fun e t ht => hh e t ht)

theorem Keeps.ite {c : Prop} [Decidable c] {y : EStateM ε σ α} (hx : Keeps I x) (hy : Keeps I y) :
    Keeps I (if c then x else y) := by
  by_cases hc : c <;> simp [hc, hx, hy]

/-- A program that reads the state first may use the invariant on what it has read. -/
theorem Keeps.get_bind {f : σ → EStateM ε σ β} (h : ∀ s, I s → After (f s) s (fun _ => I) (fun _ => I)) :
    Keeps I (MonadState.get >>= f) := by
  intro s hs
  rw [after_bind]
  exact h s hs

end Keeps

/-! ## Relations between the states before and after -/

/-- However the program ends, the state it leaves behind is related to the one it started in. -/
def Relates (R : σ → σ → Prop) (x : EStateM ε σ α) : Prop := ∀ s, After x s (fun _ => R s) (fun _ => R s)

/-- When the program fails, the state it leaves behind is related to the one it started in. -/
def FailsWithin (R : σ → σ → Prop) (x : EStateM ε σ α) : Prop := ∀ s, After x s (fun _ _ => True) (fun _ => R s)

/-- The program never fails. -/
def NeverFails (x : EStateM ε σ α) : Prop := ∀ s, After x s (fun _ _ => True) (fun _ _ => False)

section Relates

variable {R : σ → σ → Prop}

theorem Relates.pure [Std.Refl R] (a : α) : Relates R (Pure.pure a : EStateM ε σ α) := fun s => Std.Refl.refl s

theorem Relates.throw [Std.Refl R] (e : ε) : Relates R (MonadExcept.throw e : EStateM ε σ α) := fun s => Std.Refl.refl s

theorem Relates.get [Std.Refl R] : Relates R (MonadState.get : EStateM ε σ σ) := fun s => Std.Refl.refl s

theorem Relates.bind [IsTrans σ R] (hx : Relates R x) (hf : ∀ a, Relates R (f a)) : Relates R (x >>= f) := by
  intro s
  rw [after_bind]
  refine (hx s).mono (fun a t ht => ?_) fun _ _ ht => ht
  exact (hf a t).mono (fun _ _ hu => IsTrans.trans _ _ _ ht hu) fun _ _ hu => IsTrans.trans _ _ _ ht hu

theorem Relates.ite {c : Prop} [Decidable c] {y : EStateM ε σ α} (hx : c → Relates R x) (hy : ¬c → Relates R y) :
    Relates R (if c then x else y) := by
  split
  · exact hx ‹_›
  · exact hy ‹_›

/-- A program that starts by reading the state. -/
theorem Relates.get_bind {g : σ → EStateM ε σ β} (h : ∀ s, Relates R (g s)) : Relates R (MonadState.get >>= g) := by
  intro s
  rw [after_bind]
  exact h s s

theorem Relates.failsWithin (hx : Relates R x) :
    FailsWithin R x := fun s => (hx s).mono (fun _ _ _ => trivial) fun _ _ h => h

theorem FailsWithin.bind [IsTrans σ R] (hx : Relates R x) (hf : ∀ a, FailsWithin R (f a)) :
    FailsWithin R (x >>= f) := by
  intro s
  rw [after_bind]
  refine (hx s).mono (fun a t ht => ?_) fun _ _ ht => ht
  exact (hf a t).mono (fun _ _ _ => trivial) fun _ _ hu => IsTrans.trans _ _ _ ht hu

/-- The last step that can fail. -/
theorem FailsWithin.last (hx : FailsWithin R x) (hf : ∀ a, NeverFails (f a)) : FailsWithin R (x >>= f) := by
  intro s
  rw [after_bind]
  refine (hx s).mono (fun a t _ => ?_) fun _ _ ht => ht
  exact (hf a t).mono (fun _ _ _ => trivial) fun _ _ hno => hno.elim

theorem FailsWithin.ite {c : Prop} [Decidable c] {y : EStateM ε σ α} (hx : c → FailsWithin R x)
    (hy : ¬c → FailsWithin R y) : FailsWithin R (if c then x else y) := by
  split
  · exact hx ‹_›
  · exact hy ‹_›

theorem NeverFails.modify (g : σ → σ) : NeverFails (modify g : EStateM ε σ PUnit) := fun _ => trivial

theorem NeverFails.bind (hx : NeverFails x) (hf : ∀ a, NeverFails (f a)) : NeverFails (x >>= f) := by
  intro s
  rw [after_bind]
  exact (hx s).mono (fun a t _ => hf a t) fun _ _ hno => hno.elim

end Relates

/-! ## The errors of programs -/

/-- Whenever the program throws, it throws an error with `P`. -/
def FailsWith (P : ε → Prop) (x : EStateM ε σ α) : Prop := ∀ s, After x s (fun _ _ => True) (fun e _ => P e)

section FailsWith

variable {P : ε → Prop}

theorem FailsWith.pure (a : α) : FailsWith P (Pure.pure a : EStateM ε σ α) := fun _ => trivial

theorem FailsWith.throw {e : ε} (h : P e) : FailsWith P (MonadExcept.throw e : EStateM ε σ α) := fun _ => h

theorem FailsWith.throw_bind {e : ε} (h : P e) : FailsWith P ((MonadExcept.throw e : EStateM ε σ α) >>= f) := fun _ => h

theorem FailsWith.get : FailsWith P (MonadState.get : EStateM ε σ σ) := fun _ => trivial

theorem FailsWith.bind (hx : FailsWith P x) (hf : ∀ a, FailsWith P (f a)) : FailsWith P (x >>= f) := by
  intro s
  rw [after_bind]
  exact (hx s).mono (fun a t _ => hf a t) fun _ _ h => h

theorem FailsWith.tryCatch {handle : ε → EStateM ε σ α} (hx : FailsWith P x) (hh : ∀ e, P e → FailsWith P (handle e)) :
    FailsWith P (MonadExcept.tryCatch x handle) := by
  intro s
  have htry := after_tryCatch (x := x) (s := s) (Q := fun _ _ => True) (E := fun e _ => P e) handle
  refine htry.mpr ((hx s).mono (fun _ _ h => h) fun e t he => hh e he t)

theorem FailsWith.ite {c : Prop} [Decidable c] {y : EStateM ε σ α} (hx : FailsWith P x) (hy : FailsWith P y) :
    FailsWith P (if c then x else y) := by
  split
  · exact hx
  · exact hy

theorem FailsWith.of_error {e : ε} {t : σ} (hx : FailsWith P x) (h : x s = .error e t) : P e := (hx s).of_error h

/-- A sequence that does not end with an error of its first step has come to its second. -/
theorem FailsWith.of_bind {r : EStateM.Result ε σ β} (hx : FailsWith P x) (h : (x >>= f) s = r)
    (hr : ∀ e t, r = .error e t → ¬P e) : ∃ a t, x s = .ok a t ∧ f a t = r := by
  rw [run_bind] at h
  cases hrun : x s with
  | ok a t =>
    rw [hrun] at h
    exact ⟨a, t, rfl, h⟩
  | error e t =>
    rw [hrun] at h
    exact absurd (hx.of_error hrun) (hr e t h.symm)

end FailsWith

/-! ## Programs on a larger state -/

section Embeds

variable {τ : Type} (embed : σ → τ)

/-- An outcome with its state embedded. -/
def embedResult : EStateM.Result ε σ α → EStateM.Result ε τ α
  | .ok a t => .ok a (embed t)
  | .error e t => .error e (embed t)

/-- On embedded states, the program does what `y` does. -/
def Embeds (x : EStateM ε τ α) (y : EStateM ε σ α) : Prop := ∀ s, x (embed s) = embedResult embed (y s)

variable {embed} {x : EStateM ε τ α} {y : EStateM ε σ α} {f : α → EStateM ε τ β} {g : α → EStateM ε σ β}

theorem Embeds.pure (a : α) : Embeds embed (Pure.pure a : EStateM ε τ α) (Pure.pure a) := fun _ => rfl

theorem Embeds.throw (e : ε) :
    Embeds embed (MonadExcept.throw e : EStateM ε τ α) (MonadExcept.throw e) := fun _ => rfl

theorem Embeds.bind (hx : Embeds embed x y) (hf : ∀ a, Embeds embed (f a) (g a)) :
    Embeds embed (x >>= f) (y >>= g) := by
  intro s
  rw [run_bind, run_bind, hx s]
  cases y s with
  | ok a t => exact hf a t
  | error e t => rfl

/-- Programs that start by reading the state. -/
theorem Embeds.get_bind {f : τ → EStateM ε τ β} {g : σ → EStateM ε σ β} (h : ∀ s, Embeds embed (f (embed s)) (g s)) :
    Embeds embed (MonadState.get >>= f) (MonadState.get >>= g) := fun s => h s s

/-- Steps that only the larger state has. -/
theorem Embeds.skip {γ : Type} {z : EStateM ε τ γ} {c : γ} (hz : ∀ s, z (embed s) = .ok c (embed s))
    {f : γ → EStateM ε τ β} {y : EStateM ε σ β} (hf : Embeds embed (f c) y) : Embeds embed (z >>= f) y := by
  intro s
  rw [run_bind, hz s]
  exact hf s

theorem Embeds.tryCatch {handle : ε → EStateM ε τ α} {handle' : ε → EStateM ε σ α} (hx : Embeds embed x y)
    (hh : ∀ e, Embeds embed (handle e) (handle' e)) :
    Embeds embed (MonadExcept.tryCatch x handle) (MonadExcept.tryCatch y handle') := by
  intro s
  rw [run_tryCatch, run_tryCatch, hx s]
  cases y s with
  | ok a t => rfl
  | error e t => exact hh e t

theorem Embeds.ite {c : Prop} [Decidable c] {x' : EStateM ε τ α} {y' : EStateM ε σ α} (hx : Embeds embed x y)
    (hy : Embeds embed x' y') : Embeds embed (if c then x else x') (if c then y else y') := by
  split
  · exact hx
  · exact hy

end Embeds

end Program

end Lib
