import Jni2Hook.Lib.Reader

/-!
# Readers that keep notes

A noted reader is a reader that writes values down while it runs. The notes do not influence what it reads, and they
stay when it fails.

* `Noted.erase`: the reader without its notes; it is the same program with the notes left out (`erase_bind`,
  `erase_lift`, `erase_note`, `erase_many`).
* `AllNotes`: every note that a run makes has a property; its rules follow the text of the program.
-/

namespace Lib

/-- A reader with the notes it makes. -/
def Noted (ν σ ε α : Type) : Type := σ → List ν × Except ε (α × σ)

section Noted

variable {ν σ ε α β : Type}

instance : Monad (Noted ν σ ε) where
  pure a := fun s => ([], .ok (a, s))
  bind x f := fun s =>
    match x s with
    | (notes, .error e) => (notes, .error e)
    | (notes, .ok (a, t)) => (notes ++ (f a t).1, (f a t).2)

/-- The reader without its notes. -/
def Noted.erase (x : Noted ν σ ε α) : StateT σ (Except ε) α := fun s => (x s).2

/-- A reader that makes no notes. -/
def Noted.lift (p : StateT σ (Except ε) α) : Noted ν σ ε α := fun s => ([], p s)

/-- Writes a value down. -/
def Noted.note (v : ν) : Noted ν σ ε Unit := fun s => ([v], .ok ((), s))

/-- `k` answers, in order. -/
def Noted.many (x : Noted ν σ ε α) : Nat → Noted ν σ ε (List α)
  | 0 => pure []
  | k + 1 => do
    let a ← x
    let as ← Noted.many x k
    return a :: as

/-! ## Leaving the notes out -/

@[simp] theorem erase_pure (a : α) : (pure a : Noted ν σ ε α).erase = pure a := rfl

@[simp] theorem erase_lift (p : StateT σ (Except ε) α) : (Noted.lift p : Noted ν σ ε α).erase = p := rfl

@[simp] theorem erase_note (v : ν) : (Noted.note v : Noted ν σ ε Unit).erase = pure () := rfl

@[simp] theorem erase_bind (x : Noted ν σ ε α) (f : α → Noted ν σ ε β) :
    (x >>= f).erase = x.erase >>= fun a => (f a).erase := by
  funext s
  show ((x >>= f) s).2 = ((x.erase).run s >>= fun r => ((f r.1).erase).run r.2)
  simp only [bind, StateT.run, Noted.erase]
  rcases x s with ⟨notes, _ | ⟨a, t⟩⟩ <;> rfl

@[simp] theorem erase_ite {c : Prop} [Decidable c] (x y : Noted ν σ ε α) :
    (if c then x else y).erase = if c then x.erase else y.erase := by
  split <;> rfl

@[simp] theorem erase_many (x : Noted ν σ ε α) : ∀ k, (x.many k).erase = readMany x.erase k
  | 0 => rfl
  | k + 1 => by
    simp only [Noted.many, readMany, erase_bind, erase_pure, erase_many x k]

/-! ## The notes of a run -/

theorem notes_bind_error {x : Noted ν σ ε α} {f : α → Noted ν σ ε β} {s : σ} {e : ε} (h : (x s).2 = .error e) :
    ((x >>= f) s).1 = (x s).1 := by
  simp only [bind]
  rcases hx : x s with ⟨notes, _ | ⟨a, t⟩⟩
  · rfl
  · rw [hx] at h
    cases h

theorem notes_bind_ok {x : Noted ν σ ε α} {f : α → Noted ν σ ε β} {s t : σ} {a : α} (h : (x s).2 = .ok (a, t)) :
    ((x >>= f) s).1 = (x s).1 ++ (f a t).1 := by
  simp only [bind]
  rcases hx : x s with ⟨notes, _ | ⟨b, u⟩⟩
  · rw [hx] at h
    cases h
  · rw [hx] at h
    cases h
    rfl

/-- Every note of every run has the property. -/
def AllNotes (P : ν → Prop) (x : Noted ν σ ε α) : Prop := ∀ s, ∀ v ∈ (x s).1, P v

variable {P : ν → Prop}

theorem AllNotes.pure (a : α) : AllNotes P (Pure.pure a : Noted ν σ ε α) := fun _ _ h => nomatch h

theorem AllNotes.lift (p : StateT σ (Except ε) α) : AllNotes P (Noted.lift p) := fun _ _ h => nomatch h

theorem AllNotes.note {v : ν} (h : P v) : AllNotes P (Noted.note v : Noted ν σ ε Unit) := by
  intro s w hw
  rw [List.mem_singleton.mp hw]
  exact h

/-- What follows is only run on answers. -/
theorem AllNotes.bind' {x : Noted ν σ ε α} {f : α → Noted ν σ ε β} {Q : α → Prop} (hx : AllNotes P x)
    (hQ : ∀ s a t, x.erase s = .ok (a, t) → Q a) (hf : ∀ a, Q a → AllNotes P (f a)) : AllNotes P (x >>= f) := by
  intro s v hv
  cases h : (x s).2 with
  | error e =>
    rw [notes_bind_error h] at hv
    exact hx s v hv
  | ok r =>
    obtain ⟨a, t⟩ := r
    rw [notes_bind_ok h] at hv
    rcases List.mem_append.mp hv with hv | hv
    · exact hx s v hv
    · exact hf a (hQ s a t h) t v hv

theorem AllNotes.bind {x : Noted ν σ ε α} {f : α → Noted ν σ ε β} (hx : AllNotes P x) (hf : ∀ a, AllNotes P (f a)) :
    AllNotes P (x >>= f) :=
  hx.bind' (Q := fun _ => True) (fun _ _ _ _ => trivial) fun a _ => hf a

theorem AllNotes.ite {c : Prop} [Decidable c] {x y : Noted ν σ ε α} (hx : AllNotes P x) (hy : AllNotes P y) :
    AllNotes P (if c then x else y) := by
  split
  · exact hx
  · exact hy

theorem AllNotes.many {x : Noted ν σ ε α} (hx : AllNotes P x) : ∀ k, AllNotes P (x.many k)
  | 0 => .pure _
  | k + 1 => hx.bind fun _ => (AllNotes.many hx k).bind fun _ => .pure _

end Noted

end Lib
