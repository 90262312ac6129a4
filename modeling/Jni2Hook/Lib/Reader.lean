import Mathlib.Data.List.Basic

/-!
# Readers over a latched input

A reader is a state transformer that may fail. Its state shows what is still to be read: `Input.view s` is the position
and the remaining input, or `none` once a read has run past the end (the latch). Reads past the end do not fail at
once, so a reader can succeed with the latch closed; the laws say what is known when it is still open.

* `Reads p n w a`: at position `n`, in front of `w`, the reader `p` takes exactly `w` and answers `a`.
* `Takes p G`: an answer `a` of `p` that leaves the latch open took some `w` at some `n` with `G n w a`.
* `Checks p`: `p` only succeeds with the latch open.
* `Rereads p`: what `p` took it takes again, whatever follows.
* `Throws P p`: `p` fails with errors of `P` only.

Each law composes along `>>=` and along a counted loop (`readMany`).
-/

namespace Lib

/-- States that show the position and the remaining input, or `none` once latched. -/
class Input (σ : Type) (β : outParam Type) where
  view : σ → Option (Nat × List β)

section Laws

variable {σ ε α γ β : Type} [Input σ β]

/-- In front of `w` at position `n`, the reader takes exactly `w` and answers `a`. -/
def Reads (p : StateT σ (Except ε) α) (n : Nat) (w : List β) (a : α) : Prop :=
  ∀ s r, Input.view s = some (n, w ++ r) → ∃ s', p.run s = .ok (a, s') ∧ Input.view s' = some (n + w.length, r)

/-- Every answer with the latch open comes from input that `G` allows. -/
def Takes (p : StateT σ (Except ε) α) (G : Nat → List β → α → Prop) : Prop :=
  ∀ s a s' n' r, p.run s = .ok (a, s') → Input.view s' = some (n', r) →
    ∃ n w, Input.view s = some (n, w ++ r) ∧ n' = n + w.length ∧ G n w a

/-- The reader only succeeds with the latch open. -/
def Checks (p : StateT σ (Except ε) α) : Prop :=
  ∀ s a s', p.run s = .ok (a, s') → (Input.view s').isSome

/-- A chain of results succeeds step by step. -/
theorem bind_ok {x : Except ε α} {f : α → Except ε γ} {b : γ} (h : (x >>= f) = .ok b) :
    ∃ a, x = .ok a ∧ f a = .ok b := by
  cases x with
  | error e => cases h
  | ok a => exact ⟨a, rfl, h⟩

theorem bind_of_ok {x : Except ε α} {f : α → Except ε γ} {a : α} (h : x = .ok a) : (x >>= f) = f a := by
  rw [h]; rfl

theorem run_bind_ok {p : StateT σ (Except ε) α} {f : α → StateT σ (Except ε) γ} {s s' : σ} {b : γ}
    (h : (p >>= f).run s = .ok (b, s')) : ∃ a s₁, p.run s = .ok (a, s₁) ∧ (f a).run s₁ = .ok (b, s') := by
  rw [StateT.run_bind] at h
  cases hp : p.run s with
  | error e => rw [hp] at h; cases h
  | ok x => obtain ⟨a, s₁⟩ := x; rw [hp] at h; exact ⟨a, s₁, rfl, h⟩

theorem run_bind_of_ok {p : StateT σ (Except ε) α} {f : α → StateT σ (Except ε) γ} {s s₁ : σ} {a : α}
    (h : p.run s = .ok (a, s₁)) : (p >>= f).run s = (f a).run s₁ := by
  rw [StateT.run_bind, h]; rfl

/-! ## Completeness -/

theorem Reads.pure (a : α) (n : Nat) : Reads (Pure.pure a : StateT σ (Except ε) α) n [] a := by
  intro s r h
  exact ⟨s, rfl, by simpa using h⟩

theorem Reads.bind {p : StateT σ (Except ε) α} {f : α → StateT σ (Except ε) γ} {n : Nat} {w w' : List β} {a : α}
    {b : γ} (hp : Reads p n w a) (hf : Reads (f a) (n + w.length) w' b) : Reads (p >>= f) n (w ++ w') b := by
  intro s r h
  obtain ⟨s₁, h₁, v₁⟩ := hp s (w' ++ r) (by simpa using h)
  obtain ⟨s₂, h₂, v₂⟩ := hf s₁ r v₁
  exact ⟨s₂, by rw [run_bind_of_ok h₁, h₂], by simpa [Nat.add_assoc] using v₂⟩

/-- A final step that reads nothing. -/
theorem Reads.last {p : StateT σ (Except ε) α} {f : α → StateT σ (Except ε) γ} {n : Nat} {w : List β} {a : α} {b : γ}
    (hp : Reads p n w a) (hf : Reads (f a) (n + w.length) [] b) : Reads (p >>= f) n w b := by
  simpa using hp.bind hf

/-- A first step that reads nothing. -/
theorem Reads.skip {p : StateT σ (Except ε) α} {f : α → StateT σ (Except ε) γ} {n : Nat} {w : List β} {a : α} {b : γ}
    (hp : Reads p n [] a) (hf : Reads (f a) n w b) : Reads (p >>= f) n w b := by
  have hf' : Reads (f a) (n + ([] : List β).length) w b := by simpa using hf
  simpa using hp.bind hf'

/-! ## Soundness -/

theorem Takes.pure (a : α) :
    Takes (Pure.pure a : StateT σ (Except ε) α) (fun _ (w : List β) b => w = [] ∧ b = a) := by
  intro s b s' n' r h v
  cases h
  exact ⟨n', [], by simpa using v, by simp, rfl, rfl⟩

theorem Takes.throw (e : ε) (G : Nat → List β → α → Prop) : Takes (throw e : StateT σ (Except ε) α) G := by
  intro s a s' n' r h _
  cases h

theorem Takes.mono {p : StateT σ (Except ε) α} {G H : Nat → List β → α → Prop} (hp : Takes p G)
    (hGH : ∀ n w a, G n w a → H n w a) : Takes p H := by
  intro s a s' n' r h v
  obtain ⟨n, w, hv, hn, hG⟩ := hp s a s' n' r h v
  exact ⟨n, w, hv, hn, hGH n w a hG⟩

/-- Two facts about what a reader takes are about the same input. -/
theorem Takes.and {p : StateT σ (Except ε) α} {G H : Nat → List β → α → Prop} (hG : Takes p G) (hH : Takes p H) :
    Takes p fun n w a => G n w a ∧ H n w a := by
  intro s a s' n' r h v
  obtain ⟨n, w, hv, hn, hGw⟩ := hG s a s' n' r h v
  obtain ⟨m, w', hv', hm, hHw⟩ := hH s a s' n' r h v
  rw [hv, Option.some.injEq, Prod.mk.injEq] at hv'
  obtain ⟨rfl, hw⟩ := hv'
  obtain rfl : w = w' := List.append_cancel_right hw
  exact ⟨n, w, hv, hn, hGw, hHw⟩

theorem Takes.bind {p : StateT σ (Except ε) α} {f : α → StateT σ (Except ε) γ} {G : Nat → List β → α → Prop}
    {H : α → Nat → List β → γ → Prop} (hp : Takes p G) (hf : ∀ a, Takes (f a) (H a)) :
    Takes (p >>= f) fun n w b => ∃ a w₁ w₂, w = w₁ ++ w₂ ∧ G n w₁ a ∧ H a (n + w₁.length) w₂ b := by
  intro s b s' n' r h v
  obtain ⟨a, s₁, h₁, h₂⟩ := run_bind_ok h
  obtain ⟨n₁, w₂, v₁, hn₁, hH⟩ := hf a s₁ b s' n' r h₂ v
  obtain ⟨n, w₁, v₀, hn, hG⟩ := hp s a s₁ n₁ (w₂ ++ r) h₁ v₁
  subst hn hn₁
  exact ⟨n, w₁ ++ w₂, by simpa using v₀, by simp [Nat.add_assoc], a, w₁, w₂, rfl, hG, hH⟩

theorem Takes.ite {c : Prop} [Decidable c] {p q : StateT σ (Except ε) α} {G : Nat → List β → α → Prop}
    (hp : c → Takes p G) (hq : ¬c → Takes q G) : Takes (if c then p else q) G := by
  split
  · exact hp ‹_›
  · exact hq ‹_›

/-- What a reader is known to take, it takes in front of the input it reads. -/
theorem Takes.of_reads {p : StateT σ (Except ε) α} {G : Nat → List β → α → Prop} (hp : Takes p G) {n : Nat}
    {w : List β} {a : α} (hr : Reads p n w a) {s : σ} (hs : Input.view s = some (n, w)) : G n w a := by
  obtain ⟨s', h₁, v₁⟩ := hr s [] (by simpa using hs)
  obtain ⟨n', w', v, hn, hG⟩ := hp s a s' _ [] h₁ v₁
  rw [hs, List.append_nil] at v
  cases v
  exact hG

/-! ## The latch -/

theorem Checks.throw (e : ε) : Checks (throw e : StateT σ (Except ε) α) := by
  intro s a s' h; cases h

theorem Checks.bind {p : StateT σ (Except ε) α} {f : α → StateT σ (Except ε) γ} (hf : ∀ a, Checks (f a)) :
    Checks (p >>= f) := by
  intro s b s' h
  obtain ⟨a, s₁, _, h₂⟩ := run_bind_ok h
  exact hf a s₁ b s' h₂

theorem Checks.ite {c : Prop} [Decidable c] {p q : StateT σ (Except ε) α} (hp : c → Checks p) (hq : ¬c → Checks q) :
    Checks (if c then p else q) := by
  split
  · exact hp ‹_›
  · exact hq ‹_›

/-- An answer that reads nothing more keeps the latch as it was. -/
theorem Checks.last {p : StateT σ (Except ε) α} {f : α → γ} (hp : Checks p) :
    Checks (p >>= fun a => Pure.pure (f a)) := by
  intro s b s' h
  obtain ⟨a, s₁, h₁, h₂⟩ := run_bind_ok h
  cases h₂
  exact hp s a _ h₁

/-- What a checked reader that succeeds has read. -/
theorem Takes.checked {p : StateT σ (Except ε) α} {G : Nat → List β → α → Prop} (hp : Takes p G) (hc : Checks p)
    {s s' : σ} {a : α} (h : p.run s = .ok (a, s')) : ∃ n w r, Input.view s = some (n, w ++ r) ∧
      Input.view s' = some (n + w.length, r) ∧ G n w a := by
  obtain ⟨⟨n', r⟩, hv⟩ := Option.isSome_iff_exists.mp (hc s a s' h)
  obtain ⟨n, w, h₁, rfl, hG⟩ := hp s a s' n' r h hv
  exact ⟨n, w, r, h₁, hv, hG⟩

/-! ## Reading again -/

/-- What the reader took, it takes again in front of any rest. -/
def Rereads (p : StateT σ (Except ε) α) : Prop := Takes p fun n w a => Reads p n w a

theorem Rereads.pure (a : α) : Rereads (Pure.pure a : StateT σ (Except ε) α) :=
  (Takes.pure a).mono (by rintro n w b ⟨rfl, rfl⟩; exact Reads.pure b n)

theorem Rereads.throw (e : ε) : Rereads (throw e : StateT σ (Except ε) α) := Takes.throw e _

theorem Rereads.bind {p : StateT σ (Except ε) α} {f : α → StateT σ (Except ε) γ} (hp : Rereads p)
    (hf : ∀ a, Rereads (f a)) : Rereads (p >>= f) := by
  refine (Takes.bind hp hf).mono ?_
  rintro n w b ⟨a, w₁, w₂, rfl, h₁, h₂⟩
  exact h₁.bind h₂

theorem Rereads.ite {c : Prop} [Decidable c] {p q : StateT σ (Except ε) α} (hp : c → Rereads p)
    (hq : ¬c → Rereads q) : Rereads (if c then p else q) := by
  split
  · exact hp ‹_›
  · exact hq ‹_›

/-- A reader that needs the whole of its input does not succeed on a proper prefix of it. -/
theorem Rereads.not_of_prefix {p : StateT σ (Except ε) α} (hp : Rereads p) (hc : Checks p) {n : Nat} {q t : List β}
    {a : α} (hr : Reads p n (q ++ t) a) (ht : t ≠ []) {s s₀ : σ} (hs : Input.view s = some (n, q))
    (hs₀ : Input.view s₀ = some (n, q ++ t)) (b : α) (s' : σ) : p.run s ≠ .ok (b, s') := by
  intro h
  obtain ⟨m, w, r, hv, -, hw⟩ := Takes.checked hp hc h
  rw [hs, Option.some.injEq, Prod.mk.injEq] at hv
  obtain ⟨rfl, rfl⟩ := hv
  -- on the whole input the reader takes both all of it and the part it took of the prefix
  obtain ⟨s₁, h₁, v₁⟩ := hr s₀ [] (by rw [List.append_nil]; exact hs₀)
  obtain ⟨s₂, h₂, v₂⟩ := hw s₀ (r ++ t) (by rw [← List.append_assoc]; exact hs₀)
  rw [h₁] at h₂
  cases h₂
  rw [v₁, Option.some.injEq, Prod.mk.injEq] at v₂
  exact ht (List.append_eq_nil_iff.mp v₂.2.symm).2

end Laws

/-! ## Counted loops -/

section Many

variable {σ ε α β : Type}

/-- `k` answers of `p`, in order. -/
def readMany (p : StateT σ (Except ε) α) : Nat → StateT σ (Except ε) (List α)
  | 0 => pure []
  | k + 1 => do
    let a ← p
    let as ← readMany p k
    return a :: as

theorem length_of_readMany {p : StateT σ (Except ε) α} : ∀ {k : Nat} {s s' : σ} {l : List α},
    (readMany p k).run s = .ok (l, s') → l.length = k
  | 0, _, _, _, h => by cases h; rfl
  | k + 1, s, s', l, h => by
    obtain ⟨a, s₁, _, h₁⟩ := run_bind_ok h
    obtain ⟨as, s₂, h₂, h₃⟩ := run_bind_ok h₁
    cases h₃
    rw [List.length_cons, length_of_readMany h₂]

variable [Input σ β] {p : StateT σ (Except ε) α}

theorem Reads.many {enc : α → List β} : ∀ {l : List α} {n : Nat}, (∀ a ∈ l, ∀ m, Reads p m (enc a) a) →
    Reads (readMany p l.length) n (l.flatMap enc) l
  | [], n, _ => Reads.pure _ _
  | a :: l, n, h => by
    rw [List.flatMap_cons]
    refine (h a List.mem_cons_self n).bind ?_
    exact (Reads.many (fun b hb m => h b (List.mem_cons_of_mem _ hb) m)).last (Reads.pure _ _)

theorem Takes.many {enc : α → List β} {P : α → Prop} (hp : Takes p fun _ w a => w = enc a ∧ P a) :
    ∀ k, Takes (readMany p k) fun _ w l => w = l.flatMap enc ∧ l.length = k ∧ ∀ a ∈ l, P a
  | 0 => (Takes.pure _).mono (by rintro n w a ⟨rfl, rfl⟩; simp)
  | k + 1 => by
    refine (hp.bind fun a => (Takes.many hp k).bind fun as => Takes.pure (a :: as)).mono ?_
    rintro n w l ⟨a, w₁, w₂, rfl, ⟨rfl, ha⟩, as, w₃, w₄, rfl, ⟨rfl, hk, has⟩, rfl, rfl⟩
    refine ⟨by simp, by simp [hk], fun b hb => ?_⟩
    rcases List.mem_cons.mp hb with rfl | hb
    · exact ha
    · exact has b hb

/-- Rounds of one width. -/
theorem Takes.many_width {width : Nat} {P : α → Prop} (hp : Takes p fun _ w a => w.length = width ∧ P a) :
    ∀ k, Takes (readMany p k) fun _ w l => w.length = k * width ∧ l.length = k ∧ ∀ a ∈ l, P a
  | 0 => (Takes.pure _).mono (by rintro n w a ⟨rfl, rfl⟩; simp)
  | k + 1 => by
    refine (hp.bind fun a => (Takes.many_width hp k).bind fun as => Takes.pure (a :: as)).mono ?_
    rintro n w l ⟨a, w₁, w₂, rfl, ⟨hw₁, ha⟩, as, w₃, w₄, rfl, ⟨hw₃, hk, has⟩, rfl, rfl⟩
    refine ⟨?_, by simp [hk], fun b hb => ?_⟩
    · simp [hw₁, hw₃, Nat.add_mul, Nat.add_comm]
    · rcases List.mem_cons.mp hb with rfl | hb
      · exact ha
      · exact has b hb

theorem Rereads.many (hp : Rereads p) : ∀ k, Rereads (readMany p k)
  | 0 => Rereads.pure _
  | k + 1 => Rereads.bind hp fun _ => Rereads.bind (Rereads.many hp k) fun _ => Rereads.pure _

/-- A loop of at least one checked round is checked. -/
theorem Checks.many (hp : Checks p) : ∀ {k : Nat}, k ≠ 0 → Checks (readMany p k)
  | 0, h => absurd rfl h
  | 1, _ => by
    intro s l s' h
    obtain ⟨a, s₁, h₁, h₂⟩ := run_bind_ok h
    cases h₂
    exact hp s a _ h₁
  | k + 2, _ => Checks.bind fun _ => (Checks.many hp (Nat.succ_ne_zero k)).last

end Many

/-! ## Errors -/

section Errors

variable {σ ε α γ : Type} {P : ε → Prop}

/-- The reader fails with errors of `P` only. -/
def Throws (P : ε → Prop) (p : StateT σ (Except ε) α) : Prop := ∀ s e, p.run s = .error e → P e

theorem Throws.pure (a : α) : Throws P (Pure.pure a : StateT σ (Except ε) α) := fun _ _ h => by cases h

theorem Throws.throw {e : ε} (he : P e) : Throws P (MonadExcept.throw e : StateT σ (Except ε) α) := by
  intro s e' h
  cases h
  exact he

theorem Throws.get : Throws P (MonadState.get : StateT σ (Except ε) σ) := fun _ _ h => by cases h

theorem Throws.modifyGet (f : σ → α × σ) : Throws P (MonadState.modifyGet f : StateT σ (Except ε) α) :=
  fun _ _ h => by cases h

theorem Throws.bind {p : StateT σ (Except ε) α} {f : α → StateT σ (Except ε) γ} (hp : Throws P p)
    (hf : ∀ a, Throws P (f a)) : Throws P (p >>= f) := by
  intro s e h
  rw [StateT.run_bind] at h
  cases hs : p.run s with
  | error e' =>
    rw [hs] at h
    obtain rfl : e' = e := Except.error.inj h
    exact hp s e' hs
  | ok x =>
    rw [hs] at h
    exact hf x.1 x.2 e h

theorem Throws.ite {c : Prop} [Decidable c] {p q : StateT σ (Except ε) α} (hp : Throws P p) (hq : Throws P q) :
    Throws P (if c then p else q) := by
  split
  · exact hp
  · exact hq

theorem Throws.many {p : StateT σ (Except ε) α} (hp : Throws P p) : ∀ k, Throws P (readMany p k)
  | 0 => Throws.pure []
  | k + 1 => hp.bind fun _ => (Throws.many hp k).bind fun _ => Throws.pure _

end Errors

end Lib
