import Mathlib.Data.List.Basic

/-!
# Layouts of items whose size depends on their position

Items stand one behind the other; the size of an item may depend on where it stands (alignment). `extent size n xs` is
the position behind `xs` when its first item stands at `n`, so item `j` of `xs` stands at `startOf size n xs j`, which
is `extent size n (xs.take j)`.

* With no empty items the positions grow strictly (`startOf_lt`).
* Items that are aligned to `period` react to a move of the first item in two phases (`startOf_phases`): up to the first
  aligned item every position moves by the same amount, and behind it every position moves by one other amount.
-/

namespace Lib

variable {α : Type} {size : α → Nat → Nat}

/-- The position behind the items, with the first of them at `n`. -/
def extent (size : α → Nat → Nat) : Nat → List α → Nat
  | n, [] => n
  | n, x :: xs => extent size (n + size x n) xs

@[simp] theorem extent_nil (n : Nat) : extent size n [] = n := rfl

@[simp] theorem extent_cons (n : Nat) (x : α) (xs : List α) :
    extent size n (x :: xs) = extent size (n + size x n) xs := rfl

theorem extent_append : ∀ (n : Nat) (xs ys : List α),
    extent size n (xs ++ ys) = extent size (extent size n xs) ys
  | _, [], _ => rfl
  | n, x :: xs, ys => extent_append (n + size x n) xs ys

theorem le_extent : ∀ (n : Nat) (xs : List α), n ≤ extent size n xs
  | _, [] => Nat.le_refl _
  | n, x :: xs => Nat.le_trans (Nat.le_add_right n _) (le_extent (n + size x n) xs)

theorem extent_map {β : Type} {size' : β → Nat → Nat} {f : α → β} (h : ∀ x m, size' (f x) m = size x m) :
    ∀ (n : Nat) (xs : List α), extent size' n (xs.map f) = extent size n xs
  | _, [] => rfl
  | n, x :: xs => by
    rw [List.map_cons, extent_cons, extent_cons, h]
    exact extent_map h _ xs

/-- Where item `j` stands. -/
def startOf (size : α → Nat → Nat) (n : Nat) (xs : List α) (j : Nat) : Nat := extent size n (xs.take j)

@[simp] theorem startOf_zero (n : Nat) (xs : List α) : startOf size n xs 0 = n := rfl

@[simp] theorem startOf_cons_succ (n : Nat) (x : α) (xs : List α) (j : Nat) :
    startOf size n (x :: xs) (j + 1) = startOf size (n + size x n) xs j := rfl

theorem startOf_length (n : Nat) (xs : List α) : startOf size n xs xs.length = extent size n xs := by
  simp [startOf]

theorem startOf_mono {n : Nat} {xs : List α} {i j : Nat} (h : i ≤ j) : startOf size n xs i ≤ startOf size n xs j := by
  have : xs.take j = xs.take i ++ (xs.drop i).take (j - i) := by
    rw [show j = i + (j - i) by omega, List.take_add]
    simp
  unfold startOf
  rw [this, extent_append]
  exact le_extent _ _

theorem startOf_le_extent (n : Nat) (xs : List α) (j : Nat) : startOf size n xs j ≤ extent size n xs := by
  rcases Nat.le_total j xs.length with h | h
  · rw [← startOf_length]
    exact startOf_mono h
  · exact Nat.le_of_eq (by rw [startOf, List.take_of_length_le h])

section Positive

variable (hpos : ∀ x n, 0 < size x n)

include hpos

/-- With no empty items the positions grow strictly. -/
theorem startOf_lt : ∀ {n : Nat} {xs : List α} {i j : Nat}, i < j → j ≤ xs.length →
    startOf size n xs i < startOf size n xs j
  | _, [], i, j, hij, hj => by simp at hj; omega
  | n, x :: xs, 0, j + 1, _, _ => by
    have h₁ := hpos x n
    have h₂ := @le_extent _ size (n + size x n) (xs.take j)
    simp only [startOf_zero, startOf_cons_succ]
    unfold startOf
    omega
  | n, x :: xs, i + 1, j + 1, hij, hj => by
    simp only [startOf_cons_succ]
    exact startOf_lt (by omega) (by simpa using hj)

theorem startOf_inj {n : Nat} {xs : List α} {i j : Nat} (hi : i ≤ xs.length) (hj : j ≤ xs.length)
    (h : startOf size n xs i = startOf size n xs j) : i = j := by
  rcases Nat.lt_trichotomy i j with hlt | heq | hlt
  · exact absurd h (Nat.ne_of_lt (startOf_lt hpos hlt hj))
  · exact heq
  · exact absurd h (Nat.ne_of_gt (startOf_lt hpos hlt hi))

theorem add_length_le_extent : ∀ (n : Nat) (xs : List α), n + xs.length ≤ extent size n xs
  | _, [] => Nat.le_refl _
  | n, x :: xs => by
    have h₁ := hpos x n
    have h₂ := add_length_le_extent (n + size x n) xs
    simp only [List.length_cons, extent_cons]
    omega

end Positive

/-! ## Lists put together -/

theorem startOf_append_left {n : Nat} {xs : List α} (ys : List α) {j : Nat} (h : j ≤ xs.length) :
    startOf size n (xs ++ ys) j = startOf size n xs j := by
  rw [startOf, startOf, List.take_append_of_le_length h]

theorem startOf_append_right (n : Nat) (xs ys : List α) (j : Nat) :
    startOf size n (xs ++ ys) (xs.length + j) = startOf size (extent size n xs) ys j := by
  rw [startOf, startOf, List.take_length_add_append, extent_append]

/-- The positions only depend on the sizes. -/
theorem extent_of_sizes {xs ys : List α} (h : xs.map size = ys.map size) (n : Nat) :
    extent size n xs = extent size n ys := by
  have through (l : List α) : extent (fun (f : Nat → Nat) m => f m) n (l.map size) = extent size n l :=
    extent_map (fun _ _ => rfl) n l
  rw [← through, h, through]

theorem startOf_of_sizes {xs ys : List α} (h : xs.map size = ys.map size) (n j : Nat) :
    startOf size n xs j = startOf size n ys j :=
  extent_of_sizes (by rw [List.map_take, h, List.map_take]) n

/-! ## Alignment -/

/-- The size only depends on the position within a period. -/
def Periodic (period : Nat) (size : α → Nat → Nat) : Prop :=
  ∀ x m m', m % period = m' % period → size x m = size x m'

/-- Items whose size does not depend on the position, and items that end on a period. -/
def Aligned (period : Nat) (size : α → Nat → Nat) : Prop :=
  ∀ x, (∀ m m', size x m = size x m') ∨ ∀ m, (m + size x m) % period = 0

/-- A move by whole periods moves everything alike. -/
theorem startOf_congr_mod {period : Nat} (hp : Periodic period size) : ∀ {n n' : Nat} {xs : List α} {j : Nat},
    n % period = n' % period → startOf size n' xs j + n = startOf size n xs j + n'
  | n, n', xs, 0, _ => by simp only [startOf_zero]; omega
  | n, n', [], j + 1, _ => by simp only [startOf, List.take_nil, extent_nil]; omega
  | n, n', x :: xs, j + 1, h => by
    have hs := hp x n' n h.symm
    have next : (n + size x n) % period = (n' + size x n') % period := by
      rw [hs, Nat.add_mod, h, ← Nat.add_mod]
    have : startOf size (n' + size x n') xs j + (n + size x n) = startOf size (n + size x n) xs j + (n' + size x n') :=
      startOf_congr_mod hp next
    simp only [startOf_cons_succ]
    omega

/-- A move of the first item moves the others in two phases. -/
theorem startOf_phases {period : Nat} (hp : Periodic period size) (ha : Aligned period size) :
    ∀ (n n' : Nat) (xs : List α), ∃ (s : Nat) (c : Int), ∀ j,
      (startOf size n' xs j : Int) = startOf size n xs j + if j ≤ s then (n' : Int) - n else c
  | n, n', [] => ⟨0, (n' : Int) - n, fun j => by simp only [startOf, List.take_nil, extent_nil]; split <;> omega⟩
  | n, n', x :: xs => by
    rcases ha x with hx | hx
    · obtain ⟨s, c, h⟩ := startOf_phases hp ha (n + size x n) (n' + size x n') xs
      refine ⟨s + 1, c, fun j => ?_⟩
      cases j with
      | zero => rw [startOf_zero, startOf_zero, if_pos (Nat.zero_le _)]; omega
      | succ j =>
        have := h j
        have hs := hx n n'
        simp only [startOf_cons_succ, Nat.add_le_add_iff_right]
        split at this <;> rename_i hj <;> simp only [hj, if_true, if_false] <;> omega
    · refine ⟨0, (n' + size x n' : Int) - (n + size x n), fun j => ?_⟩
      cases j with
      | zero => rw [startOf_zero, startOf_zero, if_pos (Nat.zero_le _)]; omega
      | succ j =>
        have := @startOf_congr_mod _ size period hp _ _ xs j ((hx n).trans (hx n').symm)
        rw [startOf_cons_succ, startOf_cons_succ, if_neg (by omega)]
        omega

end Lib
