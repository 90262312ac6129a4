import Mathlib.Data.List.Basic

/-!
# Lists with blocks woven in

`weave blocks xs` has the block `blocks j` before item `j` of `xs`, and the block `blocks xs.length` behind the last
item. A list of blocks is built from its last point to its first: as long as no block stands before point `j`, the items
up to `j` are where they were, so a further block at `j` is a splice at index `j` (`weave_prependBlock`), and the
positions behind `j` move by its length (`weavePosition_prependBlock`).
-/

namespace Lib

variable {α β : Type}

/-- The items from index `k` on, each behind its block, and one more block behind the last. -/
def weaveFrom (blocks : Nat → List α) : Nat → List α → List α
  | k, [] => blocks k
  | k, x :: xs => blocks k ++ x :: weaveFrom blocks (k + 1) xs

/-- A block before each item and one behind the last. -/
def weave (blocks : Nat → List α) (xs : List α) : List α := weaveFrom blocks 0 xs

/-- The index at which block `j` begins. -/
def weavePosition (blocks : Nat → List α) : Nat → Nat
  | 0 => 0
  | j + 1 => weavePosition blocks j + ((blocks j).length + 1)

/-- The blocks with items put in front of one of them. -/
def prependBlock (blocks : Nat → List α) (j : Nat) (items : List α) : Nat → List α :=
  fun k => if k = j then items ++ blocks k else blocks k

theorem prependBlock_self (blocks : Nat → List α) (j : Nat) (items : List α) :
    prependBlock blocks j items j = items ++ blocks j := if_pos rfl

theorem prependBlock_of_ne {blocks : Nat → List α} {j k : Nat} {items : List α} (h : k ≠ j) :
    prependBlock blocks j items k = blocks k := if_neg h

/-! ## The items -/

theorem weaveFrom_congr {blocks blocks' : Nat → List α} : ∀ {k : Nat} (xs : List α),
    (∀ j, k ≤ j → blocks j = blocks' j) → weaveFrom blocks k xs = weaveFrom blocks' k xs
  | k, [], h => h k (Nat.le_refl k)
  | k, x :: xs, h => by
    simp only [weaveFrom]
    rw [h k (Nat.le_refl k), weaveFrom_congr xs fun j hj => h j (by omega)]

theorem weave_empty (xs : List α) : weave (fun _ => []) xs = xs := by
  suffices h : ∀ k, weaveFrom (fun _ => []) k xs = xs from h 0
  induction xs with
  | nil => exact fun _ => rfl
  | cons x xs ih => exact fun k => congrArg (x :: ·) (ih (k + 1))

theorem map_weave (f : α → β) (blocks : Nat → List α) (xs : List α) :
    (weave blocks xs).map f = weave (fun j => (blocks j).map f) (xs.map f) := by
  suffices h : ∀ k, (weaveFrom blocks k xs).map f = weaveFrom (fun j => (blocks j).map f) k (xs.map f) from h 0
  induction xs with
  | nil => exact fun _ => rfl
  | cons x xs ih =>
    intro k
    simp only [weaveFrom, List.map_append, List.map_cons, ih]

theorem weaveFrom_prependBlock {blocks : Nat → List α} {j : Nat} {items : List α}
    (hbelow : ∀ k, k < j → blocks k = []) : ∀ {k m : Nat} (xs : List α), k + m = j → m ≤ xs.length →
      weaveFrom (prependBlock blocks j items) k xs =
        (weaveFrom blocks k xs).take m ++ (items ++ (weaveFrom blocks k xs).drop m)
  | k, 0, xs, hk, _ => by
    obtain rfl : k = j := by omega
    have later : ∀ i, k + 1 ≤ i → prependBlock blocks k items i = blocks i := fun i hi =>
      prependBlock_of_ne (by omega)
    cases xs with
    | nil => exact prependBlock_self blocks k items
    | cons x xs =>
      simp only [weaveFrom, List.take_zero, List.drop_zero, List.nil_append]
      rw [prependBlock_self, List.append_assoc, weaveFrom_congr xs later]
  | k, m + 1, [], _, hm => absurd hm (by simp)
  | k, m + 1, x :: xs, hk, hm => by
    have hempty := hbelow k (by omega)
    have hrest := @weaveFrom_prependBlock blocks j items hbelow (k + 1) m xs (by omega) (by simpa using hm)
    simp only [weaveFrom]
    rw [prependBlock_of_ne (by omega), hempty, List.nil_append, List.nil_append, List.take_succ_cons,
      List.drop_succ_cons, List.cons_append, hrest]

/-- With no block before point `j`, a further block there is a splice. -/
theorem weave_prependBlock {blocks : Nat → List α} {j : Nat} (items xs : List α) (hbelow : ∀ k, k < j → blocks k = [])
    (hj : j ≤ xs.length) :
    weave (prependBlock blocks j items) xs = (weave blocks xs).take j ++ (items ++ (weave blocks xs).drop j) :=
  weaveFrom_prependBlock hbelow xs (Nat.zero_add j) hj

theorem length_weave_ge (blocks : Nat → List α) (xs : List α) : xs.length ≤ (weave blocks xs).length := by
  suffices h : ∀ k, xs.length ≤ (weaveFrom blocks k xs).length from h 0
  induction xs with
  | nil => exact fun _ => Nat.zero_le _
  | cons x xs ih =>
    intro k
    have := ih (k + 1)
    simp only [weaveFrom, List.length_cons, List.length_append]
    omega

/-! ## The positions -/

theorem le_weavePosition (blocks : Nat → List α) (j : Nat) : j ≤ weavePosition blocks j := by
  induction j with
  | zero => exact Nat.zero_le _
  | succ j ih =>
    simp only [weavePosition]
    omega

theorem weavePosition_of_empty {blocks : Nat → List α} {j : Nat} (hbelow : ∀ k, k < j → blocks k = []) :
    weavePosition blocks j = j := by
  induction j with
  | zero => rfl
  | succ j ih =>
    simp only [weavePosition]
    rw [ih fun k hk => hbelow k (by omega), hbelow j (Nat.lt_succ_self j)]
    rfl

theorem weavePosition_congr {blocks : Nat → List α} {blocks' : Nat → List β} (j : Nat)
    (h : ∀ k, k < j → (blocks k).length = (blocks' k).length) : weavePosition blocks j = weavePosition blocks' j := by
  induction j with
  | zero => rfl
  | succ j ih =>
    simp only [weavePosition]
    rw [ih fun k hk => h k (by omega), h j (Nat.lt_succ_self j)]

/-- A further block at the first point moves the positions behind it. -/
theorem weavePosition_prependBlock {blocks : Nat → List α} {j : Nat} (items : List α)
    (hbelow : ∀ k, k < j → blocks k = []) (t : Nat) :
    weavePosition (prependBlock blocks j items) t =
      if weavePosition blocks t ≤ j then weavePosition blocks t else weavePosition blocks t + items.length := by
  by_cases ht : t ≤ j
  · have hbelow' : ∀ k, k < t → blocks k = [] := fun k hk => hbelow k (by omega)
    have hprepend : ∀ k, k < t → prependBlock blocks j items k = [] := fun k hk => by
      rw [prependBlock_of_ne (by omega), hbelow' k hk]
    rw [weavePosition_of_empty hprepend, weavePosition_of_empty hbelow', if_pos ht]
  · have := le_weavePosition blocks t
    rw [if_neg (by omega)]
    clear this
    -- behind `j`, the position of the first point counts the new items once
    induction t with
    | zero => omega
    | succ t ih =>
      simp only [weavePosition]
      rcases Nat.lt_or_eq_of_le (show j ≤ t by omega) with hlt | rfl
      · rw [ih (by omega), prependBlock_of_ne (by omega)]
        omega
      · have hsame : weavePosition (prependBlock blocks j items) j = weavePosition blocks j :=
          weavePosition_congr j fun k hk => by rw [prependBlock_of_ne (by omega)]
        rw [hsame, prependBlock_self, List.length_append]
        omega

/-! ## What stands at a position -/

theorem weavePosition_mono (blocks : Nat → List α) {i j : Nat} (h : i ≤ j) :
    weavePosition blocks i ≤ weavePosition blocks j := by
  induction h with
  | refl => exact Nat.le_refl _
  | step _ ih =>
    simp only [weavePosition]
    omega

/-- A position in the block before item `i`, or of the item, is behind the positions of the blocks before it. -/
theorem weavePosition_le_iff {blocks : Nat → List α} {i j k : Nat} (hk : k ≤ (blocks i).length) :
    weavePosition blocks j ≤ weavePosition blocks i + k ↔ j ≤ i := by
  constructor
  · intro h
    by_contra hlt
    have := weavePosition_mono blocks (show i + 1 ≤ j by omega)
    simp only [weavePosition] at this
    omega
  · intro h
    have := weavePosition_mono blocks h
    omega

theorem drop_weave (blocks : Nat → List α) (xs : List α) {j : Nat} (hj : j ≤ xs.length) :
    (weave blocks xs).drop (weavePosition blocks j) = weaveFrom blocks j (xs.drop j) := by
  induction j with
  | zero => rfl
  | succ j ih =>
    simp only [weavePosition]
    rw [← List.drop_drop, ih (by omega), List.drop_eq_getElem_cons (show j < xs.length by omega), weaveFrom,
      ← List.drop_drop, List.drop_left, List.drop_succ_cons, List.drop_zero]

theorem length_weave (blocks : Nat → List α) (xs : List α) :
    (weave blocks xs).length = weavePosition blocks xs.length + (blocks xs.length).length := by
  suffices h : ∀ k, (weaveFrom blocks k xs).length + weavePosition blocks k =
      weavePosition blocks (k + xs.length) + (blocks (k + xs.length)).length by
    have := h 0
    rwa [Nat.zero_add] at this
  induction xs with
  | nil =>
    intro k
    simp only [weaveFrom, List.length_nil, Nat.add_zero]
    omega
  | cons x xs ih =>
    intro k
    have := ih (k + 1)
    rw [List.length_cons, show k + (xs.length + 1) = k + 1 + xs.length by omega, ← this]
    simp only [weaveFrom, weavePosition, List.length_append, List.length_cons]
    omega

/-- An item of a block. -/
theorem getElem?_weave_block {blocks : Nat → List α} {xs : List α} {j k : Nat} (hj : j ≤ xs.length)
    (hk : k < (blocks j).length) : (weave blocks xs)[weavePosition blocks j + k]? = (blocks j)[k]? := by
  rw [← List.getElem?_drop, drop_weave blocks xs hj]
  cases xs.drop j with
  | nil => rfl
  | cons x rest => rw [weaveFrom, List.getElem?_append_left hk]

/-- An item of the list, behind its block. -/
theorem getElem?_weave_item (blocks : Nat → List α) (xs : List α) (j : Nat) :
    (weave blocks xs)[weavePosition blocks j + (blocks j).length]? = xs[j]? := by
  rcases Nat.lt_or_ge j xs.length with hj | hj
  · rw [← List.getElem?_drop, drop_weave blocks xs (Nat.le_of_lt hj), List.drop_eq_getElem_cons hj, weaveFrom,
      List.getElem?_append_right (Nat.le_refl _), Nat.sub_self, List.getElem?_cons_zero, List.getElem?_eq_getElem hj]
  · have hle : (weave blocks xs).length ≤ weavePosition blocks j + (blocks j).length := by
      rw [length_weave]
      rcases Nat.lt_or_eq_of_le hj with hlt | rfl
      · have := weavePosition_mono blocks (show xs.length + 1 ≤ j from hlt)
        simp only [weavePosition] at this
        omega
      · exact Nat.le_refl _
    rw [List.getElem?_eq_none hle, List.getElem?_eq_none hj]

end Lib
