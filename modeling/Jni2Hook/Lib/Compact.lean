import Mathlib.Data.List.Basic

/-!
# Compaction in place

A pass over an array that moves the items it keeps to the front. It reads an item before anything is written over it, so
the front of the array holds, when the pass has ended, the items that were kept, in their order (`compactFrom_eq`).
-/

namespace Lib

variable {α : Type}

/-- `for (i < n) if (keep(i, items[i])) items[kept++] = items[i];` with `rounds` rounds left: how many items are kept,
and the array. -/
def compactFrom (keep : Nat → α → Bool) : Nat → Nat → Nat → List α → Nat × List α
  | 0, _, kept, items => (kept, items)
  | rounds + 1, i, kept, items =>
    match items[i]? with
    | none => (kept, items)
    | some x =>
      if keep i x then compactFrom keep rounds (i + 1) (kept + 1) (items.set kept x)
      else compactFrom keep rounds (i + 1) kept items

/-- The items that are kept, the first of them standing at `i`. -/
def keptOf (keep : Nat → α → Bool) : Nat → List α → List α
  | _, [] => []
  | i, x :: rest => if keep i x then x :: keptOf keep (i + 1) rest else keptOf keep (i + 1) rest

section Compact

variable {keep : Nat → α → Bool}

theorem keptOf_eq_filter {p : α → Bool} (i : Nat) (items : List α) : keptOf (fun _ => p) i items = items.filter p := by
  induction items generalizing i with
  | nil => rfl
  | cons x rest ih => rw [keptOf, ih, List.filter_cons]

theorem mem_keptOf {i : Nat} {items : List α} {x : α} :
    x ∈ keptOf keep i items ↔ ∃ j, items[j]? = some x ∧ keep (i + j) x = true := by
  induction items generalizing i with
  | nil => simp [keptOf]
  | cons a rest ih =>
    have hrest : x ∈ keptOf keep (i + 1) rest ↔ ∃ j, (a :: rest)[j + 1]? = some x ∧ keep (i + (j + 1)) x = true := by
      rw [ih]
      simp only [List.getElem?_cons_succ, Nat.add_assoc, Nat.add_comm 1]
    have hsplit : (∃ j, (a :: rest)[j]? = some x ∧ keep (i + j) x = true) ↔
        (a = x ∧ keep i x = true) ∨ x ∈ keptOf keep (i + 1) rest := by
      rw [hrest]
      constructor
      · rintro ⟨_ | j, hat, hkeep⟩
        · exact .inl ⟨Option.some.inj hat, hkeep⟩
        · exact .inr ⟨j, hat, hkeep⟩
      · rintro (⟨rfl, hkeep⟩ | ⟨j, hat, hkeep⟩)
        · exact ⟨0, rfl, hkeep⟩
        · exact ⟨j + 1, hat, hkeep⟩
    rw [hsplit, keptOf]
    split
    · rename_i hkeep
      rw [List.mem_cons]
      refine or_congr ⟨fun h => ⟨h.symm, h ▸ hkeep⟩, fun h => h.1.symm⟩ Iff.rfl
    · rename_i hkeep
      refine ⟨.inr, fun h => h.elim (fun h => ?_) id⟩
      obtain ⟨rfl, hx⟩ := h
      exact absurd hx hkeep

theorem keptOf_sublist (i : Nat) (items : List α) : (keptOf keep i items).Sublist items := by
  induction items generalizing i with
  | nil => exact .slnil
  | cons x rest ih =>
    rw [keptOf]
    split
    · exact (ih (i + 1)).cons_cons x
    · exact (ih (i + 1)).cons x

/-- An item that is kept goes behind the front, and what was there is read already. -/
theorem set_front (front gap rest : List α) (x : α) :
    ∃ gap', (front ++ gap ++ x :: rest).set front.length x = front ++ [x] ++ gap' ++ rest ∧
      gap'.length = gap.length := by
  rcases gap with _ | ⟨g, gap⟩
  · exact ⟨[], by simp, rfl⟩
  · refine ⟨gap ++ [x], ?_, by simp⟩
    rw [List.append_assoc, List.set_append_right _ _ (Nat.le_refl _), Nat.sub_self, List.cons_append,
      List.set_cons_zero]
    simp

/-- A pass over the items behind the front and the gap. -/
theorem compactFrom_eq (keep : Nat → α → Bool) (front gap rest tail : List α) :
    ∃ gap', compactFrom keep rest.length (front.length + gap.length) front.length (front ++ gap ++ (rest ++ tail)) =
        ((front ++ keptOf keep (front.length + gap.length) rest).length,
          front ++ keptOf keep (front.length + gap.length) rest ++ gap' ++ tail) := by
  induction rest generalizing front gap with
  | nil => exact ⟨gap, by simp [compactFrom, keptOf]⟩
  | cons x rest ih =>
    have hread : (front ++ gap ++ (x :: rest ++ tail))[front.length + gap.length]? = some x := by
      rw [← List.length_append, List.getElem?_append_right (Nat.le_refl _), Nat.sub_self]
      rfl
    rw [List.length_cons, compactFrom, hread, keptOf]
    dsimp only
    split
    · obtain ⟨gap', hset, hlength⟩ := set_front front gap (rest ++ tail) x
      obtain ⟨gap'', hrest⟩ := ih (front ++ [x]) gap'
      refine ⟨gap'', ?_⟩
      rw [List.length_append, List.length_singleton, hlength, Nat.add_right_comm] at hrest
      rw [List.cons_append, hset, hrest, List.append_assoc front, List.singleton_append]
    · obtain ⟨gap', hrest⟩ := ih front (gap ++ [x])
      refine ⟨gap', ?_⟩
      have hsame : front ++ gap ++ (x :: rest ++ tail) = front ++ (gap ++ [x]) ++ (rest ++ tail) := by simp
      rw [List.length_append, List.length_singleton, ← Nat.add_assoc] at hrest
      rw [hsame, hrest]

/-- **A pass over the first items of an array** leaves those that it keeps in front. -/
theorem compact_take (keep : Nat → α → Bool) {n : Nat} {items : List α} (hn : n ≤ items.length) :
    (compactFrom keep n 0 0 items).1 = (keptOf keep 0 (items.take n)).length ∧
      (compactFrom keep n 0 0 items).2.take (compactFrom keep n 0 0 items).1 = keptOf keep 0 (items.take n) := by
  obtain ⟨gap, heq⟩ := compactFrom_eq keep [] [] (items.take n) (items.drop n)
  rw [List.length_take_of_le hn, List.nil_append, List.take_append_drop] at heq
  rw [show compactFrom keep n 0 0 items = _ from heq]
  exact ⟨rfl, by rw [List.append_assoc]; exact List.take_left' rfl⟩

end Compact

end Lib
