import Mathlib.Data.List.Basic

/-!
# Lists in a stable order

`StablySorted cmp l sorted` says of `sorted` that it is in the order of `cmp`, and that it has what compares equal to an
item in the order of `l`. There is at most one such list (`StablySorted.unique`), so a stable sort depends on nothing
but the order within each class of equal items.
-/

namespace Lib

variable {α : Type} {cmp : α → α → Ordering}

/-- The items that compare equal to `x`. -/
def sameClass (cmp : α → α → Ordering) (x : α) (l : List α) : List α := l.filter fun y => cmp x y == .eq

structure StablySorted (cmp : α → α → Ordering) (l sorted : List α) : Prop where
  ordered : sorted.Pairwise fun a b => (cmp a b).isLE
  stable : ∀ x, sameClass cmp x sorted = sameClass cmp x l

theorem mem_sameClass {x y : α} {l : List α} : y ∈ sameClass cmp x l ↔ y ∈ l ∧ cmp x y = .eq := by
  simp [sameClass]

theorem sameClass_cons (x a : α) (l : List α) :
    sameClass cmp x (a :: l) = if cmp x a = .eq then a :: sameClass cmp x l else sameClass cmp x l := by
  simp only [sameClass, List.filter_cons, beq_iff_eq]

/-- A stable sort keeps the order of items that all compare equal. -/
theorem StablySorted.filter_eq {l sorted : List α} (h : StablySorted cmp l sorted) {p : α → Bool}
    (hp : ∀ x y, p x = true → p y = true → cmp x y = .eq) : sorted.filter p = l.filter p := by
  have within {x : α} (hx : p x = true) (l : List α) : l.filter p = (sameClass cmp x l).filter p := by
    rw [sameClass, List.filter_filter]
    refine List.filter_congr fun y _ => ?_
    cases hy : p y with
    | false => rfl
    | true => simp [hp x y hx hy]
  by_cases hany : ∃ x, p x = true
  · obtain ⟨x, hx⟩ := hany
    rw [within hx sorted, within hx l, h.stable]
  · have none : ∀ l : List α, l.filter p = [] := fun l => List.filter_eq_nil_iff.mpr fun x _ hx => hany ⟨x, hx⟩
    rw [none sorted, none l]

theorem StablySorted.mem_iff [Std.ReflCmp cmp] {l sorted : List α} (h : StablySorted cmp l sorted) {x : α} :
    x ∈ sorted ↔ x ∈ l := by
  have hclass := h.stable x
  have own (l : List α) : x ∈ sameClass cmp x l ↔ x ∈ l := by
    rw [mem_sameClass]
    exact and_iff_left Std.ReflCmp.compare_self
  rw [← own, hclass, own]

/-- A stable sort drops nothing and adds nothing. -/
theorem StablySorted.perm [DecidableEq α] [Std.ReflCmp cmp] {l sorted : List α} (h : StablySorted cmp l sorted) :
    sorted.Perm l := by
  refine List.perm_iff_count.mpr fun x => ?_
  have own (l : List α) : (sameClass cmp x l).count x = l.count x :=
    List.count_filter (beq_iff_eq.mpr Std.ReflCmp.compare_self)
  rw [← own sorted, h.stable x, own l]

section Trans

variable [Std.TransCmp cmp]

/-- An item of an ordered list is not above what compares equal to a later one. -/
theorem isLE_of_ordered_cons {a x : α} {l : List α} (h : (a :: l).Pairwise fun a b => (cmp a b).isLE)
    (hx : sameClass cmp x (a :: l) ≠ []) : (cmp a x).isLE := by
  obtain ⟨y, hy⟩ := List.exists_mem_of_ne_nil _ hx
  obtain ⟨hmem, heq⟩ := mem_sameClass.mp hy
  have hyx : cmp y x = .eq := Std.OrientedCmp.eq_symm heq
  rcases List.mem_cons.mp hmem with rfl | hmem
  · simp [hyx]
  · exact Std.TransCmp.isLE_trans (List.rel_of_pairwise_cons h hmem) (by simp [hyx])

theorem eq_of_ordered_of_sameClass {s t : List α} (hs : s.Pairwise fun a b => (cmp a b).isLE)
    (ht : t.Pairwise fun a b => (cmp a b).isLE) (h : ∀ x, sameClass cmp x s = sameClass cmp x t) : s = t := by
  induction s generalizing t with
  | nil =>
    cases t with
    | nil => rfl
    | cons b t =>
      have := h b
      rw [sameClass_cons, if_pos Std.ReflCmp.compare_self] at this
      cases this
  | cons a s ih =>
    have own (x : α) (l : List α) : sameClass cmp x (x :: l) = x :: sameClass cmp x l := by
      rw [sameClass_cons, if_pos Std.ReflCmp.compare_self]
    cases t with
    | nil =>
      have := h a
      rw [own] at this
      cases this
    | cons b t =>
      have hab : (cmp a b).isLE := isLE_of_ordered_cons hs (by rw [h b, own]; exact List.cons_ne_nil _ _)
      have hba : (cmp b a).isLE := isLE_of_ordered_cons ht (by rw [← h a, own]; exact List.cons_ne_nil _ _)
      have heq : cmp a b = .eq := Std.OrientedCmp.isLE_antisymm hab hba
      obtain rfl : a = b := by
        have := h a
        rw [own, sameClass_cons, if_pos heq] at this
        exact (List.cons.inj this).1
      refine congrArg (a :: ·) (ih hs.of_cons ht.of_cons fun x => ?_)
      have := h x
      rw [sameClass_cons, sameClass_cons] at this
      split at this
      · exact (List.cons.inj this).2
      · exact this

/-- Lists with the same order in each class have the same stable order. -/
theorem StablySorted.unique {l l' s s' : List α} (h : StablySorted cmp l s) (h' : StablySorted cmp l' s')
    (hsame : ∀ x, sameClass cmp x l = sameClass cmp x l') : s = s' :=
  eq_of_ordered_of_sameClass h.ordered h'.ordered fun x => by rw [h.stable, h'.stable, hsame]

end Trans

end Lib
