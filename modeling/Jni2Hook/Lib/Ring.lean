import Mathlib.Data.List.Nodup

/-!
# Circular queues

A queue in a fixed block of cells: the oldest entry stands at `head`, and the entries behind it wrap around the end of
the block.

* `ringEntries`: the entries, the oldest first.
* `ringEntries_push`, `ringEntries_pop`: writing behind the last entry appends, and stepping `head` takes the first one.
-/

namespace Lib

variable {α : Type}

/-- The `pending` entries from `head` on. -/
def ringEntries (cells : List α) (head pending : Nat) (default : α) : List α :=
  (List.range pending).map fun k => cells.getD ((head + k) % cells.length) default

@[simp] theorem length_ringEntries (cells : List α) (head pending : Nat) (default : α) :
    (ringEntries cells head pending default).length = pending := by
  simp [ringEntries]

/-- Cells at different distances below the length are different cells. -/
theorem ring_index_ne {head i j size : Nat} (hi : i < j) (hj : j < size) : (head + i) % size ≠ (head + j) % size := by
  intro heq
  have hsub : (head + j - (head + i)) % size = 0 := Nat.sub_mod_eq_zero_of_mod_eq heq.symm
  rw [Nat.mod_eq_of_lt (by omega)] at hsub
  omega

/-- An entry that is written behind the last one. -/
theorem ringEntries_push {cells : List α} {head pending tail : Nat} {default x : α} (hroom : pending < cells.length)
    (htail : tail = (head + pending) % cells.length) :
    ringEntries (cells.set tail x) head (pending + 1) default = ringEntries cells head pending default ++ [x] := by
  have hlt : (head + pending) % cells.length < cells.length := Nat.mod_lt _ (by omega)
  unfold ringEntries
  rw [List.range_succ, List.map_append, List.length_set, htail]
  congr 1
  · refine List.map_congr_left fun k hk => ?_
    have hne := @ring_index_ne head _ _ _ (List.mem_range.mp hk) hroom
    simp only [List.getD_eq_getElem?_getD, List.getElem?_set_ne hne.symm]
  · simp [List.getD_eq_getElem?_getD, hlt]

/-- Where the next entry goes. -/
theorem ring_tail_push {head pending tail size : Nat} (htail : tail = (head + pending) % size) :
    (tail + 1) % size = (head + (pending + 1)) % size := by
  rw [htail, Nat.mod_add_mod, Nat.add_assoc]

/-- The oldest entry, and the others. -/
theorem ringEntries_pop {cells : List α} {head pending : Nat} {default : α} (hhead : head < cells.length) :
    ringEntries cells head (pending + 1) default =
      cells.getD head default :: ringEntries cells ((head + 1) % cells.length) pending default := by
  unfold ringEntries
  rw [List.range_succ_eq_map, List.map_cons, List.map_map]
  congr 1
  · rw [Nat.add_zero, Nat.mod_eq_of_lt hhead]
  · refine List.map_congr_left fun k _ => ?_
    simp only [Function.comp_apply, Nat.mod_add_mod]
    congr 2
    omega

/-- Taking an entry leaves the place of the next one. -/
theorem ring_tail_pop {head pending tail size : Nat} (htail : tail = (head + (pending + 1)) % size) :
    tail = ((head + 1) % size + pending) % size := by
  rw [htail, Nat.mod_add_mod]
  congr 1
  omega

end Lib
