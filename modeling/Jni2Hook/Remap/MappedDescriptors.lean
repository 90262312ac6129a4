import Jni2Hook.Remap.Remapped

/-!
# Mapped descriptors

What `remap_descriptor` does to the text of a descriptor, piece by piece.

* `remapDescriptor_char`, `remapDescriptor_object`: a character is copied, a class name is looked up.
* `remapDescriptorLoop_unchanged`: when no name was found, the text is what it was.
-/

namespace Jni2Hook

/-- The class mapping of a name inside a descriptor: the first entry for it, or the name itself. -/
def mappedName (classes : List ClassMapping) (name : Bytes) : Bytes := (lookupClass classes name).getD name

/-! ## The walk -/

variable {classes : List ClassMapping}

/-- More rounds than there are characters change nothing. -/
theorem remapDescriptorLoop_fuel {fuel fuel' : Nat} {descriptor : Bytes} (h : descriptor.length ≤ fuel)
    (h' : descriptor.length ≤ fuel') :
    remapDescriptorLoop classes fuel descriptor = remapDescriptorLoop classes fuel' descriptor := by
  induction fuel generalizing fuel' descriptor with
  | zero =>
    cases List.length_eq_zero_iff.mp (Nat.le_zero.mp h)
    cases fuel' <;> rfl
  | succ fuel ih =>
    cases descriptor with
    | nil => cases fuel' <;> rfl
    | cons c rest =>
      cases fuel' with
      | zero => cases h'
      | succ fuel' =>
        simp only [List.length_cons, Nat.add_le_add_iff_right] at h h'
        unfold remapDescriptorLoop
        rw [ih h h']
        split
        · rfl
        · split
          · rfl
          · rename_i after hafter
            have hlength : after.length ≤ rest.length := by
              have := (List.dropWhile_sublist (· != 0x3B) (l := rest)).length_le
              rw [hafter, List.length_cons] at this
              omega
            rw [@ih fuel' after (by omega) (by omega)]

theorem remapDescriptor_nil : remapDescriptor classes [] = ([], false) := rfl

theorem remapDescriptor_char {c : UInt8} (hc : c ≠ 0x4C) (rest : Bytes) : remapDescriptor classes (c :: rest) =
    (c :: (remapDescriptor classes rest).1, (remapDescriptor classes rest).2) := by
  unfold remapDescriptor
  rw [List.length_cons, remapDescriptorLoop, if_pos hc]

theorem remapDescriptor_object {name : Bytes} (hname : 0x3B ∉ name) (rest : Bytes) :
    remapDescriptor classes (0x4C :: (name ++ 0x3B :: rest)) =
      (0x4C :: (mappedName classes name ++ 0x3B :: (remapDescriptor classes rest).1),
        (lookupClass classes name).isSome || (remapDescriptor classes rest).2) := by
  have hall : ∀ c ∈ name, (c != 0x3B) = true := by
    intro c hc
    simp only [bne_iff_ne, ne_eq]
    rintro rfl
    exact hname hc
  have hdrop : (name ++ 0x3B :: rest).dropWhile (· != 0x3B) = 0x3B :: rest := by
    rw [List.dropWhile_append_of_pos hall]
    rfl
  have htake : (name ++ 0x3B :: rest).takeWhile (· != 0x3B) = name := by
    rw [List.takeWhile_append_of_pos hall]
    simp
  have hfuel : remapDescriptorLoop classes (name ++ 0x3B :: rest).length rest = remapDescriptor classes rest :=
    remapDescriptorLoop_fuel (by simp; omega) (Nat.le_refl _)
  rw [remapDescriptor, List.length_cons, remapDescriptorLoop, if_neg (by decide), hdrop, htake, mappedName]
  dsimp only
  rw [hfuel]
  cases lookupClass classes name <;> rfl

/-- A descriptor in which no name was found is written as it is. -/
theorem remapDescriptorLoop_unchanged {fuel : Nat} {descriptor : Bytes}
    (h : (remapDescriptorLoop classes fuel descriptor).2 = false) :
    (remapDescriptorLoop classes fuel descriptor).1 = descriptor := by
  induction fuel generalizing descriptor with
  | zero => rfl
  | succ fuel ih =>
    cases descriptor with
    | nil => rfl
    | cons c rest =>
      unfold remapDescriptorLoop at h ⊢
      split at h
      · rename_i hc
        rw [if_pos hc]
        exact congrArg (c :: ·) (ih h)
      · rename_i hc
        rw [if_neg hc]
        split at h
        · rfl
        · rename_i head after hdrop
          dsimp only at h ⊢
          cases hlookup : lookupClass classes (rest.takeWhile (· != 0x3B)) with
          | some to_ =>
            rw [hlookup] at h
            cases h
          | none =>
            rw [hlookup] at h
            dsimp only at h ⊢
            -- the walk stops at a semicolon behind an `L`
            have hhead : head = 0x3B := by
              have hnot := List.head?_dropWhile_not (· != 0x3B) rest
              rw [hdrop] at hnot
              simpa using hnot
            have hrest := List.takeWhile_append_dropWhile (p := (· != 0x3B)) (l := rest)
            rw [hdrop, hhead] at hrest
            rw [ih h, hrest, Decidable.of_not_not hc]

theorem newDescriptor_none (descriptor : Bytes) :
    newDescriptor classes none descriptor = (remapDescriptor classes descriptor).1 := by
  unfold newDescriptor changedDescriptor
  dsimp only [Option.bind_none]
  cases hchanged : (remapDescriptor classes descriptor).2 with
  | true => simp
  | false =>
    have hsame : (remapDescriptor classes descriptor).1 = descriptor := remapDescriptorLoop_unchanged hchanged
    simp [hsame]

end Jni2Hook
