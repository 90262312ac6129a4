import Jni2Hook.Lib.Growable
import Jni2Hook.Remap.MappedDescriptors

/-!
# The buffer of a descriptor

`remap_descriptor` builds the text of a descriptor in a `strbuf`, which grows as text is added and keeps a zero byte
behind what it holds. Each addition asks for at most one larger block, and `alloc` says which of these are given.

* `remapDescriptorBuffered`: the function, addition by addition.
* `descriptor_buffered`: it returns the remapped descriptor as a C string, or `NULL`.
-/

namespace Jni2Hook

open Lib

/-! ## The source -/

/-- `strbuf`. -/
abbrev StrBuf := Growable UInt8

/-- `strbuf_add`. -/
def strbufAdd (b : StrBuf) (added : Bytes) (granted : Bool) : Option StrBuf := do
  let b ← b.reserve 64 (added.length + 1) granted
  if b.ok then
    let b ← b.push added
    b.write b.size [0]
  else return b

/-- The loop of `remap_descriptor` with the text in a buffer, from addition `k` on. -/
def remapDescriptorInto (classes : List ClassMapping) (alloc : Nat → Bool) :
    Nat → Nat → StrBuf → Bytes → Option (StrBuf × Bool)
  | 0, _, _, _ => none
  | _ + 1, _, b, [] => some (b, false)
  | fuel + 1, k, b, c :: rest =>
    if c ≠ 0x4C then do
      let b ← strbufAdd b [c] (alloc k)
      remapDescriptorInto classes alloc fuel (k + 1) b rest
    else match rest.dropWhile (· != 0x3B) with
      | [] => do
        let b ← strbufAdd b (c :: rest) (alloc k)
        return (b, false)
      | _ :: after => do
        let name := rest.takeWhile (· != 0x3B)
        let to_ := lookupClass classes name
        let b ← strbufAdd b [0x4C] (alloc k)
        let b ← strbufAdd b (to_.getD name) (alloc (k + 1))
        let b ← strbufAdd b [0x3B] (alloc (k + 2))
        let (b, changed) ← remapDescriptorInto classes alloc fuel (k + 3) b after
        return (b, to_.isSome || changed)

/-- `remap_descriptor`: the block it returns and whether a name was looked up. A buffer without a block is replaced by
the empty text, for which `duplicated` says whether there is memory. It is `none` when it writes outside of a block, or
does not return. -/
def remapDescriptorBuffered (classes : List ClassMapping) (alloc : Nat → Bool) (duplicated : Bool)
    (descriptor : Bytes) :
    Option (Option (List (Option UInt8)) × Bool) := do
  let (b, changed) ← remapDescriptorInto classes alloc (descriptor.length + 1) 0 .empty descriptor
  if b.ok = false then return (none, changed)
  if b.data.isEmpty then return (if duplicated then some [some 0] else none, changed)
  return (some b.data, changed)

/-- The C string in a block; `none` when there is no zero byte behind what was written. -/
def blockString : List (Option UInt8) → Option Bytes
  | some c :: rest => if c = 0 then some [] else (blockString rest).map (c :: ·)
  | _ => none

/-! ## Additions -/

/-- The texts that are added for a descriptor. -/
def descriptorAdditions (classes : List ClassMapping) : Nat → Bytes → List Bytes
  | 0, _ => []
  | _ + 1, [] => []
  | fuel + 1, c :: rest =>
    if c ≠ 0x4C then [c] :: descriptorAdditions classes fuel rest
    else match rest.dropWhile (· != 0x3B) with
      | [] => [c :: rest]
      | _ :: after =>
        let name := rest.takeWhile (· != 0x3B)
        [0x4C] :: (lookupClass classes name).getD name :: [0x3B] :: descriptorAdditions classes fuel after

/-- An addition as a call on a buffer that grows. -/
def addition (added : Bytes) : GrowCall UInt8 := ⟨added.length + 1, added, [0]⟩

/-- The additions for a descriptor, on a buffer that grows. -/
def descriptorGrowth (classes : List ClassMapping) (descriptor : Bytes) : List (GrowCall UInt8) :=
  (descriptorAdditions classes (descriptor.length + 1) descriptor).map addition

section Additions

variable {classes : List ClassMapping} {alloc : Nat → Bool}

theorem strbufAdd_eq (b : StrBuf) (added : Bytes) (granted : Bool) :
    strbufAdd b added granted = b.call (2 ^ 6) (addition added) granted := rfl

theorem length_after_lt {rest after : Bytes} {c : UInt8} (h : rest.dropWhile (· != 0x3B) = c :: after) :
    after.length < rest.length := by
  have hlength := (List.dropWhile_suffix (· != 0x3B) (l := rest)).length_le
  rw [h, List.length_cons] at hlength
  omega

/-- The additions make the text. -/
theorem flatten_descriptorAdditions {fuel : Nat} {descriptor : Bytes} (h : descriptor.length < fuel) :
    (descriptorAdditions classes fuel descriptor).flatten = (remapDescriptorLoop classes fuel descriptor).1 := by
  induction fuel generalizing descriptor with
  | zero => cases h
  | succ fuel ih =>
    cases descriptor with
    | nil => rfl
    | cons c rest =>
      rw [List.length_cons, Nat.add_lt_add_iff_right] at h
      unfold descriptorAdditions remapDescriptorLoop
      split
      · rw [List.flatten_cons, ih h]
        rfl
      · cases hafter : rest.dropWhile (· != 0x3B) with
        | nil => simp
        | cons semicolon after =>
          have hrest := ih (Nat.lt_trans (length_after_lt hafter) h)
          dsimp only
          rw [List.flatten_cons, List.flatten_cons, List.flatten_cons, hrest]
          cases lookupClass classes (rest.takeWhile (· != 0x3B)) <;> rfl

/-- The loop makes the additions one after the other. -/
theorem remapDescriptorInto_eq {fuel : Nat} {descriptor : Bytes} (h : descriptor.length < fuel) (k : Nat) (b : StrBuf) :
    remapDescriptorInto classes alloc fuel k b descriptor =
      (runCalls (2 ^ 6) b (answered alloc k ((descriptorAdditions classes fuel descriptor).map addition))).map
        fun b => (b, (remapDescriptorLoop classes fuel descriptor).2) := by
  induction fuel generalizing descriptor k b with
  | zero => cases h
  | succ fuel ih =>
    cases descriptor with
    | nil => rfl
    | cons c rest =>
      rw [List.length_cons, Nat.add_lt_add_iff_right] at h
      unfold remapDescriptorInto descriptorAdditions remapDescriptorLoop
      simp only [strbufAdd_eq, Option.bind_eq_bind]
      split
      · simp only [List.map_cons, answered, runCalls]
        cases b.call (2 ^ 6) (addition [c]) (alloc k) with
        | none => rfl
        | some b₁ => exact ih h (k + 1) b₁
      · cases hafter : rest.dropWhile (· != 0x3B) with
        | nil =>
          simp only [List.map_cons, List.map_nil, answered, runCalls]
          cases b.call (2 ^ 6) (addition (c :: rest)) (alloc k) <;> rfl
        | cons semicolon after =>
          have hrest := ih (Nat.lt_trans (length_after_lt hafter) h)
          simp only [List.map_cons, answered, runCalls, hrest]
          -- three additions, and then those for what is behind
          cases b.call (2 ^ 6) (addition [0x4C]) (alloc k) with
          | none => rfl
          | some b₁ =>
            simp only [Option.bind_some]
            cases b₁.call (2 ^ 6) (addition _) (alloc (k + 1)) with
            | none => rfl
            | some b₂ =>
              simp only [Option.bind_some]
              cases b₂.call (2 ^ 6) (addition [0x3B]) (alloc (k + 2)) with
              | none => rfl
              | some b₃ =>
                simp only [Option.bind_some]
                cases runCalls (2 ^ 6) b₃ _ with
                | none => rfl
                | some b₄ => cases lookupClass classes (rest.takeWhile (· != 0x3B)) <;> rfl

theorem descriptorAdditions_ne_nil (classes : List ClassMapping) (fuel : Nat) (c : UInt8) (rest : Bytes) :
    descriptorAdditions classes (fuel + 1) (c :: rest) ≠ [] := by
  unfold descriptorAdditions
  split
  · exact List.cons_ne_nil _ _
  · split <;> exact List.cons_ne_nil _ _

theorem lookupClass_mem {name to_ : Bytes} (h : lookupClass classes name = some to_) :
    ∃ m ∈ classes, m.to_ = some to_ := by
  obtain ⟨m, hmem, hfound⟩ := List.exists_of_findSome?_eq_some h
  refine ⟨m, hmem, ?_⟩
  split at hfound
  · rename_i hto
    split at hfound
    · rw [hto, hfound]
    · cases hfound
  · cases hfound

/-- C strings are made of C strings. -/
theorem zero_notMem_additions (hclasses : ∀ m ∈ classes, ∀ to_, m.to_ = some to_ → 0 ∉ to_) {fuel : Nat}
    {descriptor : Bytes} (h : 0 ∉ descriptor) : ∀ added ∈ descriptorAdditions classes fuel descriptor, 0 ∉ added := by
  induction fuel generalizing descriptor with
  | zero => exact fun _ hmem => absurd hmem List.not_mem_nil
  | succ fuel ih =>
    cases descriptor with
    | nil => exact fun _ hmem => absurd hmem List.not_mem_nil
    | cons c rest =>
      obtain ⟨hc, hrest⟩ : ¬0 = c ∧ 0 ∉ rest := by simpa using h
      unfold descriptorAdditions
      split
      · exact List.forall_mem_cons.mpr ⟨fun hmem => hc (List.mem_singleton.mp hmem), ih hrest⟩
      · cases hafter : rest.dropWhile (· != 0x3B) with
        | nil => exact List.forall_mem_cons.mpr ⟨h, fun _ hmem => absurd hmem List.not_mem_nil⟩
        | cons semicolon after =>
          have hsuffix := List.dropWhile_suffix (· != 0x3B) (l := rest)
          rw [hafter] at hsuffix
          have hname : 0 ∉ rest.takeWhile (· != 0x3B) := fun hmem => hrest (List.takeWhile_subset _ hmem)
          refine List.forall_mem_cons.mpr ⟨by decide, List.forall_mem_cons.mpr ⟨?_, List.forall_mem_cons.mpr ⟨by decide,
            ih fun hmem => hrest (hsuffix.subset (List.mem_cons_of_mem _ hmem))⟩⟩⟩
          cases hlookup : lookupClass classes (rest.takeWhile (· != 0x3B)) with
          | none => exact hname
          | some to_ =>
            obtain ⟨mapping, hmapping, hto⟩ := lookupClass_mem hlookup
            exact hclasses mapping hmapping to_ hto

theorem behind_additions (added : List Bytes) :
    (added.map addition).foldl (fun _ c => c.behind) [0] = [0] := by
  induction added with
  | nil => rfl
  | cons a rest ih => exact ih

theorem flatMap_additions (added : List Bytes) : (added.map addition).flatMap (·.values) = added.flatten := by
  rw [List.flatMap_map, List.flatMap_def]
  exact congrArg List.flatten (List.map_id added)

/-- A block that holds a text with a zero byte behind it holds it as a C string. -/
theorem blockString_eq {values : Bytes} {data : List (Option UInt8)} (hzero : 0 ∉ values)
    (h : data.take (values ++ [0]).length = (values ++ [0]).map some) : blockString data = some values := by
  induction values generalizing data with
  | nil =>
    rcases data with _ | ⟨cell, data⟩
    · cases h
    · cases h
      rfl
  | cons value rest ih =>
    obtain ⟨hvalue, hrest⟩ : ¬0 = value ∧ 0 ∉ rest := by simpa using hzero
    rcases data with _ | ⟨cell, data⟩
    · cases h
    · rw [List.cons_append, List.length_cons, List.take_succ_cons, List.map_cons, List.cons.injEq] at h
      obtain ⟨rfl, h⟩ := h
      rw [blockString, if_neg (Ne.symm hvalue), ih hrest h]
      rfl

end Additions

/-! ## The function -/

section Function

variable {classes : List ClassMapping} {descriptor : Bytes}

theorem flatten_descriptorAdditions_eq (classes : List ClassMapping) (descriptor : Bytes) :
    (descriptorAdditions classes (descriptor.length + 1) descriptor).flatten =
    (remapDescriptor classes descriptor).1 := by
  rw [flatten_descriptorAdditions (Nat.lt_succ_self _), remapDescriptor,
    remapDescriptorLoop_fuel (Nat.le_succ _) (Nat.le_refl _)]

theorem values_descriptorGrowth (classes : List ClassMapping) (descriptor : Bytes) :
    (descriptorGrowth classes descriptor).flatMap (·.values) = (remapDescriptor classes descriptor).1 := by
  rw [descriptorGrowth, flatMap_additions, flatten_descriptorAdditions_eq]

theorem zero_notMem_remapDescriptor (hclasses : ∀ m ∈ classes, ∀ to_, m.to_ = some to_ → 0 ∉ to_)
    (hdescriptor : 0 ∉ descriptor) : 0 ∉ (remapDescriptor classes descriptor).1 := by
  rw [← flatten_descriptorAdditions_eq, List.mem_flatten]
  rintro ⟨added, hmem, hin⟩
  exact zero_notMem_additions hclasses hdescriptor added hmem hin

/-- The additions ask for the text and the zero byte behind it. -/
theorem demandOf_descriptorGrowth (alloc : Nat → Bool) (classes : List ClassMapping) (descriptor : Bytes) :
    demandOf 0 (answered alloc 0 (descriptorGrowth classes descriptor)) ≤
      (remapDescriptor classes descriptor).1.length + 1 := by
  have hvalues : (answered alloc 0 (descriptorGrowth classes descriptor)).flatMap (·.1.values) =
      (remapDescriptor classes descriptor).1 := by
    rw [values_answered, values_descriptorGrowth]
  rw [← hvalues, ← Nat.zero_add (List.length _)]
  refine demandOf_le 1 fun c hmem => ?_
  obtain ⟨added, -, heq⟩ := List.mem_map.mp (mem_answered hmem)
  rw [← heq]
  exact Nat.le_refl _

/-- What the loop leaves in the buffer of a descriptor that is not empty. -/
theorem blockString_of_holds {b : StrBuf} {demand : Nat} (hclasses : ∀ m ∈ classes, ∀ to_, m.to_ = some to_ → 0 ∉ to_)
    (hdescriptor : 0 ∉ descriptor) (hne : descriptor ≠ [])
    (h : b.Holds 6 ((descriptorGrowth classes descriptor).flatMap (·.values))
      ((descriptorGrowth classes descriptor).foldl (fun _ c => c.behind) []) demand) :
    blockString b.data = some (remapDescriptor classes descriptor).1 := by
  have hbehind : (descriptorGrowth classes descriptor).foldl (fun _ c => c.behind) [] = [0] := by
    obtain ⟨c, rest, rfl⟩ := List.exists_cons_of_ne_nil hne
    obtain ⟨added, more, hmore⟩ := List.exists_cons_of_ne_nil (descriptorAdditions_ne_nil classes _ c rest)
    rw [descriptorGrowth, List.length_cons, hmore]
    exact behind_additions more
  rw [hbehind, values_descriptorGrowth] at h
  exact blockString_eq (zero_notMem_remapDescriptor hclasses hdescriptor) h.contents

/-- **The buffer of a descriptor holds what the remapping makes of it**, as a C string, whatever blocks it gets on the
way; or the function returns `NULL`. It does the latter exactly when a block was refused that it needed, and for the
empty descriptor when there is no memory for the empty text. It does not write outside of a block, and it returns. -/
theorem descriptor_buffered (hclasses : ∀ m ∈ classes, ∀ to_, m.to_ = some to_ → 0 ∉ to_) (hdescriptor : 0 ∉ descriptor)
    (hfit : (remapDescriptor classes descriptor).1.length < 2 ^ 63) (alloc : Nat → Bool) (duplicated : Bool) :
    (∃ block, remapDescriptorBuffered classes alloc duplicated descriptor =
          some (some block, (remapDescriptor classes descriptor).2) ∧
        blockString block = some (remapDescriptor classes descriptor).1 ∧
        (descriptor = [] → duplicated = true) ∧ ∀ k,
          GrowsAt 6 (descriptorGrowth classes descriptor) k → alloc k = true) ∨
      (remapDescriptorBuffered classes alloc duplicated descriptor =
          some (none, (remapDescriptor classes descriptor).2) ∧
        ((descriptor = [] ∧ duplicated = false) ∨
          ∃ k, GrowsAt 6 (descriptorGrowth classes descriptor) k ∧ alloc k = false)) := by
  have hroom : ∀ c ∈ descriptorGrowth classes descriptor, c.values.length + c.behind.length ≤ c.extra := by
    intro c hmem
    obtain ⟨added, -, rfl⟩ := List.mem_map.mp hmem
    exact Nat.le_refl _
  obtain ⟨b, hrun, hresult⟩ := run_answered (f := 6) (by decide) hroom
    (Nat.le_trans (demandOf_descriptorGrowth alloc classes descriptor) hfit)
  have hinto : remapDescriptorInto classes alloc (descriptor.length + 1) 0 .empty descriptor =
      some (b, (remapDescriptor classes descriptor).2) := by
    rw [remapDescriptorInto_eq (Nat.lt_succ_self _), ← descriptorGrowth, hrun, Option.map_some, remapDescriptor,
      remapDescriptorLoop_fuel (Nat.le_succ _) (Nat.le_refl _)]
  unfold remapDescriptorBuffered
  simp only [hinto, Option.bind_eq_bind, Option.bind_some]
  rcases hresult with ⟨hok, hholds, hgranted⟩ | ⟨hok, hrefused⟩
  · by_cases hempty : descriptor = []
    · subst hempty
      cases hrun
      cases duplicated with
      | false => exact .inr ⟨rfl, .inl ⟨rfl, rfl⟩⟩
      | true => exact .inl ⟨[some 0], rfl, rfl, fun _ => rfl, hgranted⟩
    · have hstring := blockString_of_holds hclasses hdescriptor hempty hholds
      have hblock : b.data.isEmpty = false := by
        rcases hdata : b.data with _ | ⟨cell, data⟩
        · rw [hdata] at hstring
          cases hstring
        · rfl
      refine .inl ⟨b.data, ?_, hstring, fun hnil => absurd hnil hempty, hgranted⟩
      rw [hok, hblock]
      rfl
  · rw [hok]
    exact .inr ⟨rfl, .inr hrefused⟩

end Function

theorem descriptor_buffered_renamed : ∃ block,
    remapDescriptorBuffered [⟨some (text "a"), some (text "bc")⟩] (fun _ => true) true (text "[La;") =
        some (some block, true) ∧ blockString block = some (text "[Lbc;") := by
  have hclasses : ∀ m ∈ [(⟨some (text "a"), some (text "bc")⟩ : ClassMapping)], ∀ to_, m.to_ = some to_ → 0 ∉ to_ := by
    intro m hmem to_ hto
    cases List.mem_singleton.mp hmem
    cases hto
    decide
  have hremapped : remapDescriptor [⟨some (text "a"), some (text "bc")⟩] (text "[La;") =
    (text "[Lbc;", true) := by decide
  have hresult := descriptor_buffered hclasses (show 0 ∉ text "[La;" by decide) (by rw [hremapped]; decide)
    (fun _ => true) true
  rw [hremapped] at hresult
  rcases hresult with ⟨block, hblock, hstring, -⟩ | ⟨-, ⟨-, hfalse⟩ | ⟨_, -, hfalse⟩⟩
  · exact ⟨block, hblock, hstring⟩
  · cases hfalse
  · cases hfalse

end Jni2Hook
