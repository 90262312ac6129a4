import Jni2Hook.ClassFile.PoolGrowth
import Jni2Hook.Code.ConstructorInit
import Jni2Hook.Transform.ForwardedArguments

/-!
# The slots of a descriptor

What `descriptor_slots` counts of a well-formed descriptor, against the stack slots of its types.

* `argumentSlots_text`, `resultSlots_text`: the scan skips array brackets and counts by the letter behind them.
* `descriptor_slots_iff`: the count is right exactly when no array of `long` or `double` is among the types.
-/

namespace Jni2Hook

/-! ## Slots -/

def MethodDescriptor.parameterSlots (d : MethodDescriptor) : Nat := (d.parameters.map (·.valueType.width)).sum

def MethodDescriptor.resultSlots (d : MethodDescriptor) : Nat :=
  match d.result with
  | none => 0
  | some type => type.valueType.width

/-- An array whose innermost elements take two slots each. -/
def FieldType.isWideArray : FieldType → Bool
  | .array component => match component.element with
    | .base .long | .base .double => true
    | _ => false
  | _ => false

/-- The letter behind the brackets has the slots of the type, unless the type is an array of wide elements. -/
theorem element_width (type : FieldType) :
    type.element.valueType.width = type.valueType.width + if type.isWideArray then 1 else 0 := by
  cases type with
  | base type => rfl
  | object name => rfl
  | array component =>
    rw [FieldType.element, FieldType.isWideArray]
    obtain ⟨base, h⟩ | ⟨name, h⟩ := element_cases component
    · rw [h]
      cases base <;> rfl
    · rw [h]
      rfl

/-! ## The scan -/

theorem widthOf_letter (type : FieldType) :
    (if type.letter = 0x4A ∨ type.letter = 0x44 then 2 else 1 : UInt16) =
      UInt16.ofNat type.element.valueType.width := by
  induction type with
  | base type => cases type <;> rfl
  | object name => rfl
  | array component ih => exact ih

theorem head_text (type : FieldType) (rest : Bytes) :
    ∃ first more, type.text ++ rest = first :: more ∧ first ≠ 0x28 ∧ first ≠ 0x29 := by
  cases type with
  | base type => exact ⟨type.letter, rest, rfl, by cases type <;> decide, by cases type <;> decide⟩
  | object name => exact ⟨0x4C, name.1 ++ [0x3B] ++ rest, rfl, by decide, by decide⟩
  | array component => exact ⟨0x5B, component.text ++ rest, rfl, by decide, by decide⟩

/-- One round of the argument loop. -/
theorem argumentSlots_type (type : FieldType) {fuel : Nat} {rest : Bytes} {args : UInt16} :
    argumentSlots (fuel + 1) (type.text ++ rest) args =
      argumentSlots fuel rest (args + UInt16.ofNat type.element.valueType.width) := by
  obtain ⟨tail, hdrop, hafter⟩ := dropWhile_text type rest
  obtain ⟨first, more, htext, -, hend⟩ := head_text type rest
  have hwidth := widthOf_letter type
  rw [htext] at hdrop ⊢
  rw [argumentSlots]
  · simp only [hdrop]
    rw [afterType] at hafter
    split at hafter
    · -- a class name is skipped up to its semicolon
      rename_i hclass
      simp only [hclass]
      cases hskip : tail.dropWhile (· != 0x3B) with
      | nil =>
        rw [hskip] at hafter
        cases hafter
      | cons semicolon after =>
        rw [hskip] at hafter
        cases hafter
        rw [← hwidth, hclass]
        simp
    · rename_i hclass
      cases hafter
      rw [← hwidth]
      split
      · rename_i heq
        cases heq
      · rename_i heq
        exact absurd (List.cons.inj heq).1 hclass
      · rename_i heq
        cases heq
        rfl
  · exact List.cons_ne_nil _ _
  · exact fun _ heq => hend (List.cons.inj heq).1

/-- The slots that the scan counts. -/
def scannedSlots (types : List FieldType) : Nat := (types.map (·.element.valueType.width)).sum

/-- The argument loop over all parameters. -/
theorem argumentSlots_text {after : Bytes} : ∀ {types : List FieldType} {fuel : Nat} {args : UInt16},
    types.length < fuel → argumentSlots fuel (types.flatMap FieldType.text ++ 0x29 :: after) args =
      some (args + UInt16.ofNat (scannedSlots types), after)
  | [], fuel + 1, args, _ => by simp [argumentSlots, scannedSlots]
  | type :: rest, fuel + 1, args, h => by
    simp only [List.length_cons] at h
    rw [List.flatMap_cons, List.append_assoc, argumentSlots_type, argumentSlots_text (by omega)]
    simp [scannedSlots, UInt16.add_assoc]

theorem resultSlots_type (type : FieldType) :
    resultSlots type.text = some (UInt16.ofNat type.element.valueType.width) := by
  obtain ⟨tail, hdrop, -⟩ := dropWhile_text type []
  rw [List.append_nil] at hdrop
  have hvoid : type.letter ≠ 0x56 := by
    clear hdrop
    induction type with
    | base type => cases type <;> decide
    | object name => show (0x4C : UInt8) ≠ 0x56; decide
    | array component ih => exact ih
  rw [resultSlots, hdrop]
  simp only [if_neg hvoid, widthOf_letter]

/-- The slots that the scan counts for a result. -/
def scannedResult (result : Option FieldType) : Nat := (result.map (·.element.valueType.width)).getD 0

theorem resultSlots_text (result : Option FieldType) :
    resultSlots (resultText result) = some (UInt16.ofNat (scannedResult result)) := by
  cases result with
  | none => rfl
  | some type => exact resultSlots_type type

variable {pool : ConstantPool} {index : UInt16}

/-- What is counted of a method descriptor. -/
theorem descriptorSlots_method {d : MethodDescriptor} (h : constantPoolUtf8 pool index = some d.text) :
    descriptorSlots pool index =
      some (UInt16.ofNat (scannedSlots d.parameters), UInt16.ofNat (scannedResult d.result)) := by
  have hlen := length_le_flatMap_text d.parameters
  rw [descriptorSlots, h, MethodDescriptor.text]
  simp only
  rw [argumentSlots_text (by rw [List.length_append]; omega)]
  simp only [Option.bind_eq_bind, Option.bind_some, resultSlots_text, UInt16.zero_add]
  rfl

/-- What is counted of a field descriptor. -/
theorem descriptorSlots_field {type : FieldType} (h : constantPoolUtf8 pool index = some type.text) :
    descriptorSlots pool index = some (0, UInt16.ofNat type.element.valueType.width) := by
  obtain ⟨first, more, htext, hopen, -⟩ := head_text type []
  rw [List.append_nil] at htext
  have hresult := resultSlots_type type
  rw [descriptorSlots, h]
  rw [htext] at hresult ⊢
  split
  · rename_i heq
    cases heq
  · rename_i heq
    cases heq
  · rename_i heq
    exact absurd (List.cons.inj (Option.some.inj heq)).1 hopen
  · rename_i heq
    cases heq
    rw [hresult]
    rfl

/-! ## Where the count is right -/

theorem scannedSlots_eq (types : List FieldType) :
    scannedSlots types = (types.map (·.valueType.width)).sum + types.countP FieldType.isWideArray := by
  induction types with
  | nil => rfl
  | cons type rest ih =>
    simp only [scannedSlots, List.map_cons, List.sum_cons, List.countP_cons, element_width type] at ih ⊢
    omega

/-- A type that the scan miscounts is written with at least two characters. -/
theorem countP_wide_le (types : List FieldType) :
    2 * types.countP FieldType.isWideArray ≤ (types.flatMap FieldType.text).length := by
  induction types with
  | nil => exact Nat.le_refl _
  | cons type rest ih =>
    have htype : (if type.isWideArray then 2 else 0) ≤ type.text.length := by
      cases type with
      | array component =>
        have := List.length_pos_iff.mpr (text_ne_nil component)
        rw [FieldType.text, List.length_cons]
        split <;> omega
      | base type => exact Nat.zero_le _
      | object name => exact Nat.zero_le _
    rw [List.countP_cons, List.flatMap_cons, List.length_append]
    split at htype <;> simp_all <;> omega

theorem toNat_width (type : FieldType) :
    (UInt16.ofNat type.element.valueType.width).toNat = type.element.valueType.width := by
  have := width_le_two type.element.valueType
  rw [UInt16.toNat_ofNat', Nat.mod_eq_of_lt (by omega)]

theorem width_counted_iff (type : FieldType) :
    (UInt16.ofNat type.element.valueType.width).toNat = type.valueType.width ↔ type.isWideArray = false := by
  rw [toNat_width, element_width]
  cases type.isWideArray <;> simp

theorem result_counted_iff (d : MethodDescriptor) :
    (UInt16.ofNat (scannedResult d.result)).toNat = d.resultSlots ↔ ∀ type ∈ d.result, type.isWideArray = false := by
  rw [MethodDescriptor.resultSlots]
  cases d.result with
  | none => simp [scannedResult]
  | some type =>
    rw [scannedResult, Option.map_some, Option.getD_some, width_counted_iff]
    simp

theorem arguments_counted_iff {d : MethodDescriptor} (hlen : d.text.length ≤ classfileMaxCount) :
    (UInt16.ofNat (scannedSlots d.parameters)).toNat = d.parameterSlots ↔
      (∀ type ∈ d.parameters, type.isWideArray = false) ∧ d.parameterSlots < 2 ^ 16 := by
  have hwide := countP_wide_le d.parameters
  have hcount : d.parameters.countP FieldType.isWideArray = 0 ↔ ∀ type ∈ d.parameters, type.isWideArray = false := by
    simp [List.countP_eq_zero]
  rw [MethodDescriptor.text, List.length_cons, List.length_append, classfileMaxCount] at hlen
  rw [← hcount, UInt16.toNat_ofNat', scannedSlots_eq, ← MethodDescriptor.parameterSlots]
  omega

theorem fits_of_utf8 {bytes : Bytes} (hfits : ∀ entry ∈ pool.entries, entry.Fits)
    (h : constantPoolUtf8 pool index = some bytes) : bytes.length ≤ classfileMaxCount := by
  obtain ⟨-, -, hat⟩ := constantPoolAt_eq_some.mp (constantPoolUtf8_eq_some.mp h)
  exact hfits _ (List.mem_of_getElem? hat)

/-- **Slots of a descriptor.** The arguments and the result of a method descriptor, and the type of a field, are counted
as the JVM counts them exactly when none of them is an array of `long` or `double` and the arguments fit a `u2`. -/
theorem descriptor_slots_iff (pool : ConstantPool) (index : UInt16) (hfits : ∀ entry ∈ pool.entries, entry.Fits) :
    (∀ d : MethodDescriptor, constantPoolUtf8 pool index = some d.text →
      ((∃ arguments result, descriptorSlots pool index = some (arguments, result) ∧
          arguments.toNat = d.parameterSlots ∧ result.toNat = d.resultSlots) ↔
        (∀ type ∈ d.parameters, type.isWideArray = false) ∧ (∀ type ∈ d.result, type.isWideArray = false) ∧
          d.parameterSlots < 2 ^ 16)) ∧
    (∀ type : FieldType, constantPoolUtf8 pool index = some type.text →
      ((∃ arguments result, descriptorSlots pool index = some (arguments, result) ∧
          result.toNat = type.valueType.width) ↔ type.isWideArray = false)) := by
  refine ⟨fun d h => ?_, fun type h => ?_⟩
  · have harguments := arguments_counted_iff (fits_of_utf8 hfits h)
    have hresult := result_counted_iff d
    rw [descriptorSlots_method h]
    constructor
    · rintro ⟨arguments, result, heq, ha, hr⟩
      cases heq
      exact ⟨(harguments.mp ha).1, hresult.mp hr, (harguments.mp ha).2⟩
    · rintro ⟨hparameters, hr, hlt⟩
      exact ⟨_, _, rfl, harguments.mpr ⟨hparameters, hlt⟩, hresult.mpr hr⟩
  · rw [descriptorSlots_field h]
    constructor
    · rintro ⟨arguments, result, heq, hr⟩
      cases heq
      exact (width_counted_iff type).mp hr
    · intro hwide
      exact ⟨_, _, rfl, (width_counted_iff type).mpr hwide⟩

/-- A pool that holds nothing but a descriptor. -/
def descriptorPool (descriptor : String) : ConstantPool := ⟨[.utf8 (text descriptor)]⟩

/-- `(J[Ljava/lang/Object;D)J`. -/
def wideDescriptor : MethodDescriptor := ⟨[.base .long, .array objectType, .base .double], some (.base .long)⟩

theorem descriptor_slots_wide :
    (∃ arguments result, descriptorSlots (descriptorPool "(J[Ljava/lang/Object;D)J") 1 = some (arguments, result) ∧
      arguments.toNat = 5 ∧ result.toNat = 2) ∧
    (∃ arguments result, descriptorSlots (descriptorPool "[[I") 1 = some (arguments, result) ∧ result.toNat = 1) := by
  have hfits (descriptor : String) (h : (text descriptor).length ≤ classfileMaxCount) :
      ∀ entry ∈ (descriptorPool descriptor).entries, entry.Fits := by
    intro entry hmem
    rw [List.mem_singleton.mp hmem]
    exact h
  refine ⟨?_, ?_⟩
  · refine ((descriptor_slots_iff (descriptorPool "(J[Ljava/lang/Object;D)J") 1 (hfits _ (by decide +kernel))).1
      wideDescriptor (by decide +kernel)).mpr ⟨?_, ?_, by decide⟩
    · intro type hmem
      simp only [wideDescriptor, List.mem_cons, List.not_mem_nil, or_false] at hmem
      rcases hmem with rfl | rfl | rfl <;> rfl
    · rintro type ⟨⟩
      rfl
  · exact ((descriptor_slots_iff (descriptorPool "[[I") 1 (hfits _ (by decide +kernel))).2
      (.array (.array (.base .int)))
      (by decide +kernel)).mpr rfl

/-- A `long[]` is counted as two slots, as a parameter, as a result and as a field. -/
theorem long_array_miscounted :
    descriptorSlots (descriptorPool "([J)[D") 1 = some (2, 2) ∧
    (⟨[.array (.base .long)], some (.array (.base .double))⟩ : MethodDescriptor).text = text "([J)[D" ∧
    (⟨[.array (.base .long)], some (.array (.base .double))⟩ : MethodDescriptor).parameterSlots = 1 ∧
    (⟨[.array (.base .long)], some (.array (.base .double))⟩ : MethodDescriptor).resultSlots = 1 ∧
    descriptorSlots (descriptorPool "[J") 1 = some (0, 2) ∧
    (FieldType.array (.base .long)).text = text "[J" ∧ (FieldType.array (.base .long)).valueType.width = 1 := by
  decide +kernel

end Jni2Hook
