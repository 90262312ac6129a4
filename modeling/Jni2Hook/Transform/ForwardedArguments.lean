import Jni2Hook.Transform.Descriptor

/-!
# The arguments of an inserted call

What `describe_parameters` and `build_callee_descriptor` make of a well-formed descriptor, against the local variables
of a method as the JVM lays them out.

* `FieldType`, `MethodDescriptor`: descriptors as syntax trees, with their texts.
* `describeLoop_text`, `describeParameters_text`: the walk over a descriptor, one parameter at a time.
* `forwards_arguments_iff`: the walk is right exactly when no parameter is an array of primitives.
-/

namespace Jni2Hook

/-! ## Descriptors -/

inductive BaseType where
  | byte | char | double | float | int | long | short | boolean
  deriving DecidableEq, Repr

def BaseType.letter : BaseType → UInt8
  | .byte => 0x42
  | .char => 0x43
  | .double => 0x44
  | .float => 0x46
  | .int => 0x49
  | .long => 0x4A
  | .short => 0x53
  | .boolean => 0x5A

/-- A class name inside a descriptor ends before the semicolon, and a C string holds no zero byte. -/
abbrev ClassNameText : Type := { name : Bytes // ∀ c ∈ name, c ≠ 0x3B ∧ c ≠ 0 }

/-- The type of a field or of a parameter. -/
inductive FieldType where
  | base (type : BaseType)
  | object (name : ClassNameText)
  | array (component : FieldType)
  deriving DecidableEq

def FieldType.text : FieldType → Bytes
  | .base type => [type.letter]
  | .object name => 0x4C :: (name.1 ++ [0x3B])
  | .array component => 0x5B :: component.text

/-- A method descriptor; a method without a result returns `void`. -/
structure MethodDescriptor where
  parameters : List FieldType
  result : Option FieldType

def resultText : Option FieldType → Bytes
  | none => [0x56]
  | some type => type.text

def MethodDescriptor.text (d : MethodDescriptor) : Bytes :=
  0x28 :: (d.parameters.flatMap FieldType.text ++ 0x29 :: resultText d.result)

/-! ## Local variables -/

/-- What the verifier tells apart on the stack and in a local variable. -/
inductive ValueType where
  | int | float | long | double | reference
  deriving DecidableEq, Repr

def FieldType.valueType : FieldType → ValueType
  | .base .long => .long
  | .base .double => .double
  | .base .float => .float
  | .base _ => .int
  | .object _ | .array _ => .reference

/-- A `long` and a `double` take two slots. -/
def ValueType.width : ValueType → Nat
  | .long | .double => 2
  | _ => 1

/-- The instruction that loads a value of the type. -/
def ValueType.load : ValueType → UInt8
  | .int => Opc.iload
  | .float => Opc.fload
  | .long => Opc.lload
  | .double => Opc.dload
  | .reference => Opc.aload

/-- The load and the slot of each parameter, the first of them at `slot`. -/
def parameterLoads : Nat → List FieldType → List (UInt8 × Nat)
  | _, [] => []
  | slot, type :: rest => (type.valueType.load, slot) :: parameterLoads (slot + type.valueType.width) rest

/-- The arguments of a method in its local variables, the receiver first. -/
def MethodDescriptor.argumentLoads (d : MethodDescriptor) (isStatic : Bool) : List (UInt8 × Nat) :=
  if isStatic then parameterLoads 0 d.parameters else (Opc.aload, 0) :: parameterLoads 1 d.parameters

/-- `java/lang/Object`, which every reference can be assigned to. -/
def objectType : FieldType := .object ⟨Jni2Hook.text "java/lang/Object", by decide +kernel⟩

/-- A value can be passed for a parameter. The class of a reference is not known here, so `Object` is all it fits. -/
def Assignable (value : ValueType) (type : FieldType) : Prop :=
  type.valueType = value ∧ (value = .reference → type = objectType)

/-- The value of this type is what the load pushes. -/
def Pushes (p : ForwardedParameter) (value : ValueType) : Prop := p.loadOpcode = value.load

/-- Every argument is loaded by its instruction from its slot, and the descriptor of the callee takes what the loads
push. -/
structure ForwardsArguments (d : MethodDescriptor) (isStatic : Bool) : Prop where
  loads : ∃ parameters, describeParameters d.text isStatic = some parameters ∧
    parameters.map (fun p => (p.loadOpcode, p.slot.toNat)) = d.argumentLoads isStatic
  callee : ∀ parameters result callee, describeParameters d.text isStatic = some parameters →
    buildCalleeDescriptor parameters result = some callee → ∃ types : List FieldType,
      callee = 0x28 :: ((.base .int :: types).flatMap FieldType.text ++ [0x29, result]) ∧
      List.Forall₂ (fun p type => ∃ value, Pushes p value ∧ Assignable value type) parameters types ∧
      (parameters.map fun p => (pushedBy p).toNat).sum = (types.map (·.valueType.width)).sum

/-! ## The walk -/

/-- The type behind all array brackets. -/
def FieldType.element : FieldType → FieldType
  | .array component => component.element
  | type => type

/-- An array whose innermost elements are primitive. -/
def FieldType.isPrimitiveArray : FieldType → Bool
  | .array component => match component.element with
    | .base _ => true
    | _ => false
  | _ => false

/-- The letter the walk stops at. -/
def FieldType.letter : FieldType → UInt8
  | .base type => type.letter
  | .object _ => 0x4C
  | .array component => component.letter

/-- The letter a parameter has in the descriptor of the callee. -/
def FieldType.forwarded : FieldType → UInt8
  | .base type => type.letter
  | _ => 0x4C

/-- What the walk records for a parameter: the load is chosen by the letter behind the brackets. -/
def FieldType.described (type : FieldType) (slot : UInt16) : ForwardedParameter :=
  ⟨type.element.valueType.load, slot, type.forwarded⟩

theorem loadOf_letter (type : FieldType) :
    loadOf type.letter = some (type.element.valueType.load, UInt16.ofNat type.element.valueType.width) := by
  induction type with
  | base type => cases type <;> rfl
  | object name => rfl
  | array component ih => exact ih

/-- The walk skips the brackets, and then the rest of the type. -/
theorem dropWhile_text (type : FieldType) (rest : Bytes) : ∃ tail,
    (type.text ++ rest).dropWhile (· == 0x5B) = type.letter :: tail ∧ afterType type.letter tail = some rest := by
  induction type with
  | base type =>
    refine ⟨rest, ?_, ?_⟩
    · cases type <;> rfl
    · cases type <;> rfl
  | object name =>
    refine ⟨name.1 ++ [0x3B] ++ rest, rfl, ?_⟩
    have hname : ∀ c ∈ name.1, (c != 0x3B) = true := fun c hc => by simpa using (name.2 c hc).1
    rw [FieldType.letter, afterType, if_pos rfl, List.append_assoc, List.dropWhile_append_of_pos hname]
    rfl
  | array component ih =>
    obtain ⟨tail, hdrop, hafter⟩ := ih
    exact ⟨tail, hdrop, hafter⟩

theorem text_ne_nil (type : FieldType) : type.text ≠ [] := by
  cases type <;> simp [FieldType.text]

/-- One round of the loop. -/
theorem describeLoop_type (type : FieldType) {fuel : Nat} {rest : Bytes} {found : List ForwardedParameter}
    {slot : UInt16} (hroom : found.length ≠ parameterCapacity) :
    describeLoop (fuel + 1) (type.text ++ rest) found slot =
      describeLoop fuel rest (found ++ [type.described slot]) (slot + UInt16.ofNat type.element.valueType.width) := by
  obtain ⟨tail, hdrop, hafter⟩ := dropWhile_text type rest
  -- the first character tells an array from the rest, and is never the end of the parameters
  obtain ⟨first, more, htext, hend, hforwarded⟩ : ∃ first more, type.text ++ rest = first :: more ∧ first ≠ 0x29 ∧
      (if first = 0x5B then 0x4C else type.letter) = type.forwarded := by
    cases type with
    | base type => exact ⟨type.letter, rest, rfl, by cases type <;> decide, by cases type <;> rfl⟩
    | object name => exact ⟨0x4C, name.1 ++ [0x3B] ++ rest, rfl, by decide, rfl⟩
    | array component => exact ⟨0x5B, component.text ++ rest, rfl, by decide, rfl⟩
  rw [htext] at hdrop ⊢
  rw [describeLoop]
  · simp only [if_neg hroom, hdrop, loadOf_letter, hafter, hforwarded]
    rfl
  · exact hend

/-- What the loop records for the parameters, the first of them at `slot`. -/
def describedFrom : UInt16 → List FieldType → List ForwardedParameter
  | _, [] => []
  | slot, type :: rest =>
    type.described slot :: describedFrom (slot + UInt16.ofNat type.element.valueType.width) rest

theorem length_describedFrom :
    ∀ (slot : UInt16) (types : List FieldType), (describedFrom slot types).length = types.length
  | _, [] => rfl
  | slot, type :: rest => by rw [describedFrom, List.length_cons, length_describedFrom, List.length_cons]

/-- All rounds of the loop. -/
theorem describeLoop_text {after : Bytes} : ∀ {types : List FieldType} {fuel : Nat} {found : List ForwardedParameter}
    {slot : UInt16}, types.length < fuel → found.length + types.length ≤ parameterCapacity →
    describeLoop fuel (types.flatMap FieldType.text ++ 0x29 :: after) found slot =
      some (found ++ describedFrom slot types)
  | [], fuel + 1, found, slot, _, _ => by simp [describeLoop, describedFrom]
  | type :: rest, fuel + 1, found, slot, hfuel, hcap => by
    simp only [List.length_cons] at hfuel hcap
    rw [List.flatMap_cons, List.append_assoc, describeLoop_type type (by omega),
      describeLoop_text (by omega) (by rw [List.length_append, List.length_singleton]; omega), describedFrom,
      List.append_assoc, List.singleton_append]

theorem length_le_flatMap_text (types : List FieldType) : types.length ≤ (types.flatMap FieldType.text).length := by
  induction types with
  | nil => exact Nat.le_refl _
  | cons type rest ih =>
    have := List.length_pos_iff.mpr (text_ne_nil type)
    rw [List.flatMap_cons, List.length_append, List.length_cons]
    omega

/-- The parameters as they are described, the receiver first. -/
def MethodDescriptor.described (d : MethodDescriptor) (isStatic : Bool) : List ForwardedParameter :=
  if isStatic then describedFrom 0 d.parameters else ⟨Opc.aload, 0, 0x4C⟩ :: describedFrom 1 d.parameters

/-- The parameters of a method, with its receiver. -/
def MethodDescriptor.argumentCount (d : MethodDescriptor) (isStatic : Bool) : Nat :=
  (if isStatic then 0 else 1) + d.parameters.length

/-- The walk succeeds on every descriptor whose parameters fit. -/
theorem describeParameters_text {d : MethodDescriptor} {isStatic : Bool}
    (hcap : d.argumentCount isStatic ≤ parameterCapacity) :
    describeParameters d.text isStatic = some (d.described isStatic) := by
  have hlen := length_le_flatMap_text d.parameters
  cases isStatic with
  | true =>
    rw [MethodDescriptor.argumentCount, if_pos rfl] at hcap
    rw [MethodDescriptor.text, describeParameters, if_pos rfl, describeLoop_text, List.nil_append]
    · rfl
    · rw [List.length_append]
      omega
    · exact hcap
  | false =>
    rw [MethodDescriptor.argumentCount, if_neg (by decide)] at hcap
    rw [MethodDescriptor.text, describeParameters, if_neg (by decide), describeLoop_text, List.singleton_append]
    · rfl
    · rw [List.length_append]
      omega
    · exact hcap

/-! ## Loads and slots -/

theorem element_cases (type : FieldType) :
    (∃ base, type.element = .base base) ∨ ∃ name, type.element = .object name := by
  induction type with
  | base type => exact .inl ⟨type, rfl⟩
  | object name => exact .inr ⟨name, rfl⟩
  | array component ih => exact ih

theorem base_valueType_ne (base : BaseType) : (FieldType.base base).valueType ≠ .reference := by
  cases base <;> decide

/-- The letter behind the brackets is right for every type but an array of primitives. -/
theorem element_valueType_iff (type : FieldType) :
    type.element.valueType = type.valueType ↔ type.isPrimitiveArray = false := by
  cases type with
  | base type => exact ⟨fun _ => rfl, fun _ => rfl⟩
  | object name => exact ⟨fun _ => rfl, fun _ => rfl⟩
  | array component =>
    rw [FieldType.element, FieldType.isPrimitiveArray]
    obtain ⟨base, h⟩ | ⟨name, h⟩ := element_cases component
    · simp only [h]
      exact ⟨fun hv => absurd hv (base_valueType_ne base), fun hf => by cases hf⟩
    · simp only [h]
      exact ⟨fun _ => trivial, fun _ => rfl⟩

theorem load_injective {a b : ValueType} (h : a.load = b.load) : a = b := by
  cases a <;> cases b <;> first | rfl | exact absurd h (by decide)

theorem width_le_two (value : ValueType) : value.width ≤ 2 := by
  cases value <;> decide

/-- With slots in range, the loads are those of the parameters if no letter is misread. -/
theorem loads_described : ∀ {types : List FieldType} {slot : UInt16}, (∀ t ∈ types, t.isPrimitiveArray = false) →
    slot.toNat + 2 * types.length < 2 ^ 16 →
    (describedFrom slot types).map (fun p => (p.loadOpcode, p.slot.toNat)) = parameterLoads slot.toNat types
  | [], _, _, _ => rfl
  | type :: rest, slot, hnone, hslot => by
    have htype := (element_valueType_iff type).mpr (hnone type List.mem_cons_self)
    have hwidth := width_le_two type.valueType
    simp only [List.length_cons] at hslot
    have next : (slot + UInt16.ofNat type.valueType.width).toNat = slot.toNat + type.valueType.width := by
      rw [UInt16.toNat_add, UInt16.toNat_ofNat']
      omega
    rw [describedFrom, htype, List.map_cons,
      loads_described (fun t ht => hnone t (List.mem_cons_of_mem type ht)) (by rw [next]; omega), next, parameterLoads,
      FieldType.described, htype]

theorem opcodes_described : ∀ (types : List FieldType) (slot : UInt16),
    (describedFrom slot types).map (·.loadOpcode) = types.map (·.element.valueType.load)
  | [], _ => rfl
  | type :: rest, slot => by rw [describedFrom, List.map_cons, opcodes_described, List.map_cons]; rfl

theorem opcodes_parameterLoads : ∀ (types : List FieldType) (slot : Nat),
    (parameterLoads slot types).map Prod.fst = types.map (·.valueType.load)
  | [], _ => rfl
  | type :: rest, slot => by rw [parameterLoads, List.map_cons, opcodes_parameterLoads, List.map_cons]

/-- Right loads leave no array of primitives among the parameters. -/
theorem none_of_loads {types : List FieldType} {slot : UInt16} {first : Nat}
    (h : (describedFrom slot types).map (fun p => (p.loadOpcode, p.slot.toNat)) = parameterLoads first types) :
    ∀ t ∈ types, t.isPrimitiveArray = false := by
  have hfst := congrArg (List.map Prod.fst) h
  rw [List.map_map, opcodes_parameterLoads] at hfst
  have hop : types.map (·.element.valueType.load) = types.map (·.valueType.load) := by
    rw [← opcodes_described types slot]
    exact hfst
  intro t ht
  exact (element_valueType_iff t).mp (load_injective (List.map_inj_left.mp hop t ht))

/-! ## The descriptor of the callee -/

/-- The type under which the callee takes a parameter. -/
def FieldType.passed : FieldType → FieldType
  | .base type => .base type
  | _ => objectType

/-- The type that the callee names for a parameter that was described. -/
def calleeTypes (d : MethodDescriptor) (isStatic : Bool) : List FieldType :=
  if isStatic then d.parameters.map FieldType.passed else objectType :: d.parameters.map FieldType.passed

/-- The text that the loop writes for a parameter. -/
def writtenFor (p : ForwardedParameter) : Bytes :=
  if p.forwarded = 0x4C then text "Ljava/lang/Object;" else [p.forwarded]

theorem calleeLoop_eq : ∀ {parameters : List ForwardedParameter} {used written : Bytes},
    calleeLoop parameters used = some written → written = used ++ parameters.flatMap writtenFor
  | [], used, written, h => by
    cases h
    simp
  | p :: rest, used, written, h => by
    change (if used.length + (writtenFor p).length ≥ calleeDescriptorCapacity then none
      else calleeLoop rest (used ++ writtenFor p)) = some written at h
    split at h
    · cases h
    · rw [calleeLoop_eq h, List.flatMap_cons, List.append_assoc]

theorem written_object : text "Ljava/lang/Object;" = objectType.text := by decide +kernel

theorem written_described (type : FieldType) (slot : UInt16) : writtenFor (type.described slot) = type.passed.text := by
  cases type with
  | base type => cases type <;> rfl
  | object name => exact written_object
  | array component => exact written_object

theorem written_describedFrom : ∀ (types : List FieldType) (slot : UInt16),
    (describedFrom slot types).flatMap writtenFor = (types.map FieldType.passed).flatMap FieldType.text
  | [], _ => rfl
  | type :: rest, slot => by
    rw [describedFrom, List.flatMap_cons, written_described, written_describedFrom, List.map_cons, List.flatMap_cons]

/-- What is pushed fits what the callee takes. -/
def Fits (p : ForwardedParameter) (type : FieldType) : Prop := ∃ value, Pushes p value ∧ Assignable value type

theorem fits_described {type : FieldType} (h : type.isPrimitiveArray = false) (slot : UInt16) :
    Fits (type.described slot) type.passed := by
  refine ⟨type.element.valueType, rfl, ?_⟩
  rw [(element_valueType_iff type).mpr h]
  cases type with
  | base type => exact ⟨rfl, fun hv => absurd hv (base_valueType_ne type)⟩
  | object name => exact ⟨rfl, fun _ => rfl⟩
  | array component => exact ⟨rfl, fun _ => rfl⟩

theorem fits_describedFrom : ∀ {types : List FieldType}, (∀ t ∈ types, t.isPrimitiveArray = false) → ∀ slot,
    List.Forall₂ Fits (describedFrom slot types) (types.map FieldType.passed)
  | [], _, _ => .nil
  | type :: _, h, slot => .cons (fits_described (h type List.mem_cons_self) slot)
      (fits_describedFrom (fun t ht => h t (List.mem_cons_of_mem type ht)) _)

theorem pushedBy_of_fits {p : ForwardedParameter} {type : FieldType} (h : Fits p type) :
    (pushedBy p).toNat = type.valueType.width := by
  obtain ⟨value, hp, rfl, -⟩ := h
  rw [Pushes] at hp
  rw [pushedBy, hp]
  cases type.valueType <;> rfl

/-- The call takes as many slots as the loads push. -/
theorem sum_pushedBy {parameters : List ForwardedParameter} {types : List FieldType}
    (h : List.Forall₂ Fits parameters types) :
    (parameters.map fun p => (pushedBy p).toNat).sum = (types.map (·.valueType.width)).sum := by
  induction h with
  | nil => rfl
  | cons hp _ ih => rw [List.map_cons, List.sum_cons, List.map_cons, List.sum_cons, ih, pushedBy_of_fits hp]

theorem fits_arguments {d : MethodDescriptor} {isStatic : Bool} (h : ∀ t ∈ d.parameters, t.isPrimitiveArray = false) :
    List.Forall₂ Fits (d.described isStatic) (calleeTypes d isStatic) := by
  cases isStatic with
  | true => exact fits_describedFrom h 0
  | false => exact .cons ⟨.reference, rfl, rfl, fun _ => rfl⟩ (fits_describedFrom h 1)

theorem buildCalleeDescriptor_described {d : MethodDescriptor} {isStatic : Bool} {result : UInt8} {callee : Bytes}
    (h : buildCalleeDescriptor (d.described isStatic) result = some callee) :
    callee = 0x28 :: ((.base .int :: calleeTypes d isStatic).flatMap FieldType.text ++ [0x29, result]) := by
  have written : (d.described isStatic).flatMap writtenFor = (calleeTypes d isStatic).flatMap FieldType.text := by
    cases isStatic with
    | true => exact written_describedFrom _ _
    | false =>
      show (_ :: _).flatMap _ = (_ :: _).flatMap _
      rw [List.flatMap_cons, List.flatMap_cons, written_describedFrom]
      exact congrArg (· ++ _) written_object
  rw [buildCalleeDescriptor, Option.bind_eq_bind, Option.bind_eq_some_iff] at h
  obtain ⟨used, hused, h⟩ := h
  rw [calleeLoop_eq hused, written] at h
  split at h
  · cases h
  · cases h
    rfl

/-! ## The walk is right where no array of primitives is forwarded -/

/-- **Forwarded arguments.** For a descriptor whose parameters fit the table, every argument is loaded by its
instruction from its slot and passed under a type it fits exactly when no parameter is an array of primitives. -/
theorem forwards_arguments_iff (d : MethodDescriptor) (isStatic : Bool)
    (hcap : d.argumentCount isStatic ≤ parameterCapacity) :
    ForwardsArguments d isStatic ↔ ∀ t ∈ d.parameters, t.isPrimitiveArray = false := by
  have hdescribe := describeParameters_text hcap
  constructor
  · intro h
    obtain ⟨parameters, hp, hloads⟩ := h.loads
    rw [hdescribe] at hp
    cases hp
    cases isStatic with
    | true => exact none_of_loads hloads
    | false => exact none_of_loads (List.cons.inj hloads).2
  · intro h
    have hslots : d.parameters.length ≤ 64 := by
      rw [MethodDescriptor.argumentCount, parameterCapacity] at hcap
      omega
    refine ⟨⟨_, hdescribe, ?_⟩, fun parameters result callee hp hcallee => ?_⟩
    · cases isStatic with
      | true => exact loads_described h (by simp only [UInt16.reduceToNat]; omega)
      | false => exact congrArg _ (loads_described h (by simp only [UInt16.reduceToNat]; omega))
    · rw [hdescribe] at hp
      cases hp
      exact ⟨calleeTypes d isStatic, buildCalleeDescriptor_described hcallee, fits_arguments h,
        sum_pushedBy (fits_arguments h)⟩

/-- `(I[[Ljava/lang/Object;JD)V`. -/
def mixedDescriptor : MethodDescriptor :=
  ⟨[.base .int, .array (.array objectType), .base .long, .base .double], none⟩

theorem forwards_arguments_mixed : mixedDescriptor.text = text "(I[[Ljava/lang/Object;JD)V" ∧
    ForwardsArguments mixedDescriptor false := by
  refine ⟨by decide +kernel, (forwards_arguments_iff mixedDescriptor false (by decide)).mpr ?_⟩
  intro t ht
  simp only [mixedDescriptor, List.mem_cons, List.not_mem_nil, or_false] at ht
  rcases ht with rfl | rfl | rfl | rfl <;> rfl

/-- `([IJ)V`. -/
def intArrayDescriptor : MethodDescriptor := ⟨[.array (.base .int), .base .long], none⟩

/-- An `int[]` is loaded as an `int`, and passed where the callee takes an `Object`. -/
theorem int_array_misread : intArrayDescriptor.argumentCount true ≤ parameterCapacity ∧
    intArrayDescriptor.text = text "([IJ)V" ∧
    describeParameters intArrayDescriptor.text true = some [⟨Opc.iload, 0, 0x4C⟩, ⟨Opc.lload, 1, 0x4A⟩] ∧
    ¬ForwardsArguments intArrayDescriptor true := by
  have hdescribe : describeParameters intArrayDescriptor.text true =
      some [⟨Opc.iload, 0, 0x4C⟩, ⟨Opc.lload, 1, 0x4A⟩] := by decide +kernel
  refine ⟨by decide, by decide +kernel, hdescribe, fun h => ?_⟩
  obtain ⟨parameters, hp, hloads⟩ := h.loads
  rw [hdescribe] at hp
  cases hp
  exact absurd hloads (by decide)

end Jni2Hook
