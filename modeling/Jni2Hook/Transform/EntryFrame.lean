import Jni2Hook.Transform.DescriptorReader
import Jni2Hook.Transform.GuardedCall
import Jni2Hook.Transform.InternRuns

/-!
# The entry frame

`build_entry_frame` reads the initial frame of a method off its descriptor and interns the classes it names.

* `Needs`: an edit appends at most so many constants, and only a full pool can stop it.
* `entry_frame_initial`: the frame is built, with the receiver and one entry for each parameter.
-/

namespace Jni2Hook

open Lib

/-! ## Room in the pool -/

/-- The edit appends `n` constants at most; when it fails, the pool was full before it had appended them. -/
def Needs (n : Nat) {α : Type} (x : Edit α) : Prop :=
  ∀ cf, After x cf (fun _ cf' => cf'.constantPool.count ≤ cf.constantPool.count + n) fun e cf' =>
    e = .limitExceeded ∧ cf'.constantPool.Full ∧ cf'.constantPool.count < cf.constantPool.count + n

section Needs

variable {α β : Type} {x : Edit α} {f : α → Edit β} {m n : Nat}

theorem Needs.pure (a : α) : Needs 0 (pure a : Edit α) := fun _ => Nat.le_refl _

theorem Needs.bind (hx : Needs m x) (hf : ∀ a, Needs n (f a)) : Needs (m + n) (x >>= f) := by
  intro cf
  rw [after_bind]
  refine (hx cf).mono (fun a cf₁ h₁ => ?_) fun e cf₁ h₁ => ⟨h₁.1, h₁.2.1, by omega⟩
  exact (hf a cf₁).mono (fun b cf₂ h₂ => by omega) fun e cf₂ h₂ => ⟨h₂.1, h₂.2.1, by omega⟩

/-- With room for all its constants an edit goes through. -/
theorem Needs.total (hx : Needs n x) {cf : ClassFile} (hroom : cf.constantPool.count + n ≤ classfileMaxCount) :
    ∃ a cf', x cf = .ok a cf' := by
  cases h : x cf with
  | ok a cf' => exact ⟨a, cf', rfl⟩
  | error e cf' =>
    obtain ⟨-, hfull, hcount⟩ := (hx cf).of_error h
    unfold ConstantPool.Full at hfull
    omega

theorem needs_internConstant {entry : CpInfo} (hslot : entry.slots = 1) : Needs 1 (internConstant entry) := by
  intro cf
  unfold After
  obtain ⟨index, -, hrun⟩ | ⟨hfull, hrun⟩ | ⟨-, -, hrun⟩ := internConstant_cases hslot cf
  · rw [hrun]
    exact Nat.le_succ _
  · rw [hrun]
    exact ⟨rfl, hfull, Nat.lt_succ_self _⟩
  · rw [hrun]
    show (cf.constantPool.entries ++ [entry]).length + 1 ≤ cf.constantPool.entries.length + 1 + 1
    rw [List.length_append, List.length_singleton]

theorem needs_internClass {name : Bytes} (hlength : name.length ≤ classfileMaxCount) :
    Needs 2 (classFileInternClass name) := by
  have hutf8 : Needs 1 (classFileInternUtf8 name) := by
    unfold classFileInternUtf8
    rw [if_neg (Nat.not_lt.mpr hlength)]
    exact needs_internConstant rfl
  exact hutf8.bind fun nameIndex => needs_internConstant rfl

end Needs

/-! ## One local for each parameter -/

/-- The constants that a local of this type may need: a class and its name. -/
def FieldType.frameConstants (type : FieldType) : Nat := if type.valueType = .reference then 2 else 0

/-- The constants that the frame of a method may need. -/
def MethodDescriptor.frameConstants (d : MethodDescriptor) : Nat := (d.parameters.map FieldType.frameConstants).sum

/-- The text of the type fits the buffer in which its class name is copied. -/
def FieldType.FitsBuffer (type : FieldType) : Prop := type.valueType = .reference → type.text.length < 512

theorem needs_parameterType {type : FieldType} {brackets : Bytes} (htext : type.text = brackets ++ type.element.text)
    (hnil : brackets = [] ↔ type.element = type) (hfits : type.FitsBuffer) :
    Needs type.frameConstants (parameterType brackets type.element.text (type.letter = 0x4C)) := by
  have hmax : classfileMaxCount = 65535 := rfl
  unfold parameterType
  cases type with
  | base base =>
    obtain rfl := hnil.mpr rfl
    cases base <;> exact Needs.pure _
  | object name =>
    obtain rfl := hnil.mpr rfl
    have hlength := hfits rfl
    simp only [FieldType.text, List.length_cons, List.length_append, List.length_nil] at hlength
    rw [if_pos (.inr (by simp [FieldType.letter]))]
    simp only [List.isEmpty_nil, if_true, FieldType.element, FieldType.text, List.drop_succ_cons, List.drop_zero,
      List.dropLast_concat]
    rw [if_neg (by omega)]
    exact (needs_internClass (by omega)).bind fun index => Needs.pure _
  | array component =>
    have hlength := hfits rfl
    have hne : brackets ≠ [] := by
      intro h0
      obtain ⟨base, he⟩ | ⟨name, he⟩ := element_cases component <;>
      · have := hnil.mp h0
        rw [FieldType.element, he] at this
        cases this
    have hempty : brackets.isEmpty = false := by simpa using hne
    rw [if_pos (.inl hempty)]
    simp only [hempty, ← htext, Bool.false_eq_true, if_false]
    rw [if_neg (by omega)]
    exact (needs_internClass (by omega)).bind fun index => Needs.pure _

theorem needs_entryFrameLoop {after : Bytes} : ∀ {types : List FieldType} {fuel : Nat} {found : List VerificationType},
    types.length < fuel → found.length + types.length ≤ 256 → (∀ type ∈ types, type.FitsBuffer) →
    Needs (types.map FieldType.frameConstants).sum
      (entryFrameLoop fuel (types.flatMap FieldType.text ++ 0x29 :: after) found)
  | [], fuel + 1, found, _, _, _ => Needs.pure found
  | type :: rest, fuel + 1, found, hfuel, hcount, hfits => by
    obtain ⟨brackets, tail, htext, hnil, htake, hdrop, hafter, hnamed⟩ :=
      span_text type (rest.flatMap FieldType.text ++ 0x29 :: after)
    obtain ⟨first, more, hfirst, -, hend⟩ := head_text type (rest.flatMap FieldType.text ++ 0x29 :: after)
    rw [List.length_cons] at hfuel hcount
    rw [List.flatMap_cons, List.append_assoc, entryFrameLoop, if_neg (by omega)]
    · simp only [htake, hdrop, hafter, hnamed]
      refine (needs_parameterType htext hnil (hfits type List.mem_cons_self)).bind fun v => ?_
      refine needs_entryFrameLoop (by omega) ?_ fun t ht => hfits t (List.mem_cons_of_mem type ht)
      rw [List.length_append, List.length_singleton]
      omega
    · rw [hfirst]
      exact List.cons_ne_nil _ _
    · rw [hfirst]
      exact fun _ heq => hend (List.cons.inj heq).1

theorem needs_buildEntryFrame {d : MethodDescriptor} {isStatic : Bool} (offset : Int)
    (hlocals : d.argumentCount isStatic ≤ 256) (hfits : ∀ type ∈ d.parameters, type.FitsBuffer) :
    Needs d.frameConstants (buildEntryFrame d.text isStatic offset) := by
  have hlength := length_le_flatMap_text d.parameters
  intro cf
  unfold buildEntryFrame
  rw [after_bind, after_get]
  have hloop : Needs d.frameConstants (entryFrameLoop d.text.length (d.text.drop 1)
      (if isStatic then [] else [.object cf.thisClass])) := by
    refine needs_entryFrameLoop ?_ ?_ hfits
    · rw [MethodDescriptor.text, List.length_cons, List.length_append]
      omega
    · unfold MethodDescriptor.argumentCount at hlocals
      cases isStatic <;> simpa using hlocals
  exact (hloop.bind fun locals => Needs.pure _) cf

/-- **The guard's frame is the initial frame of the method.** On a well-formed descriptor whose locals and class names
fit the buffers, and with room in the pool, the frame is a full one with nothing on the stack and the receiver and the
parameters as locals. Only a full pool can stop it. -/
theorem entry_frame_initial {descriptor : Bytes} {d : MethodDescriptor} {isStatic : Bool} (offset : Int)
    (hread : readMethodDescriptor descriptor = some d) (hlocals : d.argumentCount isStatic ≤ 256)
    (hfits : ∀ type ∈ d.parameters, type.FitsBuffer) (cf : ClassFile) :
    (cf.constantPool.count + d.frameConstants ≤ classfileMaxCount → ∃ locals cf',
      buildEntryFrame descriptor isStatic offset cf = .ok ⟨255, offset, .full locals []⟩ cf' ∧ Interns cf cf' ∧
        EntryLocals cf' d isStatic locals) ∧
    ∀ e cf', buildEntryFrame descriptor isStatic offset cf = .error e cf' →
      e = .limitExceeded ∧ cf'.constantPool.Full := by
  cases readMethodDescriptor_iff.mp hread
  have hneeds := @needs_buildEntryFrame d isStatic offset hlocals hfits
  constructor
  · intro hroom
    obtain ⟨frame, cf', hbuilt⟩ := hneeds.total hroom
    obtain ⟨hinterns, locals, rfl, hentry⟩ := buildEntryFrame_ok hbuilt
    exact ⟨locals, cf', hbuilt, hinterns, hentry (by omega)⟩
  · intro e cf' herror
    obtain ⟨he, hfull, -⟩ := (hneeds cf).of_error herror
    exact ⟨he, hfull⟩

/-- `(J[LB;LA;Z)V`. -/
def framedDescriptor : MethodDescriptor :=
  ⟨[.base .long, .array (.object ⟨[0x42], by simp⟩), .object ⟨[0x41], by simp⟩, .base .boolean], none⟩

/-- `class A`, with nothing but its own name in the pool. -/
def framedClass : ClassFile := ⟨0, 52, ⟨[.utf8 [0x41], .classInfo 1]⟩, 0x21, 2, 0, [], [], [], []⟩

/-- The class of the array is appended, and that of the method is the one that is there. -/
theorem entry_frame_initial_mixed : ∃ locals cf',
    buildEntryFrame (text "(J[LB;LA;Z)V") false 9 framedClass = .ok ⟨255, 9, .full locals []⟩ cf' ∧
      EntryLocals cf' framedDescriptor false locals := by
  have hread : readMethodDescriptor (text "(J[LB;LA;Z)V") = some framedDescriptor := readMethodDescriptor_iff.mpr rfl
  have hfits : ∀ type ∈ framedDescriptor.parameters, type.FitsBuffer := by
    intro type htype _
    simp only [framedDescriptor, List.mem_cons, List.not_mem_nil, or_false] at htype
    rcases htype with rfl | rfl | rfl | rfl <;> decide
  have hlocals : framedDescriptor.argumentCount false ≤ 256 := by decide
  have hroom : framedClass.constantPool.count + framedDescriptor.frameConstants ≤ classfileMaxCount := by decide
  obtain ⟨locals, cf', hbuilt, -, hentry⟩ := (entry_frame_initial 9 hread hlocals hfits framedClass).1 hroom
  exact ⟨locals, cf', hbuilt, hentry⟩

end Jni2Hook
