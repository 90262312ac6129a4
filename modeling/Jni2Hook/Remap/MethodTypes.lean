import Jni2Hook.Remap.MappedDescriptors
import Jni2Hook.Remap.Renaming

/-!
# Method types

The descriptors a bootstrap call links by: those of the NameAndTypes behind references and call sites, those of the
methods the class declares, and those of the MethodType constants. No pass of `class_remap.c` looks at the last kind.

* `descriptors_mapped_iff`: with class mappings alone, all of them are mapped exactly when the mappings leave the
  descriptor of every MethodType constant as it is.
-/

namespace Jni2Hook

/-- The MethodType constant at a position has this descriptor. -/
def MethodTypeAt (cf : ClassFile) (k : Nat) (descriptor : Bytes) : Prop :=
  ∃ index, cf.constantPool.entries[k]? = some (.methodType index) ∧
    constantPoolUtf8 cf.constantPool index = some descriptor

/-- The reference, the dynamic constant or the call site at a position has this name and this descriptor. -/
def NamedAt (cf : ClassFile) (k : Nat) (name descriptor : Bytes) : Prop :=
  ∃ (e : CpInfo) (nat : UInt16), cf.constantPool.entries[k]? = some e ∧ e.natIndex? = some nat ∧
    nameAndTypeAt cf.constantPool nat = some (name, descriptor)

/-- The class mapping of a descriptor. -/
def mappedDescriptor (classes : List ClassMapping) (descriptor : Bytes) :
    Bytes := (remapDescriptor classes descriptor).1

/-- Descriptors are mapped wherever the VM resolves types from them, and a method type that described a method still
does. -/
structure DescriptorsMapped (classes : List ClassMapping) (cf cf' : ClassFile) : Prop where
  methodTypes : ∀ k descriptor, MethodTypeAt cf k descriptor → MethodTypeAt cf' k (mappedDescriptor classes descriptor)
  references : ∀ k name descriptor, NamedAt cf k name descriptor →
    NamedAt cf' k name (mappedDescriptor classes descriptor)
  implementations : ∀ k descriptor, MethodTypeAt cf k descriptor → ∃ descriptor', MethodTypeAt cf' k descriptor' ∧
    (∀ j name, NamedAt cf j name descriptor → NamedAt cf' j name descriptor') ∧
    ∀ i name, Declares cf .method i name descriptor → Declares cf' .method i name descriptor'

section Mapped

variable {classes : List ClassMapping} {ctx : RemapContext} {cf cf' : ClassFile}

theorem MethodTypeAt.unique {k : Nat} {descriptor descriptor' : Bytes} (h : MethodTypeAt cf k descriptor)
    (h' : MethodTypeAt cf k descriptor') : descriptor = descriptor' := by
  obtain ⟨index, he, hdescriptor⟩ := h
  obtain ⟨index', he', hdescriptor'⟩ := h'
  rw [he] at he'
  cases he'
  rw [hdescriptor] at hdescriptor'
  exact Option.some.inj hdescriptor'

/-- A MethodType constant is left alone. -/
theorem methodTypeAt_remapped (hremapped : Remapped ctx cf cf') {k : Nat} {descriptor : Bytes}
    (h : MethodTypeAt cf k descriptor) : MethodTypeAt cf' k descriptor := by
  obtain ⟨index, he, hdescriptor⟩ := h
  obtain ⟨hindex, hne, hutf8⟩ := constantPoolAt_eq_some.mp (constantPoolUtf8_eq_some.mp hdescriptor)
  have hkept := hremapped.kept _ _ hutf8 rfl
  exact ⟨index, hremapped.kept k _ he rfl, constantPoolUtf8_eq_some.mpr
    (constantPoolAt_eq_some.mpr ⟨hindex, hne, hkept⟩)⟩

theorem mappingFor_nil (owner : Option Bytes) (name descriptor : Bytes) :
    mappingFor cf [] owner name descriptor = none := by
  have hnone : ∀ owner, findMember [] owner name descriptor = none := by
    intro owner
    cases owner <;> rfl
  simp [mappingFor, hnone]

theorem namedAt_remapped (hctx : remapContext classes [] [] cf = .ok ctx) (hremapped : Remapped ctx cf cf')
    (hzero : ZeroFree cf) {k : Nat} {name descriptor : Bytes} (h : NamedAt cf k name descriptor) :
    NamedAt cf' k name (mappedDescriptor classes descriptor) := by
  obtain ⟨hclasses, hmethods, hfields⟩ := remapContext_tables hctx
  obtain ⟨e, nat, he, hnat, htexts⟩ := h
  obtain ⟨hzero₁, hzero₂⟩ := hzero.nameAndType htexts
  obtain ⟨nat', hentry, hnew⟩ := reference_kept (hremapped.references k e he) (by rw [hmethods, hfields]; simp) hnat
  have hnew' := hnew name descriptor htexts hzero₁ hzero₂
  have hnone : selectedMapping ctx cf e = none := by
    cases hclass : e.classIndex? with
    | none => simp [selectedMapping, hclass]
    | some c =>
      have htable : referenceTable [] [] e = [] := by cases e <;> rfl
      rw [selectedMapping_mappingFor hctx hzero.classNames hclass hnat htexts hzero₁ hzero₂, htable, mappingFor_nil]
  rw [hnone, hclasses, newDescriptor_none] at hnew'
  exact ⟨e.withNat nat', nat', hentry, CpInfo.natIndex?_withNat hnat nat', hnew'⟩

theorem declares_mapped (hctx : remapContext classes [] [] cf = .ok ctx) (hremapped : Remapped ctx cf cf')
    (hzero : ZeroFree cf) {i : Nat} {name descriptor : Bytes} (h : Declares cf .method i name descriptor) :
    Declares cf' .method i name (mappedDescriptor classes descriptor) := by
  have hdeclares := declares_remapped hctx hremapped hzero h
  rw [show tableOf [] [] .method = [] from rfl, mappingFor_nil] at hdeclares
  dsimp only at hdeclares
  rw [newDescriptor_none] at hdeclares
  exact hdeclares

end Mapped

/-- With class mappings alone, every descriptor the VM resolves types from is mapped, and method types agree with the
methods they describe, exactly when the mappings change no method type. -/
theorem descriptors_mapped_iff {input output : Bytes} {classes : List ClassMapping} {cf : ClassFile}
    (hparse : classfileParse input = .ok cf) (hzero : ZeroFree cf)
    (hok : jni2hookRemapClass (some input) classes [] [] = .ok output) :
    ∃ cf', classfileParse output = .ok cf' ∧ (DescriptorsMapped classes cf cf' ↔
      ∀ k descriptor, MethodTypeAt cf k descriptor → mappedDescriptor classes descriptor = descriptor) := by
  obtain ⟨ctx, cf', hctx, hremapped, hparse'⟩ := remapClass_remapped hparse hok
  refine ⟨cf', hparse', fun hmapped k descriptor htype => ?_, fun hsame => ?_⟩
  · exact (hmapped.methodTypes k descriptor htype).unique (methodTypeAt_remapped hremapped htype)
  · have htypes : ∀ k descriptor, MethodTypeAt cf k descriptor →
        MethodTypeAt cf' k (mappedDescriptor classes descriptor) := by
      intro k descriptor htype
      rw [hsame k descriptor htype]
      exact methodTypeAt_remapped hremapped htype
    refine ⟨htypes, fun k name descriptor => namedAt_remapped hctx hremapped hzero, fun k descriptor htype => ?_⟩
    exact ⟨_, htypes k descriptor htype, fun j name => namedAt_remapped hctx hremapped hzero,
      fun i name => declares_mapped hctx hremapped hzero⟩

/-! ## A class with a lambda -/

/-- `abstract class A`, with a method handle for its `m(LB;)V` and the method type `(LB;)V`. -/
def lambdaClass : ClassFile where
  minorVersion := 0
  majorVersion := 52
  constantPool := ⟨[.utf8 (text "A"), .classInfo 1, .utf8 (text "S"), .classInfo 3, .utf8 (text "m"),
    .utf8 (text "(LB;)V"), .nameAndType 5 6, .methodref 2 7, .methodHandle 5 8, .methodType 6]⟩
  accessFlags := 0x421
  thisClass := 2
  superClass := 4
  interfaces := []
  fields := []
  methods := [⟨0x401, 5, 6, []⟩]
  attributes := []

/-- The bytes of `lambdaClass`. -/
def lambdaClassBytes : Bytes :=
  [0xCA, 0xFE, 0xBA, 0xBE, 0, 0, 0, 52, 0, 11, 1, 0, 1, 0x41, 7, 0, 1, 1, 0, 1, 0x53, 7, 0, 3, 1, 0, 1, 0x6D, 1, 0, 6,
    0x28, 0x4C, 0x42, 0x3B, 0x29, 0x56, 12, 0, 5, 0, 6, 10, 0, 2, 0, 7, 15, 5, 0, 8, 16, 0, 6, 4, 0x21, 0, 2, 0, 4, 0,
    0, 0, 0, 0, 1, 4, 1, 0, 5, 0, 6, 0, 0, 0, 0]

theorem parse_lambdaClass : classfileParse lambdaClassBytes = .ok lambdaClass := by decide +kernel

/-- `lambdaClass` with a reference to a field `x` of type `C`. -/
def readerClass : ClassFile :=
  { lambdaClass with
    constantPool := ⟨lambdaClass.constantPool.entries ++ [.utf8 (text "x"), .utf8 (text "LC;"), .nameAndType 11 12,
      .fieldref 2 13]⟩ }

theorem zeroFree_readerClass : ZeroFree readerClass := by
  intro bytes h
  simp only [readerClass, lambdaClass, List.cons_append, List.nil_append, List.mem_cons,
    CpInfo.utf8.injEq, reduceCtorEq, List.not_mem_nil, false_or, or_false] at h
  rcases h with rfl | rfl | rfl | rfl | rfl | rfl <;> decide

/-- A mapping of another class renames the type of the field, and leaves the method type as it was. -/
theorem descriptors_mapped_readerClass : ∃ input output cf', classfileParse input = .ok readerClass ∧
    jni2hookRemapClass (some input) [⟨some (text "C"), some (text "y")⟩] [] [] = .ok output ∧
    classfileParse output = .ok cf' ∧ NamedAt cf' 13 (text "x") (text "Ly;") ∧
    DescriptorsMapped [⟨some (text "C"), some (text "y")⟩] readerClass cf' := by
  have hwritten : (classfileSerialize readerClass).toOption.any (fun input =>
      decide (classfileParse input = .ok readerClass) &&
        (jni2hookRemapClass (some input) [⟨some (text "C"), some (text "y")⟩] [] []).isOk) = true := by decide +kernel
  obtain ⟨input, -, hboth⟩ := (Option.any_eq_true _ _).mp hwritten
  obtain ⟨hparse, hremaps⟩ := Bool.and_eq_true_iff.mp hboth
  have hparse := of_decide_eq_true hparse
  cases hok : jni2hookRemapClass (some input) [⟨some (text "C"), some (text "y")⟩] [] [] with
  | error status =>
    rw [hok] at hremaps
    cases hremaps
  | ok output =>
    obtain ⟨cf', hparse', hiff⟩ := descriptors_mapped_iff hparse zeroFree_readerClass hok
    have hmapped := hiff.mpr fun k descriptor htype => by
      obtain ⟨index, he, hdescriptor⟩ := htype
      have hmem := List.mem_of_getElem? he
      simp only [readerClass, lambdaClass, List.cons_append, List.nil_append, List.mem_cons, CpInfo.methodType.injEq,
        reduceCtorEq, List.not_mem_nil, false_or, or_false] at hmem
      subst hmem
      cases hdescriptor
      decide +kernel
    have hfield : NamedAt readerClass 13 (text "x") (text "LC;") := ⟨.fieldref 2 13, 13, rfl, rfl, by decide +kernel⟩
    exact ⟨input, output, cf', hparse, hok, hparse', hmapped.references 13 _ _ hfield, hmapped⟩

/-- `lambdaClass` with `B` mapped to `x`. -/
def remappedLambda : ClassFile :=
  { lambdaClass with
    constantPool := ⟨[.utf8 (text "A"), .classInfo 1, .utf8 (text "S"), .classInfo 3, .utf8 (text "m"),
      .utf8 (text "(LB;)V"), .nameAndType 5 6, .methodref 2 12, .methodHandle 5 8, .methodType 6,
      .utf8 (text "(Lx;)V"), .nameAndType 5 11]⟩
    methods := [⟨0x401, 5, 11, []⟩] }

/-- The bytes of `remappedLambda`. -/
def remappedLambdaBytes : Bytes :=
  [0xCA, 0xFE, 0xBA, 0xBE, 0, 0, 0, 52, 0, 13, 1, 0, 1, 0x41, 7, 0, 1, 1, 0, 1, 0x53, 7, 0, 3, 1, 0, 1, 0x6D, 1, 0, 6,
    0x28, 0x4C, 0x42, 0x3B, 0x29, 0x56, 12, 0, 5, 0, 6, 10, 0, 2, 0, 12, 15, 5, 0, 8, 16, 0, 6, 1, 0, 6, 0x28, 0x4C,
    0x78, 0x3B, 0x29, 0x56, 12, 0, 5, 0, 11, 4, 0x21, 0, 2, 0, 4, 0, 0, 0, 0, 0, 1, 4, 1, 0, 5, 0, 11, 0, 0, 0, 0]

/-- With `B` mapped to `x` the method takes an `x`, and the method type that described it still takes a `B`. -/
theorem methodType_left_behind : classfileParse lambdaClassBytes = .ok lambdaClass ∧
      jni2hookRemapClass (some lambdaClassBytes) [⟨some (text "B"), some (text "x")⟩] [] [] = .ok remappedLambdaBytes ∧
      classfileParse remappedLambdaBytes = .ok remappedLambda ∧
      MethodTypeAt remappedLambda 9 (text "(LB;)V") ∧ Declares remappedLambda .method 0 (text "m") (text "(Lx;)V") ∧
      ¬ DescriptorsMapped [⟨some (text "B"), some (text "x")⟩] lambdaClass remappedLambda := by
  have hbefore : MethodTypeAt lambdaClass 9 (text "(LB;)V") := ⟨6, rfl, by decide +kernel⟩
  have hafter : MethodTypeAt remappedLambda 9 (text "(LB;)V") := ⟨6, rfl, by decide +kernel⟩
  refine ⟨parse_lambdaClass, by decide +kernel, by decide +kernel, hafter,
    ⟨⟨0x401, 5, 11, []⟩, rfl, by decide +kernel, by decide +kernel⟩, fun hmapped => ?_⟩
  have hdescriptor := (hmapped.methodTypes 9 _ hbefore).unique hafter
  exact absurd hdescriptor (by decide +kernel)

end Jni2Hook
