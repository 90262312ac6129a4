import Jni2Hook.ClassFile.PoolGrowth
import Jni2Hook.Transform.Preservation

/-!
# What a hook leaves in the tree

* `Edits`: the pool grows, and the methods keep their places and names. A method that was found by its name is found
  again (`Edits.findMethod`).
* `Interns`: only the pool grows.
* `hookRef`: the constant by which the inserted call names its hook.
* the `_ok` lemmas: what the steps of `class_transform.c` have done to the tree when they succeed.
-/

namespace Jni2Hook

open Lib

/-! ## Trees that are edited -/

/-- The second tree comes from the first by edits of its methods. -/
structure Edits (cf cf' : ClassFile) : Prop where
  grows : Grows cf.constantPool cf'.constantPool
  thisClass : cf'.thisClass = cf.thisClass
  superClass : cf'.superClass = cf.superClass
  methods : ∀ {i : Nat} {m : MemberInfo}, cf.methods[i]? = some m → ∃ m' : MemberInfo, cf'.methods[i]? = some m' ∧
    m'.nameIndex = m.nameIndex ∧ m'.descriptorIndex = m.descriptorIndex

section Edits

variable {cf cf' cf'' : ClassFile}

theorem Edits.refl (cf : ClassFile) : Edits cf cf := ⟨.refl _, rfl, rfl, fun h => ⟨_, h, rfl, rfl⟩⟩

theorem Edits.trans (h : Edits cf cf') (h' : Edits cf' cf'') : Edits cf cf'' := by
  refine ⟨h.grows.trans h'.grows, h'.thisClass.trans h.thisClass, h'.superClass.trans h.superClass, fun hm => ?_⟩
  obtain ⟨m', hm', hname, hdescriptor⟩ := h.methods hm
  obtain ⟨m'', hm'', hname', hdescriptor'⟩ := h'.methods hm'
  exact ⟨m'', hm'', hname'.trans hname, hdescriptor'.trans hdescriptor⟩

theorem Edits.length_le (h : Edits cf cf') : cf.methods.length ≤ cf'.methods.length := by
  by_contra hlt
  obtain ⟨m', hm', -⟩ := h.methods (List.getElem?_eq_getElem (show cf'.methods.length < cf.methods.length by omega))
  exact absurd (List.getElem?_eq_some_iff.mp hm').1 (Nat.lt_irrefl _)

theorem findMethod_eq_some {name descriptor : Bytes} {i : Nat} {m : MemberInfo} :
    findMethod cf name descriptor = some (i, m) ↔
      classFileFindMethod cf name descriptor = some i ∧ cf.methods[i]? = some m := by
  unfold findMethod
  constructor
  · intro h
    obtain ⟨index, hindex, h⟩ := Option.bind_eq_some_iff.mp h
    obtain ⟨method, hmethod, h⟩ := Option.bind_eq_some_iff.mp h
    cases h
    exact ⟨hindex, hmethod⟩
  · rintro ⟨hindex, hmethod⟩
    exact Option.bind_eq_some_iff.mpr ⟨i, hindex, Option.bind_eq_some_iff.mpr ⟨m, hmethod, rfl⟩⟩

/-- The texts of a method that was found. -/
theorem findMethod_names {name descriptor : Bytes} {i : Nat} {m : MemberInfo}
    (h : findMethod cf name descriptor = some (i, m)) :
    constantPoolUtf8Equals cf.constantPool m.nameIndex name = true ∧
      constantPoolUtf8Equals cf.constantPool m.descriptorIndex descriptor = true := by
  obtain ⟨hindex, hmethod⟩ := findMethod_eq_some.mp h
  obtain ⟨hlt, hmatch, -⟩ := List.findIdx?_eq_some_iff_getElem.mp hindex
  rw [List.getElem?_eq_getElem hlt] at hmethod
  cases hmethod
  simpa [memberMatches] using hmatch

/-- A method that was found is found again. -/
theorem Edits.findMethod (h : Edits cf cf') {name descriptor : Bytes} {i : Nat} {m : MemberInfo}
    (hfind : findMethod cf name descriptor = some (i, m)) :
    ∃ m', Jni2Hook.findMethod cf' name descriptor = some (i, m') ∧ cf'.methods[i]? = some m' := by
  obtain ⟨hname, hdescriptor⟩ := findMethod_names hfind
  have hname' := h.grows.utf8Equals (mem_of_constantPoolUtf8Equals hname)
  have hdescriptor' := h.grows.utf8Equals (mem_of_constantPoolUtf8Equals hdescriptor)
  obtain ⟨hindex, hmethod⟩ := findMethod_eq_some.mp hfind
  obtain ⟨m', hm', -⟩ := h.methods hmethod
  refine ⟨m', findMethod_eq_some.mpr ⟨?_, hm'⟩, hm'⟩
  -- the texts stand nowhere new, so no earlier method has taken the names
  have hmatch {j : Nat} {x x' : MemberInfo} (hx : cf.methods[j]? = some x) (hx' : cf'.methods[j]? = some x') :
      memberMatches cf'.constantPool name (some descriptor) x' =
        memberMatches cf.constantPool name (some descriptor) x := by
    obtain ⟨x'', hx'', hn, hd⟩ := h.methods hx
    rw [hx'] at hx''
    cases hx''
    simp only [memberMatches, hn, hd, hname', hdescriptor']
  obtain ⟨hlt, hhere, hbefore⟩ := List.findIdx?_eq_some_iff_getElem.mp hindex
  have hle := h.length_le
  refine List.findIdx?_eq_some_iff_getElem.mpr ⟨by omega, ?_, fun j hj => ?_⟩
  · rw [hmatch (List.getElem?_eq_getElem hlt) (List.getElem?_eq_getElem (by omega))]
    exact hhere
  · rw [hmatch (List.getElem?_eq_getElem (by omega)) (List.getElem?_eq_getElem (by omega))]
    exact hbefore j hj

/-- A method that no edit has touched has the body it had. -/
theorem Edits.codeOf (h : Edits cf cf') {i : Nat} {code : AttributeInfo} (hcode : codeOf cf i = some code)
    (hsame : cf'.methods[i]? = cf.methods[i]?) : Jni2Hook.codeOf cf' i = some code := by
  obtain ⟨method, hmethod, hfind⟩ := Option.bind_eq_some_iff.mp hcode
  have hname : constantPoolUtf8Equals cf.constantPool code.attributeNameIndex (text "Code") = true :=
    List.find?_some (p := fun a : AttributeInfo => constantPoolUtf8Equals cf.constantPool
      a.attributeNameIndex (text "Code"))
      hfind
  refine Option.bind_eq_some_iff.mpr ⟨method, hsame.trans hmethod, ?_⟩
  rw [← hfind]
  unfold findCode attributeListFind
  exact congrArg (fun p => method.attributes.find? p) (funext fun a =>
    h.grows.utf8Equals (mem_of_constantPoolUtf8Equals hname) a.attributeNameIndex)

end Edits

/-! ## Interning -/

/-- Nothing but the pool has changed, and it has grown. -/
structure Interns (cf cf' : ClassFile) : Prop where
  rest : cf' = { cf with constantPool := cf'.constantPool }
  grows : Grows cf.constantPool cf'.constantPool
  count : cf.constantPool.count ≤ classfileMaxCount → cf'.constantPool.count ≤ classfileMaxCount

theorem Interns.refl (cf : ClassFile) : Interns cf cf := ⟨rfl, .refl _, id⟩

theorem Interns.trans {cf cf' cf'' : ClassFile} (h : Interns cf cf') (h' : Interns cf' cf'') : Interns cf cf'' :=
  ⟨by rw [h'.rest, h.rest], h.grows.trans h'.grows, h'.count ∘ h.count⟩

theorem grows_append {entries : List CpInfo} {entry : CpInfo} (h : entry ∉ entries) :
    Grows ⟨entries⟩ ⟨entries ++ [entry]⟩ := by
  refine ⟨List.prefix_append _ _, fun {bytes k} hmem hk => ?_⟩
  rcases Nat.lt_or_ge k entries.length with hlt | hge
  · rwa [List.getElem?_append_left hlt] at hk
  · rw [List.getElem?_append_right hge, List.getElem?_singleton] at hk
    split at hk
    · cases hk
      exact absurd hmem h
    · cases hk

theorem internConstant_ok {entry : CpInfo} (hslot : entry.slots = 1) {cf cf' : ClassFile} {index : UInt16}
    (h : internConstant entry cf = .ok index cf') :
    Interns cf cf' ∧ constantPoolFind cf'.constantPool (· == entry) = some index := by
  obtain ⟨found, hfind, hrun⟩ | ⟨-, hrun⟩ | ⟨hnone, hroom, hrun⟩ := internConstant_cases hslot cf
  · rw [hrun] at h
    cases h
    exact ⟨.refl cf, hfind⟩
  · rw [hrun] at h
    cases h
  · rw [hrun] at h
    cases h
    refine ⟨⟨rfl, grows_append (constantPoolFind_none hnone), fun _ => ?_⟩, constantPoolFind_added hnone⟩
    unfold ConstantPool.count at hroom ⊢
    rw [List.length_append, List.length_singleton]
    omega

theorem internUtf8_ok {bytes : Bytes} {cf cf' : ClassFile} {index : UInt16}
    (h : classFileInternUtf8 bytes cf = .ok index cf') :
    Interns cf cf' ∧ constantPoolFind cf'.constantPool (· == .utf8 bytes) = some index := by
  unfold classFileInternUtf8 at h
  split at h
  · cases h
  · exact internConstant_ok rfl h

/-- The constant by which a call names the hook of that name. -/
def hookRef (cf : ClassFile) (hookName : Bytes) : Option UInt16 := do
  let nameIndex ← constantPoolFind cf.constantPool (· == .utf8 hookName)
  let voidIndex ← constantPoolFind cf.constantPool (· == .utf8 (text "()V"))
  let natIndex ← constantPoolFind cf.constantPool (· == .nameAndType nameIndex voidIndex)
  constantPoolFind cf.constantPool (· == .methodref cf.thisClass natIndex)

theorem hookRef_eq_some {cf : ClassFile} {hookName : Bytes} {index : UInt16} : hookRef cf hookName = some index ↔
    ∃ nameIndex voidIndex natIndex, constantPoolFind cf.constantPool (· == .utf8 hookName) = some nameIndex ∧
      constantPoolFind cf.constantPool (· == .utf8 (text "()V")) = some voidIndex ∧
      constantPoolFind cf.constantPool (· == .nameAndType nameIndex voidIndex) = some natIndex ∧
      constantPoolFind cf.constantPool (· == .methodref cf.thisClass natIndex) = some index := by
  simp only [hookRef, Option.bind_eq_bind, Option.bind_eq_some_iff]
  constructor
  · rintro ⟨nameIndex, hname, voidIndex, hvoid, natIndex, hnat, href⟩
    exact ⟨nameIndex, voidIndex, natIndex, hname, hvoid, hnat, href⟩
  · rintro ⟨nameIndex, voidIndex, natIndex, hname, hvoid, hnat, href⟩
    exact ⟨nameIndex, hname, voidIndex, hvoid, natIndex, hnat, href⟩

/-- The constant of a hook stays. -/
theorem Edits.hookRef {cf cf' : ClassFile} (h : Edits cf cf') {hookName : Bytes} {index : UInt16}
    (href : hookRef cf hookName = some index) : Jni2Hook.hookRef cf' hookName = some index := by
  obtain ⟨nameIndex, voidIndex, natIndex, hname, hvoid, hnat, hmethod⟩ := hookRef_eq_some.mp href
  refine hookRef_eq_some.mpr ⟨nameIndex, voidIndex, natIndex, h.grows.find hname, h.grows.find hvoid,
    h.grows.find hnat, ?_⟩
  rw [h.thisClass]
  exact h.grows.find hmethod

theorem internClass_ok {name : Bytes} {cf cf' : ClassFile} {index : UInt16}
    (h : classFileInternClass name cf = .ok index cf') :
    Interns cf cf' ∧ (cf.constantPool.count ≤ classfileMaxCount → classNameAt cf'.constantPool index = some name) := by
  obtain ⟨nameIndex, cf₁, hname, hclass⟩ := exists_of_bind_ok h
  obtain ⟨hi₁, hfind₁⟩ := internUtf8_ok hname
  obtain ⟨hi₂, hfind₂⟩ := internConstant_ok rfl hclass
  refine ⟨hi₁.trans hi₂, fun hcount => classNameAt_eq_some.mpr ⟨nameIndex, ?_, ?_⟩⟩
  · exact constantPoolAt_of_find (hi₂.count (hi₁.count hcount)) (by simp) hfind₂
  · exact hi₂.grows.utf8 (utf8_of_find (hi₁.count hcount) hfind₁)

/-- The steps of `classFile_intern_methodref`: the two texts, their pair and the reference. -/
theorem internMethodref_steps {classIndex : UInt16} {name descriptor : Bytes} {cf cf' : ClassFile} {index : UInt16}
    (h : classFileInternMethodref classIndex name descriptor cf = .ok index cf') :
    Interns cf cf' ∧ ∃ nameIndex descriptorIndex natIndex,
      constantPoolFind cf'.constantPool (· == .utf8 name) = some nameIndex ∧
      constantPoolFind cf'.constantPool (· == .utf8 descriptor) = some descriptorIndex ∧
      constantPoolFind cf'.constantPool (· == .nameAndType nameIndex descriptorIndex) = some natIndex ∧
      constantPoolFind cf'.constantPool (· == .methodref classIndex natIndex) = some index := by
  obtain ⟨natIndex, cf₃, hnat, hmethod⟩ := exists_of_bind_ok h
  obtain ⟨nameIndex, cf₁, hname, hnat⟩ := exists_of_bind_ok hnat
  obtain ⟨descriptorIndex, cf₂, hdescriptor, hnat⟩ := exists_of_bind_ok hnat
  obtain ⟨hi₁, hfind₁⟩ := internUtf8_ok hname
  obtain ⟨hi₂, hfind₂⟩ := internUtf8_ok hdescriptor
  obtain ⟨hi₃, hfind₃⟩ := internConstant_ok rfl hnat
  obtain ⟨hi₄, hfind₄⟩ := internConstant_ok rfl hmethod
  refine ⟨((hi₁.trans hi₂).trans hi₃).trans hi₄, nameIndex, descriptorIndex, natIndex, ?_, ?_, ?_, hfind₄⟩
  · exact ((hi₂.grows.trans hi₃.grows).trans hi₄.grows).find hfind₁
  · exact (hi₃.grows.trans hi₄.grows).find hfind₂
  · exact hi₄.grows.find hfind₃

theorem internMethodref_ok {hookName : Bytes} {cf cf' : ClassFile} {index : UInt16}
    (h : classFileInternMethodref cf.thisClass hookName (text "()V") cf = .ok index cf') :
    Interns cf cf' ∧ hookRef cf' hookName = some index := by
  obtain ⟨hall, nameIndex, voidIndex, natIndex, hname, hvoid, hnat, hmethod⟩ := internMethodref_steps h
  refine ⟨hall, hookRef_eq_some.mpr ⟨nameIndex, voidIndex, natIndex, hname, hvoid, hnat, ?_⟩⟩
  rw [show cf'.thisClass = cf.thisClass by rw [hall.rest]]
  exact hmethod

/-! ## Steps that succeed -/

section Steps

variable {cf cf' : ClassFile} {α : Type}

theorem withCause_ok {x : Edit α} {a : α} (h : withCause x cf = .ok a cf') : x cf = .ok a cf' := by
  unfold withCause at h
  split at h
  · rename_i hx
    cases h
    exact hx
  · cases h

theorem lookup_ok {f : ClassFile → Except TransformStatus α} {a : α} (h : lookup f cf = .ok a cf') :
    f cf = .ok a ∧ cf' = cf := by
  obtain ⟨_, _, hget, h⟩ := exists_of_bind_ok h
  cases hget
  cases hf : f cf with
  | error e =>
    rw [hf] at h
    cases h
  | ok b =>
    rw [hf] at h
    cases h
    exact ⟨rfl, rfl⟩

theorem liftCause_ok {x : Except ClassfileStatus α} {a : α} (h : liftCause x cf = .ok a cf') :
    x = .ok a ∧ cf' = cf := by
  cases x with
  | error e => cases h
  | ok b =>
    cases h
    exact ⟨rfl, rfl⟩

theorem appendMethod_ok {method : MemberInfo} (h : appendMethod method cf = .ok () cf') :
    cf' = { cf with methods := cf.methods ++ [method] } := by
  obtain ⟨_, _, hget, h⟩ := exists_of_bind_ok h
  cases hget
  cases happend : listAppend cf.methods method with
  | error e =>
    rw [happend] at h
    cases h
  | ok methods =>
    rw [happend] at h
    cases h
    unfold listAppend at happend
    split at happend
    · cases happend
    · cases happend
      rfl

theorem loadCode_ok {index : Nat} {loaded : AttributeInfo × CodeEditor} (h : loadCode index cf = .ok loaded cf') :
    codeOf cf index = some loaded.1 ∧ codeEditorLoad loaded.1 cf.constantPool = .ok loaded.2 ∧ cf' = cf := by
  obtain ⟨_, _, hget, h⟩ := exists_of_bind_ok h
  cases hget
  cases hcode : codeOf cf index with
  | none =>
    rw [hcode] at h
    cases h
  | some code =>
    rw [hcode] at h
    obtain ⟨editor, _, hlift, hpure⟩ := exists_of_bind_ok h
    obtain ⟨hload, rfl⟩ := liftCause_ok hlift
    cases hpure
    exact ⟨rfl, hload, rfl⟩

theorem insertNodesAt_ok {editor edited : CodeEditor} {offset : Nat} {nodes : List Instruction} {extraStack : UInt16}
    (h : insertNodesAt editor offset nodes extraStack cf = .ok edited cf') :
    codeEditorInsert editor offset nodes extraStack = (.ok (), edited) ∧ cf' = cf := by
  unfold insertNodesAt at h
  rcases hinsert : codeEditorInsert editor offset nodes extraStack with ⟨status, left⟩
  rw [hinsert] at h
  cases status with
  | ok u =>
    cases h
    exact ⟨rfl, rfl⟩
  | error e => cases e <;> cases h

theorem modify_append_left {α : Type} {l₁ l₂ : List α} {i : Nat} (hi : i < l₁.length) (g : α → α) :
    (l₁ ++ l₂).modify i g = l₁.modify i g ++ l₂ := by
  apply List.ext_getElem?
  intro j
  rw [List.getElem?_modify]
  rcases Nat.lt_or_ge j l₁.length with hj | hj
  · rw [List.getElem?_append_left hj, List.getElem?_append_left (by rw [List.length_modify]; exact hj),
      List.getElem?_modify]
  · rw [List.getElem?_append_right hj, List.getElem?_append_right (by rw [List.length_modify]; exact hj),
      List.length_modify]
    have hne : i ≠ j := by omega
    simp [hne]

/-- The tree with another Code attribute in a method. -/
def storedAt (cf : ClassFile) (index : Nat) (stored : AttributeInfo) : ClassFile :=
  { cf with methods := cf.methods.modify index fun method =>
      { method with attributes := replaceCode cf.constantPool stored method.attributes } }

theorem storeCode_ok {index : Nat} {editor : CodeEditor} {code : AttributeInfo}
    (h : storeCode index editor code cf = .ok () cf') :
    ∃ stored, codeEditorStore editor code = .ok stored ∧ cf' = storedAt cf index stored := by
  obtain ⟨stored, _, hlift, hmodify⟩ := exists_of_bind_ok h
  obtain ⟨hstore, rfl⟩ := liftCause_ok hlift
  cases hmodify
  exact ⟨stored, hstore, rfl⟩

end Steps

end Jni2Hook
