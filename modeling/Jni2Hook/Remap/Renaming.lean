import Jni2Hook.Remap.Remapped

/-!
# What a remap renames

`JNI2Hook_RemapClass` from its input to its output, in terms of the names the input has.

* `mappingFor`: the mapping of a member by the name of its owner, its name and its descriptor.
* `remap_renames`: names change exactly as the mappings say, and nothing else does.
* `remapped_class_links`: a reference to a member of the class itself still refers to it.
-/

namespace Jni2Hook

/-- The mapping of a member: by its owner, or by the super class or an interface when the owner is the class itself. -/
def mappingFor (cf : ClassFile) (table : List MemberMapping) (owner : Option Bytes) (name descriptor : Bytes) :
    Option MemberMapping :=
  (findMember table owner name descriptor).or
    (if owner.isSome ∧ classNameAt cf.constantPool cf.thisClass = owner then
      (cf.superClass :: cf.interfaces).findSome? fun index =>
        findMember table (classNameAt cf.constantPool index) name descriptor
    else none)

/-- No name of a class has a zero byte. -/
def ClassNamesZeroFree (cf : ClassFile) : Prop :=
  ∀ index name, classNameAt cf.constantPool index = some name → 0 ∉ name

/-- No Utf8 entry has a zero byte. -/
def ZeroFree (cf : ClassFile) : Prop := ∀ bytes, CpInfo.utf8 bytes ∈ cf.constantPool.entries → 0 ∉ bytes

theorem ZeroFree.utf8 {cf : ClassFile} (h : ZeroFree cf) {index : UInt16} {bytes : Bytes}
    (hbytes : constantPoolUtf8 cf.constantPool index = some bytes) : 0 ∉ bytes := by
  obtain ⟨-, -, hentry⟩ := constantPoolAt_eq_some.mp (constantPoolUtf8_eq_some.mp hbytes)
  exact h bytes (List.mem_of_getElem? hentry)

theorem ZeroFree.classNames {cf : ClassFile} (h : ZeroFree cf) : ClassNamesZeroFree cf := by
  intro index name hname
  obtain ⟨_, -, hutf8⟩ := classNameAt_eq_some.mp hname
  exact h.utf8 hutf8

theorem ZeroFree.nameAndType {cf : ClassFile} (h : ZeroFree cf) {index : UInt16} {name descriptor : Bytes}
    (htexts : nameAndTypeAt cf.constantPool index = some (name, descriptor)) : 0 ∉ name ∧ 0 ∉ descriptor := by
  obtain ⟨_, _, -, hname, hdescriptor⟩ := nameAndTypeAt_eq_some.mp htexts
  exact ⟨h.utf8 hname, h.utf8 hdescriptor⟩

/-! ## From the context to the names of the input -/

section Names

variable {classes : List ClassMapping} {methods fields : List MemberMapping} {ctx : RemapContext} {cf cf' : ClassFile}

theorem findMemberInherited_eq (hctx : remapContext classes methods fields cf = .ok ctx)
    (hzero : ClassNamesZeroFree cf) (table : List MemberMapping) (owner : Option Bytes) (name descriptor : Bytes) :
    findMemberInherited cf ctx table owner name descriptor = mappingFor cf table owner name descriptor := by
  unfold findMemberInherited mappingFor
  simp only [originalClassName_eq hctx hzero]
  cases findMember table owner name descriptor with
  | some mapping => rfl
  | none =>
    cases owner with
    | none => rfl
    | some owner =>
      by_cases hown : classNameAt cf.constantPool cf.thisClass = some owner
      · simp [hown]
      · simp [hown]

theorem selectedMapping_mappingFor (hctx : remapContext classes methods fields cf = .ok ctx)
    (hzero : ClassNamesZeroFree cf) {e : CpInfo} {c nat : UInt16} {name descriptor : Bytes}
    (hclass : e.classIndex? = some c) (hnat : e.natIndex? = some nat)
    (htexts : nameAndTypeAt cf.constantPool nat = some (name, descriptor)) (hname : 0 ∉ name)
    (hdescriptor : 0 ∉ descriptor) : selectedMapping ctx cf e =
      mappingFor cf (referenceTable methods fields e) (classNameAt cf.constantPool c) name descriptor := by
  obtain ⟨-, hmethods, hfields⟩ := remapContext_tables hctx
  rw [selectedMapping_eq hclass hnat htexts hname hdescriptor, findMemberInherited_eq hctx hzero,
    originalClassName_eq hctx hzero, hmethods, hfields]

theorem Remapped.className (h : Remapped ctx cf cf') (hzero : ClassNamesZeroFree cf) {index : UInt16} {name : Bytes}
    (hname : classNameAt cf.constantPool index = some name) :
    classNameAt cf'.constantPool index = some (newClassName ctx.classes name) := by
  obtain ⟨nameIndex, hat, hutf8⟩ := classNameAt_eq_some.mp hname
  obtain ⟨hindex, -, hentry⟩ := constantPoolAt_eq_some.mp hat
  obtain ⟨name', nameIndex', hname', hentry', hnew⟩ := h.classes _ _ hentry
  rw [hutf8] at hname'
  cases hname'
  exact classNameAt_eq_some.mpr
    ⟨nameIndex', constantPoolAt_eq_some.mpr ⟨hindex, by simp, hentry'⟩, hnew (hzero index name hname)⟩

/-- A successful call: the tree it has parsed, remapped, and its bytes. -/
theorem remapClass_remapped {input output : Bytes} (hparse : classfileParse input = .ok cf)
    (hok : jni2hookRemapClass (some input) classes methods fields = .ok output) : ∃ ctx cf',
      remapContext classes methods fields cf = .ok ctx ∧ Remapped ctx cf cf' ∧ classfileParse output = .ok cf' := by
  have hwf := (classfileParse_sound hparse).2
  unfold jni2hookRemapClass at hok
  split at hok
  · cases hok
  · cases hok
  · rename_i data _ hdata
    cases hdata
    rw [hparse] at hok
    simp only [bind, Except.bind] at hok
    cases htree : remapTree classes methods fields cf with
    | error e =>
      rw [htree] at hok
      cases hok
    | ok cf' =>
      rw [htree] at hok
      cases hctx : remapContext classes methods fields cf with
      | error e =>
        unfold remapTree at htree
        rw [hctx] at htree
        cases htree
      | ok ctx =>
        have hremapped := remapTree_remapped hctx hwf htree
        cases hbytes : classfileSerialize cf' with
        | error e =>
          simp only [hbytes] at hok
          cases hok
        | ok bytes =>
          simp only [hbytes] at hok
          cases hok
          exact ⟨ctx, cf', rfl, hremapped, classfileParse_serialize hremapped.wellFormed hbytes⟩

end Names

/-! ## Names change as the mappings say -/

/-- The index leads to a text without a zero byte. -/
def HasText (cf : ClassFile) (index : UInt16) : Prop :=
  ∃ bytes, constantPoolUtf8 cf.constantPool index = some bytes ∧ 0 ∉ bytes

/-- The indices of names and descriptors lead to texts. -/
structure NamesResolve (cf : ClassFile) : Prop where
  classes : ∀ nameIndex, CpInfo.classInfo nameIndex ∈ cf.constantPool.entries → HasText cf nameIndex
  nameAndTypes : ∀ nameIndex descriptorIndex, CpInfo.nameAndType nameIndex descriptorIndex ∈ cf.constantPool.entries →
    HasText cf nameIndex ∧ HasText cf descriptorIndex
  members : ∀ member ∈ cf.fields ++ cf.methods, HasText cf member.nameIndex ∧ HasText cf member.descriptorIndex

/-- A member that keeps everything but its name and its descriptor, which its mapping gives. -/
structure MemberRenamed (classes : List ClassMapping) (table : List MemberMapping) (cf cf' : ClassFile)
    (member member' : MemberInfo) : Prop where
  rest : member' = { member with nameIndex := member'.nameIndex, descriptorIndex := member'.descriptorIndex }
  texts : ∃ name descriptor, constantPoolUtf8 cf.constantPool member.nameIndex = some name ∧
    constantPoolUtf8 cf.constantPool member.descriptorIndex = some descriptor ∧
      let mapping := mappingFor cf table (classNameAt cf.constantPool cf.thisClass) name descriptor
      constantPoolUtf8 cf'.constantPool member'.nameIndex = some (newName mapping name) ∧
        constantPoolUtf8 cf'.constantPool member'.descriptorIndex = some (newDescriptor classes mapping descriptor)

/-- Names and descriptors are those of the mappings, every index of the input keeps its place and its kind, and nothing
else is different. -/
structure Renamed (classes : List ClassMapping) (methods fields : List MemberMapping) (cf cf' : ClassFile) : Prop where
  rest : cf' = { cf with constantPool := cf'.constantPool, fields := cf'.fields, methods := cf'.methods }
  others : ∀ (k : Nat) (e : CpInfo), cf.constantPool.entries[k]? = some e → remappedTag e.tag = false →
    cf'.constantPool.entries[k]? = some e
  classConstants : ∀ (k : Nat) (nameIndex : UInt16), cf.constantPool.entries[k]? = some (.classInfo nameIndex) →
    ∃ name nameIndex', constantPoolUtf8 cf.constantPool nameIndex = some name ∧
      cf'.constantPool.entries[k]? = some (.classInfo nameIndex') ∧
      constantPoolUtf8 cf'.constantPool nameIndex' = some (newClassName classes name)
  references : ∀ (k : Nat) (e : CpInfo) (c nat : UInt16), cf.constantPool.entries[k]? = some e →
    e.classIndex? = some c → e.natIndex? = some nat → ∃ nat',
      cf'.constantPool.entries[k]? = some (e.withNat nat') ∧
      ∀ name descriptor, nameAndTypeAt cf.constantPool nat = some (name, descriptor) →
        let mapping := mappingFor cf (referenceTable methods fields e) (classNameAt cf.constantPool c) name descriptor
        nameAndTypeAt cf'.constantPool nat' = some (newName mapping name, newDescriptor classes mapping descriptor)
  dynamics : ∀ (k : Nat) (e : CpInfo) (nat : UInt16), cf.constantPool.entries[k]? = some e → e.classIndex? = none →
    e.natIndex? = some nat → ∃ nat',
      cf'.constantPool.entries[k]? = some (e.withNat nat') ∧
      ∀ name descriptor, nameAndTypeAt cf.constantPool nat = some (name, descriptor) →
        nameAndTypeAt cf'.constantPool nat' = some (name, newDescriptor classes none descriptor)
  ownFields : List.Forall₂ (MemberRenamed classes fields cf cf') cf.fields cf'.fields
  ownMethods : List.Forall₂ (MemberRenamed classes methods cf cf') cf.methods cf'.methods

section Renamed

variable {classes : List ClassMapping} {methods fields : List MemberMapping} {ctx : RemapContext} {cf cf' : ClassFile}

theorem NamesResolve.classNames (h : NamesResolve cf) : ClassNamesZeroFree cf := by
  intro index name hname
  obtain ⟨nameIndex, hat, hutf8⟩ := classNameAt_eq_some.mp hname
  obtain ⟨-, -, hentry⟩ := constantPoolAt_eq_some.mp hat
  obtain ⟨bytes, hbytes, hzero⟩ := h.classes nameIndex (List.mem_of_getElem? hentry)
  rw [hutf8] at hbytes
  cases hbytes
  exact hzero

theorem NamesResolve.nameAndType (h : NamesResolve cf) {index : UInt16} {name descriptor : Bytes}
    (htexts : nameAndTypeAt cf.constantPool index = some (name, descriptor)) : 0 ∉ name ∧ 0 ∉ descriptor := by
  obtain ⟨nameIndex, descriptorIndex, hat, hname, hdescriptor⟩ := nameAndTypeAt_eq_some.mp htexts
  obtain ⟨-, -, hentry⟩ := constantPoolAt_eq_some.mp hat
  obtain ⟨⟨_, hname', hzero⟩, _, hdescriptor', hzero'⟩ := h.nameAndTypes _ _ (List.mem_of_getElem? hentry)
  rw [hname] at hname'
  rw [hdescriptor] at hdescriptor'
  cases hname'
  cases hdescriptor'
  exact ⟨hzero, hzero'⟩

theorem mem_of_mem_referenceTable {methods fields : List MemberMapping} {e : CpInfo} {mapping : MemberMapping}
    (h : mapping ∈ referenceTable methods fields e) : mapping ∈ methods ++ fields := by
  unfold referenceTable at h
  split at h
  · exact List.mem_append_right _ h
  · exact List.mem_append_left _ h
  · exact List.mem_append_left _ h
  · cases h

/-- Without runtime owners a reference moves to another NameAndType at most. -/
theorem reference_kept {k : Nat} {e : CpInfo} (hmoved : MovedReference ctx cf cf' (OwnerRemapped ctx cf cf') k e)
    (howners : ∀ m ∈ ctx.methods ++ ctx.fields, m.runtimeOwner = none) {nat : UInt16} (hnat : e.natIndex? = some nat) :
    ∃ nat', cf'.constantPool.entries[k]? = some (e.withNat nat') ∧
      ∀ name descriptor, nameAndTypeAt cf.constantPool nat = some (name, descriptor) → 0 ∉ name → 0 ∉ descriptor →
        nameAndTypeAt cf'.constantPool nat' = some (newName (selectedMapping ctx cf e) name,
          newDescriptor ctx.classes (selectedMapping ctx cf e) descriptor) := by
  obtain ⟨nat', hentry, htexts⟩ := hmoved nat hnat
  refine ⟨nat', ?_, fun name descriptor hname hzero hzero' => (htexts name descriptor hname hzero hzero').1⟩
  rcases hentry with hentry | ⟨⟨mapping, hmapping, hruntime⟩, -⟩
  · exact hentry
  · rw [howners mapping (mem_of_mem_referenceTable hmapping)] at hruntime
    cases hruntime

theorem members_renamed {table : List MemberMapping} {members members' : List MemberInfo}
    (hctx : remapContext classes methods fields cf = .ok ctx) (hzero : ClassNamesZeroFree cf)
    (htexts : ∀ member ∈ members, HasText cf member.nameIndex ∧ HasText cf member.descriptorIndex)
    (hdone : List.Forall₂ (MemberDone ctx table cf cf') members members') :
    List.Forall₂ (MemberRenamed classes table cf cf') members members' := by
  obtain ⟨hclasses, -, -⟩ := remapContext_tables hctx
  induction hdone with
  | nil => exact .nil
  | @cons member member' rest rest' hmember _ ih =>
    refine .cons ⟨hmember.rest, ?_⟩ (ih fun m hm => htexts m (List.mem_cons_of_mem _ hm))
    obtain ⟨⟨name, hname, hzero₁⟩, descriptor, hdescriptor, hzero₂⟩ := htexts member List.mem_cons_self
    have hnew := hmember.texts name descriptor hname hdescriptor hzero₁ hzero₂
    rw [originalClassName_eq hctx hzero] at hnew
    simp only [findMemberInherited_eq hctx hzero, hclasses] at hnew
    exact ⟨name, descriptor, hname, hdescriptor, hnew⟩

end Renamed

/-- **A remap renames what the mappings say and nothing else.** The output parses to the tree of the input with every
name and descriptor replaced by the one its mapping gives. -/
theorem remap_renames {input output : Bytes} {classes : List ClassMapping} {methods fields : List MemberMapping}
    {cf : ClassFile} (hparse : classfileParse input = .ok cf) (hnames : NamesResolve cf)
    (howners : ∀ m ∈ methods ++ fields, m.runtimeOwner = none)
    (hok : jni2hookRemapClass (some input) classes methods fields = .ok output) :
    ∃ cf', classfileParse output = .ok cf' ∧ Renamed classes methods fields cf cf' := by
  obtain ⟨ctx, cf', hctx, hremapped, hparse'⟩ := remapClass_remapped hparse hok
  have hzero := hnames.classNames
  obtain ⟨hclasses, hmethods, hfields⟩ := remapContext_tables hctx
  have howners' : ∀ m ∈ ctx.methods ++ ctx.fields, m.runtimeOwner = none := by
    rw [hmethods, hfields]
    exact howners
  refine ⟨cf', hparse', hremapped.rest, hremapped.kept, ?_, ?_, ?_, ?_, ?_⟩
  · intro k nameIndex he
    obtain ⟨name, nameIndex', hname, hentry, hnew⟩ := hremapped.classes k nameIndex he
    obtain ⟨bytes, hbytes, hzero'⟩ := hnames.classes nameIndex (List.mem_of_getElem? he)
    rw [hname] at hbytes
    cases hbytes
    rw [hclasses] at hnew
    exact ⟨name, nameIndex', hname, hentry, hnew hzero'⟩
  · intro k e c nat he hclass hnat
    obtain ⟨nat', hentry, htexts⟩ := reference_kept (hremapped.references k e he) howners' hnat
    refine ⟨nat', hentry, fun name descriptor hname => ?_⟩
    obtain ⟨hzero₁, hzero₂⟩ := hnames.nameAndType hname
    have hnew := htexts name descriptor hname hzero₁ hzero₂
    rw [selectedMapping_mappingFor hctx hzero hclass hnat hname hzero₁ hzero₂, hclasses] at hnew
    exact hnew
  · intro k e nat he hclass hnat
    obtain ⟨nat', hentry, htexts⟩ := reference_kept (hremapped.references k e he) howners' hnat
    refine ⟨nat', hentry, fun name descriptor hname => ?_⟩
    obtain ⟨hzero₁, hzero₂⟩ := hnames.nameAndType hname
    have hnew := htexts name descriptor hname hzero₁ hzero₂
    have hnone : selectedMapping ctx cf e = none := by simp [selectedMapping, hclass]
    rw [hnone, hclasses] at hnew
    exact hnew
  · have hdone := hremapped.fields
    rw [hfields] at hdone
    exact members_renamed hctx hzero (fun m hm => hnames.members m (List.mem_append_left _ hm)) hdone
  · have hdone := hremapped.methods
    rw [hmethods] at hdone
    exact members_renamed hctx hzero (fun m hm => hnames.members m (List.mem_append_right _ hm)) hdone

/-- `class A extends B`, which calls its method `m(LB;)V`, with a class constant for `C`. -/
def callingClass : ClassFile where
  minorVersion := 0
  majorVersion := 52
  constantPool := ⟨[.utf8 (text "A"), .classInfo 1, .utf8 (text "B"), .classInfo 3, .utf8 (text "m"),
    .utf8 (text "(LB;)V"), .nameAndType 5 6, .methodref 2 7, .utf8 (text "C"), .classInfo 9]⟩
  accessFlags := 0x21
  thisClass := 2
  superClass := 4
  interfaces := []
  fields := []
  methods := [⟨0, 5, 6, []⟩]
  attributes := []

/-- The bytes of `callingClass`. -/
def callingClassBytes : Bytes :=
  [0xCA, 0xFE, 0xBA, 0xBE, 0, 0, 0, 52, 0, 11, 1, 0, 1, 0x41, 7, 0, 1, 1, 0, 1, 0x42, 7, 0, 3, 1, 0, 1, 0x6D, 1, 0, 6,
    0x28, 0x4C, 0x42, 0x3B, 0x29, 0x56, 12, 0, 5, 0, 6, 10, 0, 2, 0, 7, 1, 0, 1, 0x43, 7, 0, 9, 0,
      0x21, 0, 2, 0, 4, 0, 0,
    0, 0, 0, 1, 0, 0, 0, 5, 0, 6, 0, 0, 0, 0]

theorem parse_callingClass : classfileParse callingClassBytes = .ok callingClass := by decide +kernel

/-- `B` is `x` at runtime, and its `m` is `q`. -/
def renamedSuper : List ClassMapping × List MemberMapping :=
  ([⟨some (text "B"), some (text "x")⟩], [⟨some (text "B"), some (text "m"), none, none, some (text "q"), none⟩])

/-- `callingClassBytes` under `renamedSuper`. -/
def renamedClassBytes : Bytes :=
  [0xCA, 0xFE, 0xBA, 0xBE, 0, 0, 0, 52, 0, 15, 1, 0, 1, 0x41, 7, 0, 1, 1, 0, 1, 0x42, 7, 0, 14, 1, 0, 1, 0x6D, 1, 0, 6,
    0x28, 0x4C, 0x42, 0x3B, 0x29, 0x56, 12, 0, 5, 0, 6, 10, 0, 2, 0, 13, 1, 0, 1, 0x43, 7, 0, 9, 1, 0, 1, 0x71, 1, 0, 6,
    0x28, 0x4C, 0x78, 0x3B, 0x29, 0x56, 12, 0, 11, 0, 12, 1, 0, 1, 0x78, 0, 0x21, 0, 2, 0, 4, 0, 0, 0, 0, 0, 1, 0, 0, 0,
    11, 0, 12, 0, 0, 0, 0]

theorem remap_callingClass : jni2hookRemapClass (some callingClassBytes) renamedSuper.1 renamedSuper.2 [] =
    .ok renamedClassBytes := by decide +kernel

theorem renamedSuper_owners : ∀ m ∈ renamedSuper.2 ++ [], m.runtimeOwner = none := by
  intro m hm
  simp only [renamedSuper, List.append_nil, List.mem_singleton] at hm
  rw [hm]

theorem namesResolve_callingClass : NamesResolve callingClass := by
  constructor
  · intro nameIndex h
    simp only [callingClass, List.mem_cons, CpInfo.classInfo.injEq, reduceCtorEq, List.not_mem_nil, false_or,
      or_false] at h
    rcases h with rfl | rfl | rfl
    · exact ⟨text "A", rfl, by decide⟩
    · exact ⟨text "B", rfl, by decide⟩
    · exact ⟨text "C", rfl, by decide⟩
  · intro nameIndex descriptorIndex h
    simp only [callingClass, List.mem_cons, CpInfo.nameAndType.injEq, reduceCtorEq, List.not_mem_nil, false_or,
      or_false] at h
    obtain ⟨rfl, rfl⟩ := h
    exact ⟨⟨text "m", rfl, by decide⟩, text "(LB;)V", rfl, by decide⟩
  · intro member h
    simp only [callingClass, List.nil_append, List.mem_singleton] at h
    subst h
    exact ⟨⟨text "m", rfl, by decide⟩, text "(LB;)V", rfl, by decide⟩

theorem remap_renames_callingClass : ∃ cf', classfileParse renamedClassBytes = .ok cf' ∧
    Renamed renamedSuper.1 renamedSuper.2 [] callingClass cf' :=
  remap_renames parse_callingClass namesResolve_callingClass renamedSuper_owners remap_callingClass

/-! ## The class links against itself -/

inductive MemberKind
  | field
  | method
  deriving DecidableEq, Repr

/-- The members of a kind that a class declares. -/
def membersOf (cf : ClassFile) : MemberKind → List MemberInfo
  | .field => cf.fields
  | .method => cf.methods

/-- What a reference refers to. -/
def CpInfo.memberKind? : CpInfo → Option MemberKind
  | .fieldref _ _ => some .field
  | .methodref _ _ | .interfaceMethodref _ _ => some .method
  | _ => none

/-- The entry at a position refers to a member by these names. -/
def RefersTo (cf : ClassFile) (kind : MemberKind) (k : Nat) (owner name descriptor : Bytes) : Prop :=
  ∃ (e : CpInfo) (c nat : UInt16), cf.constantPool.entries[k]? = some e ∧ e.memberKind? = some kind ∧
    e.classIndex? = some c ∧ e.natIndex? = some nat ∧ classNameAt cf.constantPool c = some owner ∧
    nameAndTypeAt cf.constantPool nat = some (name, descriptor)

/-- The member at a position has this name and this descriptor. -/
def Declares (cf : ClassFile) (kind : MemberKind) (i : Nat) (name descriptor : Bytes) : Prop :=
  ∃ member, (membersOf cf kind)[i]? = some member ∧ constantPoolUtf8 cf.constantPool member.nameIndex = some name ∧
    constantPoolUtf8 cf.constantPool member.descriptorIndex = some descriptor

section Links

variable {classes : List ClassMapping} {methods fields : List MemberMapping} {ctx : RemapContext} {cf cf' : ClassFile}

/-- The mappings of the members of a kind. -/
def tableOf (methods fields : List MemberMapping) : MemberKind → List MemberMapping
  | .field => fields
  | .method => methods

theorem referenceTable_eq {e : CpInfo} {kind : MemberKind} (h : e.memberKind? = some kind) :
    referenceTable methods fields e = tableOf methods fields kind := by
  cases e <;> cases h <;> rfl

theorem memberKind?_withNat (e : CpInfo) (nat : UInt16) : (e.withNat nat).memberKind? = e.memberKind? := by
  cases e <;> rfl

theorem declares_remapped (hctx : remapContext classes methods fields cf = .ok ctx) (hremapped : Remapped ctx cf cf')
    (hzero : ZeroFree cf) {kind : MemberKind} {i : Nat} {name descriptor : Bytes}
    (h : Declares cf kind i name descriptor) :
    let mapping := mappingFor cf (tableOf methods fields kind)
      (classNameAt cf.constantPool cf.thisClass) name descriptor
    Declares cf' kind i (newName mapping name) (newDescriptor classes mapping descriptor) := by
  obtain ⟨hclasses, hmethods, hfields⟩ := remapContext_tables hctx
  obtain ⟨member, hmember, hname, hdescriptor⟩ := h
  have hdone : List.Forall₂ (MemberDone ctx (tableOf methods fields kind) cf cf') (membersOf cf kind)
      (membersOf cf' kind) := by
    cases kind with
    | field =>
      have hdone := hremapped.fields
      rwa [hfields] at hdone
    | method =>
      have hdone := hremapped.methods
      rwa [hmethods] at hdone
  obtain ⟨hlength, hget⟩ := List.forall₂_iff_get.mp hdone
  obtain ⟨hi, rfl⟩ := List.getElem?_eq_some_iff.mp hmember
  have htexts := (hget i hi (by omega)).texts name descriptor hname hdescriptor (hzero.utf8 hname)
    (hzero.utf8 hdescriptor)
  rw [originalClassName_eq hctx hzero.classNames] at htexts
  simp only [findMemberInherited_eq hctx hzero.classNames, hclasses] at htexts
  exact ⟨_, List.getElem?_eq_getElem (by omega), htexts⟩

theorem refersTo_remapped (hctx : remapContext classes methods fields cf = .ok ctx) (hremapped : Remapped ctx cf cf')
    (hzero : ZeroFree cf) (howners : ∀ m ∈ methods ++ fields, m.runtimeOwner = none) {kind : MemberKind} {k : Nat}
    {owner name descriptor : Bytes} (h : RefersTo cf kind k owner name descriptor) :
    let mapping := mappingFor cf (tableOf methods fields kind) (some owner) name descriptor
    RefersTo cf' kind k (newClassName classes owner) (newName mapping name)
      (newDescriptor classes mapping descriptor) := by
  obtain ⟨hclasses, hmethods, hfields⟩ := remapContext_tables hctx
  obtain ⟨e, c, nat, he, hkind, hclass, hnat, howner, htexts⟩ := h
  obtain ⟨hzero₁, hzero₂⟩ := hzero.nameAndType htexts
  obtain ⟨nat', hentry, hnew⟩ := reference_kept (hremapped.references k e he)
    (by rw [hmethods, hfields]; exact howners) hnat
  have hnew' := hnew name descriptor htexts hzero₁ hzero₂
  rw [selectedMapping_mappingFor hctx hzero.classNames hclass hnat htexts hzero₁ hzero₂, referenceTable_eq hkind,
    howner, hclasses] at hnew'
  have howner' := hremapped.className hzero.classNames howner
  rw [hclasses] at howner'
  refine ⟨e.withNat nat', c, nat', hentry, ?_, ?_, CpInfo.natIndex?_withNat hnat nat', howner', hnew'⟩
  · rw [memberKind?_withNat, hkind]
  · rw [CpInfo.classIndex?_withNat, hclass]

end Links

/-- **A remapped class still links against itself.** A reference to a member that the class declares has the new name of
the class and the new name and descriptor of that member. -/
theorem remapped_class_links {input output : Bytes} {classes : List ClassMapping} {methods fields : List MemberMapping}
    {cf : ClassFile} (hparse : classfileParse input = .ok cf) (hzero : ZeroFree cf)
    (howners : ∀ m ∈ methods ++ fields, m.runtimeOwner = none)
    (hok : jni2hookRemapClass (some input) classes methods fields = .ok output) :
    ∃ cf', classfileParse output = .ok cf' ∧ ∀ (kind : MemberKind) (i k : Nat) (self name descriptor : Bytes),
      classNameAt cf.constantPool cf.thisClass = some self → Declares cf kind i name descriptor →
      RefersTo cf kind k self name descriptor → ∃ self' name' descriptor',
        classNameAt cf'.constantPool cf'.thisClass = some self' ∧ Declares cf' kind i name' descriptor' ∧
        RefersTo cf' kind k self' name' descriptor' := by
  obtain ⟨ctx, cf', hctx, hremapped, hparse'⟩ := remapClass_remapped hparse hok
  obtain ⟨hclasses, -, -⟩ := remapContext_tables hctx
  refine ⟨cf', hparse', fun kind i k self name descriptor hself hdeclares hrefers => ?_⟩
  have hself' := hremapped.className hzero.classNames hself
  have hdeclares' := declares_remapped hctx hremapped hzero hdeclares
  have hrefers' := refersTo_remapped hctx hremapped hzero howners hrefers
  rw [hself] at hdeclares'
  rw [hclasses] at hself'
  have hthis : cf'.thisClass = cf.thisClass := by rw [hremapped.rest]
  exact ⟨_, _, _, by rw [hthis]; exact hself', hdeclares', hrefers'⟩

theorem zeroFree_callingClass : ZeroFree callingClass := by
  intro bytes h
  simp only [callingClass, List.mem_cons, CpInfo.utf8.injEq, reduceCtorEq, List.not_mem_nil, false_or, or_false] at h
  rcases h with rfl | rfl | rfl | rfl | rfl <;> decide

/-- The call of `m` and the method `m` are both renamed through the super class. -/
theorem remapped_class_links_callingClass : ∃ cf' self' name' descriptor',
    classfileParse renamedClassBytes = .ok cf' ∧ classNameAt cf'.constantPool cf'.thisClass = some self' ∧
      Declares cf' .method 0 name' descriptor' ∧ RefersTo cf' .method 7 self' name' descriptor' := by
  obtain ⟨cf', hparse, hlinks⟩ :=
    remapped_class_links parse_callingClass zeroFree_callingClass renamedSuper_owners remap_callingClass
  have hself : classNameAt callingClass.constantPool callingClass.thisClass = some (text "A") := by decide +kernel
  obtain ⟨self', name', descriptor', hself', hdeclares, hrefers⟩ := hlinks .method 0 7 (text "A") (text "m")
    (text "(LB;)V") hself ⟨⟨0, 5, 6, []⟩, rfl, by decide +kernel, by decide +kernel⟩
    ⟨.methodref 2 7, 2, 7, rfl, rfl, rfl, rfl, hself, by decide +kernel⟩
  exact ⟨cf', self', name', descriptor', hparse, hself', hdeclares, hrefers⟩

end Jni2Hook
