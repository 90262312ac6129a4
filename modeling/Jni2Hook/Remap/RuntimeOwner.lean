import Jni2Hook.Remap.Renaming

/-!
# Runtime owners

A member mapping may move a reference to another class. The class constant for it is interned into the pool whose class
constants are renamed afterwards.

* `RuntimeOwnerWins`: a moved reference names the runtime owner, and no other reference changes its owner but by the
  class mappings.
* `runtime_owner_wins_iff`: when that is so.
-/

namespace Jni2Hook

/-- The entry at a position is a reference to a member that the input names, with the mapping of that member. -/
structure Selects (methods fields : List MemberMapping) (cf : ClassFile) (k : Nat) (e : CpInfo) (c : UInt16)
    (mapping : Option MemberMapping) : Prop where
  entry : cf.constantPool.entries[k]? = some e
  owner : e.classIndex? = some c
  selected : ∃ nat name descriptor, e.natIndex? = some nat ∧
    nameAndTypeAt cf.constantPool nat = some (name, descriptor) ∧
    mapping = mappingFor cf (referenceTable methods fields e) (classNameAt cf.constantPool c) name descriptor

/-- The owner of every reference: the runtime owner of its mapping, or else its old one as the class mappings rename
it. -/
def RuntimeOwnerWins (classes : List ClassMapping) (methods fields : List MemberMapping) (cf cf' : ClassFile) : Prop :=
  ∀ k e c mapping, Selects methods fields cf k e c mapping → ∃ e' c', cf'.constantPool.entries[k]? = some e' ∧
    e'.classIndex? = some c' ∧
    match mapping.bind (·.runtimeOwner) with
    | some runtimeOwner => classNameAt cf'.constantPool c' = some runtimeOwner
    | none => c' = c ∧ ∀ owner, classNameAt cf.constantPool c = some owner →
        classNameAt cf'.constantPool c = some (newClassName classes owner)

/-- No class constant of the input that is interned for a runtime owner is renamed. -/
def OwnersKept (classes : List ClassMapping) (methods fields : List MemberMapping) (cf : ClassFile) : Prop :=
  ∀ k e c mapping runtimeOwner, Selects methods fields cf k e c mapping →
    mapping.bind (·.runtimeOwner) = some runtimeOwner →
      internedClass cf.constantPool runtimeOwner = none ∨ newClassName classes runtimeOwner = runtimeOwner

theorem mappingFor_mem {cf : ClassFile} {table : List MemberMapping} {owner : Option Bytes} {name descriptor : Bytes}
    {mapping : MemberMapping} (h : mappingFor cf table owner name descriptor = some mapping) : mapping ∈ table := by
  unfold mappingFor at h
  rcases Option.or_eq_some_iff.mp h with hfound | ⟨-, hinherited⟩
  · exact findMember_mem hfound
  · split at hinherited
    · obtain ⟨_, _, hfound⟩ := List.exists_of_findSome?_eq_some hinherited
      exact findMember_mem hfound
    · cases hinherited

/-- It is enough that each runtime owner of the tables is new to the input or left alone by the class mappings. -/
theorem ownersKept_of_tables {classes : List ClassMapping} {methods fields : List MemberMapping} {cf : ClassFile}
    (h : ∀ m ∈ methods ++ fields, ∀ runtimeOwner, m.runtimeOwner = some runtimeOwner →
      internedClass cf.constantPool runtimeOwner = none ∨ newClassName classes runtimeOwner = runtimeOwner) :
    OwnersKept classes methods fields cf := by
  intro k e c mapping runtimeOwner hselects hruntime
  obtain ⟨nat, name, descriptor, -, -, rfl⟩ := hselects.selected
  obtain ⟨mapping, hmapping, hruntime'⟩ := Option.bind_eq_some_iff.mp hruntime
  exact h mapping (mem_of_mem_referenceTable (mappingFor_mem hmapping)) runtimeOwner hruntime'

section Owners

variable {classes : List ClassMapping} {methods fields : List MemberMapping} {ctx : RemapContext} {cf cf' : ClassFile}

/-- A text that leads to a class constant of the input is one of its Utf8 entries. -/
theorem zeroFree_of_internedClass (hwf : cf.WellFormed) (hzero : ZeroFree cf) {name : Bytes}
    (h : (internedClass cf.constantPool name).isSome) : 0 ∉ name := by
  obtain ⟨c, hc⟩ := Option.isSome_iff_exists.mp h
  obtain ⟨nameIndex, hname, -⟩ := Option.bind_eq_some_iff.mp hc
  exact hzero.utf8 (utf8_of_find hwf.pool.count hname)

/-- The owner of a reference after the remap. -/
theorem owner_after (hctx : remapContext classes methods fields cf = .ok ctx) (hwf : cf.WellFormed)
    (hremapped : Remapped ctx cf cf') (hzero : ZeroFree cf) {k : Nat} {e : CpInfo} {c : UInt16}
    {mapping : Option MemberMapping} (h : Selects methods fields cf k e c mapping) :
    ∃ e' c', cf'.constantPool.entries[k]? = some e' ∧ e'.classIndex? = some c' ∧
      match mapping.bind (·.runtimeOwner) with
      | some runtimeOwner => classNameAt cf'.constantPool c' =
          some (if (internedClass cf.constantPool runtimeOwner).isSome then newClassName classes runtimeOwner
            else runtimeOwner)
      | none => c' = c := by
  obtain ⟨hclasses, -, -⟩ := remapContext_tables hctx
  obtain ⟨nat, name, descriptor, hnat, htexts, rfl⟩ := h.selected
  obtain ⟨hzero₁, hzero₂⟩ := hzero.nameAndType htexts
  obtain ⟨nat', -, hmoved⟩ := hremapped.references k e h.entry nat hnat
  have howner := (hmoved name descriptor htexts hzero₁ hzero₂).2
  rw [selectedMapping_mappingFor hctx hzero.classNames h.owner hnat htexts hzero₁ hzero₂] at howner
  cases hruntime : (mappingFor cf (referenceTable methods fields e) (classNameAt cf.constantPool c) name
      descriptor).bind (·.runtimeOwner) with
  | none =>
    rw [hruntime] at howner
    exact ⟨_, c, howner, by rw [CpInfo.classIndex?_withNat, h.owner], rfl⟩
  | some runtimeOwner =>
    rw [hruntime] at howner
    obtain ⟨c', howned, hentry⟩ := howner
    have hclass : (e.withNat nat').classIndex? = some c := by rw [CpInfo.classIndex?_withNat, h.owner]
    refine ⟨_, c', hentry, CpInfo.classIndex?_withClass hclass c', ?_⟩
    rw [← hclasses]
    exact howned (zeroFree_of_internedClass hwf hzero)

end Owners

/-- **When a runtime owner wins**: exactly when no class constant of the input that is interned for one is renamed by
the class mappings. -/
theorem runtime_owner_wins_iff {input output : Bytes} {classes : List ClassMapping}
    {methods fields : List MemberMapping} {cf : ClassFile} (hparse : classfileParse input = .ok cf)
    (hzero : ZeroFree cf) (hok : jni2hookRemapClass (some input) classes methods fields = .ok output) :
    ∃ cf', classfileParse output = .ok cf' ∧
      (RuntimeOwnerWins classes methods fields cf cf' ↔ OwnersKept classes methods fields cf) := by
  obtain ⟨ctx, cf', hctx, hremapped, hparse'⟩ := remapClass_remapped hparse hok
  have hwf := (classfileParse_sound hparse).2
  obtain ⟨hclasses, -, -⟩ := remapContext_tables hctx
  refine ⟨cf', hparse', ?_, ?_⟩
  · intro hwins k e c mapping runtimeOwner hselects hruntime
    obtain ⟨e', c', hentry, hclass, hname⟩ := hwins k e c mapping hselects
    obtain ⟨e'', c'', hentry', hclass', hname'⟩ := owner_after hctx hwf hremapped hzero hselects
    rw [hentry] at hentry'
    cases hentry'
    rw [hclass] at hclass'
    cases hclass'
    rw [hruntime] at hname hname'
    cases hinput : internedClass cf.constantPool runtimeOwner with
    | none => exact .inl rfl
    | some c₀ =>
      refine .inr ?_
      dsimp only at hname hname'
      rw [hname, hinput] at hname'
      exact (Option.some.inj hname').symm
  · intro hkept k e c mapping hselects
    obtain ⟨e', c', hentry, hclass, hname⟩ := owner_after hctx hwf hremapped hzero hselects
    refine ⟨e', c', hentry, hclass, ?_⟩
    cases hruntime : mapping.bind (·.runtimeOwner) with
    | none =>
      rw [hruntime] at hname
      refine ⟨hname, fun owner howner => ?_⟩
      rw [← hclasses]
      exact hremapped.className hzero.classNames howner
    | some runtimeOwner =>
      rw [hruntime] at hname
      dsimp only at hname ⊢
      rw [hname]
      rcases hkept k e c mapping runtimeOwner hselects hruntime with hnone | hsame
      · rw [hnone]
        rfl
      · rw [hsame, ite_self]

/-- `A.m` is a member of the class of that name at runtime. -/
def movedTo (runtimeOwner : Bytes) : List MemberMapping :=
  [⟨some (text "A"), some (text "m"), none, some runtimeOwner, none, none⟩]

/-- `callingClassBytes` with its call moved to `D`, which is new to it. -/
def movedToNewBytes : Bytes :=
  [0xCA, 0xFE, 0xBA, 0xBE, 0, 0, 0, 52, 0, 13, 1, 0, 1, 0x41, 7, 0, 1, 1, 0, 1, 0x42, 7, 0, 3, 1, 0, 1, 0x6D, 1, 0, 6,
    0x28, 0x4C, 0x42, 0x3B, 0x29, 0x56, 12, 0, 5, 0, 6, 10, 0, 12, 0, 7, 1, 0, 1, 0x43, 7, 0, 9, 1, 0, 1, 0x44, 7, 0,
    11, 0, 0x21, 0, 2, 0, 4, 0, 0, 0, 0, 0, 1, 0, 0, 0, 5, 0, 6, 0, 0, 0, 0]

/-- A runtime owner that no class constant of the input names wins, although the class mappings rename it. -/
theorem runtime_owner_wins_new : ∃ cf', classfileParse movedToNewBytes = .ok cf' ∧
    RuntimeOwnerWins [⟨some (text "D"), some (text "y")⟩] (movedTo (text "D")) [] callingClass cf' := by
  have hok : jni2hookRemapClass (some callingClassBytes) [⟨some (text "D"), some (text "y")⟩] (movedTo (text "D")) [] =
      .ok movedToNewBytes := by decide +kernel
  obtain ⟨cf', hparse, hiff⟩ := runtime_owner_wins_iff parse_callingClass zeroFree_callingClass hok
  refine ⟨cf', hparse, hiff.mpr (ownersKept_of_tables fun m hm runtimeOwner hruntime => .inl ?_)⟩
  simp only [movedTo, List.append_nil, List.mem_singleton] at hm
  rw [hm] at hruntime
  cases hruntime
  decide +kernel

/-- `callingClassBytes` with its call moved to `C`, which it has a class constant for. -/
def movedToOldBytes : Bytes :=
  [0xCA, 0xFE, 0xBA, 0xBE, 0, 0, 0, 52, 0, 12, 1, 0, 1, 0x41, 7, 0, 1, 1, 0, 1, 0x42, 7, 0, 3, 1, 0, 1, 0x6D, 1, 0, 6,
    0x28, 0x4C, 0x42, 0x3B, 0x29, 0x56, 12, 0, 5, 0, 6, 10, 0, 10, 0, 7, 1, 0, 1, 0x43, 7, 0, 11, 1, 0, 1, 0x79, 0,
    0x21, 0, 2, 0, 4, 0, 0, 0, 0, 0, 1, 0, 0, 0, 5, 0, 6, 0, 0, 0, 0]

/-- The runtime owner `C` is renamed to `y` along with the class constant that the input has for it. -/
theorem runtime_owner_renamed : ∃ cf', classfileParse callingClassBytes = .ok callingClass ∧ ZeroFree callingClass ∧
    jni2hookRemapClass (some callingClassBytes) [⟨some (text "C"), some (text "y")⟩] (movedTo (text "C")) [] =
      .ok movedToOldBytes ∧ classfileParse movedToOldBytes = .ok cf' ∧
    ¬RuntimeOwnerWins [⟨some (text "C"), some (text "y")⟩] (movedTo (text "C")) [] callingClass cf' := by
  have hok : jni2hookRemapClass (some callingClassBytes) [⟨some (text "C"), some (text "y")⟩] (movedTo (text "C")) [] =
      .ok movedToOldBytes := by decide +kernel
  have howner : (classfileParse movedToOldBytes).toOption.any (fun cf =>
      cf.constantPool.entries[7]? == some (.methodref 10 7) &&
        classNameAt cf.constantPool 10 == some (text "y")) = true := by decide +kernel
  cases hparse : classfileParse movedToOldBytes with
  | error e =>
    rw [hparse] at howner
    cases howner
  | ok cf' =>
    refine ⟨cf', parse_callingClass, zeroFree_callingClass, hok, rfl, fun hwins => ?_⟩
    simp only [hparse, Except.toOption, Option.any_some, Bool.and_eq_true, beq_iff_eq] at howner
    have hselects : Selects (movedTo (text "C")) [] callingClass 7 (.methodref 2 7) 2 (movedTo (text "C")).head? :=
      ⟨rfl, rfl, 7, text "m", text "(LB;)V", rfl, by decide +kernel, by decide +kernel⟩
    obtain ⟨e', c', hentry, hclass, hname⟩ := hwins 7 _ 2 _ hselects
    rw [howner.1] at hentry
    cases hentry
    cases hclass
    have hname' : classNameAt cf'.constantPool 10 = some (text "C") := hname
    rw [howner.2] at hname'
    exact absurd hname' (by decide +kernel)

end Jni2Hook
