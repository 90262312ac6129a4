import Mathlib.Data.List.Forall2
import Mathlib.Data.List.TakeWhile
import Jni2Hook.Remap.PoolRewrites

/-!
# The passes of a remap

What each pass of `JNI2Hook_RemapClass` makes of an entry or a member, in terms of the tree it starts from. Texts are
those without a zero byte, which are the same as C strings.

* `ReferenceDone`, `after_remapReferences`: references and dynamic constants.
* `MemberDone`, `after_remapMembers`: fields and methods.
* `ClassDone`, `after_remapClassEntries`: class constants.
-/

namespace Jni2Hook

open Lib

theorem cString_eq_self {bytes : Bytes} (h : 0 ∉ bytes) : cString bytes = bytes := by
  unfold cString
  rw [List.takeWhile_eq_self_iff]
  intro b hb
  simp only [bne_iff_ne, ne_eq]
  rintro rfl
  exact h hb

theorem utf8Duplicate_of_utf8 {pool : ConstantPool} {index : UInt16} {bytes : Bytes} (hzero : 0 ∉ bytes)
    (h : constantPoolUtf8 pool index = some bytes) : utf8Duplicate pool index = some bytes := by
  unfold utf8Duplicate
  rw [h, Option.map_some, cString_eq_self hzero]

/-! ## Writing an entry -/

theorem PoolSlots.modify {entries : List CpInfo} (h : PoolSlots entries) {f : CpInfo → CpInfo} {position : Nat}
    {e : CpInfo} (he : entries[position]? = some e) (hold : e.Internable) (hnew : (f e).Internable) :
    PoolSlots (entries.modify position f) := by
  induction h generalizing position with
  | nil => cases he
  | @one entry rest hk hs _ ih =>
    cases position with
    | zero =>
      cases he
      exact .one hnew.known (by rw [hnew.slot]; decide) ‹_›
    | succ position => exact .one hk hs (ih he)
  | @wide entry rest hk hs _ ih =>
    match position with
    | 0 =>
      cases he
      exact absurd (hold.slot.symm.trans hs) (by decide)
    | 1 =>
      cases he
      exact absurd hold.known (by decide)
    | position + 2 => exact .wide hk hs (ih he)

/-- The entries of a tree, as the loops see them. -/
abbrev poolEntries (cf : ClassFile) : List CpInfo := cf.constantPool.entries

theorem after_setEntry {changes : UInt8 → Bool} {cf : ClassFile} (h : cf.WellFormed) {position : Nat} {e : CpInfo}
    {f : CpInfo → CpInfo} (he : cf.constantPool.entries[position]? = some e) (hold : e.Internable)
    (hnew : (f e).Internable) (htag : (f e).tag = e.tag) (hchanges : changes e.tag = true) :
    After (setEntry position f) cf (fun _ cf' => cf'.WellFormed ∧ Rewrites changes cf cf' ∧
      KeepsOthers poolEntries position cf cf' ∧ cf'.constantPool.entries[position]? = some (f e)) fun _ _ => True := by
  unfold setEntry
  rw [after_modify]
  have hthere : (cf.constantPool.entries.modify position f)[position]? = some (f e) := by
    rw [List.getElem?_modify_eq, he]
    rfl
  have hothers : ∀ (k : Nat) (e' : CpInfo), k ≠ position → cf.constantPool.entries[k]? = some e' →
      (cf.constantPool.entries.modify position f)[k]? = some e' := by
    intro k e' hk he'
    rw [List.getElem?_modify_ne _ _ (Ne.symm hk)]
    exact he'
  refine ⟨⟨h.version, ⟨h.pool.slots.modify he hold hnew, fun e' hmem => ?_, ?_⟩, h.interfaces, h.fields, h.methods,
    h.attributes⟩, ⟨rfl, fun k e' he' => ?_⟩, hothers, hthere⟩
  · obtain ⟨k, hk⟩ := List.mem_iff_getElem?.mp hmem
    by_cases hposition : k = position
    · subst hposition
      rw [hthere] at hk
      cases hk
      exact hnew.fits
    · rw [List.getElem?_modify_ne _ _ (Ne.symm hposition)] at hk
      exact h.pool.fits e' (List.mem_of_getElem? hk)
  · have := h.pool.count
    unfold ConstantPool.count at this ⊢
    rwa [List.length_modify]
  · by_cases hk : k = position
    · subst hk
      rw [he] at he'
      cases he'
      exact ⟨f e, hthere, htag, fun hno => absurd hchanges (by rw [hno]; decide)⟩
    · exact ⟨e', hothers k e' hk he', rfl, fun _ => rfl⟩

/-! ## References -/

/-- The descriptor of a member after the remap. -/
def newDescriptor (classes : List ClassMapping) (mapping : Option MemberMapping) (descriptor : Bytes) : Bytes :=
  (changedDescriptor classes mapping descriptor).getD descriptor

theorem after_remapNameAndType (ctx : RemapContext) (natIndex : UInt16) (mapping : Option MemberMapping)
    {cf : ClassFile} (h : cf.WellFormed) : After (remapNameAndType ctx natIndex mapping) cf
      (fun newNat cf' => cf'.WellFormed ∧ Rewrites noTag cf cf' ∧ ∀ name descriptor,
        nameAndTypeAt cf.constantPool natIndex = some (name, descriptor) → 0 ∉ name → 0 ∉ descriptor →
          nameAndTypeAt cf'.constantPool (newNat.getD natIndex) =
            some (newName mapping name, newDescriptor ctx.classes mapping descriptor))
      fun _ _ => True := by
  unfold remapNameAndType
  rw [after_bind, after_get]
  dsimp only
  split
  · rename_i nameIndex descriptorIndex hat
    split
    · rename_i name' descriptor' hname' hdescriptor'
      -- the texts of the claim are the ones the code works on
      have htexts : ∀ name descriptor, nameAndTypeAt cf.constantPool natIndex = some (name, descriptor) →
          0 ∉ name → 0 ∉ descriptor → name' = name ∧ descriptor' = descriptor := by
        intro name descriptor hnat hzero hzero'
        obtain ⟨_, _, hat', hname, hdescriptor⟩ := nameAndTypeAt_eq_some.mp hnat
        rw [hat] at hat'
        cases hat'
        rw [utf8Duplicate_of_utf8 hzero hname] at hname'
        rw [utf8Duplicate_of_utf8 hzero' hdescriptor] at hdescriptor'
        cases hname'
        cases hdescriptor'
        exact ⟨rfl, rfl⟩
      split
      · rw [after_bind]
        refine (after_internNameAndType _ _ h).mono (fun index cf' h' => ?_) fun _ _ _ => trivial
        refine ⟨h'.1, h'.2.1, fun name descriptor hnat hzero hzero' => ?_⟩
        obtain ⟨rfl, rfl⟩ := htexts name descriptor hnat hzero hzero'
        exact h'.2.2
      · rename_i hsame
        refine ⟨h, Rewrites.refl cf, fun name descriptor hnat hzero hzero' => ?_⟩
        obtain ⟨rfl, rfl⟩ := htexts name descriptor hnat hzero hzero'
        simp only [not_or, Option.not_isSome_iff_eq_none] at hsame
        unfold newName newDescriptor
        rw [hsame.1, hsame.2]
        exact hnat
    · trivial
  · rename_i hat
    refine ⟨h, Rewrites.refl cf, fun name descriptor hnat => ?_⟩
    obtain ⟨nameIndex, descriptorIndex, hat', -⟩ := nameAndTypeAt_eq_some.mp hnat
    exact absurd hat' (hat _ _)

namespace CpInfo

variable {e : CpInfo} {nat : UInt16}

theorem internable_of_nat (h : e.natIndex? = some nat) : e.Internable := by
  cases e <;> cases h <;> exact ⟨rfl, rfl, trivial⟩

theorem referenceTag_of_nat (h : e.natIndex? = some nat) : referenceTag e.tag = true := by
  cases e <;> cases h <;> rfl

theorem withNat_self (h : e.natIndex? = some nat) : e.withNat nat = e := by
  cases e <;> cases h <;> rfl

theorem natIndex?_withNat (h : e.natIndex? = some nat) (nat' : UInt16) : (e.withNat nat').natIndex? = some nat' := by
  cases e <;> cases h <;> rfl

@[simp] theorem tag_withNat (e : CpInfo) (nat' : UInt16) : (e.withNat nat').tag = e.tag := by
  cases e <;> rfl

@[simp] theorem tag_withClass (e : CpInfo) (c : UInt16) : (e.withClass c).tag = e.tag := by
  cases e <;> rfl

@[simp] theorem classIndex?_withNat (e : CpInfo) (nat' : UInt16) : (e.withNat nat').classIndex? = e.classIndex? := by
  cases e <;> rfl

@[simp] theorem natIndex?_withClass (e : CpInfo) (c : UInt16) : (e.withClass c).natIndex? = e.natIndex? := by
  cases e <;> rfl

theorem classIndex?_withClass {c : UInt16} (h : e.classIndex? = some c) (c' : UInt16) :
    (e.withClass c').classIndex? = some c' := by
  cases e <;> cases h <;> rfl

end CpInfo

theorem findMember_mem {table : List MemberMapping} {owner : Option Bytes} {name descriptor : Bytes}
    {mapping : MemberMapping} (h : findMember table owner name descriptor = some mapping) : mapping ∈ table := by
  unfold findMember at h
  split at h
  · cases h
  · exact List.mem_of_find?_eq_some h

theorem findMemberInherited_mem {cf : ClassFile} {ctx : RemapContext} {table : List MemberMapping}
    {owner : Option Bytes} {name descriptor : Bytes} {mapping : MemberMapping}
    (h : findMemberInherited cf ctx table owner name descriptor = some mapping) : mapping ∈ table := by
  unfold findMemberInherited at h
  split at h
  · rename_i hfound
    cases h
    exact findMember_mem hfound
  · split at h
    · cases h
    · obtain ⟨_, _, hfound⟩ := List.exists_of_findSome?_eq_some h
      exact findMember_mem hfound

theorem selectedMapping_mem {ctx : RemapContext} {cf : ClassFile} {e : CpInfo} {mapping : MemberMapping}
    (h : selectedMapping ctx cf e = some mapping) : mapping ∈ referenceTable ctx.methods ctx.fields e := by
  unfold selectedMapping at h
  split at h
  · split at h
    · split at h
      · exact findMemberInherited_mem h
      · cases h
    · cases h
  · cases h

/-- The mapping of a reference whose texts are there: the one of its owner, name and descriptor. -/
theorem selectedMapping_eq {ctx : RemapContext} {cf : ClassFile} {e : CpInfo} {c nat : UInt16} {name descriptor : Bytes}
    (hclass : e.classIndex? = some c) (hnat : e.natIndex? = some nat)
    (htexts : nameAndTypeAt cf.constantPool nat = some (name, descriptor)) (hname : 0 ∉ name)
    (hdescriptor : 0 ∉ descriptor) : selectedMapping ctx cf e =
      findMemberInherited cf ctx (referenceTable ctx.methods ctx.fields e)
        (originalClassName ctx c.toNat) name descriptor := by
  obtain ⟨nameIndex, descriptorIndex, hat, hname', hdescriptor'⟩ := nameAndTypeAt_eq_some.mp htexts
  unfold selectedMapping
  simp only [hclass, hnat, hat, utf8Duplicate_of_utf8 hname hname', utf8Duplicate_of_utf8 hdescriptor hdescriptor']

theorem findMemberInherited_rewrites {changes : UInt8 → Bool} {cf cf' : ClassFile} (h : Rewrites changes cf cf')
    (ctx : RemapContext) (table : List MemberMapping) (owner : Option Bytes) (name descriptor : Bytes) :
    findMemberInherited cf' ctx table owner name descriptor =
      findMemberInherited cf ctx table owner name descriptor := by
  rw [h.rest]
  rfl

/-- Rewritten references do not change which mapping another one selects. -/
theorem selectedMapping_rewrites (ctx : RemapContext) {cf cf' : ClassFile} (h : Rewrites referenceTag cf cf')
    {e : CpInfo} {nat : UInt16} {name descriptor : Bytes} (hnat : e.natIndex? = some nat)
    (htexts : nameAndTypeAt cf.constantPool nat = some (name, descriptor)) (hname : 0 ∉ name)
    (hdescriptor : 0 ∉ descriptor) : selectedMapping ctx cf' e = selectedMapping ctx cf e := by
  cases hclass : e.classIndex? with
  | none => simp [selectedMapping, hclass]
  | some c =>
    have htexts' := h.nameAndType ⟨rfl, rfl⟩ htexts
    rw [selectedMapping_eq hclass hnat htexts hname hdescriptor,
      selectedMapping_eq hclass hnat htexts' hname hdescriptor, findMemberInherited_rewrites h]

/-- What becomes of the reference at a position of `cf` in `cf'`, where `owned` says what the index of a runtime owner
stands for. Without texts to look up it may still have followed an index that an appended constant has filled
meanwhile. -/
def MovedReference (ctx : RemapContext) (cf cf' : ClassFile) (owned : Bytes → UInt16 → Prop) (position : Nat)
    (e : CpInfo) : Prop :=
  ∀ nat, e.natIndex? = some nat → ∃ nat',
    (cf'.constantPool.entries[position]? = some (e.withNat nat') ∨
      (∃ m ∈ referenceTable ctx.methods ctx.fields e, m.runtimeOwner.isSome = true) ∧
        ∃ c, cf'.constantPool.entries[position]? = some ((e.withNat nat').withClass c)) ∧
    ∀ name descriptor, nameAndTypeAt cf.constantPool nat = some (name, descriptor) → 0 ∉ name → 0 ∉ descriptor →
      nameAndTypeAt cf'.constantPool nat' = some (newName (selectedMapping ctx cf e) name,
        newDescriptor ctx.classes (selectedMapping ctx cf e) descriptor) ∧
      match (selectedMapping ctx cf e).bind (·.runtimeOwner) with
      | none => cf'.constantPool.entries[position]? = some (e.withNat nat')
      | some runtimeOwner => ∃ c, owned runtimeOwner c ∧
          cf'.constantPool.entries[position]? = some ((e.withNat nat').withClass c)

theorem MovedReference.later {ctx : RemapContext} {changes : UInt8 → Bool} {cf cf₁ cf' : ClassFile}
    {owned owned' : Bytes → UInt16 → Prop} {position : Nat} {e : CpInfo} (h : Rewrites changes cf₁ cf')
    (hno : changes 1 = false ∧ changes 12 = false)
    (hkept : ∀ e', cf₁.constantPool.entries[position]? = some e' → cf'.constantPool.entries[position]? = some e')
    (howned : ∀ runtimeOwner c, owned runtimeOwner c → owned' runtimeOwner c)
    (hmoved : MovedReference ctx cf cf₁ owned position e) : MovedReference ctx cf cf' owned' position e := by
  intro nat hnat
  obtain ⟨nat', hentry, htexts⟩ := hmoved nat hnat
  refine ⟨nat', ?_, fun name descriptor hname hzero hzero' => ?_⟩
  · rcases hentry with hentry | ⟨hmapping, c, hentry⟩
    · exact .inl (hkept _ hentry)
    · exact .inr ⟨hmapping, c, hkept _ hentry⟩
  · obtain ⟨htexts', howner⟩ := htexts name descriptor hname hzero hzero'
    refine ⟨h.nameAndType hno htexts', ?_⟩
    cases hown : (selectedMapping ctx cf e).bind (·.runtimeOwner) with
    | none =>
      rw [hown] at howner
      exact hkept _ howner
    | some runtimeOwner =>
      rw [hown] at howner
      obtain ⟨c, hclass, hentry'⟩ := howner
      exact ⟨c, howned _ _ hclass, hkept _ hentry'⟩

/-- What `remap_references` makes of the entry at a position, in terms of the tree it finds. -/
def ReferenceDone (ctx : RemapContext) (position : Nat) (e : CpInfo) (cf cf' : ClassFile) : Prop :=
  MovedReference ctx cf cf' (fun runtimeOwner c => internedClass cf'.constantPool runtimeOwner = some c) position e

theorem after_moveNat (ctx : RemapContext) {cf : ClassFile} (h : cf.WellFormed) {position : Nat} {e : CpInfo}
    {nat : UInt16} (he : cf.constantPool.entries[position]? = some e) (hnat : e.natIndex? = some nat)
    (mapping : Option MemberMapping) : After (moveNat ctx position nat mapping) cf
      (fun _ cf' => cf'.WellFormed ∧ Rewrites referenceTag cf cf' ∧ KeepsOthers poolEntries position cf cf' ∧
        ∃ nat', cf'.constantPool.entries[position]? = some (e.withNat nat') ∧ ∀ name descriptor,
          nameAndTypeAt cf.constantPool nat = some (name, descriptor) → 0 ∉ name → 0 ∉ descriptor →
            nameAndTypeAt cf'.constantPool nat' =
              some (newName mapping name, newDescriptor ctx.classes mapping descriptor))
      fun _ _ => True := by
  unfold moveNat
  rw [after_bind]
  refine (after_remapNameAndType ctx nat mapping h).mono (fun newNat cf₁ h₁ => ?_) fun _ _ _ => trivial
  obtain ⟨hwf₁, hrewrites₁, htexts₁⟩ := h₁
  have hothers₁ : KeepsOthers poolEntries position cf cf₁ := fun k e' _ he' => hrewrites₁.entry rfl he'
  cases newNat with
  | none =>
    refine ⟨hwf₁, hrewrites₁.of_noTag, hothers₁, nat, ?_, htexts₁⟩
    rw [CpInfo.withNat_self hnat]
    exact hrewrites₁.entry rfl he
  | some nat' =>
    have hnew := CpInfo.internable_of_nat (CpInfo.natIndex?_withNat hnat nat')
    refine (after_setEntry hwf₁ (hrewrites₁.entry rfl he) (CpInfo.internable_of_nat hnat) hnew (e.tag_withNat nat')
      (CpInfo.referenceTag_of_nat hnat)).mono (fun _ cf₂ h₂ => ?_) fun _ _ _ => trivial
    obtain ⟨hwf₂, hrewrites₂, hothers₂, hthere⟩ := h₂
    refine ⟨hwf₂, hrewrites₁.of_noTag.trans hrewrites₂, fun k e' hk he' => hothers₂ k e' hk (hothers₁ k e' hk he'),
      nat', hthere, fun name descriptor hname hzero hzero' => ?_⟩
    exact hrewrites₂.nameAndType ⟨rfl, rfl⟩ (htexts₁ name descriptor hname hzero hzero')

theorem after_moveOwner {cf : ClassFile} (h : cf.WellFormed) {position : Nat} {e : CpInfo} {nat : UInt16}
    (he : cf.constantPool.entries[position]? = some e) (hnat : e.natIndex? = some nat)
    (mapping : Option MemberMapping) : After (moveOwner position mapping) cf
      (fun _ cf' => cf'.WellFormed ∧ Rewrites referenceTag cf cf' ∧ KeepsOthers poolEntries position cf cf' ∧
        match mapping.bind (·.runtimeOwner) with
        | none => cf'.constantPool.entries[position]? = some e
        | some runtimeOwner => ∃ c, internedClass cf'.constantPool runtimeOwner = some c ∧
            cf'.constantPool.entries[position]? = some (e.withClass c))
      fun _ _ => True := by
  unfold moveOwner
  cases hown : mapping.bind (·.runtimeOwner) with
  | none => exact ⟨h, Rewrites.refl cf, fun _ _ _ he' => he', he⟩
  | some runtimeOwner =>
    dsimp only
    rw [after_bind]
    refine (after_internClass runtimeOwner h).mono (fun c cf₁ h₁ => ?_) fun _ _ _ => trivial
    obtain ⟨hwf₁, hrewrites₁, hclass⟩ := h₁
    have hnew : (e.withClass c).Internable := CpInfo.internable_of_nat (by rw [CpInfo.natIndex?_withClass, hnat])
    refine (after_setEntry hwf₁ (hrewrites₁.entry rfl he) (CpInfo.internable_of_nat hnat) hnew (e.tag_withClass c)
      (CpInfo.referenceTag_of_nat hnat)).mono (fun _ cf₂ h₂ => ?_) fun _ _ _ => trivial
    obtain ⟨hwf₂, hrewrites₂, hothers₂, hthere⟩ := h₂
    refine ⟨hwf₂, hrewrites₁.of_noTag.trans hrewrites₂,
      fun k e' hk he' => hothers₂ k e' hk (hrewrites₁.entry rfl he'), c, ?_, hthere⟩
    exact hrewrites₂.internedClass hwf₂.pool.count ⟨rfl, rfl⟩ hclass

theorem visits_remapReference (ctx : RemapContext) :
    Visits poolEntries (remapReference ctx) ClassFile.WellFormed (Rewrites referenceTag) (ReferenceDone ctx) where
  visit := by
    intro position e cf h he
    unfold remapReference
    cases hnat : e.natIndex? with
    | none =>
      refine ⟨h, Rewrites.refl cf, fun _ _ _ he' => he', fun nat hno => ?_⟩
      rw [hnat] at hno
      cases hno
    | some nat =>
      dsimp only
      rw [after_bind, after_get, after_bind]
      refine (after_moveNat ctx h he hnat _).mono (fun _ cf₁ h₁ => ?_) fun _ _ _ => trivial
      obtain ⟨hwf₁, hrewrites₁, hothers₁, nat', hthere₁, htexts₁⟩ := h₁
      refine (after_moveOwner hwf₁ hthere₁ (CpInfo.natIndex?_withNat hnat nat') _).mono
        (fun _ cf₂ h₂ => ?_) fun _ _ _ => trivial
      obtain ⟨hwf₂, hrewrites₂, hothers₂, howner⟩ := h₂
      refine ⟨hwf₂, hrewrites₁.trans hrewrites₂, fun k e' hk he' => hothers₂ k e' hk (hothers₁ k e' hk he'), ?_⟩
      intro nat₀ hnat₀
      rw [hnat] at hnat₀
      cases hnat₀
      refine ⟨nat', ?_, fun name descriptor hname hzero hzero' => ⟨?_, howner⟩⟩
      · cases hown : (selectedMapping ctx cf e).bind (·.runtimeOwner) with
        | none =>
          rw [hown] at howner
          exact .inl howner
        | some runtimeOwner =>
          rw [hown] at howner
          obtain ⟨c, -, hthere₂⟩ := howner
          obtain ⟨mapping, hselected, hruntime⟩ := Option.bind_eq_some_iff.mp hown
          exact .inr ⟨⟨mapping, selectedMapping_mem hselected, by rw [hruntime]; rfl⟩, c, hthere₂⟩
      · exact hrewrites₂.nameAndType ⟨rfl, rfl⟩ (htexts₁ name descriptor hname hzero hzero')
  earlier := by
    intro k e cf cf₁ cf₂ hrewrites hdone nat hnat
    obtain ⟨nat', hentry, htexts⟩ := hdone nat hnat
    refine ⟨nat', hentry, fun name descriptor hname hzero hzero' => ?_⟩
    have hselected := selectedMapping_rewrites ctx hrewrites hnat hname hzero hzero'
    rw [← hselected]
    exact htexts name descriptor (hrewrites.nameAndType ⟨rfl, rfl⟩ hname) hzero hzero'
  later := by
    intro k e cf cf₁ cf₂ hwf hrewrites hkept hdone
    exact hdone.later hrewrites ⟨rfl, rfl⟩ hkept fun _ _ hclass =>
      hrewrites.internedClass hwf.pool.count ⟨rfl, rfl⟩ hclass

/-- A pool has fewer entries than the loops have rounds. -/
theorem entries_lt_rounds {cf : ClassFile} (h : cf.WellFormed) {k : Nat} {e : CpInfo}
    (he : cf.constantPool.entries[k]? = some e) : k < 0 + classfileMaxCount := by
  have hlength := (List.getElem?_eq_some_iff.mp he).1
  have hcount := h.pool.count
  unfold ConstantPool.count at hcount
  omega

theorem after_remapReferences (ctx : RemapContext) {cf : ClassFile} (h : cf.WellFormed) :
    After (remapReferences ctx) cf (fun _ cf' => cf'.WellFormed ∧ Rewrites referenceTag cf cf' ∧
      ∀ (k : Nat) (e : CpInfo), cf.constantPool.entries[k]? = some e →
        ReferenceDone ctx k e cf cf') fun _ _ => True := by
  refine (after_scanSlots (visits_remapReference ctx) classfileMaxCount 0 cf h).mono (fun _ cf' h' => ?_)
    fun _ _ _ => trivial
  obtain ⟨hwf, hrewrites, -, hdone⟩ := h'
  exact ⟨hwf, hrewrites, fun k e he => hdone k e (Nat.zero_le k) (entries_lt_rounds h he) he⟩

/-! ## Class constants -/

/-- What `remap_class_entries` makes of the entry at a position. -/
def ClassDone (ctx : RemapContext) (position : Nat) (e : CpInfo) (_ cf' : ClassFile) : Prop :=
  ∀ nameIndex, e = .classInfo nameIndex →
    match (originalClassName ctx (position + 1)).bind (remapClassName ctx.classes) with
    | none => cf'.constantPool.entries[position]? = some e
    | some mapped => ∃ nameIndex', cf'.constantPool.entries[position]? = some (.classInfo nameIndex') ∧
        constantPoolUtf8 cf'.constantPool nameIndex' = some mapped

theorem visits_remapClassEntry (ctx : RemapContext) :
    Visits poolEntries (remapClassEntry ctx) ClassFile.WellFormed (Rewrites classTag) (ClassDone ctx) where
  visit := by
    intro position e cf h he
    have hinternable : ∀ nameIndex, (CpInfo.classInfo nameIndex).Internable := fun _ => ⟨rfl, rfl, trivial⟩
    unfold remapClassEntry
    split
    · rename_i nameIndex
      cases hmapped : (originalClassName ctx (position + 1)).bind (remapClassName ctx.classes) with
      | none =>
        refine ⟨h, Rewrites.refl cf, fun _ _ _ he' => he', fun _ _ => ?_⟩
        rw [hmapped]
        exact he
      | some mapped =>
        dsimp only
        rw [after_bind]
        refine (after_internUtf8 mapped h).mono (fun utf8Index cf₁ h₁ => ?_) fun _ _ _ => trivial
        obtain ⟨hwf₁, hrewrites₁, hutf8⟩ := h₁
        have hset := @after_setEntry classTag cf₁ hwf₁ position (.classInfo nameIndex) (fun _ => .classInfo utf8Index)
          (hrewrites₁.entry rfl he) (hinternable nameIndex) (hinternable utf8Index) rfl rfl
        refine hset.mono (fun _ cf₂ h₂ => ?_) fun _ _ _ => trivial
        obtain ⟨hwf₂, hrewrites₂, hothers₂, hthere⟩ := h₂
        refine ⟨hwf₂, hrewrites₁.of_noTag.trans hrewrites₂,
          fun k e' hk he' => hothers₂ k e' hk (hrewrites₁.entry rfl he'), fun _ _ => ?_⟩
        rw [hmapped]
        exact ⟨utf8Index, hthere, hrewrites₂.utf8 rfl (utf8_of_find hwf₁.pool.count hutf8)⟩
    · rename_i hother
      exact ⟨h, Rewrites.refl cf, fun _ _ _ he' => he', fun nameIndex heq => absurd heq (hother nameIndex)⟩
  earlier := fun _ hdone => hdone
  later := by
    intro k e cf cf₁ cf₂ _ hrewrites hkept hdone nameIndex heq
    have hdone' := hdone nameIndex heq
    cases hmapped : (originalClassName ctx (k + 1)).bind (remapClassName ctx.classes) with
    | none =>
      rw [hmapped] at hdone'
      exact hkept _ hdone'
    | some mapped =>
      rw [hmapped] at hdone'
      obtain ⟨nameIndex', hentry, hutf8⟩ := hdone'
      exact ⟨nameIndex', hkept _ hentry, hrewrites.utf8 rfl hutf8⟩

theorem after_remapClassEntries (ctx : RemapContext) {cf : ClassFile} (h : cf.WellFormed) :
    After (remapClassEntries ctx) cf (fun _ cf' => cf'.WellFormed ∧ Rewrites classTag cf cf' ∧
      ∀ (k : Nat) (e : CpInfo), cf.constantPool.entries[k]? = some e → ClassDone ctx k e cf cf') fun _ _ => True := by
  refine (after_scanSlots (visits_remapClassEntry ctx) classfileMaxCount 0 cf h).mono (fun _ cf' h' => ?_)
    fun _ _ _ => trivial
  obtain ⟨hwf, hrewrites, -, hdone⟩ := h'
  exact ⟨hwf, hrewrites, fun k e he => hdone k e (Nat.zero_le k) (entries_lt_rounds h he) he⟩

/-! ## Members -/

/-- What `remap_own_members` makes of a member. -/
structure MemberDone (ctx : RemapContext) (table : List MemberMapping) (cf cf' : ClassFile)
    (member member' : MemberInfo) :
    Prop where
  rest : member' = { member with nameIndex := member'.nameIndex, descriptorIndex := member'.descriptorIndex }
  texts : ∀ name descriptor, constantPoolUtf8 cf.constantPool member.nameIndex = some name →
    constantPoolUtf8 cf.constantPool member.descriptorIndex = some descriptor → 0 ∉ name → 0 ∉ descriptor →
      let mapping := findMemberInherited cf ctx table (originalClassName ctx cf.thisClass.toNat) name descriptor
      constantPoolUtf8 cf'.constantPool member'.nameIndex = some (newName mapping name) ∧
        constantPoolUtf8 cf'.constantPool member'.descriptorIndex = some (newDescriptor ctx.classes mapping descriptor)

section Members

variable {ctx : RemapContext} {table : List MemberMapping} {changes : UInt8 → Bool} {cf cf₁ cf' : ClassFile}
  {member member' : MemberInfo}

theorem MemberDone.attributes_eq (h : MemberDone ctx table cf cf' member member') :
    member'.attributes = member.attributes := by
  rw [h.rest]

theorem MemberDone.earlier (h : Rewrites changes cf cf₁) (hno : changes 1 = false)
    (hdone : MemberDone ctx table cf₁ cf' member member') : MemberDone ctx table cf cf' member member' := by
  refine ⟨hdone.rest, fun name descriptor hname hdescriptor hzero hzero' => ?_⟩
  have hthis : cf₁.thisClass = cf.thisClass := by rw [h.rest]
  have htexts := hdone.texts name descriptor (h.utf8 hno hname) (h.utf8 hno hdescriptor) hzero hzero'
  rw [hthis] at htexts
  simp only [findMemberInherited_rewrites h] at htexts
  exact htexts

theorem MemberDone.later (hutf8 : ∀ index bytes, constantPoolUtf8 cf₁.constantPool index = some bytes →
      constantPoolUtf8 cf'.constantPool index = some bytes) (hdone : MemberDone ctx table cf cf₁ member member') :
    MemberDone ctx table cf cf' member member' := by
  refine ⟨hdone.rest, fun name descriptor hname hdescriptor hzero hzero' => ?_⟩
  obtain ⟨hname', hdescriptor'⟩ := hdone.texts name descriptor hname hdescriptor hzero hzero'
  exact ⟨hutf8 _ _ hname', hutf8 _ _ hdescriptor'⟩

theorem after_internChanged (changed : Option Bytes) (index : UInt16) (h : cf.WellFormed) :
    After (internChanged changed index) cf
      (fun index' cf' => cf'.WellFormed ∧ Rewrites noTag cf cf' ∧ ∀ bytes,
        constantPoolUtf8 cf.constantPool index = some bytes →
          constantPoolUtf8 cf'.constantPool index' = some (changed.getD bytes)) fun _ _ => True := by
  cases changed with
  | none => exact ⟨h, Rewrites.refl cf, fun bytes hbytes => hbytes⟩
  | some bytes =>
    refine (after_internUtf8 bytes h).mono (fun index' cf' h' => ?_) fun _ _ _ => trivial
    exact ⟨h'.1, h'.2.1, fun _ _ => utf8_of_find h'.1.pool.count h'.2.2⟩

theorem after_remapMember (ctx : RemapContext) (table : List MemberMapping) (member : MemberInfo) (h : cf.WellFormed) :
    After (remapMember ctx table member) cf (fun member' cf' => cf'.WellFormed ∧ Rewrites noTag cf cf' ∧
      MemberDone ctx table cf cf' member member') fun _ _ => True := by
  unfold remapMember
  rw [after_bind, after_get]
  split
  · rename_i name descriptor hname hdescriptor
    dsimp only
    rw [after_bind]
    refine (after_internChanged _ member.nameIndex h).mono (fun nameIndex cf₁ h₁ => ?_) fun _ _ _ => trivial
    obtain ⟨hwf₁, hrewrites₁, hname₁⟩ := h₁
    rw [after_bind]
    refine (after_internChanged _ member.descriptorIndex hwf₁).mono (fun descriptorIndex cf₂ h₂ => ?_)
      fun _ _ _ => trivial
    obtain ⟨hwf₂, hrewrites₂, hdescriptor₂⟩ := h₂
    refine ⟨hwf₂, hrewrites₁.trans hrewrites₂, rfl, fun name₀ descriptor₀ hname₀ hdescriptor₀ hzero hzero' => ?_⟩
    rw [utf8Duplicate_of_utf8 hzero hname₀] at hname
    rw [utf8Duplicate_of_utf8 hzero' hdescriptor₀] at hdescriptor
    cases hname
    cases hdescriptor
    exact ⟨hrewrites₂.utf8 rfl (hname₁ _ hname₀), hdescriptor₂ _ (hrewrites₁.utf8 rfl hdescriptor₀)⟩
  · trivial

theorem after_remapMembers (ctx : RemapContext) (table : List MemberMapping) (members : List MemberInfo)
    (h : cf.WellFormed) : After (remapMembers ctx table members) cf (fun members' cf' => cf'.WellFormed ∧
      Rewrites noTag cf cf' ∧ List.Forall₂ (MemberDone ctx table cf cf') members members') fun _ _ => True := by
  induction members generalizing cf with
  | nil => exact ⟨h, Rewrites.refl cf, .nil⟩
  | cons member rest ih =>
    unfold remapMembers
    rw [after_bind]
    refine (after_remapMember ctx table member h).mono (fun member' cf₁ h₁ => ?_) fun _ _ _ => trivial
    obtain ⟨hwf₁, hrewrites₁, hdone₁⟩ := h₁
    rw [after_bind]
    refine (ih hwf₁).mono (fun rest' cf₂ h₂ => ?_) fun _ _ _ => trivial
    obtain ⟨hwf₂, hrewrites₂, hdone₂⟩ := h₂
    refine ⟨hwf₂, hrewrites₁.trans hrewrites₂, .cons (hdone₁.later fun _ _ => hrewrites₂.utf8 rfl) ?_⟩
    exact hdone₂.imp fun _ _ hdone => hdone.earlier hrewrites₁ rfl

theorem membersWellFormed_of_done {members members' : List MemberInfo} (h : MembersWellFormed members)
    (hdone : List.Forall₂ (MemberDone ctx table cf cf') members members') : MembersWellFormed members' := by
  constructor
  · rw [← hdone.length_eq]
    exact h.count
  · intro member' hmem
    obtain ⟨k, hk', rfl⟩ := List.mem_iff_getElem.mp hmem
    obtain ⟨hlength, hget⟩ := List.forall₂_iff_get.mp hdone
    have hk : k < members.length := by omega
    have hattributes : members'[k].attributes = members[k].attributes := (hget k hk hk').attributes_eq
    rw [hattributes]
    exact h.items _ (List.getElem_mem hk)

end Members

end Jni2Hook
