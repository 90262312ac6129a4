import Jni2Hook.Remap.Remapped

/-!
# Remaps of exotic class files

The parser does not look at what the indices of a file stand for. The passes of a remap do, and report an index that is
not a Utf8 as a failed allocation.

* `throws_classFile`: the parser never reports a failed allocation.
* `passes_errors`: where the indices that the passes follow are Utf8, no remap does.
* `emptyPasses`: with no mappings the passes are a check of these indices.
* `empty_remap_iff`: on which files a remap without mappings gives back its input, and no remap runs out of memory.
-/

namespace Jni2Hook

open Lib

/-! ## The parser -/

/-- Every error but a failed allocation. -/
def FormatError (e : ClassfileStatus) : Prop := e ≠ .outOfMemory

theorem throws_bytes (n : Nat) : Throws FormatError (byteCursorBytes n) := Throws.modifyGet _

theorem throws_u1 : Throws FormatError byteCursorU1 := by
  refine (throws_bytes 1).bind fun answer => ?_
  split <;> exact Throws.pure _

theorem throws_u2 : Throws FormatError byteCursorU2 := by
  refine (throws_bytes 2).bind fun answer => ?_
  split <;> exact Throws.pure _

theorem throws_u4 : Throws FormatError byteCursorU4 := by
  refine (throws_bytes 4).bind fun answer => ?_
  split <;> exact Throws.pure _

theorem throws_checkOk : Throws FormatError (checkOk .truncated) :=
  (Throws.get.bind fun _ => Throws.pure _).bind fun _ => Throws.ite (Throws.pure _) (Throws.throw nofun)

theorem throws_requireBytes (n : Nat) : Throws FormatError (requireBytes n) := by
  refine (throws_bytes n).bind fun answer => ?_
  split
  · exact Throws.pure _
  · exact Throws.throw nofun

theorem throws_entry : Throws FormatError constantPoolReadEntry := by
  have one {f : UInt16 → CpInfo} : Throws FormatError (do return f (← byteCursorU2)) :=
    throws_u2.bind fun _ => Throws.pure _
  have two {f : UInt16 → UInt16 → CpInfo} : Throws FormatError (do return f (← byteCursorU2) (← byteCursorU2)) :=
    throws_u2.bind fun _ => throws_u2.bind fun _ => Throws.pure _
  have fixed {n : Nat} {f : FixedBytes n → CpInfo} : Throws FormatError (do return f (← requireBytes n)) :=
    (throws_requireBytes n).bind fun _ => Throws.pure _
  refine throws_u1.bind fun tag => ?_
  split
  · exact throws_u2.bind fun _ => (throws_requireBytes _).bind fun _ => Throws.pure _
  · exact fixed
  · exact fixed
  · exact fixed
  · exact fixed
  · exact one
  · exact one
  · exact one
  · exact one
  · exact two
  · exact two
  · exact two
  · exact two
  · exact throws_u1.bind fun _ => throws_u2.bind fun _ => Throws.pure _
  · exact one
  · exact two
  · exact two
  · exact throws_checkOk.bind fun _ => Throws.throw nofun

theorem throws_poolLoop : ∀ n, Throws FormatError (constantPoolReadLoop n)
  | 0 => Throws.pure _
  | n + 1 => by
    unfold constantPoolReadLoop
    refine throws_entry.bind fun entry => Throws.ite ?_ ?_
    · split
      · exact Throws.throw nofun
      · rename_i m
        exact throws_checkOk.bind fun _ => (throws_poolLoop m).bind fun _ => Throws.pure _
    · exact throws_checkOk.bind fun _ => (throws_poolLoop n).bind fun _ => Throws.pure _

theorem throws_constantPool : Throws FormatError constantPoolRead :=
  throws_u2.bind fun _ => throws_checkOk.bind fun _ =>
    Throws.ite (Throws.throw nofun) ((throws_poolLoop _).bind fun _ => Throws.pure _)

theorem throws_interfaces : Throws FormatError readInterfaces :=
  throws_u2.bind fun _ => throws_checkOk.bind fun _ => (Throws.many throws_u2 _).bind fun _ =>
    throws_checkOk.bind fun _ => Throws.pure _

theorem throws_attributes : Throws FormatError readAttributes := by
  refine throws_u2.bind fun _ => throws_checkOk.bind fun _ => Throws.many ?_ _
  exact throws_u2.bind fun _ => throws_u4.bind fun _ => (throws_requireBytes _).bind fun _ => Throws.pure _

theorem throws_members : Throws FormatError readMembers := by
  refine throws_u2.bind fun _ => throws_checkOk.bind fun _ => Throws.many ?_ _
  exact throws_u2.bind fun _ => throws_u2.bind fun _ => throws_u2.bind fun _ => throws_checkOk.bind fun _ =>
    throws_attributes.bind fun _ => Throws.pure _

theorem throws_version : Throws FormatError readVersion := by
  refine throws_u4.bind fun _ => Throws.ite ?_ ?_
  · exact throws_checkOk.bind fun _ => Throws.throw nofun
  · exact throws_u2.bind fun _ => throws_u2.bind fun _ => throws_checkOk.bind fun _ =>
      Throws.ite (Throws.throw nofun) (Throws.pure _)

/-- With all allocations succeeding, the parser never reports a failed one. -/
theorem throws_classFile : Throws FormatError readClassFile :=
  throws_version.bind fun _ => throws_constantPool.bind fun _ => throws_u2.bind fun _ => throws_u2.bind fun _ =>
    throws_u2.bind fun _ => throws_checkOk.bind fun _ => throws_interfaces.bind fun _ => throws_members.bind fun _ =>
    throws_members.bind fun _ => throws_attributes.bind fun _ => Throws.pure _

theorem classfileParse_error {data : Bytes} {e : ClassfileStatus} (h : classfileParse data = .error e) :
    FormatError e := by
  unfold classfileParse parseAll at h
  split at h
  · rename_i e' hrun
    cases h
    exact throws_classFile _ _ hrun
  · split at h
    · cases h
    · cases h
      exact nofun

/-! ## The indices that the passes follow -/

/-- The index is that of a Utf8. -/
def IsUtf8 (pool : ConstantPool) (index : UInt16) : Prop := ∃ bytes, constantPoolUtf8 pool index = some bytes

/-- The pair of a reference, where it has one, is a pair of texts. -/
def PairReadable (pool : ConstantPool) (e : CpInfo) : Prop := ∀ nat nameIndex descriptorIndex, e.natIndex? = some nat →
  constantPoolAt pool nat = some (.nameAndType nameIndex descriptorIndex) →
    IsUtf8 pool nameIndex ∧ IsUtf8 pool descriptorIndex

def MemberReadable (pool : ConstantPool) (member : MemberInfo) : Prop :=
  IsUtf8 pool member.nameIndex ∧ IsUtf8 pool member.descriptorIndex

/-- Classes have names, the pairs of references are pairs of texts, and members have names and descriptors. A reference
whose index is not that of a pair does not matter, nor does a pair that no reference uses. -/
structure Readable (cf : ClassFile) : Prop where
  classes : ∀ (k : Nat) (nameIndex : UInt16), cf.constantPool.entries[k]? = some (.classInfo nameIndex) →
    IsUtf8 cf.constantPool nameIndex
  references : ∀ (k : Nat) (e : CpInfo), cf.constantPool.entries[k]? = some e → PairReadable cf.constantPool e
  fields : ∀ member ∈ cf.fields, MemberReadable cf.constantPool member
  methods : ∀ member ∈ cf.methods, MemberReadable cf.constantPool member

theorem utf8Duplicate_isSome {pool : ConstantPool} {index : UInt16} :
    (∃ copy, utf8Duplicate pool index = some copy) ↔ IsUtf8 pool index := by
  unfold utf8Duplicate IsUtf8
  constructor
  · rintro ⟨copy, h⟩
    obtain ⟨bytes, hbytes, -⟩ := Option.map_eq_some_iff.mp h
    exact ⟨bytes, hbytes⟩
  · rintro ⟨bytes, h⟩
    exact ⟨cString bytes, by rw [h]; rfl⟩

theorem Rewrites.isUtf8 {changes : UInt8 → Bool} {cf cf' : ClassFile} (h : Rewrites changes cf cf')
    (hno : changes 1 = false) {index : UInt16} (hutf8 : IsUtf8 cf.constantPool index) :
    IsUtf8 cf'.constantPool index := by
  obtain ⟨bytes, hbytes⟩ := hutf8
  exact ⟨bytes, h.utf8 hno hbytes⟩

theorem Rewrites.memberReadable {changes : UInt8 → Bool} {cf cf' : ClassFile} (h : Rewrites changes cf cf')
    (hno : changes 1 = false) {member : MemberInfo} (hmember : MemberReadable cf.constantPool member) :
    MemberReadable cf'.constantPool member :=
  ⟨h.isUtf8 hno hmember.1, h.isUtf8 hno hmember.2⟩

/-! ## Interning -/

/-- Interning appends one constant or none, and fails only when the pool is full. -/
theorem grown_internConstant {entry : CpInfo} (he : entry.Internable) {cf : ClassFile} (h : cf.WellFormed) :
    After (internConstant entry) cf (fun index cf' => (cf'.WellFormed ∧ Rewrites noTag cf cf' ∧
        constantPoolFind cf'.constantPool (· == entry) = some index) ∧
        (cf' = cf ∨ cf' = { cf with constantPool := ⟨cf.constantPool.entries ++ [entry]⟩ }))
      fun e _ => FormatError e := by
  refine ((after_internConstant he h).and ?_).mono (fun _ _ h' => h') fun _ _ h' => h'.2
  unfold After
  obtain ⟨index, -, hrun⟩ | ⟨-, hrun⟩ | ⟨-, -, hrun⟩ := internConstant_cases he.slot cf
  · rw [hrun]
    exact .inl rfl
  · rw [hrun]
    intro h'
    cases h'
  · rw [hrun]
    exact .inr rfl

theorem grown_internUtf8 (bytes : Bytes) {cf : ClassFile} (h : cf.WellFormed) :
    After (classFileInternUtf8 bytes) cf (fun index cf' => (cf'.WellFormed ∧ Rewrites noTag cf cf' ∧
        constantPoolUtf8 cf'.constantPool index = some bytes) ∧
        (cf' = cf ∨ cf' = { cf with constantPool := ⟨cf.constantPool.entries ++ [.utf8 bytes]⟩ }))
      fun e _ => FormatError e := by
  unfold classFileInternUtf8
  split
  · exact nofun
  · rename_i hlength
    have hentry : (CpInfo.utf8 bytes).Internable := ⟨rfl, rfl, Nat.le_of_not_lt hlength⟩
    refine (grown_internConstant hentry h).mono (fun index cf' h' => ?_) fun _ _ h' => h'
    exact ⟨⟨h'.1.1, h'.1.2.1, utf8_of_find h'.1.1.pool.count h'.1.2.2⟩, h'.2⟩

/-! ## The references -/

/-- The loop over the references has come to a position: the pairs are those of the parsed tree or pairs of texts, and
from here on an entry is that of the parsed tree or no reference. -/
structure Visiting (cf₀ : ClassFile) (position : Nat) (cf : ClassFile) : Prop where
  wellFormed : cf.WellFormed
  rewrites : Rewrites referenceTag cf₀ cf
  pairs : ∀ (k : Nat) (nameIndex descriptorIndex : UInt16),
    cf.constantPool.entries[k]? = some (.nameAndType nameIndex descriptorIndex) →
      cf₀.constantPool.entries[k]? = some (.nameAndType nameIndex descriptorIndex) ∨
      (IsUtf8 cf.constantPool nameIndex ∧ IsUtf8 cf.constantPool descriptorIndex)
  unvisited : ∀ (k : Nat) (e : CpInfo), position ≤ k → cf.constantPool.entries[k]? = some e →
    cf₀.constantPool.entries[k]? = some e ∨ e.natIndex? = none

section Visiting

variable {cf₀ cf cf' : ClassFile} {position : Nat}

theorem Visiting.start (h : cf.WellFormed) : Visiting cf 0 cf :=
  ⟨h, Rewrites.refl cf, fun _ _ _ hk => .inl hk, fun _ _ _ hk => .inl hk⟩

theorem Visiting.next (h : Visiting cf₀ position cf) : Visiting cf₀ (position + 1) cf :=
  ⟨h.wellFormed, h.rewrites, h.pairs, fun k e hk => h.unvisited k e (by omega)⟩

/-- Appending a constant that is no reference, and readable if it is a pair. -/
theorem Visiting.append (h : Visiting cf₀ position cf) (hwf : cf'.WellFormed) (hrewrites : Rewrites noTag cf cf')
    {entry : CpInfo} (hgrown : cf' = cf ∨ cf' = { cf with constantPool := ⟨cf.constantPool.entries ++ [entry]⟩ })
    (hnat : entry.natIndex? = none)
    (hpair : ∀ nameIndex descriptorIndex, entry = .nameAndType nameIndex descriptorIndex →
      IsUtf8 cf'.constantPool nameIndex ∧ IsUtf8 cf'.constantPool descriptorIndex) : Visiting cf₀ position cf' := by
  -- an entry is an old one or the new one
  have hentry : ∀ (k : Nat) (e : CpInfo), cf'.constantPool.entries[k]? = some e →
      cf.constantPool.entries[k]? = some e ∨ e = entry := by
    intro k e hk
    obtain rfl | rfl := hgrown
    · exact .inl hk
    · dsimp only at hk
      rw [List.getElem?_append] at hk
      split at hk
      · exact .inl hk
      · exact .inr (List.mem_singleton.mp (List.mem_of_getElem? hk))
  refine ⟨hwf, h.rewrites.trans hrewrites.of_noTag, fun k n d hk => ?_, fun k e hle hk => ?_⟩
  · obtain hold | hnew := hentry k _ hk
    · exact (h.pairs k n d hold).imp_right fun hutf8 => ⟨hrewrites.isUtf8 rfl hutf8.1, hrewrites.isUtf8 rfl hutf8.2⟩
    · exact .inr (hpair n d hnew.symm)
  · obtain hold | rfl := hentry k e hk
    · exact h.unvisited k e hle hold
    · exact .inr hnat

/-- The reference at a position that was visited gets new indices. -/
theorem Visiting.after_setEntry (h : Visiting cf₀ position cf) {visited : Nat}
    (hvisited : visited < position) {e : CpInfo}
    {f : CpInfo → CpInfo} {nat nat' : UInt16} (he : cf.constantPool.entries[visited]? = some e)
    (hnat : e.natIndex? = some nat) (hnat' : (f e).natIndex? = some nat') (htag : (f e).tag = e.tag) :
    After (setEntry visited f) cf (fun _ cf' => Visiting cf₀ position cf' ∧
      cf'.constantPool.entries[visited]? = some (f e)) fun _ _ => False := by
  have hafter := @Jni2Hook.after_setEntry referenceTag cf h.wellFormed visited e f he (CpInfo.internable_of_nat hnat)
    (CpInfo.internable_of_nat hnat') htag (CpInfo.referenceTag_of_nat hnat)
  unfold setEntry at hafter ⊢
  rw [after_modify] at hafter ⊢
  obtain ⟨hwf, hrewrites, -, hthere⟩ := hafter
  have hother : ∀ (k : Nat), k ≠ visited →
      (cf.constantPool.entries.modify visited f)[k]? = cf.constantPool.entries[k]? :=
    fun k hk => List.getElem?_modify_ne _ _ (Ne.symm hk)
  refine ⟨⟨hwf, h.rewrites.trans hrewrites, fun k n d hk => ?_, fun k e' hle hk => ?_⟩, hthere⟩
  · by_cases hkv : k = visited
    · subst hkv
      rw [hthere] at hk
      rw [Option.some.inj hk] at hnat'
      cases hnat'
    · dsimp only at hk
      rw [hother k hkv] at hk
      exact (h.pairs k n d hk).imp_right fun hutf8 => ⟨hrewrites.isUtf8 rfl hutf8.1, hrewrites.isUtf8 rfl hutf8.2⟩
  · dsimp only at hk
    rw [hother k (by omega)] at hk
    exact h.unvisited k e' hle hk

theorem Visiting.after_internUtf8 (h : Visiting cf₀ position cf) (bytes : Bytes) :
    After (classFileInternUtf8 bytes) cf (fun index cf' => Visiting cf₀ position cf' ∧ Rewrites noTag cf cf' ∧
      IsUtf8 cf'.constantPool index) fun e _ => FormatError e := by
  refine (grown_internUtf8 bytes h.wellFormed).mono (fun index cf' h' => ?_) fun _ _ h' => h'
  obtain ⟨⟨hwf, hrewrites, hutf8⟩, hgrown⟩ := h'
  exact ⟨h.append hwf hrewrites hgrown rfl nofun, hrewrites, bytes, hutf8⟩

theorem Visiting.after_internClass (h : Visiting cf₀ position cf) (name : Bytes) :
    After (classFileInternClass name) cf (fun _ cf' => Visiting cf₀ position cf' ∧ Rewrites noTag cf cf')
      fun e _ => FormatError e := by
  unfold classFileInternClass
  rw [after_bind]
  refine (h.after_internUtf8 name).mono (fun nameIndex cf₁ h₁ => ?_) fun _ _ h' => h'
  obtain ⟨hvisiting₁, hrewrites₁, -⟩ := h₁
  have hentry : (CpInfo.classInfo nameIndex).Internable := ⟨rfl, rfl, trivial⟩
  refine (grown_internConstant hentry hvisiting₁.wellFormed).mono (fun index cf₂ h₂ => ?_) fun _ _ h' => h'
  obtain ⟨⟨hwf₂, hrewrites₂, -⟩, hgrown⟩ := h₂
  exact ⟨hvisiting₁.append hwf₂ hrewrites₂ hgrown rfl nofun, hrewrites₁.trans hrewrites₂⟩

theorem Visiting.after_internNameAndType (h : Visiting cf₀ position cf) (name descriptor : Bytes) :
    After (classFileInternNameAndType name descriptor) cf (fun _ cf' => Visiting cf₀ position cf' ∧
      Rewrites noTag cf cf') fun e _ => FormatError e := by
  unfold classFileInternNameAndType
  rw [after_bind]
  refine (h.after_internUtf8 name).mono (fun nameIndex cf₁ h₁ => ?_) fun _ _ h' => h'
  obtain ⟨hvisiting₁, hrewrites₁, hname⟩ := h₁
  rw [after_bind]
  refine (hvisiting₁.after_internUtf8 descriptor).mono (fun descriptorIndex cf₂ h₂ => ?_) fun _ _ h' => h'
  obtain ⟨hvisiting₂, hrewrites₂, hdescriptor⟩ := h₂
  have hentry : (CpInfo.nameAndType nameIndex descriptorIndex).Internable := ⟨rfl, rfl, trivial⟩
  refine (grown_internConstant hentry hvisiting₂.wellFormed).mono (fun index cf₃ h₃ => ?_) fun _ _ h' => h'
  obtain ⟨⟨hwf₃, hrewrites₃, -⟩, hgrown⟩ := h₃
  refine ⟨hvisiting₂.append hwf₃ hrewrites₃ hgrown rfl ?_, (hrewrites₁.trans hrewrites₂).trans hrewrites₃⟩
  intro n d heq
  cases heq
  exact ⟨(hrewrites₂.trans hrewrites₃).isUtf8 rfl hname, hrewrites₃.isUtf8 rfl hdescriptor⟩

/-- A reference that was not visited yet has a readable pair. -/
theorem Visiting.pairReadable (h : Visiting cf₀ position cf) (hread : Readable cf₀) {k : Nat} {e : CpInfo}
    (hk : position ≤ k) (he : cf.constantPool.entries[k]? = some e) : PairReadable cf.constantPool e := by
  intro nat n d hnat hat
  obtain hold | hnone := h.unvisited k e hk he
  · obtain ⟨hne, hlt, hpair⟩ := constantPoolAt_eq_some.mp hat
    obtain hsame | hutf8 := h.pairs _ n d hpair
    · have hat₀ : constantPoolAt cf₀.constantPool nat = some (.nameAndType n d) :=
        constantPoolAt_eq_some.mpr ⟨hne, hlt, hsame⟩
      obtain ⟨hname, hdescriptor⟩ := hread.references k e hold nat n d hnat hat₀
      exact ⟨h.rewrites.isUtf8 rfl hname, h.rewrites.isUtf8 rfl hdescriptor⟩
    · exact hutf8
  · rw [hnat] at hnone
    cases hnone

theorem Visiting.after_remapNameAndType (h : Visiting cf₀ position cf) (ctx : RemapContext) {e : CpInfo} {nat : UInt16}
    (hpair : PairReadable cf.constantPool e) (hnat : e.natIndex? = some nat) (mapping : Option MemberMapping) :
    After (remapNameAndType ctx nat mapping) cf (fun _ cf' => Visiting cf₀ position cf' ∧ Rewrites noTag cf cf')
      fun e _ => FormatError e := by
  unfold remapNameAndType
  rw [after_bind, after_get]
  dsimp only
  split
  · rename_i n d hat
    obtain ⟨hname, hdescriptor⟩ := hpair nat n d hnat hat
    obtain ⟨name, hname⟩ := utf8Duplicate_isSome.mpr hname
    obtain ⟨descriptor, hdescriptor⟩ := utf8Duplicate_isSome.mpr hdescriptor
    rw [hname, hdescriptor]
    dsimp only
    split
    · rw [after_bind]
      exact (h.after_internNameAndType _ _).mono (fun _ _ h' => h') fun _ _ h' => h'
    · exact ⟨h, Rewrites.refl cf⟩
  · exact ⟨h, Rewrites.refl cf⟩

/-- One round of `remap_references`. -/
theorem Visiting.after_remapReference (h : Visiting cf₀ position cf) (hread : Readable cf₀) (ctx : RemapContext)
    {e : CpInfo} (he : cf.constantPool.entries[position]? = some e) :
    After (remapReference ctx position e) cf (fun _ cf' => Visiting cf₀ (position + 1) cf') fun e _ =>
      FormatError e := by
  unfold remapReference
  cases hnat : e.natIndex? with
  | none => exact h.next
  | some nat =>
    dsimp only
    rw [after_bind, after_get, after_bind]
    generalize selectedMapping ctx cf e = mapping
    -- the name and the descriptor
    have hmoved : After (moveNat ctx position nat mapping) cf (fun _ cf' => Visiting cf₀ (position + 1) cf' ∧
        ∃ nat', cf'.constantPool.entries[position]? = some (e.withNat nat')) fun e _ => FormatError e := by
      unfold moveNat
      rw [after_bind]
      refine (h.next.after_remapNameAndType ctx (h.pairReadable hread (Nat.le_refl _) he) hnat mapping).mono
        (fun answer cf₁ h₁ => ?_) fun _ _ h' => h'
      obtain ⟨hvisiting₁, hrewrites₁⟩ := h₁
      have he₁ := hrewrites₁.entry rfl he
      cases answer with
      | none => exact ⟨hvisiting₁, nat, by rw [CpInfo.withNat_self hnat]; exact he₁⟩
      | some newNat =>
        refine (hvisiting₁.after_setEntry (Nat.lt_succ_self _) he₁ hnat (CpInfo.natIndex?_withNat hnat newNat) ?_).mono
          (fun _ cf₂ h₂ => ⟨h₂.1, newNat, h₂.2⟩) fun _ _ h' => h'.elim
        cases e <;> rfl
    refine hmoved.mono (fun _ cf₁ h₁ => ?_) fun _ _ h' => h'
    obtain ⟨hvisiting₁, nat', he₁⟩ := h₁
    have hnat₁ := CpInfo.natIndex?_withNat hnat nat'
    -- the owner
    unfold moveOwner
    split
    · rw [after_bind]
      refine (hvisiting₁.after_internClass _).mono (fun ownerIndex cf₂ h₂ => ?_) fun _ _ h' => h'
      obtain ⟨hvisiting₂, hrewrites₂⟩ := h₂
      have hnat₂ : ((e.withNat nat').withClass ownerIndex).natIndex? = some nat' := by
        cases e <;> cases hnat <;> rfl
      refine (hvisiting₂.after_setEntry (Nat.lt_succ_self _) (hrewrites₂.entry rfl he₁) hnat₁ hnat₂ ?_).mono
        (fun _ cf₃ h₃ => h₃.1) fun _ _ h' => h'.elim
      cases e <;> rfl
    · exact hvisiting₁

/-- `remap_references` fails only where the pool or a text is too long. -/
theorem after_readableReferences (hwf : cf.WellFormed) (hread : Readable cf) (ctx : RemapContext) :
    After (remapReferences ctx) cf (fun _ cf' => cf'.WellFormed ∧ Rewrites referenceTag cf cf')
      fun e _ => FormatError e := by
  refine (after_scanSlots_at (J := Visiting cf) (fun position e cf' h he => h.after_remapReference hread ctx he)
    classfileMaxCount 0 cf (Visiting.start hwf)).mono (fun _ cf' h' => ?_) fun _ _ h' => h'
  obtain ⟨position, hvisiting⟩ := h'
  exact ⟨hvisiting.wellFormed, hvisiting.rewrites⟩

end Visiting

/-! ## Members and classes -/

section Passes

variable {cf : ClassFile}

theorem errors_internChanged (hwf : cf.WellFormed) (changed : Option Bytes) (index : UInt16) :
    After (internChanged changed index) cf (fun _ cf' => cf'.WellFormed ∧ Rewrites noTag cf cf') fun e _ =>
      FormatError e := by
  cases changed with
  | none => exact ⟨hwf, Rewrites.refl cf⟩
  | some bytes =>
    exact (grown_internUtf8 bytes hwf).mono (fun _ _ h' => ⟨h'.1.1, h'.1.2.1⟩) fun _ _ h' => h'

theorem errors_remapMember (hwf : cf.WellFormed) (ctx : RemapContext) (table : List MemberMapping) {member : MemberInfo}
    (hmember : MemberReadable cf.constantPool member) :
    After (remapMember ctx table member) cf (fun _ _ => True) fun e _ => FormatError e := by
  unfold remapMember
  rw [after_bind, after_get]
  obtain ⟨name, hname⟩ := utf8Duplicate_isSome.mpr hmember.1
  obtain ⟨descriptor, hdescriptor⟩ := utf8Duplicate_isSome.mpr hmember.2
  dsimp only
  rw [hname, hdescriptor]
  dsimp only
  rw [after_bind]
  refine (errors_internChanged hwf _ _).mono (fun _ cf₁ h₁ => ?_) fun _ _ h' => h'
  rw [after_bind]
  exact (errors_internChanged h₁.1 _ _).mono (fun _ _ _ => trivial) fun _ _ h' => h'

theorem errors_remapMembers (ctx : RemapContext) (table : List MemberMapping) {members : List MemberInfo}
    (hwf : cf.WellFormed) (hmembers : ∀ member ∈ members, MemberReadable cf.constantPool member) :
    After (remapMembers ctx table members) cf (fun _ _ => True) fun e _ => FormatError e := by
  induction members generalizing cf with
  | nil => trivial
  | cons member rest ih =>
    unfold remapMembers
    rw [after_bind]
    refine ((after_remapMember ctx table member hwf).and
      (errors_remapMember hwf ctx table (hmembers member List.mem_cons_self))).mono
        (fun _ cf₁ h₁ => ?_) fun _ _ h' => h'.2
    obtain ⟨hwf₁, hrewrites₁, -⟩ := h₁.1
    rw [after_bind]
    exact (ih hwf₁ fun m hm => hrewrites₁.memberReadable rfl (hmembers m (List.mem_cons_of_mem member hm))).mono
      (fun _ _ _ => trivial) fun _ _ h' => h'

theorem errors_remapOwnFields (hwf : cf.WellFormed) (ctx : RemapContext)
    (hfields : ∀ member ∈ cf.fields, MemberReadable cf.constantPool member) :
    After (remapOwnFields ctx) cf (fun _ _ => True) fun e _ => FormatError e := by
  unfold remapOwnFields
  rw [after_bind, after_get, after_bind]
  exact (errors_remapMembers ctx ctx.fields hwf hfields).mono (fun _ _ _ => trivial) fun _ _ h' => h'

theorem errors_remapOwnMethods (hwf : cf.WellFormed) (ctx : RemapContext)
    (hmethods : ∀ member ∈ cf.methods, MemberReadable cf.constantPool member) :
    After (remapOwnMethods ctx) cf (fun _ _ => True) fun e _ => FormatError e := by
  unfold remapOwnMethods
  rw [after_bind, after_get, after_bind]
  exact (errors_remapMembers ctx ctx.methods hwf hmethods).mono (fun _ _ _ => trivial) fun _ _ h' => h'

theorem errors_remapClassEntries (hwf : cf.WellFormed) (ctx : RemapContext) :
    After (remapClassEntries ctx) cf (fun _ _ => True) fun e _ => FormatError e := by
  have hvisit (position : Nat) (e : CpInfo) (cf' : ClassFile) (hwf' : cf'.WellFormed) :
      After (remapClassEntry ctx position e) cf' (fun _ _ => True) fun e _ => FormatError e := by
    unfold remapClassEntry
    split
    · split
      · trivial
      · rw [after_bind]
        exact (grown_internUtf8 _ hwf').mono (fun _ _ _ => trivial) fun _ _ h' => h'
    · trivial
  refine (after_scanSlots_at (J := fun _ cf => cf.WellFormed) (fun position e cf' hwf' he => ?_)
    classfileMaxCount 0 cf hwf).mono (fun _ _ _ => trivial) fun _ _ h' => h'
  exact (((visits_remapClassEntry ctx).visit position e cf' hwf' he).and (hvisit position e cf' hwf')).mono
    (fun _ _ h' => h'.1.1) fun _ _ h' => h'.2

/-- With readable indices, the passes fail only where the pool or a text is too long. -/
theorem passes_errors (hwf : cf.WellFormed) (hread : Readable cf) (ctx : RemapContext) :
    After (remapPasses ctx) cf (fun _ cf' => cf'.WellFormed) fun e _ => FormatError e := by
  unfold remapPasses
  rw [after_bind]
  refine (after_readableReferences hwf hread ctx).mono (fun _ cf₁ h₁ => ?_) fun _ _ h' => h'
  obtain ⟨hwf₁, hrewrites₁⟩ := h₁
  have hfields₁ : ∀ member ∈ cf₁.fields, MemberReadable cf₁.constantPool member := by
    intro member hmem
    rw [hrewrites₁.rest] at hmem
    exact hrewrites₁.memberReadable rfl (hread.fields member hmem)
  have hmethods₁ : ∀ member ∈ cf₁.methods, MemberReadable cf₁.constantPool member := by
    intro member hmem
    rw [hrewrites₁.rest] at hmem
    exact hrewrites₁.memberReadable rfl (hread.methods member hmem)
  rw [after_bind]
  refine ((after_remapOwnFields ctx hwf₁).and (errors_remapOwnFields hwf₁ ctx hfields₁)).mono (fun _ cf₂' h₂ => ?_)
    fun _ _ h' => h'.2
  obtain ⟨⟨hwf₂, cf₂, fields', hsame₂, -, rfl⟩, -⟩ := h₂
  have hmethods₂ : ∀ member ∈ cf₂.methods, MemberReadable cf₂.constantPool member := by
    intro member hmem
    rw [hsame₂.rest] at hmem
    exact hsame₂.memberReadable rfl (hmethods₁ member hmem)
  rw [after_bind]
  refine ((after_remapOwnMethods ctx hwf₂).and (errors_remapOwnMethods hwf₂ ctx hmethods₂)).mono (fun _ cf₃ h₃ => ?_)
    fun _ _ h' => h'.2
  obtain ⟨⟨hwf₃, -⟩, -⟩ := h₃
  exact ((after_remapClassEntries ctx hwf₃).and (errors_remapClassEntries hwf₃ ctx)).mono (fun _ _ h' => h'.1.1)
    fun _ _ h' => h'.2

end Passes

/-! ## Without mappings -/

theorem remapDescriptorLoop_nil (fuel : Nat) (descriptor : Bytes) :
    (remapDescriptorLoop [] fuel descriptor).2 = false := by
  induction fuel generalizing descriptor with
  | zero => rfl
  | succ fuel ih =>
    cases descriptor with
    | nil => rfl
    | cons c rest =>
      unfold remapDescriptorLoop
      split
      · exact ih rest
      · split
        · rfl
        · exact ih _

theorem changedDescriptor_nil (descriptor : Bytes) : changedDescriptor [] none descriptor = none := by
  simp [changedDescriptor, remapDescriptor, remapDescriptorLoop_nil]

theorem remapClassName_nil (name : Bytes) : remapClassName [] name = none := by
  simp [remapClassName, remapDescriptor, remapDescriptorLoop_nil, lookupClass]

theorem findMember_nil (owner : Option Bytes) (name descriptor : Bytes) :
    findMember [] owner name descriptor = none := by
  cases owner <;> rfl

theorem findMemberInherited_nil (cf : ClassFile) (ctx : RemapContext) (owner : Option Bytes) (name descriptor : Bytes) :
    findMemberInherited cf ctx [] owner name descriptor = none := by
  unfold findMemberInherited
  rw [findMember_nil]
  dsimp only
  split
  · rfl
  · exact List.findSome?_eq_none_iff.mpr fun index _ => findMember_nil _ _ _

section Empty

variable {cf : ClassFile} {names : List (Option Bytes)}

/-- The context of a remap without mappings. -/
abbrev emptyContext (names : List (Option Bytes)) : RemapContext := ⟨[], [], [], names⟩

theorem selectedMapping_empty (e : CpInfo) : selectedMapping (emptyContext names) cf e = none := by
  have htable : referenceTable [] [] e = [] := by
    cases e <;> rfl
  unfold selectedMapping
  split
  · split
    · split
      · rw [htable]
        exact findMemberInherited_nil _ _ _ _ _
      · rfl
    · rfl
  · rfl

/-- One of two indices that are not both Utf8 has no text. -/
theorem utf8Duplicate_missing {pool : ConstantPool} {i j : UInt16} (h : ¬(IsUtf8 pool i ∧ IsUtf8 pool j)) :
    utf8Duplicate pool i = none ∨ utf8Duplicate pool j = none := by
  cases hi : utf8Duplicate pool i with
  | none => exact .inl rfl
  | some name =>
    cases hj : utf8Duplicate pool j with
    | none => exact .inr rfl
    | some descriptor => exact absurd ⟨utf8Duplicate_isSome.mp ⟨name, hi⟩, utf8Duplicate_isSome.mp ⟨descriptor, hj⟩⟩ h

/-- Without a mapping, the pair of a reference is only looked at. -/
theorem remapNameAndType_readable {e : CpInfo} {nat : UInt16} (hnat : e.natIndex? = some nat)
    (hread : PairReadable cf.constantPool e) :
    remapNameAndType (emptyContext names) nat none cf = .ok none cf := by
  unfold remapNameAndType
  rw [run_bind, run_get]
  dsimp only
  cases hat : constantPoolAt cf.constantPool nat with
  | none => rfl
  | some entry =>
    cases entry with
    | nameAndType n d =>
      obtain ⟨hname, hdescriptor⟩ := hread nat n d hnat hat
      obtain ⟨name, hname⟩ := utf8Duplicate_isSome.mpr hname
      obtain ⟨descriptor, hdescriptor⟩ := utf8Duplicate_isSome.mpr hdescriptor
      dsimp only
      rw [hname, hdescriptor]
      dsimp only
      rw [changedDescriptor_nil, if_neg (by simp)]
      rfl
    | _ => rfl

theorem remapNameAndType_unreadable {e : CpInfo} {nat : UInt16} (hnat : e.natIndex? = some nat)
    (hno : ¬PairReadable cf.constantPool e) :
    remapNameAndType (emptyContext names) nat none cf = .error .outOfMemory cf := by
  unfold PairReadable at hno
  push Not at hno
  obtain ⟨nat', n, d, hnat', hat, hutf8⟩ := hno
  rw [hnat] at hnat'
  cases hnat'
  unfold remapNameAndType
  rw [run_bind, run_get]
  dsimp only
  rw [hat]
  dsimp only
  rcases utf8Duplicate_missing (fun h => hutf8 h.1 h.2) with hmissing | hmissing
  · rw [hmissing]
    rfl
  · rw [hmissing]
    cases utf8Duplicate cf.constantPool n <;> rfl

theorem remapReference_empty (position : Nat) (e : CpInfo) :
    (PairReadable cf.constantPool e → remapReference (emptyContext names) position e cf = .ok () cf) ∧
    (¬PairReadable cf.constantPool e →
      remapReference (emptyContext names) position e cf = .error .outOfMemory cf) := by
  unfold remapReference
  cases hnat : e.natIndex? with
  | none =>
    refine ⟨fun _ => rfl, fun hno => absurd ?_ hno⟩
    intro nat n d hnat'
    rw [hnat] at hnat'
    cases hnat'
  | some nat =>
    dsimp only
    rw [run_bind, run_get]
    dsimp only
    rw [selectedMapping_empty, run_bind]
    unfold moveNat
    rw [run_bind]
    constructor
    · intro hread
      rw [remapNameAndType_readable hnat hread]
      rfl
    · intro hno
      rw [remapNameAndType_unreadable hnat hno]

theorem remapReferences_empty (hwf : cf.WellFormed) :
    ((∀ (k : Nat) (e : CpInfo), cf.constantPool.entries[k]? = some e → PairReadable cf.constantPool e) →
      remapReferences (emptyContext names) cf = .ok () cf) ∧
    ((∃ (k : Nat) (e : CpInfo), cf.constantPool.entries[k]? = some e ∧ ¬PairReadable cf.constantPool e) →
      remapReferences (emptyContext names) cf = .error .outOfMemory cf) := by
  have hvisit (position : Nat) (e : CpInfo) (_ : (poolEntries cf)[position]? = some e) :
      PairReadable cf.constantPool e → remapReference (emptyContext names) position e cf = .ok () cf :=
    (remapReference_empty position e).1
  have hstop (position : Nat) (e : CpInfo) (_ : (poolEntries cf)[position]? = some e) :
      ¬PairReadable cf.constantPool e → remapReference (emptyContext names) position e cf = .error .outOfMemory cf :=
    (remapReference_empty position e).2
  obtain ⟨hgood, hbad⟩ := scanSlots_checks hvisit hstop classfileMaxCount 0
  refine ⟨fun hall => hgood fun k e _ he => hall k e he, ?_⟩
  rintro ⟨k, e, he, hno⟩
  exact hbad ⟨k, e, Nat.zero_le k, entries_lt_rounds hwf he, he, hno⟩

theorem remapMember_empty (member : MemberInfo) :
    (MemberReadable cf.constantPool member → remapMember (emptyContext names) [] member cf = .ok member cf) ∧
    (¬MemberReadable cf.constantPool member →
      remapMember (emptyContext names) [] member cf = .error .outOfMemory cf) := by
  unfold remapMember
  rw [run_bind, run_get]
  dsimp only
  constructor
  · rintro ⟨hname, hdescriptor⟩
    obtain ⟨name, hname⟩ := utf8Duplicate_isSome.mpr hname
    obtain ⟨descriptor, hdescriptor⟩ := utf8Duplicate_isSome.mpr hdescriptor
    rw [hname, hdescriptor]
    dsimp only
    rw [findMemberInherited_nil, changedDescriptor_nil]
    rfl
  · intro hno
    rcases utf8Duplicate_missing hno with hmissing | hmissing
    · rw [hmissing]
      rfl
    · rw [hmissing]
      cases utf8Duplicate cf.constantPool member.nameIndex <;> rfl

theorem remapMembers_empty (members : List MemberInfo) :
    ((∀ member ∈ members, MemberReadable cf.constantPool member) →
      remapMembers (emptyContext names) [] members cf = .ok members cf) ∧
    ((∃ member ∈ members, ¬MemberReadable cf.constantPool member) →
      remapMembers (emptyContext names) [] members cf = .error .outOfMemory cf) := by
  induction members with
  | nil =>
    refine ⟨fun _ => rfl, ?_⟩
    rintro ⟨member, hmem, -⟩
    cases hmem
  | cons member rest ih =>
    obtain ⟨hgood, hbad⟩ := @remapMember_empty cf names member
    obtain ⟨ihgood, ihbad⟩ := ih
    unfold remapMembers
    rw [run_bind]
    constructor
    · intro hall
      rw [hgood (hall member List.mem_cons_self)]
      dsimp only
      rw [run_bind, ihgood fun m hm => hall m (List.mem_cons_of_mem member hm)]
      rfl
    · rintro ⟨m, hmem, hno⟩
      by_cases hhere : MemberReadable cf.constantPool member
      · rw [hgood hhere]
        dsimp only
        rcases List.mem_cons.mp hmem with rfl | hmem
        · exact absurd hhere hno
        · rw [run_bind, ihbad ⟨m, hmem, hno⟩]
      · rw [hbad hhere]

theorem remapClassEntries_empty : remapClassEntries (emptyContext names) cf = .ok () cf := by
  have hvisit (position : Nat) (e : CpInfo) (_ : (poolEntries cf)[position]? = some e) :
      True → remapClassEntry (emptyContext names) position e cf = .ok () cf := by
    intro _
    unfold remapClassEntry
    split
    · have hnone : (originalClassName (emptyContext names) (position + 1)).bind (remapClassName []) = none := by
        cases originalClassName (emptyContext names) (position + 1) with
        | none => rfl
        | some name => exact remapClassName_nil name
      rw [hnone]
      rfl
    · rfl
  have hstop (position : Nat) (e : CpInfo) (_ : (poolEntries cf)[position]? = some e) :
      ¬True → remapClassEntry (emptyContext names) position e cf = .error .outOfMemory cf :=
        fun hno => absurd trivial hno
  exact (scanSlots_checks hvisit hstop classfileMaxCount 0).1 fun _ _ _ _ => trivial

/-- With no mappings the passes leave the tree as it is, or find an index that is not a Utf8. -/
theorem emptyPasses (hwf : cf.WellFormed) :
    (Readable cf → remapPasses (emptyContext names) cf = .ok () cf) ∧
    ((∀ (k : Nat) (nameIndex : UInt16), cf.constantPool.entries[k]? = some (.classInfo nameIndex) →
        IsUtf8 cf.constantPool nameIndex) → ¬Readable cf →
      remapPasses (emptyContext names) cf = .error .outOfMemory cf) := by
  obtain ⟨hrefs, hbadRefs⟩ := @remapReferences_empty cf names hwf
  obtain ⟨hfields, hbadFields⟩ := @remapMembers_empty cf names cf.fields
  obtain ⟨hmethods, hbadMethods⟩ := @remapMembers_empty cf names cf.methods
  have hfieldsPass (h : ∀ member ∈ cf.fields, MemberReadable cf.constantPool member) :
      remapOwnFields (emptyContext names) cf = .ok () cf := by
    rw [remapOwnFields, run_bind, run_get]
    dsimp only
    rw [run_bind, hfields h]
    rfl
  have hmethodsPass (h : ∀ member ∈ cf.methods, MemberReadable cf.constantPool member) :
      remapOwnMethods (emptyContext names) cf = .ok () cf := by
    rw [remapOwnMethods, run_bind, run_get]
    dsimp only
    rw [run_bind, hmethods h]
    rfl
  unfold remapPasses
  rw [run_bind]
  refine ⟨fun hread => ?_, fun hclasses hno => ?_⟩
  · rw [hrefs hread.references]
    dsimp only
    rw [run_bind, hfieldsPass hread.fields]
    dsimp only
    rw [run_bind, hmethodsPass hread.methods]
    exact remapClassEntries_empty
  · -- the first pass that finds a bad index ends the remap
    by_cases hallRefs : ∀ (k : Nat) (e : CpInfo), cf.constantPool.entries[k]? = some e → PairReadable cf.constantPool e
    · rw [hrefs hallRefs]
      dsimp only
      rw [run_bind]
      by_cases hallFields : ∀ member ∈ cf.fields, MemberReadable cf.constantPool member
      · rw [hfieldsPass hallFields]
        dsimp only
        have hbad : ∃ member ∈ cf.methods, ¬MemberReadable cf.constantPool member := by
          by_contra hall
          push Not at hall
          exact hno ⟨hclasses, hallRefs, hallFields, hall⟩
        rw [run_bind, remapOwnMethods, run_bind, run_get]
        dsimp only
        rw [run_bind, hbadMethods hbad]
      · push Not at hallFields
        rw [remapOwnFields, run_bind, run_get]
        dsimp only
        rw [run_bind, hbadFields hallFields]
    · push Not at hallRefs
      rw [hbadRefs hallRefs]

theorem mapM_error {α β ε : Type} {f : α → Except ε β} {e : ε} (herror : ∀ a e', f a = .error e' → e' = e) {l : List α}
    (h : ∃ a ∈ l, f a = .error e) : l.mapM f = .error e := by
  induction l with
  | nil =>
    obtain ⟨a, hmem, -⟩ := h
    cases hmem
  | cons a l ih =>
    rw [List.mapM_cons]
    cases ha : f a with
    | error e' =>
      rw [herror a e' ha]
      rfl
    | ok b =>
      obtain ⟨a', hmem, ha'⟩ := h
      rcases List.mem_cons.mp hmem with rfl | hmem
      · rw [ha] at ha'
        cases ha'
      · simp only [ih ⟨a', hmem, ha'⟩]
        rfl

theorem mapM_ok {α β ε : Type} {f : α → Except ε β} {l : List α} (h : ∀ a ∈ l, ∃ b, f a = .ok b) :
    ∃ l', l.mapM f = .ok l' := by
  induction l with
  | nil => exact ⟨[], rfl⟩
  | cons a l ih =>
    obtain ⟨b, hb⟩ := h a List.mem_cons_self
    obtain ⟨l', hl'⟩ := ih fun a' ha' => h a' (List.mem_cons_of_mem a ha')
    refine ⟨b :: l', ?_⟩
    rw [List.mapM_cons, hb]
    simp only [hl']
    rfl

/-- The snapshot fails exactly when a class has no name. -/
theorem remapContext_cases (classes : List ClassMapping) (methods fields : List MemberMapping) (cf : ClassFile) :
    ((∀ (k : Nat) (nameIndex : UInt16), cf.constantPool.entries[k]? = some (.classInfo nameIndex) →
        IsUtf8 cf.constantPool nameIndex) →
      ∃ names, remapContext classes methods fields cf = .ok ⟨classes, methods, fields, names⟩) ∧
    ((∃ (k : Nat) (nameIndex : UInt16), cf.constantPool.entries[k]? = some (.classInfo nameIndex) ∧
        ¬IsUtf8 cf.constantPool nameIndex) →
      remapContext classes methods fields cf = .error .outOfMemory) := by
  constructor
  · intro hall
    obtain ⟨names, hnames⟩ : ∃ names, cf.constantPool.entries.mapM (snapshotName cf.constantPool) = .ok names := by
      refine mapM_ok fun e hmem => ?_
      cases e with
      | classInfo nameIndex =>
        obtain ⟨k, hk⟩ := List.mem_iff_getElem?.mp hmem
        obtain ⟨name, hname⟩ := utf8Duplicate_isSome.mpr (hall k nameIndex hk)
        exact ⟨some name, by rw [snapshotName, hname]⟩
      | _ => exact ⟨none, rfl⟩
    refine ⟨none :: names, ?_⟩
    rw [remapContext, snapshotClassNames, hnames]
    rfl
  · rintro ⟨k, nameIndex, hk, hno⟩
    have herror : cf.constantPool.entries.mapM (snapshotName cf.constantPool) = .error .outOfMemory := by
      refine mapM_error (fun e e' he => ?_) ⟨_, List.mem_of_getElem? hk, ?_⟩
      · unfold snapshotName at he
        split at he
        · split at he
          · cases he
          · cases he
            rfl
        · cases he
      · have hmissing : utf8Duplicate cf.constantPool nameIndex = none := by
          by_contra hsome
          exact hno (utf8Duplicate_isSome.mp (Option.ne_none_iff_exists'.mp hsome))
        rw [snapshotName, hmissing]
    rw [remapContext, snapshotClassNames, herror]
    rfl

theorem remapTree_empty (hwf : cf.WellFormed) :
    (Readable cf → remapTree [] [] [] cf = .ok cf) ∧
    (¬Readable cf → remapTree [] [] [] cf = .error .outOfMemory) := by
  obtain ⟨hnamed, hunnamed⟩ := remapContext_cases [] [] [] cf
  unfold remapTree
  constructor
  · intro hread
    obtain ⟨names, hctx⟩ := hnamed hread.classes
    rw [bind_of_ok hctx, (emptyPasses hwf).1 hread]
  · intro hno
    by_cases hclasses : ∀ (k : Nat) (nameIndex : UInt16),
        cf.constantPool.entries[k]? = some (.classInfo nameIndex) → IsUtf8 cf.constantPool nameIndex
    · obtain ⟨names, hctx⟩ := hnamed hclasses
      rw [bind_of_ok hctx, (emptyPasses hwf).2 hclasses hno]
    · push Not at hclasses
      rw [hunnamed hclasses]
      rfl

end Empty

/-! ## Remaps -/

/-- With readable indices no remap reports a failed allocation. -/
theorem remap_readable {cf : ClassFile} (hwf : cf.WellFormed) (hread : Readable cf) (classes : List ClassMapping)
    (methods fields : List MemberMapping) {e : ClassfileStatus}
    (h : (remapTree classes methods fields cf >>= classfileSerialize) = .error e) : FormatError e := by
  obtain ⟨names, hctx⟩ := (remapContext_cases classes methods fields cf).1 hread.classes
  have hpasses := passes_errors hwf hread ⟨classes, methods, fields, names⟩
  unfold remapTree at h
  rw [bind_of_ok hctx] at h
  cases hrun : remapPasses ⟨classes, methods, fields, names⟩ cf with
  | error e' cf' =>
    rw [hrun] at h
    cases h
    exact hpasses.of_error hrun
  | ok u cf' =>
    rw [hrun] at h
    obtain ⟨w, hw⟩ := classfileSerialize_ok (hpasses.of_ok hrun)
    rw [bind_of_ok rfl, hw] at h
    cases h

/-- What the API function answers for a file that is not empty. -/
theorem jni2hookRemapClass_eq (data : Bytes) (classes : List ClassMapping) (methods fields : List MemberMapping) :
    jni2hookRemapClass (some data) classes methods fields = (do
      let cf ← classfileParse data
      let remapped ← remapTree classes methods fields cf
      classfileSerialize remapped : Except ClassfileStatus Bytes).mapError statusOf := by
  cases data with
  | nil =>
    have hparse : classfileParse [] = .error .truncated := by decide +kernel
    rw [hparse]
    rfl
  | cons b bs => rfl

theorem statusOf_formatError {e : ClassfileStatus} (h : FormatError e) : statusOf e = .classFile := if_neg h

/-- **Remaps of any file.** For every byte string: a remap without mappings answers `JNI2HOOK_ERR_CLASS_FILE` when the
parser rejects it and otherwise gives back its bytes, and no remap with any mappings reports a failed allocation, if and
only if the indices that the passes follow in it are Utf8: the names of classes, the names and descriptors behind
references, and those of fields and methods. -/
theorem empty_remap_iff (data : Bytes) :
    ((∀ e, classfileParse data = .error e → jni2hookRemapClass (some data) [] [] [] = .error .classFile) ∧
      (∀ cf, classfileParse data = .ok cf → jni2hookRemapClass (some data) [] [] [] = .ok data) ∧
      ∀ classes methods fields, jni2hookRemapClass (some data) classes methods fields ≠ .error .outOfMemory) ↔
    ∀ cf, classfileParse data = .ok cf → Readable cf := by
  constructor
  · rintro ⟨-, -, hmemory⟩ cf hparse
    by_contra hno
    refine hmemory [] [] [] ?_
    rw [jni2hookRemapClass_eq, bind_of_ok hparse, (remapTree_empty (classfileParse_sound hparse).2).2 hno]
    rfl
  · intro hread
    refine ⟨fun e herror => ?_, fun cf hparse => ?_, fun classes methods fields hmemory => ?_⟩
    · rw [jni2hookRemapClass_eq, herror]
      exact congrArg Except.error (statusOf_formatError (classfileParse_error herror))
    · obtain ⟨hsame, hwf⟩ := classfileParse_sound hparse
      rw [jni2hookRemapClass_eq, bind_of_ok hparse, bind_of_ok ((remapTree_empty hwf).1 (hread cf hparse)), hsame]
      rfl
    · rw [jni2hookRemapClass_eq] at hmemory
      cases hparse : classfileParse data with
      | error e =>
        rw [hparse] at hmemory
        have hstatus : statusOf e = .outOfMemory := Except.error.inj hmemory
        rw [statusOf_formatError (classfileParse_error hparse)] at hstatus
        cases hstatus
      | ok cf =>
        rw [bind_of_ok hparse] at hmemory
        cases hresult : remapTree classes methods fields cf >>= classfileSerialize with
        | ok w =>
          rw [hresult] at hmemory
          cases hmemory
        | error e =>
          rw [hresult] at hmemory
          have hstatus : statusOf e = .outOfMemory := Except.error.inj hmemory
          rw [statusOf_formatError (remap_readable (classfileParse_sound hparse).2 (hread cf hparse) classes methods
            fields hresult)] at hstatus
          cases hstatus

/-- A class whose one class constant has no name. -/
def namelessClass : ClassFile := ⟨0, 52, ⟨[.classInfo 0]⟩, 33, 1, 0, [], [], [], []⟩

def namelessClassBytes : Bytes :=
  [0xCA, 0xFE, 0xBA, 0xBE, 0, 0, 0, 52, 0, 2, 7, 0, 0, 0, 33, 0, 1, 0, 0, 0, 0, 0, 0, 0, 0, 0, 0]

/-- It is accepted by the parser, and a remap without mappings reports that there is no memory. -/
theorem empty_remap_nameless : classfileParse namelessClassBytes = .ok namelessClass ∧
    jni2hookRemapClass (some namelessClassBytes) [] [] [] = .error .outOfMemory :=
  ⟨by decide +kernel, by decide +kernel⟩

end Jni2Hook
