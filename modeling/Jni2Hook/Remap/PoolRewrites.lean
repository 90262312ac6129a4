import Jni2Hook.ClassFile.PoolGrowth
import Jni2Hook.Remap.ClassRemap
import Jni2Hook.Transform.Preservation

/-!
# Rewriting a pool in place

What survives in a constant pool while some of its entries get new indices and others are appended.

* `Rewrites`: every entry keeps its place and its tag; only entries of given tags change. Texts, pairs of texts and
  first occurrences survive when their own tags are not among these.
* `after_internUtf8`, `after_internClass`, `after_internNameAndType`: what the interned index stands for.
-/

namespace Jni2Hook

open Lib

/-! ## Interned classes -/

/-- The class constant that `classFile_intern_class` finds for a name. -/
def internedClass (pool : ConstantPool) (name : Bytes) : Option UInt16 := do
  let nameIndex ← constantPoolFind pool (· == .utf8 name)
  constantPoolFind pool (· == .classInfo nameIndex)

/-! ## Rewriting -/

/-- The second tree is the first one but for its pool, which may be longer and where only entries of the tags of
`changes` are different, though of the same tag. -/
structure Rewrites (changes : UInt8 → Bool) (cf cf' : ClassFile) : Prop where
  rest : cf' = { cf with constantPool := cf'.constantPool }
  kept : ∀ (k : Nat) (e : CpInfo), cf.constantPool.entries[k]? = some e → ∃ e' : CpInfo,
    cf'.constantPool.entries[k]? = some e' ∧ e'.tag = e.tag ∧ (changes e.tag = false → e' = e)

/-- No entry changes. -/
abbrev noTag : UInt8 → Bool := fun _ => false

/-- The tags of the entries that `remap_references` changes. -/
def referenceTag (tag : UInt8) : Bool := tag == 9 || tag == 10 || tag == 11 || tag == 17 || tag == 18

/-- The tag of the entries that `remap_class_entries` changes. -/
def classTag (tag : UInt8) : Bool := tag == 7

section Rewrites

variable {changes changes' : UInt8 → Bool} {cf cf' cf'' : ClassFile}

theorem Rewrites.refl (cf : ClassFile) : Rewrites changes cf cf := ⟨rfl, fun _ e he => ⟨e, he, rfl, fun _ => rfl⟩⟩

theorem Rewrites.trans (h : Rewrites changes cf cf') (h' : Rewrites changes cf' cf'') : Rewrites changes cf cf'' := by
  constructor
  · rw [h'.rest, h.rest]
  · intro k e he
    obtain ⟨e', he', htag, heq⟩ := h.kept k e he
    obtain ⟨e'', he'', htag', heq'⟩ := h'.kept k e' he'
    refine ⟨e'', he'', htag'.trans htag, fun hno => ?_⟩
    rw [heq' (by rw [htag]; exact hno), heq hno]

instance : Std.Refl (Rewrites changes) := ⟨Rewrites.refl⟩

instance : IsTrans ClassFile (Rewrites changes) := ⟨fun _ _ _ => Rewrites.trans⟩

theorem Rewrites.mono (h : Rewrites changes cf cf') (hle : ∀ tag, changes' tag = false → changes tag = false) :
    Rewrites changes' cf cf' := by
  refine ⟨h.rest, fun k e he => ?_⟩
  obtain ⟨e', he', htag, heq⟩ := h.kept k e he
  exact ⟨e', he', htag, fun hno => heq (hle _ hno)⟩

/-- The members of a tree do not matter. -/
theorem Rewrites.withMembers (h : Rewrites changes cf cf') (fields methods : List MemberInfo) :
    Rewrites changes { cf with fields := fields, methods := methods }
      { cf' with fields := fields, methods := methods } := by
  refine ⟨?_, h.kept⟩
  dsimp only
  rw [h.rest]

theorem Rewrites.of_noTag (h : Rewrites noTag cf cf') : Rewrites changes cf cf' := h.mono fun _ _ => rfl

theorem Rewrites.entry (h : Rewrites changes cf cf') {k : Nat} {e : CpInfo} (hno : changes e.tag = false)
    (he : cf.constantPool.entries[k]? = some e) : cf'.constantPool.entries[k]? = some e := by
  obtain ⟨e', he', -, heq⟩ := h.kept k e he
  rw [he', heq hno]

theorem Rewrites.at (h : Rewrites changes cf cf') {index : UInt16} {e : CpInfo} (hno : changes e.tag = false)
    (he : constantPoolAt cf.constantPool index = some e) : constantPoolAt cf'.constantPool index = some e := by
  obtain ⟨hindex, hne, hentry⟩ := constantPoolAt_eq_some.mp he
  exact constantPoolAt_eq_some.mpr ⟨hindex, hne, h.entry hno hentry⟩

theorem Rewrites.utf8 (h : Rewrites changes cf cf') (hno : changes 1 = false) {index : UInt16} {bytes : Bytes}
    (he : constantPoolUtf8 cf.constantPool index = some bytes) : constantPoolUtf8 cf'.constantPool index = some bytes :=
  constantPoolUtf8_eq_some.mpr (h.at hno (constantPoolUtf8_eq_some.mp he))

theorem Rewrites.nameAndType (h : Rewrites changes cf cf') (hno : changes 1 = false ∧ changes 12 = false)
    {index : UInt16} {texts : Bytes × Bytes} (he : nameAndTypeAt cf.constantPool index = some texts) :
    nameAndTypeAt cf'.constantPool index = some texts := by
  obtain ⟨nameIndex, descriptorIndex, hat, hname, hdescriptor⟩ := nameAndTypeAt_eq_some.mp he
  exact nameAndTypeAt_eq_some.mpr
    ⟨nameIndex, descriptorIndex, h.at hno.2 hat, h.utf8 hno.1 hname, h.utf8 hno.1 hdescriptor⟩

theorem Rewrites.className (h : Rewrites changes cf cf') (hno : changes 1 = false ∧ changes 7 = false)
    {index : UInt16} {name : Bytes} (he : classNameAt cf.constantPool index = some name) :
    classNameAt cf'.constantPool index = some name := by
  obtain ⟨nameIndex, hat, hname⟩ := classNameAt_eq_some.mp he
  exact classNameAt_eq_some.mpr ⟨nameIndex, h.at hno.2 hat, h.utf8 hno.1 hname⟩

theorem Rewrites.length_le (h : Rewrites changes cf cf') :
    cf.constantPool.entries.length ≤ cf'.constantPool.entries.length := by
  by_contra hlt
  obtain ⟨e', he', -⟩ := h.kept cf'.constantPool.entries.length _ (List.getElem?_eq_getElem (by omega))
  exact absurd (List.getElem?_eq_some_iff.mp he').1 (Nat.lt_irrefl _)

/-- The first place of an entry stays the first one: an entry before it keeps its tag, and changes to no other entry of
an unchanged tag. -/
theorem Rewrites.find (h : Rewrites changes cf cf') (hcount : cf'.constantPool.count ≤ classfileMaxCount)
    {e : CpInfo} (hno : changes e.tag = false) {index : UInt16}
    (hfind : constantPoolFind cf.constantPool (· == e) = some index) :
    constantPoolFind cf'.constantPool (· == e) = some index := by
  have hlength := h.length_le
  have hcount' : cf.constantPool.count ≤ classfileMaxCount := by
    unfold ConstantPool.count at hcount ⊢
    omega
  obtain ⟨hindex, hhere, hbefore⟩ := (constantPoolFind_eq_some hcount').mp hfind
  refine (constantPoolFind_eq_some hcount).mpr ⟨hindex, h.entry hno hhere, fun k hk hsome => ?_⟩
  have hk' : k < cf.constantPool.entries.length := by
    have := (List.getElem?_eq_some_iff.mp hhere).1
    omega
  obtain ⟨e', he', htag, heq⟩ := h.kept k _ (List.getElem?_eq_getElem hk')
  rw [hsome] at he'
  cases he'
  refine hbefore k hk ?_
  rw [List.getElem?_eq_getElem hk', ← heq (by rw [← htag]; exact hno)]

/-- A first place in the rewritten pool that the old pool has as well is the first one there. -/
theorem Rewrites.find_of_find (h : Rewrites changes cf cf') (hcount : cf'.constantPool.count ≤ classfileMaxCount)
    {e : CpInfo} (hno : changes e.tag = false) {index : UInt16}
    (hfind : constantPoolFind cf'.constantPool (· == e) = some index)
    (hhere : cf.constantPool.entries[index.toNat - 1]? = some e) :
    constantPoolFind cf.constantPool (· == e) = some index := by
  have hlength := h.length_le
  have hcount' : cf.constantPool.count ≤ classfileMaxCount := by
    unfold ConstantPool.count at hcount ⊢
    omega
  obtain ⟨hindex, -, hbefore⟩ := (constantPoolFind_eq_some hcount).mp hfind
  exact (constantPoolFind_eq_some hcount').mpr ⟨hindex, hhere, fun k hk hsome => hbefore k hk (h.entry hno hsome)⟩

theorem Rewrites.internedClass (h : Rewrites changes cf cf') (hcount : cf'.constantPool.count ≤ classfileMaxCount)
    (hno : changes 1 = false ∧ changes 7 = false) {name : Bytes} {index : UInt16}
    (hfind : internedClass cf.constantPool name = some index) :
    Jni2Hook.internedClass cf'.constantPool name = some index := by
  obtain ⟨nameIndex, hname, hclass⟩ := Option.bind_eq_some_iff.mp hfind
  have hname' := @Rewrites.find _ _ _ h hcount (.utf8 name) hno.1 _ hname
  have hclass' := @Rewrites.find _ _ _ h hcount (.classInfo nameIndex) hno.2 _ hclass
  exact Option.bind_eq_some_iff.mpr ⟨nameIndex, hname', hclass'⟩

end Rewrites

/-! ## Interning -/

theorem after_internConstant {entry : CpInfo} (he : entry.Internable) {cf : ClassFile} (h : cf.WellFormed) :
    After (internConstant entry) cf (fun index cf' => cf'.WellFormed ∧ Rewrites noTag cf cf' ∧
      constantPoolFind cf'.constantPool (· == entry) = some index) fun _ _ => True := by
  unfold After
  obtain ⟨index, hfind, hrun⟩ | ⟨-, hrun⟩ | ⟨hnone, hroom, hrun⟩ := internConstant_cases he.slot cf
  · rw [hrun]
    exact ⟨h, Rewrites.refl cf, hfind⟩
  · rw [hrun]
    trivial
  · rw [hrun]
    refine ⟨⟨h.version, h.pool.added he hroom, h.interfaces, h.fields, h.methods, h.attributes⟩,
      ⟨rfl, fun k e hk => ?_⟩, constantPoolFind_added hnone⟩
    have hlength := (List.getElem?_eq_some_iff.mp hk).1
    exact ⟨e, by rw [List.getElem?_append_left hlength]; exact hk, rfl, fun _ => rfl⟩

theorem after_internUtf8 (bytes : Bytes) {cf : ClassFile} (h : cf.WellFormed) :
    After (classFileInternUtf8 bytes) cf (fun index cf' => cf'.WellFormed ∧ Rewrites noTag cf cf' ∧
      constantPoolFind cf'.constantPool (· == .utf8 bytes) = some index) fun _ _ => True := by
  unfold classFileInternUtf8
  split
  · trivial
  · rename_i hlength
    have hentry : (CpInfo.utf8 bytes).Internable := ⟨rfl, rfl, Nat.le_of_not_lt hlength⟩
    exact after_internConstant hentry h

theorem after_internClass (name : Bytes) {cf : ClassFile} (h : cf.WellFormed) :
    After (classFileInternClass name) cf (fun index cf' => cf'.WellFormed ∧ Rewrites noTag cf cf' ∧
      internedClass cf'.constantPool name = some index) fun _ _ => True := by
  unfold classFileInternClass
  rw [after_bind]
  refine (after_internUtf8 name h).mono (fun nameIndex cf₁ h₁ => ?_) fun _ _ _ => trivial
  obtain ⟨hwf₁, hrewrites₁, hname⟩ := h₁
  have hentry : (CpInfo.classInfo nameIndex).Internable := ⟨rfl, rfl, trivial⟩
  refine (after_internConstant hentry hwf₁).mono (fun index cf₂ h₂ => ?_) fun _ _ _ => trivial
  obtain ⟨hwf₂, hrewrites₂, hclass⟩ := h₂
  exact ⟨hwf₂, hrewrites₁.trans hrewrites₂,
    Option.bind_eq_some_iff.mpr ⟨nameIndex, hrewrites₂.find hwf₂.pool.count rfl hname, hclass⟩⟩

theorem after_internNameAndType (name descriptor : Bytes) {cf : ClassFile} (h : cf.WellFormed) :
    After (classFileInternNameAndType name descriptor) cf (fun index cf' => cf'.WellFormed ∧ Rewrites noTag cf cf' ∧
      nameAndTypeAt cf'.constantPool index = some (name, descriptor)) fun _ _ => True := by
  unfold classFileInternNameAndType
  rw [after_bind]
  refine (after_internUtf8 name h).mono (fun nameIndex cf₁ h₁ => ?_) fun _ _ _ => trivial
  obtain ⟨hwf₁, hrewrites₁, hname⟩ := h₁
  rw [after_bind]
  refine (after_internUtf8 descriptor hwf₁).mono (fun descriptorIndex cf₂ h₂ => ?_) fun _ _ _ => trivial
  obtain ⟨hwf₂, hrewrites₂, hdescriptor⟩ := h₂
  have hentry : (CpInfo.nameAndType nameIndex descriptorIndex).Internable := ⟨rfl, rfl, trivial⟩
  refine (after_internConstant hentry hwf₂).mono (fun index cf₃ h₃ => ?_) fun _ _ _ => trivial
  obtain ⟨hwf₃, hrewrites₃, hnat⟩ := h₃
  refine ⟨hwf₃, (hrewrites₁.trans hrewrites₂).trans hrewrites₃, nameAndTypeAt_eq_some.mpr
    ⟨nameIndex, descriptorIndex, constantPoolAt_of_find hwf₃.pool.count (by simp) hnat, ?_, ?_⟩⟩
  · exact (hrewrites₂.trans hrewrites₃).utf8 rfl (utf8_of_find hwf₁.pool.count hname)
  · exact hrewrites₃.utf8 rfl (utf8_of_find hwf₂.pool.count hdescriptor)

end Jni2Hook
