import Jni2Hook.Remap.Passes

/-!
# A remapped tree

The passes of a remap together, in terms of the tree that was parsed.

* `remapContext_tables`: the three tables of a run, read off the names of the parsed tree.
* `Remapped`: what a successful remap leaves of every entry and member. `remapTree_remapped` shows it.
-/

namespace Jni2Hook

open Lib

/-! ## The names of the classes -/

section Snapshot

variable {classes : List ClassMapping} {methods fields : List MemberMapping} {cf : ClassFile} {ctx : RemapContext}

theorem forall₂_of_mapM {α β ε : Type} {f : α → Except ε β} {l : List α} {l' : List β} (h : l.mapM f = .ok l') :
    List.Forall₂ (fun a b => f a = .ok b) l l' := by
  induction l generalizing l' with
  | nil =>
    cases h
    exact .nil
  | cons a l ih =>
    rw [List.mapM_cons] at h
    cases ha : f a with
    | error e =>
      rw [ha] at h
      cases h
    | ok b =>
      rw [ha] at h
      cases hl : l.mapM f with
      | error e =>
        simp only [hl] at h
        cases h
      | ok bs =>
        simp only [hl] at h
        cases h
        exact .cons ha (ih hl)

theorem snapshot_ok (h : remapContext classes methods fields cf = .ok ctx) : ∃ names,
    ctx = ⟨classes, methods, fields, none :: names⟩ ∧
      List.Forall₂ (fun e name => snapshotName cf.constantPool e = .ok name) cf.constantPool.entries names := by
  unfold remapContext snapshotClassNames at h
  cases hnames : cf.constantPool.entries.mapM (snapshotName cf.constantPool) with
  | error e =>
    rw [hnames] at h
    cases h
  | ok names =>
    rw [hnames] at h
    cases h
    exact ⟨names, rfl, forall₂_of_mapM hnames⟩

theorem remapContext_tables (h : remapContext classes methods fields cf = .ok ctx) :
    ctx.classes = classes ∧ ctx.methods = methods ∧ ctx.fields = fields := by
  obtain ⟨names, rfl, -⟩ := snapshot_ok h
  exact ⟨rfl, rfl, rfl⟩

/-- Every class constant has a name, which the snapshot holds. -/
theorem originalClassName_class (h : remapContext classes methods fields cf = .ok ctx) {k : Nat} {nameIndex : UInt16}
    (he : cf.constantPool.entries[k]? = some (.classInfo nameIndex)) :
    ∃ name, constantPoolUtf8 cf.constantPool nameIndex = some name ∧
      originalClassName ctx (k + 1) = some (cString name) := by
  obtain ⟨names, rfl, hforall⟩ := snapshot_ok h
  obtain ⟨hlength, hget⟩ := List.forall₂_iff_get.mp hforall
  obtain ⟨hk, hhere⟩ := List.getElem?_eq_some_iff.mp he
  have hname := hget k hk (by omega)
  rw [List.get_eq_getElem, hhere] at hname
  simp only [snapshotName, utf8Duplicate] at hname
  cases hutf8 : constantPoolUtf8 cf.constantPool nameIndex with
  | none =>
    rw [hutf8] at hname
    cases hname
  | some name =>
    refine ⟨name, rfl, ?_⟩
    rw [hutf8] at hname
    have hentry : names[k]? = some (some (cString name)) := by
      rw [List.getElem?_eq_getElem (by omega)]
      exact congrArg some (Except.ok.inj hname).symm
    simp [originalClassName, hentry]

theorem originalClassName_other (h : remapContext classes methods fields cf = .ok ctx) {k : Nat}
    (he : ∀ nameIndex, cf.constantPool.entries[k]? ≠ some (.classInfo nameIndex)) :
    originalClassName ctx (k + 1) = none := by
  obtain ⟨names, rfl, hforall⟩ := snapshot_ok h
  obtain ⟨hlength, hget⟩ := List.forall₂_iff_get.mp hforall
  by_cases hk : k < cf.constantPool.entries.length
  · have hname := hget k hk (by omega)
    rw [List.get_eq_getElem] at hname
    have hnone : snapshotName cf.constantPool cf.constantPool.entries[k] = .ok none := by
      unfold snapshotName
      split
      · rename_i nameIndex hclass
        exact absurd (by rw [List.getElem?_eq_getElem hk, hclass]) (he nameIndex)
      · rfl
    rw [hnone] at hname
    have hentry : names[k]? = some none := by
      rw [List.getElem?_eq_getElem (by omega)]
      exact congrArg some (Except.ok.inj hname).symm
    simp [originalClassName, hentry]
  · have hentry : names[k]? = none := List.getElem?_eq_none_iff.mpr (by omega)
    simp [originalClassName, hentry]

/-- Without zero bytes in the names of classes, the snapshot has the names that the tree has. -/
theorem originalClassName_eq (h : remapContext classes methods fields cf = .ok ctx)
    (hzero : ∀ index name, classNameAt cf.constantPool index = some name → 0 ∉ name) (index : UInt16) :
    originalClassName ctx index.toNat = classNameAt cf.constantPool index := by
  by_cases hindex : index = 0
  · obtain ⟨names, rfl, -⟩ := snapshot_ok h
    subst hindex
    rfl
  · obtain ⟨k, hk⟩ : ∃ k, index.toNat = k + 1 := by
      have hne : index.toNat ≠ 0 := fun hno => hindex (UInt16.toNat_inj.mp hno)
      exact ⟨index.toNat - 1, by omega⟩
    have hat : ∀ e : CpInfo, constantPoolAt cf.constantPool index = some e ↔
        e ≠ .empty ∧ cf.constantPool.entries[k]? = some e := by
      intro e
      rw [constantPoolAt_eq_some, hk]
      simp [hindex]
    rw [hk]
    by_cases hclass : ∃ nameIndex, cf.constantPool.entries[k]? = some (.classInfo nameIndex)
    · obtain ⟨nameIndex, hclass⟩ := hclass
      obtain ⟨name, hutf8, horiginal⟩ := originalClassName_class h hclass
      have hname : classNameAt cf.constantPool index = some name :=
        classNameAt_eq_some.mpr ⟨nameIndex, (hat _).mpr ⟨by simp, hclass⟩, hutf8⟩
      rw [horiginal, hname, cString_eq_self (hzero index name hname)]
    · rw [originalClassName_other h fun nameIndex hno => hclass ⟨nameIndex, hno⟩]
      cases hname : classNameAt cf.constantPool index with
      | none => rfl
      | some name =>
        obtain ⟨nameIndex, hat', -⟩ := classNameAt_eq_some.mp hname
        exact absurd ⟨nameIndex, ((hat _).mp hat').2⟩ hclass

end Snapshot

/-! ## The passes together -/

/-- The name of a class after the remap. -/
def newClassName (classes : List ClassMapping) (name : Bytes) : Bytes := (remapClassName classes name).getD name

/-- The tags of the entries that a remap changes. -/
def remappedTag (tag : UInt8) : Bool := referenceTag tag || classTag tag

theorem classTag_of_referenceTag {tag : UInt8} (h : referenceTag tag = true) : classTag tag = false := by
  simp only [referenceTag, Bool.or_eq_true, beq_iff_eq] at h
  rcases h with (((rfl | rfl) | rfl) | rfl) | rfl <;> rfl

/-- What the index of a runtime owner stands for in the end: a class constant that was there before is renamed as all of
them are. -/
def OwnerRemapped (ctx : RemapContext) (cf cf' : ClassFile) (runtimeOwner : Bytes) (c : UInt16) : Prop :=
  ((internedClass cf.constantPool runtimeOwner).isSome → 0 ∉ runtimeOwner) → classNameAt cf'.constantPool c =
    some (if (internedClass cf.constantPool runtimeOwner).isSome then newClassName ctx.classes runtimeOwner
      else runtimeOwner)

/-- What a remap leaves of a tree. -/
structure Remapped (ctx : RemapContext) (cf cf' : ClassFile) : Prop where
  wellFormed : cf'.WellFormed
  rest : cf' = { cf with constantPool := cf'.constantPool, fields := cf'.fields, methods := cf'.methods }
  kept : ∀ (k : Nat) (e : CpInfo), cf.constantPool.entries[k]? = some e → remappedTag e.tag = false →
    cf'.constantPool.entries[k]? = some e
  references : ∀ (k : Nat) (e : CpInfo), cf.constantPool.entries[k]? = some e →
    MovedReference ctx cf cf' (OwnerRemapped ctx cf cf') k e
  classes : ∀ (k : Nat) (nameIndex : UInt16), cf.constantPool.entries[k]? = some (.classInfo nameIndex) →
    ∃ name nameIndex', constantPoolUtf8 cf.constantPool nameIndex = some name ∧
      cf'.constantPool.entries[k]? = some (.classInfo nameIndex') ∧
      (0 ∉ name → constantPoolUtf8 cf'.constantPool nameIndex' = some (newClassName ctx.classes name))
  fields : List.Forall₂ (MemberDone ctx ctx.fields cf cf') cf.fields cf'.fields
  methods : List.Forall₂ (MemberDone ctx ctx.methods cf cf') cf.methods cf'.methods

theorem after_remapOwnFields (ctx : RemapContext) {cf : ClassFile} (h : cf.WellFormed) :
    After (remapOwnFields ctx) cf (fun _ cf' => cf'.WellFormed ∧ ∃ cf₁ fields', Rewrites noTag cf cf₁ ∧
      List.Forall₂ (MemberDone ctx ctx.fields cf cf₁) cf.fields fields' ∧ cf' = { cf₁ with fields := fields' })
      fun _ _ => True := by
  unfold remapOwnFields
  rw [after_bind, after_get, after_bind]
  refine (after_remapMembers ctx ctx.fields cf.fields h).mono (fun fields' cf₁ h₁ => ?_) fun _ _ _ => trivial
  obtain ⟨hwf₁, hrewrites₁, hdone₁⟩ := h₁
  rw [after_modify]
  refine ⟨⟨hwf₁.version, hwf₁.pool, hwf₁.interfaces, ?_, hwf₁.methods, hwf₁.attributes⟩, cf₁, fields', hrewrites₁,
    hdone₁, rfl⟩
  exact membersWellFormed_of_done h.fields hdone₁

theorem after_remapOwnMethods (ctx : RemapContext) {cf : ClassFile} (h : cf.WellFormed) :
    After (remapOwnMethods ctx) cf (fun _ cf' => cf'.WellFormed ∧ ∃ cf₁ methods', Rewrites noTag cf cf₁ ∧
      List.Forall₂ (MemberDone ctx ctx.methods cf cf₁) cf.methods methods' ∧ cf' = { cf₁ with methods := methods' })
      fun _ _ => True := by
  unfold remapOwnMethods
  rw [after_bind, after_get, after_bind]
  refine (after_remapMembers ctx ctx.methods cf.methods h).mono (fun methods' cf₁ h₁ => ?_) fun _ _ _ => trivial
  obtain ⟨hwf₁, hrewrites₁, hdone₁⟩ := h₁
  rw [after_modify]
  refine ⟨⟨hwf₁.version, hwf₁.pool, hwf₁.interfaces, hwf₁.fields, ?_, hwf₁.attributes⟩, cf₁, methods', hrewrites₁,
    hdone₁, rfl⟩
  exact membersWellFormed_of_done h.methods hdone₁

section Remapped

variable {classes : List ClassMapping} {methods fields : List MemberMapping} {ctx : RemapContext}
  {cf cf₁ cf₂ cf' : ClassFile}

/-- What `remap_class_entries` makes of a class constant that was parsed. -/
theorem class_remapped (hctx : remapContext classes methods fields cf = .ok ctx) (href : Rewrites referenceTag cf cf₁)
    (hsame : Rewrites noTag cf₁ cf₂) (hclasses : Rewrites classTag cf₂ cf')
    (hdone : ∀ (k : Nat) (e : CpInfo), cf₂.constantPool.entries[k]? = some e → ClassDone ctx k e cf₂ cf')
    {k : Nat} {nameIndex : UInt16} (he : cf.constantPool.entries[k]? = some (.classInfo nameIndex)) :
    ∃ name nameIndex', constantPoolUtf8 cf.constantPool nameIndex = some name ∧
      cf'.constantPool.entries[k]? = some (.classInfo nameIndex') ∧
      (0 ∉ name → constantPoolUtf8 cf'.constantPool nameIndex' = some (newClassName ctx.classes name)) := by
  obtain ⟨name, hname, horiginal⟩ := originalClassName_class hctx he
  have hclass := hdone k _ (hsame.entry rfl (href.entry rfl he)) nameIndex rfl
  rw [horiginal, Option.bind_some] at hclass
  cases hmapped : remapClassName ctx.classes (cString name) with
  | none =>
    rw [hmapped] at hclass
    refine ⟨name, nameIndex, hname, hclass, fun hzero => ?_⟩
    rw [cString_eq_self hzero] at hmapped
    rw [newClassName, hmapped]
    exact hclasses.utf8 rfl (hsame.utf8 rfl (href.utf8 rfl hname))
  | some mapped =>
    rw [hmapped] at hclass
    obtain ⟨nameIndex', hentry, hmapped'⟩ := hclass
    refine ⟨name, nameIndex', hname, hentry, fun hzero => ?_⟩
    rw [cString_eq_self hzero] at hmapped
    rw [newClassName, hmapped]
    exact hmapped'

/-- A class constant interned for a runtime owner is one of the input, or one behind them that is not renamed. -/
theorem owner_remapped (hctx : remapContext classes methods fields cf = .ok ctx)
    (hcount : cf.constantPool.count ≤ classfileMaxCount)
    (hcount₁ : cf₁.constantPool.count ≤ classfileMaxCount) (href : Rewrites referenceTag cf cf₁)
    (hsame : Rewrites noTag cf₁ cf₂) (hclasses : Rewrites classTag cf₂ cf')
    (hdone : ∀ (k : Nat) (e : CpInfo), cf₂.constantPool.entries[k]? = some e → ClassDone ctx k e cf₂ cf')
    {runtimeOwner : Bytes} {c : UInt16} (hclass : internedClass cf₁.constantPool runtimeOwner = some c) :
    OwnerRemapped ctx cf cf' runtimeOwner c := by
  intro hzero
  obtain ⟨nameIndex, hname, hfind⟩ := Option.bind_eq_some_iff.mp hclass
  have hutf8 := utf8_of_find hcount₁ hname
  have hat := constantPoolAt_of_find hcount₁ (by simp) hfind
  obtain ⟨hc, -, hentry⟩ := constantPoolAt_eq_some.mp hat
  cases hinput : internedClass cf.constantPool runtimeOwner with
  | some c₀ =>
    have hc₀ : c₀ = c := by
      have := href.internedClass hcount₁ ⟨rfl, rfl⟩ hinput
      rw [hclass] at this
      exact (Option.some.inj this).symm
    obtain ⟨nameIndex₀, hname₀, hfind₀⟩ := Option.bind_eq_some_iff.mp hinput
    obtain ⟨-, -, he⟩ := constantPoolAt_eq_some.mp (constantPoolAt_of_find hcount (by simp) hfind₀)
    obtain ⟨name, nameIndex', hutf8₀, hentry', hnew⟩ := class_remapped hctx href hsame hclasses hdone he
    rw [utf8_of_find hcount hname₀] at hutf8₀
    cases hutf8₀
    subst hc₀
    exact classNameAt_eq_some.mpr ⟨nameIndex', constantPoolAt_eq_some.mpr ⟨hc, by simp, hentry'⟩,
      hnew (hzero (by rw [hinput]; rfl))⟩
  | none =>
    -- a class constant of the input with this name would be the interned one of the input
    have hnot : ∀ nameIndex', cf.constantPool.entries[c.toNat - 1]? ≠ some (.classInfo nameIndex') := by
      intro nameIndex' he
      have he₁ := href.entry rfl he
      rw [hentry] at he₁
      cases he₁
      obtain ⟨name, hname', -⟩ := originalClassName_class hctx he
      have hname₁ := href.utf8 rfl hname'
      rw [hutf8] at hname₁
      cases hname₁
      obtain ⟨-, -, hhere⟩ := constantPoolAt_eq_some.mp (constantPoolUtf8_eq_some.mp hname')
      have hfirst := href.find_of_find hcount₁ rfl hname hhere
      have hfirst' := href.find_of_find hcount₁ rfl hfind he
      have : internedClass cf.constantPool runtimeOwner = some c :=
        Option.bind_eq_some_iff.mpr ⟨nameIndex, hfirst, hfirst'⟩
      rw [hinput] at this
      cases this
    have hother := originalClassName_other hctx hnot
    have hdone' := hdone (c.toNat - 1) _ (hsame.entry rfl hentry) nameIndex rfl
    rw [hother, Option.bind_none] at hdone'
    have hname' := hclasses.utf8 rfl (hsame.utf8 rfl hutf8)
    exact classNameAt_eq_some.mpr ⟨nameIndex, constantPoolAt_eq_some.mpr ⟨hc, by simp, hdone'⟩, hname'⟩

/-- The passes one after the other; members are set aside, since the pool does not depend on them. -/
theorem remapped_of_passes {fields' methods' : List MemberInfo} {cf₃ : ClassFile}
    (hctx : remapContext classes methods fields cf = .ok ctx) (hwf : cf.WellFormed) (hwf₁ : cf₁.WellFormed)
    (hwf' : cf'.WellFormed) (href : Rewrites referenceTag cf cf₁)
    (hmoved : ∀ (k : Nat) (e : CpInfo), cf.constantPool.entries[k]? = some e → ReferenceDone ctx k e cf cf₁)
    (hsame₂ : Rewrites noTag cf₁ cf₂) (hfields : List.Forall₂ (MemberDone ctx ctx.fields cf₁ cf₂) cf₁.fields fields')
    (hsame₃ : Rewrites noTag { cf₂ with fields := fields' } cf₃)
    (hmethods : List.Forall₂ (MemberDone ctx ctx.methods { cf₂ with fields := fields' } cf₃) cf₂.methods methods')
    (hclasses : Rewrites classTag { cf₃ with methods := methods' } cf')
    (hdone : ∀ (k : Nat) (e : CpInfo), cf₃.constantPool.entries[k]? = some e →
      ClassDone ctx k e { cf₃ with methods := methods' } cf') : Remapped ctx cf cf' := by
  have href' := href.withMembers fields' methods'
  have hsame := (hsame₂.withMembers fields' methods').trans (hsame₃.withMembers fields' methods')
  have hcf₃ : { cf₃ with methods := methods' } = { cf₃ with fields := fields', methods := methods' } := by
    rw [hsame₃.rest]
  rw [hcf₃] at hclasses
  have hmethods₁ : cf₂.methods = cf.methods := by rw [hsame₂.rest, href.rest]
  have hfields₁ : cf₁.fields = cf.fields := by rw [href.rest]
  have hrest' : cf' = { cf with constantPool := cf'.constantPool, fields := fields', methods := methods' } := by
    rw [hclasses.rest, hsame.rest, href'.rest]
  have hfields' : cf'.fields = fields' := by rw [hrest']
  have hmethods' : cf'.methods = methods' := by rw [hrest']
  have hctx' : remapContext classes methods fields { cf with fields := fields', methods := methods' } = .ok ctx := hctx
  have hcount₁ : ({ cf₁ with fields := fields', methods := methods' } : ClassFile).constantPool.count ≤
      classfileMaxCount := hwf₁.pool.count
  have hutf8₂ : ∀ index bytes, constantPoolUtf8 cf₂.constantPool index = some bytes →
      constantPoolUtf8 cf'.constantPool index = some bytes :=
    fun _ _ hbytes => hclasses.utf8 rfl (hsame₃.utf8 rfl hbytes)
  have hutf8₃ : ∀ index bytes, constantPoolUtf8 cf₃.constantPool index = some bytes →
      constantPoolUtf8 cf'.constantPool index = some bytes := fun _ _ hbytes => hclasses.utf8 rfl hbytes
  refine ⟨hwf', ?_, ?_, ?_, ?_, ?_, ?_⟩
  · rw [hfields', hmethods']
    exact hrest'
  · intro k e he hno
    simp only [remappedTag, Bool.or_eq_false_iff] at hno
    exact hclasses.entry hno.2 (hsame.entry rfl (href'.entry hno.1 he))
  · intro k e he nat hnat
    have hreference := CpInfo.referenceTag_of_nat hnat
    have hkept : ∀ e', cf₁.constantPool.entries[k]? = some e' → cf'.constantPool.entries[k]? = some e' := by
      intro e' he'
      obtain ⟨e'', he'', htag, -⟩ := href.kept k e he
      rw [he'] at he''
      cases he''
      exact hclasses.entry (by rw [htag]; exact classTag_of_referenceTag hreference) (hsame.entry rfl he')
    have hmoved' : MovedReference ctx cf { cf₁ with fields := fields', methods := methods' }
        (fun runtimeOwner c => internedClass cf₁.constantPool runtimeOwner = some c) k e := hmoved k e he
    exact hmoved'.later (hsame.of_noTag.trans hclasses) ⟨rfl, rfl⟩ hkept
      (fun _ _ hclass => owner_remapped hctx' hwf.pool.count hcount₁ href' hsame hclasses hdone hclass) nat hnat
  · intro k nameIndex he
    exact class_remapped hctx' href' hsame hclasses hdone he
  · rw [hfields', ← hfields₁]
    exact hfields.imp fun _ _ hmember => (hmember.earlier href rfl).later hutf8₂
  · rw [hmethods', ← hmethods₁]
    refine hmethods.imp fun _ _ hmember => ?_
    have hbefore := (href.trans hsame₂.of_noTag).withMembers fields' cf₂.methods
    have hearlier : MemberDone ctx ctx.methods cf cf₃ _ _ :=
      ⟨(hmember.earlier hbefore rfl).rest, (hmember.earlier hbefore rfl).texts⟩
    exact hearlier.later hutf8₃

theorem remapTree_remapped (hctx : remapContext classes methods fields cf = .ok ctx) (hwf : cf.WellFormed)
    (h : remapTree classes methods fields cf = .ok cf') : Remapped ctx cf cf' := by
  have hrun : ∃ u, remapPasses ctx cf = .ok u cf' := by
    unfold remapTree at h
    rw [hctx] at h
    simp only [bind, Except.bind] at h
    cases hpasses : remapPasses ctx cf with
    | ok u cf'' =>
      rw [hpasses] at h
      cases h
      exact ⟨u, rfl⟩
    | error e cf'' =>
      rw [hpasses] at h
      cases h
  obtain ⟨u, hrun⟩ := hrun
  have hafter : After (remapPasses ctx) cf (fun _ cf' => Remapped ctx cf cf') fun _ _ => True := by
    unfold remapPasses
    rw [after_bind]
    refine (after_remapReferences ctx hwf).mono (fun _ cf₁ h₁ => ?_) fun _ _ _ => trivial
    obtain ⟨hwf₁, href, hmoved⟩ := h₁
    rw [after_bind]
    refine (after_remapOwnFields ctx hwf₁).mono (fun _ cf₂' h₂ => ?_) fun _ _ _ => trivial
    obtain ⟨hwf₂, cf₂, fields', hsame₂, hfields, rfl⟩ := h₂
    rw [after_bind]
    refine (after_remapOwnMethods ctx hwf₂).mono (fun _ cf₃' h₃ => ?_) fun _ _ _ => trivial
    obtain ⟨hwf₃, cf₃, methods', hsame₃, hmethods, rfl⟩ := h₃
    refine (after_remapClassEntries ctx hwf₃).mono (fun _ cf₄ h₄ => ?_) fun _ _ _ => trivial
    obtain ⟨hwf₄, hclasses, hdone⟩ := h₄
    exact remapped_of_passes hctx hwf hwf₁ hwf₄ href hmoved hsame₂ hfields hsame₃ hmethods hclasses hdone
  exact hafter.of_ok hrun

end Remapped

end Jni2Hook
