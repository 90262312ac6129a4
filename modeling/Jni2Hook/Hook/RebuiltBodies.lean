import Jni2Hook.Hook.InsertOrder
import Jni2Hook.Hook.RegistryCalls
import Jni2Hook.Transform.HookedBodies

/-!
# Bodies of a rebuild

A rebuild applies the hooks of a class one after the other, each to the tree that the one before has left. A hook asks
for an offset of the original body, and gets it: the larger offsets come first, so what stands before a point has not
moved when the point is looked up, and in a constructor the call that was found first is found again.

* `Rebuilding`, `Rebuilding.insert`, `Rebuilding.elsewhere`, `Rebuilding.run`: one method through all transforms.
* `rebuilt_bodies`: the bodies of a rebuild.
* `hook_behind_other_call`: in a constructor that the verifier rejects, another call may be found later.
-/

namespace Jni2Hook

open Lib

/-! ## One method through a rebuild -/

/-- What is known of a method while hooks are applied. `callIndex` is the initialising call of a constructor. -/
structure Rebuilding (name signature : Bytes) (index : Nat) (flags : UInt16) (original : InstructionList)
    (maxLocals maxStack callIndex : Nat) (tree : ClassFile) (blocks : Nat → List HookEntry) : Prop where
  wellFormed : tree.WellFormed
  located : ∃ m, findMethod tree name signature = some (index, m) ∧ m.accessFlags = flags
  hooked : HookedBody original (hasFlag flags Acc.static_) (fun k => (blocks k).map (·.addedName)) tree index
  typed : name = text "<init>" → TypedBody maxLocals maxStack callIndex tree index ∧
    callIndex < original.items.length ∧ ∀ k ≤ callIndex, blocks k = []

section Steps

variable {name signature : Bytes} {index : Nat} {flags : UInt16} {original : InstructionList}
  {maxLocals maxStack callIndex : Nat} {tree tree' : ClassFile} {blocks : Nat → List HookEntry} {h : HookEntry}

/-- A transform that succeeds keeps the tree well formed. -/
theorem wellFormed_transform (hw : tree.WellFormed) (hrun : h.transform tree = .ok () tree') : tree'.WellFormed := by
  have hkeeps : Keeps (Extends tree.constantPool.entries) h.transform := by
    unfold HookEntry.transform
    split
    · exact keeps_transformCall _ (.makeNative (some h.name) (some h.signature) (some h.addedName))
    · exact keeps_transformCall _ (.insertCall (some h.name) (some h.signature) h.bytecodeOffset (some h.addedName))
  exact ((hkeeps tree ⟨hw, List.prefix_rfl⟩).of_ok hrun).wellFormed

/-- A hook with another name or signature finds another method. -/
theorem index_ne {name' signature' : Bytes} {index' : Nat} {m m' : MemberInfo}
    (hfind : findMethod tree name signature = some (index, m))
    (hfind' : findMethod tree name' signature' = some (index', m')) (hne : ¬(name' = name ∧ signature' = signature)) :
    index ≠ index' := by
  rintro rfl
  have hat := (findMethod_eq_some.mp hfind).2
  rw [(findMethod_eq_some.mp hfind').2] at hat
  cases hat
  obtain ⟨hn, hs⟩ := findMethod_names hfind
  obtain ⟨hn', hs'⟩ := findMethod_names hfind'
  rw [constantPoolUtf8Equals, beq_iff_eq] at hn hs hn' hs'
  rw [hn] at hn'
  rw [hs] at hs'
  exact hne ⟨(Option.some.inj hn').symm, (Option.some.inj hs').symm⟩

/-- What a transform for another method does. -/
theorem transform_elsewhere (hw : tree.WellFormed) {m : MemberInfo}
    (hfind : findMethod tree name signature = some (index, m))
    (hne : ¬(h.name = name ∧ h.signature = signature)) (hrun : h.transform tree = .ok () tree') :
    Edits tree tree' ∧ tree'.methods[index]? = tree.methods[index]? := by
  have hindex := (List.getElem?_eq_some_iff.mp (findMethod_eq_some.mp hfind).2).1
  cases hkind : h.kind with
  | makeNative =>
    simp only [HookEntry.transform, hkind, classTransformMakeNative] at hrun
    obtain ⟨hedits, index', m', hfind', hother⟩ := makeNative_methods hw.pool.count hrun
    exact ⟨hedits, hother index hindex (index_ne hfind hfind' hne)⟩
  | insertCall =>
    simp only [HookEntry.transform, hkind, classTransformInsertCall] at hrun
    obtain ⟨index', m', tree₁, code, stored, editor, point, methodref, hhook⟩ := insertCall_ok hrun
    exact ⟨hhook.edits.trans (hhook.stores ▸ edits_storedAt tree₁ index' stored),
      hhook.methods.1 index hindex (index_ne hfind hhook.located hne)⟩

theorem Rebuilding.elsewhere
    (hr : Rebuilding name signature index flags original maxLocals maxStack callIndex tree blocks)
    (hne : ¬(h.name = name ∧ h.signature = signature)) (hrun : h.transform tree = .ok () tree') :
    Rebuilding name signature index flags original maxLocals maxStack callIndex tree' blocks := by
  obtain ⟨m, hfind, hflags⟩ := hr.located
  obtain ⟨hedits, hsame⟩ := transform_elsewhere hr.wellFormed hfind hne hrun
  have hw := wellFormed_transform hr.wellFormed hrun
  obtain ⟨m', hfind', hat'⟩ := hedits.findMethod hfind
  rw [hsame, (findMethod_eq_some.mp hfind).2] at hat'
  cases hat'
  refine ⟨hw, ⟨m, hfind', hflags⟩, hr.hooked.elsewhere hedits hsame, fun hinit => ?_⟩
  obtain ⟨htyped, hcall, hbelow⟩ := hr.typed hinit
  exact ⟨htyped.elsewhere hedits hw.pool.count hsame, hcall, hbelow⟩

/-- What makes a method a constructor is its name. -/
theorem isInstanceInitializer_eq {cf tree : ClassFile} {m : MemberInfo} (hedits : Edits cf tree)
    (hfind : findMethod cf name signature = some (index, m)) :
    isInstanceInitializer tree m = true ↔ name = text "<init>" := by
  have hname := (findMethod_names hfind).1
  rw [constantPoolUtf8Equals, beq_iff_eq] at hname
  rw [isInstanceInitializer, classFileUtf8Equals, constantPoolUtf8Equals, hedits.grows.utf8 hname, beq_iff_eq,
    Option.some.injEq]

/-- The offset at which a hook is inserted, as an offset of the original body. -/
theorem Rebuilding.point (hr : Rebuilding name signature index flags original maxLocals maxStack callIndex tree blocks)
    {j : Nat} {m : MemberInfo} {cf : ClassFile} {code stored : AttributeInfo} {editor : CodeEditor} {point : Nat}
    {methodref : UInt16}
    (hhook : InsertedHook tree tree' name signature h.bytecodeOffset.toNat h.addedName index m cf code
      stored editor point methodref)
    (hposition : hookPosition (name == text "<init>") (original.start (callIndex + 1)) h = original.start j) :
    point = original.start j := by
  have hmoved := hhook.into.moved
  have hinit := isInstanceInitializer_eq hhook.edits hhook.located
  by_cases hname : name = text "<init>"
  · rw [hinit.mpr hname] at hmoved
    rw [hookPosition, if_pos (beq_iff_eq.mpr hname)] at hposition
    obtain ⟨htyped, hcall, hbelow⟩ := hr.typed hname
    obtain ⟨e, hanswer, rfl⟩ := constructorOffset_ok hmoved
    obtain ⟨-, rfl⟩ := htyped.found hhook.edits hhook.into.found hhook.into.loaded hanswer
    have hstart := (hr.hooked.start hhook.into.found hhook.into.loaded).2 (callIndex + 1) hcall fun k hk => by
      rw [hbelow k (by omega)]
      rfl
    rw [hstart]
    exact hposition
  · rw [Bool.eq_false_iff.mpr fun htrue => hname (hinit.mp htrue), constructorOffset,
      if_neg Bool.false_ne_true] at hmoved
    rw [hookPosition, if_neg (fun htrue => hname (beq_iff_eq.mp htrue))] at hposition
    cases hmoved
    exact hposition

/-- A hook in the method, at a point before which there is none yet. -/
theorem Rebuilding.insert (hr : Rebuilding name signature index flags original maxLocals maxStack callIndex tree blocks)
    {j : Nat} (hcalls : h.callsIn name signature = true) (hadded : name = text "<init>" → h.addedName ≠ text "<init>")
    (hposition : hookPosition (name == text "<init>") (original.start (callIndex + 1)) h = original.start j)
    (hj : j < original.items.length) (hempty : ∀ k < j, blocks k = []) (hrun : h.transform tree = .ok () tree') :
    Rebuilding name signature index flags original maxLocals maxStack callIndex tree' (prependBlock blocks j [h]) := by
  have hw := wellFormed_transform hr.wellFormed hrun
  obtain ⟨hkind, rfl, rfl⟩ := callsIn_iff.mp hcalls
  obtain ⟨m, hfind, hflags⟩ := hr.located
  simp only [HookEntry.transform, hkind, classTransformInsertCall] at hrun
  obtain ⟨index', m', cf, code, stored, editor, point, methodref, hhook⟩ := insertCall_ok hrun
  have hsame := hhook.located
  rw [hfind] at hsame
  cases hsame
  obtain rfl := hr.point hhook hposition
  have hedits : Edits tree tree' := hhook.edits.trans (hhook.stores ▸ edits_storedAt cf index stored)
  have hnames : (fun k => (prependBlock blocks j [h] k).map (·.addedName)) =
      prependBlock (fun k => (blocks k).map (·.addedName)) j [h.addedName] := by
    funext k
    by_cases hk : k = j
    · rw [hk, prependBlock_self, prependBlock_self, List.map_append, List.map_singleton]
    · rw [prependBlock_of_ne hk, prependBlock_of_ne hk]
  have hnone : ∀ k < j, (blocks k).map (·.addedName) = [] := fun k hk => by rw [hempty k hk]; rfl
  refine ⟨hw, ?_, ?_, fun hinit => ?_⟩
  · obtain ⟨m', hfind', hat'⟩ := hedits.findMethod hfind
    obtain ⟨m'', hat'', hsame⟩ := hhook.methods.2
    rw [hat'] at hat''
    cases hat''
    exact ⟨m', hfind', hsame.trans hflags⟩
  · rw [hnames]
    exact hr.hooked.insert hhook (by rw [hflags]) hj.le hnone
  · obtain ⟨htyped, hcall, hbelow⟩ := hr.typed hinit
    obtain ⟨hlength, hstarts⟩ := hr.hooked.start hhook.into.found hhook.into.loaded
    -- the call ends at the point or before it
    have hafter : callIndex < j := by
      by_contra hlt
      have hlater := @InstructionList.start_lt original j (callIndex + 1) (by omega) hcall
      rw [← hposition, hookPosition, if_pos (beq_iff_eq.mpr hinit)] at hlater
      omega
    rw [← hstarts j hj.le hnone] at hhook
    refine ⟨htyped.insert hhook hafter (by omega) (hadded hinit) hw.pool.count, hcall, fun k hk => ?_⟩
    rw [prependBlock_of_ne (by omega)]
    exact hbelow k hk

end Steps

/-! ## All hooks of a rebuild -/

theorem transformAll_append (list rest : List HookEntry) (tree : ClassFile) : transformAll (list ++ rest) tree =
    (do transformAll list; transformAll rest : Transform Unit) tree := by
  induction list generalizing tree with
  | nil => rfl
  | cons h list ih =>
    simp only [List.cons_append, transformAll, run_bind]
    cases h.transform tree with
    | error e cf => rfl
    | ok u cf =>
      have := ih cf
      simp only [run_bind] at this
      exact this

theorem wellFormed_transformAll {list : List HookEntry} {tree tree' : ClassFile} (hw : tree.WellFormed)
    (hrun : transformAll list tree = .ok () tree') : tree'.WellFormed := by
  induction list generalizing tree with
  | nil =>
    cases hrun
    exact hw
  | cons h list ih =>
    obtain ⟨_, cf, hfirst, hrest⟩ := exists_of_bind_ok hrun
    exact ih (wellFormed_transform hw hfirst) hrest

section Runs

variable {name signature : Bytes} {index : Nat} {flags : UInt16} {original : InstructionList}
  {maxLocals maxStack callIndex : Nat} {tree tree' : ClassFile} {blocks : Nat → List HookEntry} {list : List HookEntry}

/-- Hooks of other methods. -/
theorem transformAll_elsewhere {m : MemberInfo} (hw : tree.WellFormed)
    (hfind : findMethod tree name signature = some (index, m))
    (hother : ∀ h ∈ list, ¬(h.name = name ∧ h.signature = signature)) (hrun : transformAll list tree = .ok () tree') :
    tree'.WellFormed ∧ Edits tree tree' ∧ tree'.methods[index]? = tree.methods[index]? := by
  induction list generalizing tree with
  | nil =>
    cases hrun
    exact ⟨hw, .refl _, rfl⟩
  | cons h list ih =>
    obtain ⟨_, cf, hfirst, hrest⟩ := exists_of_bind_ok hrun
    obtain ⟨hedits, hsame⟩ := transform_elsewhere hw hfind (hother h (List.mem_cons_self ..)) hfirst
    obtain ⟨m', hfind', hat'⟩ := hedits.findMethod hfind
    rw [hsame, (findMethod_eq_some.mp hfind).2] at hat'
    cases hat'
    obtain ⟨hw', hedits', hsame'⟩ := ih (wellFormed_transform hw hfirst) hfind'
      (fun h hmem => hother h (List.mem_cons_of_mem _ hmem)) hrest
    exact ⟨hw', hedits.trans hedits', hsame'.trans hsame⟩

/-- The starts of two instructions are the same only if they are one. -/
theorem start_eq_iff {j k : Nat} (hj : j < original.items.length) : original.start j = original.start k ↔ k = j := by
  refine ⟨fun heq => ?_, fun heq => by rw [heq]⟩
  by_contra hne
  rcases Nat.lt_or_gt_of_ne hne with hlt | hlt
  · have := InstructionList.start_lt hlt hj.le
    omega
  · have := InstructionList.start_lt (Nat.lt_add_one j) hj
    have := original.start_mono (show j + 1 ≤ k from hlt)
    omega

/-- Hooks that come with the last point first are woven in. -/
theorem Rebuilding.run (hr : Rebuilding name signature index flags original maxLocals maxStack callIndex tree blocks)
    (hinserts : ∀ h ∈ list, h.name = name → h.signature = signature → h.kind = .insertCall)
    (hadded : ∀ h ∈ list, h.callsIn name signature = true → name = text "<init>" → h.addedName ≠ text "<init>")
    (hstarts : ∀ h ∈ list, h.callsIn name signature = true → ∃ j < original.items.length,
      hookPosition (name == text "<init>") (original.start (callIndex + 1)) h = original.start j)
    (hsorted : (list.filter (·.callsIn name signature)).Pairwise fun a b =>
      hookPosition (name == text "<init>") (original.start (callIndex + 1)) b ≤
        hookPosition (name == text "<init>") (original.start (callIndex + 1)) a)
    (hempty : ∀ h ∈ list, h.callsIn name signature = true → ∀ k,
      original.start k < hookPosition (name == text "<init>") (original.start (callIndex + 1)) h → blocks k = [])
    (hrun : transformAll list tree = .ok () tree') :
    Rebuilding name signature index flags original maxLocals maxStack callIndex tree' fun k =>
      (hooksAt name signature (original.start (callIndex + 1)) (original.start k) list).reverse ++ blocks k := by
  induction list generalizing tree blocks with
  | nil =>
    cases hrun
    exact hr
  | cons h list ih =>
    obtain ⟨_, cf, hfirst, hrest⟩ := exists_of_bind_ok hrun
    have tail {p : HookEntry → Prop} (hall : ∀ x ∈ h :: list, p x) : ∀ x ∈ list, p x :=
      fun x hmem => hall x (List.mem_cons_of_mem _ hmem)
    have hhead := List.mem_cons_self (a := h) (l := list)
    by_cases hcalls : h.callsIn name signature = true
    · obtain ⟨j, hj, hposition⟩ := hstarts h hhead hcalls
      rw [List.filter_cons_of_pos hcalls, List.pairwise_cons] at hsorted
      have hnone : ∀ k < j, blocks k = [] := fun k hk => hempty h hhead hcalls k (by
        rw [hposition]
        exact InstructionList.start_lt hk hj.le)
      have hstep := hr.insert hcalls (hadded h hhead hcalls) hposition hj hnone hfirst
      have hrun := ih hstep (tail hinserts) (tail hadded) (tail hstarts) hsorted.2 (fun x hmem hx k hk => ?_) hrest
      · have hblocks (k : Nat) : (hooksAt name signature (original.start (callIndex + 1))
            (original.start k) list).reverse ++ prependBlock blocks j [h] k =
            (hooksAt name signature (original.start (callIndex + 1)) (original.start k) (h :: list)).reverse ++
              blocks k := by
          by_cases hk : k = j
          · rw [hk, prependBlock_self, hooksAt, hooksAt, List.filter_cons_of_pos (by rw [hcalls, hposition]; simp),
              List.reverse_cons, List.append_assoc]
          · have hne : original.start j ≠ original.start k := fun heq => hk ((start_eq_iff hj).mp heq)
            rw [prependBlock_of_ne hk, hooksAt, hooksAt, List.filter_cons_of_neg (by rw [hposition]; simp [hne])]
        rw [funext hblocks] at hrun
        exact hrun
      · -- what comes later is not behind this hook
        have hle := hsorted.1 x (List.mem_filter.mpr ⟨hmem, hx⟩)
        have hkj : k ≠ j := by
          rintro rfl
          omega
        rw [prependBlock_of_ne hkj]
        exact hempty h hhead hcalls k (by omega)
    · have hne : ¬(h.name = name ∧ h.signature = signature) := by
        rintro ⟨hname, hsignature⟩
        exact hcalls (callsIn_iff.mpr ⟨hinserts h hhead hname hsignature, hname, hsignature⟩)
      rw [List.filter_cons_of_neg hcalls] at hsorted
      have hrun := ih (hr.elsewhere hne hfirst) (tail hinserts) (tail hadded) (tail hstarts) hsorted (tail hempty) hrest
      have hblocks (offset : Nat) : hooksAt name signature (original.start (callIndex + 1)) offset (h :: list) =
          hooksAt name signature (original.start (callIndex + 1)) offset list :=
        List.filter_cons_of_neg (by simp [hcalls])
      simp only [hblocks]
      exact hrun

end Runs

/-! ## The initialising call -/

/-- When a constructor has a hook, the analysis of the original body has found a call. -/
theorem found_of_hooked {cf tree : ClassFile} {signature : Bytes} {index : Nat} {m : MemberInfo} {code : AttributeInfo}
    {editor : CodeEditor} {list : List HookEntry} (hw : cf.WellFormed)
    (hfind : findMethod cf (text "<init>") signature = some (index, m)) (hcode : codeOf cf index = some code)
    (hload : codeEditorLoad code cf.constantPool = .ok editor) (hverified : Verified cf editor)
    (hcounted : Counted cf editor)
    (hinserts : ∀ h ∈ list, h.name = text "<init>" → h.signature = signature → h.kind = .insertCall)
    (hany : ∃ h ∈ list, h.callsIn (text "<init>") signature = true) (hrun : transformAll list cf = .ok () tree) :
    ∃ e, constructorInitOffset cf editor = .found e := by
  obtain ⟨h, hfirst⟩ := Option.isSome_iff_exists.mp (List.find?_isSome.mpr hany)
  obtain ⟨hcalls, before, after, rfl, hbefore⟩ := List.find?_eq_some_iff_append.mp hfirst
  rw [transformAll_append] at hrun
  obtain ⟨_, cf₀, hbeforeRun, hrest⟩ := exists_of_bind_ok hrun
  obtain ⟨_, cf₁, hhookRun, -⟩ := exists_of_bind_ok hrest
  have hother : ∀ x ∈ before, ¬(x.name = text "<init>" ∧ x.signature = signature) := by
    rintro x hmem ⟨hname, hsignature⟩
    have hkind := hinserts x (List.mem_append_left _ hmem) hname hsignature
    have hnot := hbefore x hmem
    rw [callsIn_iff.mpr ⟨hkind, hname, hsignature⟩] at hnot
    cases hnot
  obtain ⟨hw₀, hedits, hsame⟩ := transformAll_elsewhere hw hfind hother hbeforeRun
  obtain ⟨hkind, hname, hsignature⟩ := callsIn_iff.mp hcalls
  simp only [HookEntry.transform, hkind, classTransformInsertCall, hname, hsignature] at hhookRun
  obtain ⟨index', m', cf₂, code', stored, editor', point, methodref, hhook⟩ := insertCall_ok hhookRun
  obtain ⟨m₀, hfind₀, hat₀⟩ := hedits.findMethod hfind
  have hlocated := hhook.located
  rw [hfind₀] at hlocated
  cases hlocated
  have hinto := hhook.into
  have hfound := hinto.found
  rw [hedits.codeOf hcode hsame] at hfound
  cases hfound
  have hmoved := hinto.moved
  rw [(isInstanceInitializer_eq hhook.edits hfind₀).mpr rfl] at hmoved
  obtain ⟨e, hanswer, -⟩ := constructorOffset_ok hmoved
  -- both analyses answer for the calls of the original body
  have hanswers := answers_grown (.refl cf) rfl hverified (coherent_of_load hload).instructions hcounted
  have hanswers' := answers_grown (hedits.trans hhook.edits) (bare_of_load hload hinto.loaded) hverified
    (coherent_of_load hinto.loaded).instructions hcounted
  rw [hanswer] at hanswers'
  exact ⟨e, hanswers.found e hanswers'.eq_of_found⟩

/-! ## Rebuilt bodies -/

/-- The tree of a rebuild, and the bytes that are written of it when there are less than 2^31. -/
theorem rebuild_ok {bytes rebuilt : Bytes} {cf : ClassFile} {hooks : List HookEntry}
    (hparse : classfileParse bytes = .ok cf) (hrebuild : rebuild bytes hooks = .ok rebuilt) :
    ∃ tree, transformAll (applicationOrder hooks) cf = .ok () tree ∧ ∀ written, classfileSerialize tree = .ok written →
      written.length < 2 ^ 31 → classfileParse rebuilt = .ok tree := by
  have hw := (classfileParse_sound hparse).2
  unfold rebuild at hrebuild
  split at hrebuild
  · rename_i hempty
    cases hrebuild
    obtain rfl := List.isEmpty_iff.mp hempty
    exact ⟨cf, rfl, fun _ _ _ => hparse⟩
  · rw [hparse] at hrebuild
    dsimp only at hrebuild
    split at hrebuild
    · cases hrebuild
    · rename_i tree hrun
      refine ⟨tree, hrun, fun written hwritten hsize => ?_⟩
      have hfits : wrapI4 written.length = written.length := wrapI4_of_fits ⟨by omega, by omega⟩
      rw [hwritten] at hrebuild
      dsimp only at hrebuild
      rw [hfits, Int.toNat_natCast, List.take_length] at hrebuild
      rw [← Except.ok.inj hrebuild]
      exact classfileParse_serialize (wellFormed_transformAll hw hrun) hwritten

/-- What `install` names the native method of an insert. -/
def HookEntry.NamedByInstall (h : HookEntry) : Prop := h.kind = .insertCall → text "$jni2hook$" <+: h.addedName

theorem HookEntry.NamedByInstall.ne_init {h : HookEntry} (hnamed : h.NamedByInstall) (hkind : h.kind = .insertCall) :
    h.addedName ≠ text "<init>" := by
  intro heq
  have hprefix := hnamed hkind
  rw [heq] at hprefix
  revert hprefix
  decide

theorem addedName_named (kind : HookKind) (name : Bytes) (allocated : Bool) (s : Registry) :
    After (addedName kind name allocated) s (fun added _ => kind = .insertCall → text "$jni2hook$" <+: added)
      (fun _ _ => True) := by
  unfold addedName
  cases allocated
  · simp
  cases kind
  · simp
  · exact fun _ => List.prefix_append _ _

/-- The entries of the registry are named so. -/
theorem describeHook_named (method : JMethodId) (bytecodeOffset : UInt32) (nativeFunction : NativeFunction)
    (kind : HookKind) (a : InstallAnswers) (s : Registry) :
    After (describeHook method bytecodeOffset nativeFunction kind a) s (fun r _ => r.2.NamedByInstall)
      (fun _ _ => True) := by
  unfold describeHook
  cases a.declaring with
  | none => simp
  | some declaring =>
    cases a.className
    · simp
    cases a.methodName with
    | none => simp
    | some described =>
      obtain ⟨name, signature⟩ := described
      cases a.strings
      · simp
      simp only [after_bind, Bool.true_eq_false, if_false]
      refine (addedName_named kind name a.addedName s).mono (fun added s₁ hadded => ?_) fun _ _ _ => trivial
      cases a.modifiers with
      | none => simp
      | some modifiers =>
        simp only [after_bind, after_pure]
        exact (classCacheEnsure_spec declaring a.capture s₁).mono (fun _ _ _ => hadded) fun _ _ _ => trivial

/-- A constructor that the verifier accepts, and whose members the analysis counts. -/
def Analysable (cf : ClassFile) (code : AttributeInfo) : Prop :=
  ∃ editor, codeEditorLoad code cf.constantPool = .ok editor ∧ Verified cf editor ∧ Counted cf editor

section Bodies

variable {cf tree : ClassFile} {name signature : Bytes} {index : Nat} {m : MemberInfo} {code : AttributeInfo}
  {original : InstructionList} {hooks list : List HookEntry}

theorem hookedBody_original (isStatic : Bool) (hcode : codeOf cf index = some code)
    (horiginal : codeInstructions code = .ok original) : HookedBody original isStatic (fun _ => []) cf index :=
  ⟨⟨code, original, hcode, horiginal, .refl original⟩, fun _ _ hmem => absurd hmem List.not_mem_nil⟩

/-- The body of a constructor with a hook is typed, up to the call that the analysis finds. -/
theorem typedBody_original (hw : cf.WellFormed) (hfind : findMethod cf (text "<init>") signature = some (index, m))
    (hcode : codeOf cf index = some code) (horiginal : codeInstructions code = .ok original)
    (hanalysable : Analysable cf code)
    (hinserts : ∀ h ∈ list, h.name = text "<init>" → h.signature = signature → h.kind = .insertCall)
    (hany : ∃ h ∈ list, h.callsIn (text "<init>") signature = true) (hrun : transformAll list cf = .ok () tree) :
    ∃ maxLocals maxStack callIndex, TypedBody maxLocals maxStack callIndex cf index ∧
      callIndex + 1 < original.items.length ∧ ∀ editor, codeEditorLoad code cf.constantPool = .ok editor →
        constructorInitOffset cf editor = .found (original.start (callIndex + 1)) := by
  obtain ⟨editor, hload, hverified, hcounted⟩ := hanalysable
  obtain ⟨e, hfound⟩ := found_of_hooked hw hfind hcode hload hverified hcounted hinserts hany hrun
  obtain ⟨callIndex, types, htyping, rfl⟩ :=
    typing_of_found hverified (coherent_of_load hload).instructions hcounted hfound
  rw [codeInstructions_of_load hload] at horiginal
  cases horiginal
  have hnamed := mem_of_constantPoolUtf8Equals (findMethod_names hfind).1
  refine ⟨_, _, callIndex, ⟨hw.pool.count, hnamed, code, _, editor, types, hcode, hload, rfl, Nat.le_refl _,
    hverified.size, htyping⟩, htyping.inside, fun editor' hload' => ?_⟩
  rw [hload] at hload'
  cases hload'
  exact hfound

/-- Each call before an instruction of the original body is that of a hook that was recorded for it. -/
theorem woven_of_transformAll (hw : cf.WellFormed) (hfind : findMethod cf name signature = some (index, m))
    (hcode : codeOf cf index = some code) (horiginal : codeInstructions code = .ok original)
    (hnamed : ∀ h ∈ hooks, h.NamedByInstall)
    (hhooks : ∀ h ∈ hooks, h.name = name → h.signature = signature → h.kind = .insertCall ∧
      ∃ j < original.items.length, h.bytecodeOffset.toNat = original.start j)
    (hanalysable : name = text "<init>" → (∃ h ∈ hooks, h.callsIn name signature = true) → Analysable cf code)
    (hrun : transformAll (applicationOrder hooks) cf = .ok () tree) :
    ∃ callEnd, (name = text "<init>" → (∃ h ∈ hooks, h.callsIn name signature = true) →
        ∀ editor, codeEditorLoad code cf.constantPool = .ok editor → constructorInitOffset cf editor = .found callEnd) ∧
      HookedBody original (hasFlag m.accessFlags Acc.static_)
        (fun k => ((hooksAt name signature callEnd (original.start k)
        (applicationOrder hooks)).reverse).map (·.addedName)) tree index := by
  have hordered : ∀ h ∈ applicationOrder hooks, h ∈ hooks := fun h hmem => mem_applicationOrder.mp hmem
  by_cases hany : ∃ h ∈ hooks, h.callsIn name signature = true
  · have hinserts : ∀ h ∈ applicationOrder hooks, h.name = name → h.signature = signature → h.kind = .insertCall :=
      fun h hmem hname hsignature => (hhooks h (hordered h hmem) hname hsignature).1
    have htyped : ∃ maxLocals maxStack callIndex, name = text "<init>" →
        TypedBody maxLocals maxStack callIndex cf index ∧ callIndex + 1 < original.items.length ∧ ∀ editor,
          codeEditorLoad code cf.constantPool = .ok editor →
            constructorInitOffset cf editor = .found (original.start (callIndex + 1)) := by
      by_cases hinit : name = text "<init>"
      · subst hinit
        obtain ⟨h, hmem, hcalls⟩ := hany
        obtain ⟨maxLocals, maxStack, callIndex, htyped⟩ := typedBody_original hw hfind hcode horiginal
          (hanalysable rfl ⟨h, hmem, hcalls⟩) hinserts ⟨h, mem_applicationOrder.mpr hmem, hcalls⟩ hrun
        exact ⟨maxLocals, maxStack, callIndex, fun _ => htyped⟩
      · exact ⟨0, 0, 0, fun htrue => absurd htrue hinit⟩
    obtain ⟨maxLocals, maxStack, callIndex, htyped⟩ := htyped
    refine ⟨original.start (callIndex + 1), fun hinit _ => (htyped hinit).2.2, ?_⟩
    have hr : Rebuilding name signature index m.accessFlags original maxLocals maxStack callIndex cf fun _ => [] :=
      ⟨hw, ⟨m, hfind, rfl⟩, hookedBody_original _ hcode horiginal, fun hinit =>
        ⟨(htyped hinit).1, Nat.lt_of_succ_lt (htyped hinit).2.1, fun _ _ => rfl⟩⟩
    have hstarts : ∀ h ∈ applicationOrder hooks, h.callsIn name signature = true → ∃ j < original.items.length,
        hookPosition (name == text "<init>") (original.start (callIndex + 1)) h = original.start j := by
      intro h hmem hcalls
      obtain ⟨-, hname, hsignature⟩ := callsIn_iff.mp hcalls
      obtain ⟨-, j, hj, hoffset⟩ := hhooks h (hordered h hmem) hname hsignature
      unfold hookPosition
      split
      · rename_i hinit
        rcases Nat.le_total h.bytecodeOffset.toNat (original.start (callIndex + 1)) with hle | hle
        · exact ⟨callIndex + 1, (htyped (beq_iff_eq.mp hinit)).2.1, Nat.max_eq_right hle⟩
        · exact ⟨j, hj, (Nat.max_eq_left hle).trans hoffset⟩
      · exact ⟨j, hj, hoffset⟩
    have hrun' := hr.run hinserts (fun h hmem hcalls _ =>
      (hnamed h (hordered h hmem)).ne_init (callsIn_iff.mp hcalls).1)
      hstarts ((descending_applicationOrder name signature hooks).imp fun h => hookPosition_mono h)
        (fun _ _ _ _ _ => rfl) hrun
    simp only [List.append_nil] at hrun'
    exact hrun'.hooked
  · have hnone (offset : Nat) : hooksAt name signature 0 offset (applicationOrder hooks) = [] :=
      List.filter_eq_nil_iff.mpr fun h hmem htrue =>
        hany ⟨h, hordered h hmem, (Bool.and_eq_true_iff.mp htrue).1⟩
    have hother : ∀ h ∈ applicationOrder hooks, ¬(h.name = name ∧ h.signature = signature) := by
      rintro h hmem ⟨hname, hsignature⟩
      have hkind := (hhooks h (hordered h hmem) hname hsignature).1
      exact hany ⟨h, hordered h hmem, callsIn_iff.mpr ⟨hkind, hname, hsignature⟩⟩
    obtain ⟨-, hedits, hsame⟩ := transformAll_elsewhere hw hfind hother hrun
    refine ⟨0, fun _ h => absurd h hany, ?_⟩
    simp only [hnone, List.reverse_nil, List.map_nil]
    exact (hookedBody_original _ hcode horiginal).elsewhere hedits hsame

end Bodies

/-- In the rebuilt body of a method, the calls before each original instruction are those of the hooks that were
recorded for its offset. In a constructor, `callEnd` is the end of the initialising call. -/
def HooksInPlace (hooks : List HookEntry) (name signature : Bytes) (callEnd : Nat) (isStatic : Bool)
    (original : InstructionList) (tree : ClassFile) (index : Nat) : Prop :=
  ∃ blocks : Nat → List HookEntry, HookedBody original isStatic (fun k => (blocks k).map (·.addedName)) tree index ∧
    (∀ k, RunsInOrder (hooksAt name signature callEnd (original.start k) hooks) (blocks k)) ∧
    (name ≠ text "<init>" → ∀ k, blocks k = (hooks.filter fun h =>
      h.callsIn name signature && h.bytecodeOffset.toNat == original.start k).reverse)

/-- **Hooks stand where they were asked for, whatever else is installed.** For every class file and every list of
recorded hooks that a rebuild accepts: in each method that is not replaced, and whose hooks ask for starts of
instructions. In a constructor with hooks, when the verifier accepts it, the offsets before the end of the call that the
analysis of the original body finds stand for that end. Where inserts of one method at one offset keep their order, and
replacements theirs, another order of the hooks makes the same class. -/
theorem rebuilt_bodies {bytes rebuilt : Bytes} {cf : ClassFile} {hooks : List HookEntry}
    (hparse : classfileParse bytes = .ok cf) (hnamed : ∀ h ∈ hooks, h.NamedByInstall)
    (hrebuild : rebuild bytes hooks = .ok rebuilt) :
    ∃ tree, transformAll (applicationOrder hooks) cf = .ok () tree ∧
      (∀ written, classfileSerialize tree = .ok written → written.length < 2 ^ 31 →
        classfileParse rebuilt = .ok tree) ∧
      (∀ name signature index m code original, findMethod cf name signature = some (index, m) →
        codeOf cf index = some code → codeInstructions code = .ok original →
        (∀ h ∈ hooks, h.name = name → h.signature = signature → h.kind = .insertCall ∧
          ∃ j < original.items.length, h.bytecodeOffset.toNat = original.start j) →
        (name = text "<init>" → (∃ h ∈ hooks, h.callsIn name signature = true) → Analysable cf code) →
        ∃ callEnd, (name = text "<init>" → (∃ h ∈ hooks, h.callsIn name signature = true) → ∀ editor,
            codeEditorLoad code cf.constantPool = .ok editor → constructorInitOffset cf editor = .found callEnd) ∧
          HooksInPlace hooks name signature callEnd (hasFlag m.accessFlags Acc.static_) original tree index) ∧
      ∀ hooks', hooks'.filter (·.kind == .makeNative) = hooks.filter (·.kind == .makeNative) →
        (∀ name signature offset, hooks'.filter (fun h => h.callsIn name signature && h.bytecodeOffset == offset) =
          hooks.filter fun h => h.callsIn name signature && h.bytecodeOffset == offset) →
        rebuild bytes hooks' = .ok rebuilt := by
  have hw := (classfileParse_sound hparse).2
  obtain ⟨tree, hrun, hwritten⟩ := rebuild_ok hparse hrebuild
  refine ⟨tree, hrun, hwritten, fun name signature index m code original hfind hcode horiginal hhooks hanalysable => ?_,
    fun hooks' hnatives hsame => (rebuild_congr bytes hnatives hsame).trans hrebuild⟩
  obtain ⟨callEnd, hfound, hbody⟩ := woven_of_transformAll hw hfind hcode horiginal hnamed hhooks hanalysable hrun
  have horder (k : Nat) := runsInOrder_hooksAt name signature callEnd (original.start k) hooks
  refine ⟨callEnd, hfound, _, hbody, horder, fun hplain k => ?_⟩
  have hrecorded : hooksAt name signature callEnd (original.start k) hooks = hooks.filter fun h =>
      h.callsIn name signature && h.bytecodeOffset.toNat == original.start k := by
    rw [hooksAt]
    simp only [hookPosition, beq_iff_eq, hplain, if_false]
  rw [← hrecorded]
  refine (horder k).eq_reverse (UInt32.ofNat (original.start k)) fun x hx => ?_
  rw [hrecorded, List.mem_filter, Bool.and_eq_true, beq_iff_eq] at hx
  rw [← hx.2.2, UInt32.ofNat_toNat]

/-- The bytes of a class with a constructor. -/
def constructorBytes (code : AttributeInfo) : Bytes := (classfileSerialize (constructorClass code)).toOption.getD []

/-- An insert in the constructor. -/
def constructorInsert (serial : String) (offset : UInt32) : HookEntry :=
  ⟨7, text "<init>", text "()V", text "$jni2hook$" ++ text serial, 0, false, offset, .insertCall⟩

theorem constructorInsert_named (serial : String) (offset : UInt32) :
    (constructorInsert serial offset).NamedByInstall :=
  fun _ => List.prefix_append _ _

/-- In `super(); return;`, hooks at the start and at the `return` both stand before the `return`. -/
theorem rebuilt_bodies_plain : ∃ rebuilt tree,
    rebuild (constructorBytes plainConstructor) [constructorInsert "0" 0, constructorInsert "1" 4] = .ok rebuilt ∧
      transformAll (applicationOrder [constructorInsert "0" 0, constructorInsert "1" 4])
        (constructorClass plainConstructor) = .ok () tree ∧
      HooksInPlace [constructorInsert "0" 0, constructorInsert "1" 4] (text "<init>") (text "()V") 4 false
        plainEditor.instructions tree 0 := by
  have hload : codeEditorLoad plainConstructor (constructorClass plainConstructor).constantPool = .ok plainEditor := by
    decide
  have hparse : classfileParse (constructorBytes plainConstructor) = .ok (constructorClass plainConstructor) := by
    decide +kernel
  have hrebuild : (rebuild (constructorBytes plainConstructor)
      [constructorInsert "0" 0, constructorInsert "1" 4]).toOption.isSome = true := by
    decide +kernel
  cases hresult : rebuild (constructorBytes plainConstructor) [constructorInsert "0" 0, constructorInsert "1" 4] with
  | error e =>
    rw [hresult] at hrebuild
    cases hrebuild
  | ok rebuilt =>
    obtain ⟨tree, hrun, -, hbodies, -⟩ := rebuilt_bodies hparse (by
      simp only [List.forall_mem_cons, constructorInsert_named, true_and]
      exact fun _ hmem => absurd hmem List.not_mem_nil) hresult
    obtain ⟨callEnd, hfound, hplace⟩ := hbodies (text "<init>") (text "()V") 0 ⟨0x1, 5, 6, [plainConstructor]⟩
      plainConstructor plainEditor.instructions (by decide) (by decide) (codeInstructions_of_load hload) (by decide)
      fun _ _ => ⟨plainEditor, hload, verifies_plain.verified, verifies_plain.counted (by decide)⟩
    have hcall := hfound rfl ⟨constructorInsert "0" 0, List.mem_cons_self .., by decide⟩ plainEditor hload
    rw [show constructorInitOffset (constructorClass plainConstructor) plainEditor = .found 4 by decide] at hcall
    cases hcall
    exact ⟨rebuilt, tree, rfl, hrun, hplace⟩

/-- `if (0 != 0) { nop; … goto A; } … A: super(); super(); return;`, with a branch that needs more stack than there
is. -/
def overflowingConstructor : AttributeInfo :=
  attributeInfoOf 12 [0, 1, 0, 1, 0, 0, 0, 26, 0x03, 0x99, 0, 11, 0x2A, 0, 0, 0, 0, 0xA7, 0, 9, 0x03,
    0x03, 0x57, 0xA7, 0, 3, 0xB7, 0, 8, 0x2A, 0xB7, 0, 8, 0xB1, 0, 0, 0, 0]

def overflowingNodes : List Instruction :=
  [⟨0, 0x03, false, .none⟩, ⟨1, 0x99, false, .branch 12⟩, ⟨4, 0x2A, false, .none⟩, ⟨5, 0, false, .none⟩,
    ⟨6, 0, false, .none⟩, ⟨7, 0, false, .none⟩, ⟨8, 0, false, .none⟩, ⟨9, 0xA7, false, .branch 18⟩,
    ⟨12, 0x03, false, .none⟩, ⟨13, 0x03, false, .none⟩, ⟨14, 0x57, false, .none⟩, ⟨15, 0xA7, false, .branch 18⟩,
    ⟨18, 0xB7, false, .cpIndex 8⟩, ⟨21, 0x2A, false, .none⟩, ⟨22, 0xB7, false, .cpIndex 8⟩, ⟨25, 0xB1, false, .none⟩]

def overflowingEditor : CodeEditor := ⟨1, 1, ⟨overflowingNodes, 26⟩, [], none, none, none, none, [], []⟩

/-- The hooks at the start and at the `return`. -/
def overflowingHooks : List HookEntry := [constructorInsert "0" 0, constructorInsert "1" 25]

def overflowingHooked : ClassFile :=
  endState (transformAll (applicationOrder overflowingHooks)) (constructorClass overflowingConstructor)

/-- The first hook makes room on the stack, with which the analysis finds the other `super()`, and the second hook comes
to stand behind that. -/
theorem hook_behind_other_call :
    classfileParse (constructorBytes overflowingConstructor) = .ok (constructorClass overflowingConstructor) ∧
    (∀ h ∈ overflowingHooks, h.NamedByInstall ∧ ∃ j < overflowingEditor.instructions.items.length,
      h.bytecodeOffset.toNat = overflowingEditor.instructions.start j) ∧
    (∃ rebuilt, rebuild (constructorBytes overflowingConstructor) overflowingHooks = .ok rebuilt) ∧
    transformAll (applicationOrder overflowingHooks) (constructorClass overflowingConstructor) =
      .ok () overflowingHooked ∧
    codeEditorLoad overflowingConstructor (constructorClass overflowingConstructor).constantPool =
      .ok overflowingEditor ∧
    constructorInitOffset (constructorClass overflowingConstructor) overflowingEditor = .found 21 ∧
    ¬HooksInPlace overflowingHooks (text "<init>") (text "()V") 21 false overflowingEditor.instructions
      overflowingHooked 0 := by
  have hrebuild : (rebuild (constructorBytes overflowingConstructor) overflowingHooks).toOption.isSome = true := by
    decide +kernel
  refine ⟨by decide +kernel, ?_, ?_, ?_, by decide +kernel, by decide +kernel, ?_⟩
  · have hstarts : ∀ h ∈ overflowingHooks, ∃ j < overflowingEditor.instructions.items.length,
        h.bytecodeOffset.toNat = overflowingEditor.instructions.start j := by
      decide
    refine fun h hmem => ⟨?_, hstarts h hmem⟩
    simp only [overflowingHooks, List.mem_cons, List.not_mem_nil, or_false] at hmem
    rcases hmem with rfl | rfl
    · exact constructorInsert_named "0" 0
    · exact constructorInsert_named "1" 25
  · cases hresult : rebuild (constructorBytes overflowingConstructor) overflowingHooks with
    | error e =>
      rw [hresult] at hrebuild
      cases hrebuild
    | ok rebuilt => exact ⟨rebuilt, rfl⟩
  · obtain ⟨tree, h⟩ := ok_of_succeeded (r := transformAll (applicationOrder overflowingHooks)
      (constructorClass overflowingConstructor)) (by decide +kernel)
    rw [overflowingHooked, endState, h]
  · rintro ⟨blocks, hbody, horder, -⟩
    have hoffsets : ∀ h ∈ overflowingHooks, h.bytecodeOffset = if hookPosition true 21 h = 21 then 0 else 25 := by
      decide
    have hblocks : blocks = fun k => (hooksAt (text "<init>") (text "()V") 21
        (overflowingEditor.instructions.start k) overflowingHooks).reverse := by
      funext k
      refine (horder k).eq_reverse (if overflowingEditor.instructions.start k = 21 then 0 else 25) fun x hx => ?_
      rw [hooksAt, List.mem_filter, Bool.and_eq_true, beq_iff_eq] at hx
      rw [← hx.2.2]
      exact hoffsets x hx.1
    subst hblocks
    obtain ⟨code, list, hcode, hlist, hwoven, -⟩ := hbody.body
    have hview : ((codeOf overflowingHooked 0).bind fun code => (codeInstructions code).toOption).map (·.view) ≠
        some (woven (fun k => (((hooksAt (text "<init>") (text "()V") 21
          (overflowingEditor.instructions.start k) overflowingHooks).reverse).map (·.addedName)).flatMap
            (hookCall overflowingHooked false)) overflowingEditor.instructions.view) := by
      decide +kernel
    rw [hcode, Option.bind_some, hlist] at hview
    exact hview (congrArg some hwoven)

end Jni2Hook
