import Jni2Hook.Hook.RebuiltBodies
import Jni2Hook.Transform.CallExecution

/-!
# Running a rebuilt method

A rebuild puts the calls of hooks into the methods of a class, one after the other. What that does to the runs of a
method is told for every meaning of the instructions.

* `visible_transformAll`: hooks that return are not seen, wherever they stand.
* `rebuilt_visible_runs`: the same for the bytes of a rebuild.
* `rebuilt_runs`: a rebuilt method runs like the original one with its hooks in place.
-/

namespace Jni2Hook

open Lib

/-! ## Transforms one after the other -/

section Transforms

variable {tree tree' : ClassFile} {h : HookEntry} {list : List HookEntry}

theorem edits_transform (hw : tree.WellFormed) (hrun : h.transform tree = .ok () tree') : Edits tree tree' := by
  cases hkind : h.kind with
  | makeNative =>
    simp only [HookEntry.transform, hkind, classTransformMakeNative] at hrun
    exact (makeNative_methods hw.pool.count hrun).1
  | insertCall =>
    simp only [HookEntry.transform, hkind, classTransformInsertCall] at hrun
    obtain ⟨index, m, cf, code, stored, editor, point, methodref, hhook⟩ := insertCall_ok hrun
    exact hhook.edits.trans (hhook.stores ▸ edits_storedAt cf index stored)

theorem edits_transformAll (hw : tree.WellFormed) (hrun : transformAll list tree = .ok () tree') :
    Edits tree tree' := by
  induction list generalizing tree with
  | nil =>
    cases hrun
    exact .refl _
  | cons h list ih =>
    obtain ⟨_, cf, hfirst, hrest⟩ := exists_of_bind_ok hrun
    exact (edits_transform hw hfirst).trans (ih (wellFormed_transform hw hfirst) hrest)

variable {name signature : Bytes} {index : Nat} {m : MemberInfo} {code : AttributeInfo} {old : Body (Option Nat)}

/-- What the transform of a hook does to the body it is for. -/
theorem inserted_transform (hcalls : h.callsIn name signature = true) (hrun : h.transform tree = .ok () tree') :
    ∃ index m cf code stored editor point methodref, InsertedHook tree tree' name signature h.bytecodeOffset.toNat
      h.addedName index m cf code stored editor point methodref := by
  obtain ⟨hkind, rfl, rfl⟩ := callsIn_iff.mp hcalls
  simp only [HookEntry.transform, hkind, classTransformInsertCall] at hrun
  exact insertCall_ok hrun

theorem InsertedHook.hookRef_after {descriptor hookName : Bytes} {atOffset point : Nat} {cf : ClassFile}
    {stored : AttributeInfo} {editor : CodeEditor} {methodref : UInt16} (hhook : InsertedHook tree tree' name descriptor
      atOffset hookName index m cf code stored editor point methodref) : hookRef tree' hookName = some methodref :=
  (hhook.stores ▸ edits_storedAt cf index stored : Edits cf tree').hookRef hhook.ref

/-- A hook stands before an instruction of the body, or at its end. -/
theorem InsertedHook.graph {asked : UInt32} {descriptor hookName : Bytes} {point : Nat} {cf : ClassFile}
    {stored : AttributeInfo} {editor : CodeEditor} {methodref : UInt16} (hhook : InsertedHook tree tree' name descriptor
      asked.toNat hookName index m cf code stored editor point methodref) (hold : codeGraph code = .ok old) :
    ∃ at_ extraStack, at_ ≤ old.instructions.length ∧ at_ ≤ editor.instructions.items.length ∧
      point = editor.instructions.start at_ ∧ codeGraph stored =
        .ok (old.insert at_ (hookNodes (hasFlag m.accessFlags Acc.static_) methodref) extraStack) := by
  have hinto := hhook.into
  have hlt : point < 2 ^ 32 := by
    have hasked : asked.toNat < 2 ^ 32 := UInt32.toNat_lt _
    have hmoved := hinto.moved
    cases hconstructor : isInstanceInitializer cf m with
    | true =>
      rw [hconstructor] at hmoved
      obtain ⟨e, hanswer, rfl⟩ := constructorOffset_ok hmoved
      have := constructorInitOffset_lt hanswer
      omega
    | false =>
      rw [hconstructor] at hmoved
      cases hmoved
      exact hasked
  obtain ⟨at_, -, hat, rfl⟩ := hinto.names_point hlt
  obtain ⟨edited, extraStack, hinsert, hstore⟩ := hinto.inserted
  obtain ⟨old', new, hold', hnew, rfl, hlength⟩ := graph_inserted hinto.loaded hat hinto.isCall hinsert hstore
  rw [hold] at hold'
  cases hold'
  exact ⟨at_, extraStack, hlength ▸ hat, hat, rfl, hnew⟩

theorem falls_hookNodes (isStatic : Bool) (methodref : UInt16) :
    ∀ n ∈ hookNodes isStatic methodref, fallsThrough n.opcode = true := by
  intro n hn
  cases isStatic with
  | true =>
    rw [List.mem_singleton.mp hn]
    rfl
  | false =>
    obtain rfl | hn := List.mem_cons.mp hn
    · rfl
    · rw [List.mem_singleton.mp hn]
      rfl

/-- Hooks that return are not seen, wherever they stand. -/
theorem visible_transformAll (hw : tree.WellFormed) (hfind : findMethod tree name signature = some (index, m))
    (hcode : codeOf tree index = some code) (hold : codeGraph code = .ok old)
    (hinserts : ∀ h ∈ list, h.name = name → h.signature = signature → h.kind = .insertCall)
    (hrun : transformAll list tree = .ok () tree') :
    ∃ stored new, codeOf tree' index = some stored ∧ codeGraph stored = .ok new ∧
      ∀ {φ ε : Type} (sem : FrameMeaning φ ε) (visible : ε → Bool), (∀ h ∈ list, h.callsIn name signature = true →
          ∀ methodref, hookRef tree' h.addedName = some methodref →
            Returns sem visible (hookNodes (hasFlag m.accessFlags Acc.static_) methodref)) →
        SameVisibleRuns sem visible old new := by
  induction list generalizing tree m code old with
  | nil =>
    cases hrun
    exact ⟨code, old, hcode, hold, fun sem visible _ => .refl old⟩
  | cons h list ih =>
    obtain ⟨_, cf, hfirst, hrest⟩ := exists_of_bind_ok hrun
    have hw' := wellFormed_transform hw hfirst
    have hlater : ∀ h ∈ list, h.name = name → h.signature = signature → h.kind = .insertCall :=
      fun x hmem => hinserts x (List.mem_cons_of_mem _ hmem)
    by_cases hcalls : h.callsIn name signature = true
    · obtain ⟨index', m', cf₀, code', stored, editor, point, methodref, hhook⟩ := inserted_transform hcalls hfirst
      have hsame := hhook.located
      rw [hfind] at hsame
      cases hsame
      have hinto := hhook.into
      have hfound := hinto.found
      rw [hcode] at hfound
      cases hfound
      obtain ⟨at_, extraStack, hat, -, -, hmid⟩ := hhook.graph hold
      obtain ⟨m'', hat'', hflags⟩ := hhook.methods.2
      obtain ⟨m', hfind', hat'⟩ := (edits_transform hw hfirst).findMethod hfind
      rw [hat'] at hat''
      cases hat''
      obtain ⟨stored', new, hstored, hnew, hvisible⟩ := ih hw' hfind' hinto.kept hmid hlater hrest
      have href := (edits_transformAll hw' hrest).hookRef hhook.hookRef_after
      rw [hflags] at hvisible
      refine ⟨stored', new, hstored, hnew, fun sem visible hreturns => ?_⟩
      have hinserted := sameVisibleRuns_insert hat (falls_hookNodes _ methodref) extraStack
        (hreturns h (List.mem_cons_self ..) hcalls methodref href)
      exact hinserted.trans (hvisible sem visible fun x hmem => hreturns x (List.mem_cons_of_mem _ hmem))
    · have hne : ¬(h.name = name ∧ h.signature = signature) := by
        rintro ⟨hname, hsignature⟩
        exact hcalls (callsIn_iff.mpr ⟨hinserts h (List.mem_cons_self ..) hname hsignature, hname, hsignature⟩)
      obtain ⟨hedits, hsame⟩ := transform_elsewhere hw hfind hne hfirst
      obtain ⟨m', hfind', hat'⟩ := hedits.findMethod hfind
      rw [hsame, (findMethod_eq_some.mp hfind).2] at hat'
      cases hat'
      obtain ⟨stored, new, hstored, hnew, hvisible⟩ := ih hw' hfind' (hedits.codeOf hcode hsame) hold hlater hrest
      exact ⟨stored, new, hstored, hnew, fun sem visible hreturns =>
        hvisible sem visible fun x hmem => hreturns x (List.mem_cons_of_mem _ hmem)⟩

end Transforms

/-- **Hooks that return are not seen.** For every class file and every list of recorded hooks that a rebuild accepts: in
each method that is not replaced, and for every meaning of the instructions under which the call of each of its hooks
hands on every frame and shows nothing, the rebuilt method shows the events of the original one, and returns and throws
the same after them. The constants of the class keep their indices. -/
theorem rebuilt_visible_runs {bytes rebuilt : Bytes} {cf : ClassFile} {hooks : List HookEntry}
    (hparse : classfileParse bytes = .ok cf) (hrebuild : rebuild bytes hooks = .ok rebuilt) :
    ∃ tree, transformAll (applicationOrder hooks) cf = .ok () tree ∧
      (∀ written, classfileSerialize tree = .ok written → written.length < 2 ^ 31 →
        classfileParse rebuilt = .ok tree) ∧ cf.constantPool.entries <+: tree.constantPool.entries ∧
      ∀ name signature index m code old, findMethod cf name signature = some (index, m) → codeOf cf index = some code →
        codeGraph code = .ok old → (∀ h ∈ hooks, h.name = name → h.signature = signature → h.kind = .insertCall) →
        ∃ stored new, codeOf tree index = some stored ∧ codeGraph stored = .ok new ∧
          ∀ {φ ε : Type} (sem : FrameMeaning φ ε) (visible : ε → Bool), (∀ h ∈ hooks, h.callsIn name signature = true →
              ∀ methodref, hookRef tree h.addedName = some methodref →
                Returns sem visible (hookNodes (hasFlag m.accessFlags Acc.static_) methodref)) →
            SameVisibleRuns sem visible old new := by
  have hw := (classfileParse_sound hparse).2
  obtain ⟨tree, hrun, hwritten⟩ := rebuild_ok hparse hrebuild
  refine ⟨tree, hrun, hwritten, (edits_transformAll hw hrun).grows.kept,
    fun name signature index m code old hfind hcode hold hinserts => ?_⟩
  obtain ⟨stored, new, hstored, hnew, hvisible⟩ := visible_transformAll hw hfind hcode hold
    (fun h hmem => hinserts h (mem_applicationOrder.mp hmem)) hrun
  exact ⟨stored, new, hstored, hnew, fun sem visible hreturns =>
    hvisible sem visible fun h hmem => hreturns h (mem_applicationOrder.mp hmem)⟩

/-- Every instruction but the `return` goes on and is not seen. -/
def quietMeaning : FrameMeaning Nat Bool where
  does o s e ending :=
    if o.opcode = Opc.return_ then e = true ∧ ending = .leave s else e = false ∧ ending = .goOn .fallThrough s
  catches _ _ := false

theorem quiet_leads {o : BodyInstruction Unit} (ho : o.opcode ≠ Opc.return_) (s : Nat) :
    quietMeaning.Leads id o s (.goOn .fallThrough s) := by
  have hdoes (e : Bool) (ending : Ending EdgeKind Nat) :
      quietMeaning.does o s e ending ↔ e = false ∧ ending = .goOn .fallThrough s := by
    simp only [quietMeaning, if_neg ho]
  exact ⟨⟨false, (hdoes _ _).mpr ⟨rfl, rfl⟩⟩, fun e ending h => (hdoes e ending).mp h⟩

theorem quiet_returns (isStatic : Bool) (methodref : UInt16) :
    Returns quietMeaning id (hookNodes isStatic methodref) := by
  intro s
  cases isStatic with
  | true => exact ⟨s, quiet_leads (show Opc.invokestatic ≠ Opc.return_ by decide) s, rfl⟩
  | false =>
    exact ⟨s, quiet_leads (show Opc.aload_0 ≠ Opc.return_ by decide) s, s,
      quiet_leads (show Opc.invokespecial ≠ Opc.return_ by decide) s, rfl⟩

/-- The hooks of a plain constructor. -/
def plainHooks : List HookEntry := [constructorInsert "0" 0, constructorInsert "1" 4]

theorem rebuild_plainHooks : ∃ rebuilt, rebuild (constructorBytes plainConstructor) plainHooks = .ok rebuilt := by
  have hrebuild : (rebuild (constructorBytes plainConstructor) plainHooks).toOption.isSome = true := by decide +kernel
  cases hresult : rebuild (constructorBytes plainConstructor) plainHooks with
  | error e =>
    rw [hresult] at hrebuild
    cases hrebuild
  | ok rebuilt => exact ⟨rebuilt, rfl⟩

theorem parse_plainConstructor :
    classfileParse (constructorBytes plainConstructor) = .ok (constructorClass plainConstructor) := by
  decide +kernel

theorem rebuilt_visible_runs_plain : ∃ rebuilt tree stored old new,
    rebuild (constructorBytes plainConstructor) plainHooks = .ok rebuilt ∧
      transformAll (applicationOrder plainHooks) (constructorClass plainConstructor) = .ok () tree ∧
      codeGraph plainConstructor = .ok old ∧ codeOf tree 0 = some stored ∧ codeGraph stored = .ok new ∧
      SameVisibleRuns quietMeaning id old new := by
  have hload : codeEditorLoad plainConstructor (constructorClass plainConstructor).constantPool = .ok plainEditor := by
    decide
  obtain ⟨rebuilt, hrebuild⟩ := rebuild_plainHooks
  obtain ⟨tree, hrun, -, -, hmethods⟩ := rebuilt_visible_runs parse_plainConstructor hrebuild
  obtain ⟨stored, new, hstored, hnew, hvisible⟩ := hmethods (text "<init>") (text "()V") 0
    ⟨0x1, 5, 6, [plainConstructor]⟩
    plainConstructor _ (by decide) (by decide) (codeGraph_of_load hload) (by decide)
  exact ⟨rebuilt, tree, stored, _, new, hrebuild, hrun, codeGraph_of_load hload, hstored, hnew,
    hvisible quietMeaning id fun _ _ _ _ _ => quiet_returns _ _⟩

/-! ## The hooks in place -/

/-- The calls of the hooks of a method, before each instruction of its original body. -/
def hookCalls (tree : ClassFile) (isStatic : Bool) (blocks : Nat → List HookEntry) (k : Nat) : List Instruction :=
  (blocks k).flatMap fun h => hookCall tree isStatic h.addedName

section Woven

variable {tree tree' : ClassFile} {name signature : Bytes} {index : Nat} {flags : UInt16} {original : InstructionList}
  {maxLocals maxStack callIndex : Nat} {code : AttributeInfo} {old : Body (Option Nat)}

/-- The graph of a method while hooks are applied. -/
def WovenGraph (old : Body (Option Nat)) (isStatic : Bool) (blocks : Nat → List HookEntry)
    (tree : ClassFile) (index : Nat) :
    Prop :=
  ∃ code new, codeOf tree index = some code ∧ codeGraph code = .ok new ∧
    WovenBody old new (hookCalls tree isStatic blocks)

theorem outside_hookCalls {isStatic : Bool} {blocks : Nat → List HookEntry} {k : Nat} :
    ∀ n ∈ hookCalls tree isStatic blocks k, outsideSubroutines n.opcode = true := by
  intro n hn
  obtain ⟨h, -, hcall⟩ := List.mem_flatMap.mp hn
  rw [hookCall] at hcall
  split at hcall
  · exact outside_of_fallsThrough (falls_hookNodes _ _ n hcall)
  · cases hcall

theorem hookCalls_edits {isStatic : Bool} {blocks : Nat → List HookEntry} (hedits : Edits tree tree')
    (hhooked : HookedBody original isStatic (fun k => (blocks k).map (·.addedName)) tree index) :
    hookCalls tree' isStatic blocks = hookCalls tree isStatic blocks := by
  funext k
  refine List.flatMap_congr fun h hmem => hookCall_edits hedits (hhooked.declared k h.addedName ?_)
  exact List.mem_map_of_mem hmem

theorem hookCalls_prependBlock {isStatic : Bool} {blocks : Nat → List HookEntry} {h : HookEntry}
    {methodref : UInt16} (j : Nat)
    (href : hookRef tree h.addedName = some methodref) : hookCalls tree isStatic (prependBlock blocks j [h]) =
      prependBlock (hookCalls tree isStatic blocks) j (hookNodes isStatic methodref) := by
  funext k
  by_cases hk : k = j
  · rw [hk, hookCalls, prependBlock_self, prependBlock_self, List.flatMap_append, List.flatMap_singleton,
      hookCall_of_ref href]
    rfl
  · rw [hookCalls, prependBlock_of_ne hk, prependBlock_of_ne hk]
    rfl

/-- A transform for another method. -/
theorem WovenGraph.elsewhere {blocks : Nat → List HookEntry} {h : HookEntry}
    (hr : Rebuilding name signature index flags original maxLocals maxStack callIndex tree blocks)
    (hwoven : WovenGraph old (hasFlag flags Acc.static_) blocks tree index)
    (hne : ¬(h.name = name ∧ h.signature = signature)) (hrun : h.transform tree = .ok () tree') :
    WovenGraph old (hasFlag flags Acc.static_) blocks tree' index := by
  obtain ⟨m, hfind, -⟩ := hr.located
  obtain ⟨hedits, hsame⟩ := transform_elsewhere hr.wellFormed hfind hne hrun
  obtain ⟨code, new, hcode, hnew, hbody⟩ := hwoven
  refine ⟨code, new, hedits.codeOf hcode hsame, hnew, ?_⟩
  rw [hookCalls_edits hedits hr.hooked]
  exact hbody

/-- A hook in the method, at a point before which there is none yet. -/
theorem WovenGraph.insert {blocks : Nat → List HookEntry} {h : HookEntry}
    (hr : Rebuilding name signature index flags original maxLocals maxStack callIndex tree blocks)
    (hwoven : WovenGraph old (hasFlag flags Acc.static_) blocks tree index)
    (hlength : old.instructions.length = original.items.length) {j : Nat} (hcalls : h.callsIn name signature = true)
    (hposition : hookPosition (name == text "<init>") (original.start (callIndex + 1)) h = original.start j)
    (hj : j < original.items.length) (hempty : ∀ k < j, blocks k = []) (hrun : h.transform tree = .ok () tree') :
    WovenGraph old (hasFlag flags Acc.static_) (prependBlock blocks j [h]) tree' index := by
  obtain ⟨m, hfind, rfl⟩ := hr.located
  obtain ⟨code, new, hcode, hnew, hbody⟩ := hwoven
  obtain ⟨hkind, rfl, rfl⟩ := callsIn_iff.mp hcalls
  obtain ⟨index', m', cf, code', stored, editor, point, methodref, hhook⟩ := inserted_transform hcalls hrun
  have hsame := hhook.located
  rw [hfind] at hsame
  cases hsame
  have hfound := hhook.into.found
  rw [hcode] at hfound
  cases hfound
  obtain ⟨at_, extraStack, hat, hatEditor, hpoint, hstored⟩ := hhook.graph hnew
  -- the point that is used is the start of instruction `j`, which has not moved
  obtain ⟨hle, hstarts⟩ := hr.hooked.start hcode hhook.into.loaded
  obtain rfl : at_ = j := by
    rw [hr.point hhook hposition, ← hstarts j (Nat.le_of_lt hj) fun k hk => by rw [hempty k hk]; rfl] at hpoint
    exact (start_eq_iff (Nat.lt_of_lt_of_le hj hle)).mp hpoint
  refine ⟨stored, _, hhook.into.kept, hstored, ?_⟩
  rw [hookCalls_prependBlock at_ hhook.hookRef_after, hookCalls_edits (edits_transform hr.wellFormed hrun) hr.hooked]
  refine hbody.insert (fun k hk => ?_) (hlength ▸ Nat.le_of_lt hj) _ extraStack
  rw [hookCalls, hempty k hk]
  rfl

/-- Hooks that come with the last point first are woven in, with the handlers. -/
theorem WovenGraph.run {list : List HookEntry}
    (hr : Rebuilding name signature index flags original maxLocals maxStack callIndex tree fun _ => [])
    (hcode : codeOf tree index = some code) (hold : codeGraph code = .ok old)
    (hlength : old.instructions.length = original.items.length)
    (hinserts : ∀ h ∈ list, h.name = name → h.signature = signature → h.kind = .insertCall)
    (hadded : ∀ h ∈ list, h.callsIn name signature = true → name = text "<init>" → h.addedName ≠ text "<init>")
    (hstarts : ∀ h ∈ list, h.callsIn name signature = true → ∃ j < original.items.length,
      hookPosition (name == text "<init>") (original.start (callIndex + 1)) h = original.start j)
    (hsorted : (list.filter (·.callsIn name signature)).Pairwise fun a b =>
      hookPosition (name == text "<init>") (original.start (callIndex + 1)) b ≤
        hookPosition (name == text "<init>") (original.start (callIndex + 1)) a)
    (hrun : transformAll list tree = .ok () tree') :
    WovenGraph old (hasFlag flags Acc.static_) (fun k =>
      (hooksAt name signature (original.start (callIndex + 1)) (original.start k) list).reverse) tree' index := by
  -- what the hooks before the last one have done is known of the tree in which the last one is applied
  induction list using List.reverseRecOn generalizing tree' with
  | nil =>
    cases hrun
    exact ⟨code, old, hcode, hold, .refl old⟩
  | append_singleton list h ih =>
    rw [transformAll_append] at hrun
    obtain ⟨_, cf, hbefore, hlast⟩ := exists_of_bind_ok hrun
    obtain ⟨_, cf', hfirst, hrest⟩ := exists_of_bind_ok hlast
    cases hrest
    have front {p : HookEntry → Prop} (hall : ∀ x ∈ list ++ [h], p x) : ∀ x ∈ list, p x :=
      fun x hmem => hall x (List.mem_append_left _ hmem)
    have hmem : h ∈ list ++ [h] := List.mem_append_right _ (List.mem_singleton_self h)
    rw [List.filter_append, List.pairwise_append] at hsorted
    have hwoven := ih (front hinserts) (front hadded) (front hstarts) hsorted.1 hbefore
    have hmid := hr.run (front hinserts) (front hadded) (front hstarts) hsorted.1 (fun _ _ _ _ _ => rfl) hbefore
    simp only [List.append_nil] at hmid
    by_cases hcalls : h.callsIn name signature = true
    · obtain ⟨j, hj, hposition⟩ := hstarts h hmem hcalls
      have hempty : ∀ k < j, (hooksAt name signature (original.start (callIndex + 1)) (original.start k) list).reverse =
        [] := by
        intro k hk
        refine List.reverse_eq_nil_iff.mpr (List.filter_eq_nil_iff.mpr fun x hx htrue => ?_)
        obtain ⟨hxcalls, hxat⟩ := Bool.and_eq_true_iff.mp htrue
        have hle := hsorted.2.2 x (List.mem_filter.mpr ⟨hx, hxcalls⟩) h (by simp [hcalls])
        rw [hposition, beq_iff_eq.mp hxat] at hle
        have := InstructionList.start_lt hk (Nat.le_of_lt hj)
        omega
      have hinserted := hwoven.insert hmid hlength hcalls hposition hj hempty hfirst
      have hblocks : (fun k => (hooksAt name signature (original.start (callIndex + 1)) (original.start k)
          (list ++ [h])).reverse) = prependBlock (fun k =>
            (hooksAt name signature (original.start (callIndex + 1)) (original.start k) list).reverse) j [h] := by
        funext k
        rw [hooksAt, List.filter_append, List.reverse_append]
        by_cases hk : k = j
        · rw [hk, prependBlock_self, List.filter_cons_of_pos (by rw [hcalls, hposition]; simp)]
          rfl
        · have hne : original.start j ≠ original.start k := fun heq => hk ((start_eq_iff hj).mp heq)
          rw [prependBlock_of_ne hk, List.filter_cons_of_neg (by rw [hposition]; simp [hne])]
          rfl
      rw [hblocks]
      exact hinserted
    · have hne : ¬(h.name = name ∧ h.signature = signature) := by
        rintro ⟨hname, hsignature⟩
        exact hcalls (callsIn_iff.mpr ⟨hinserts h hmem hname hsignature, hname, hsignature⟩)
      have hblocks (offset : Nat) : hooksAt name signature (original.start (callIndex + 1)) offset (list ++ [h]) =
          hooksAt name signature (original.start (callIndex + 1)) offset list := by
        rw [hooksAt, List.filter_append, List.filter_cons_of_neg (by simp [hcalls]), List.filter_nil, List.append_nil]
        rfl
      simp only [hblocks]
      exact hwoven.elsewhere hmid hne hfirst

end Woven

section Rebuilt

variable {cf tree : ClassFile} {name signature : Bytes} {index : Nat} {m : MemberInfo} {code : AttributeInfo}
  {original : InstructionList} {old : Body (Option Nat)} {hooks : List HookEntry}

theorem length_codeGraph (horiginal : codeInstructions code = .ok original) (hold : codeGraph code = .ok old) :
    old.instructions.length = original.items.length := by
  obtain ⟨parsed, hparse, hlist⟩ := bind_ok horiginal
  rw [codeGraph, bind_of_ok hparse, bind_of_ok hlist] at hold
  cases hold
  simp [CodeEditor.resolve, CodeEditor.body, Body.map]

/-- A method with hooks, before the first of them is applied. -/
theorem rebuilding_original (hw : cf.WellFormed) (hfind : findMethod cf name signature = some (index, m))
    (hcode : codeOf cf index = some code) (horiginal : codeInstructions code = .ok original)
    (hhooks : ∀ h ∈ hooks, h.name = name → h.signature = signature → h.kind = .insertCall ∧
      ∃ j < original.items.length, h.bytecodeOffset.toNat = original.start j)
    (hanalysable : name = text "<init>" → Analysable cf code)
    (hany : ∃ h ∈ hooks, h.callsIn name signature = true)
    (hrun : transformAll (applicationOrder hooks) cf = .ok () tree) :
    ∃ maxLocals maxStack callIndex,
      Rebuilding name signature index m.accessFlags original maxLocals maxStack callIndex cf (fun _ => []) ∧
      (name = text "<init>" → ∀ editor, codeEditorLoad code cf.constantPool = .ok editor →
        constructorInitOffset cf editor = .found (original.start (callIndex + 1))) ∧
      ∀ h ∈ applicationOrder hooks, h.callsIn name signature = true → ∃ j < original.items.length,
        hookPosition (name == text "<init>") (original.start (callIndex + 1)) h = original.start j := by
  have hasked : ∀ h ∈ applicationOrder hooks, h.callsIn name signature = true → ∃ j < original.items.length,
      h.bytecodeOffset.toNat = original.start j := by
    intro h hmem hcalls
    obtain ⟨-, hname, hsignature⟩ := callsIn_iff.mp hcalls
    exact (hhooks h (mem_applicationOrder.mp hmem) hname hsignature).2
  by_cases hinit : name = text "<init>"
  · subst hinit
    obtain ⟨h, hmem, hcalls⟩ := hany
    obtain ⟨maxLocals, maxStack, callIndex, htyped, hinside, hfound⟩ := typedBody_original hw hfind hcode horiginal
      (hanalysable rfl) (fun h hmem hname hsignature => (hhooks h (mem_applicationOrder.mp hmem) hname hsignature).1)
      ⟨h, mem_applicationOrder.mpr hmem, hcalls⟩ hrun
    refine ⟨maxLocals, maxStack, callIndex, ⟨hw, ⟨m, hfind, rfl⟩, hookedBody_original _ hcode horiginal,
      fun _ => ⟨htyped, Nat.lt_of_succ_lt hinside, fun _ _ => rfl⟩⟩, fun _ => hfound, fun h hmem hcalls => ?_⟩
    obtain ⟨j, hj, hoffset⟩ := hasked h hmem hcalls
    rw [hookPosition, if_pos (beq_self_eq_true _)]
    rcases Nat.le_total h.bytecodeOffset.toNat (original.start (callIndex + 1)) with hle | hle
    · exact ⟨callIndex + 1, hinside, Nat.max_eq_right hle⟩
    · exact ⟨j, hj, (Nat.max_eq_left hle).trans hoffset⟩
  · refine ⟨0, 0, 0, ⟨hw, ⟨m, hfind, rfl⟩, hookedBody_original _ hcode horiginal, fun htrue => absurd htrue hinit⟩,
      fun htrue => absurd htrue hinit, fun h hmem hcalls => ?_⟩
    rw [hookPosition, if_neg (fun htrue => hinit (beq_iff_eq.mp htrue))]
    exact hasked h hmem hcalls

/-- The graph of a method behind a rebuild. -/
theorem wovenGraph_of_transformAll (hw : cf.WellFormed) (hfind : findMethod cf name signature = some (index, m))
    (hcode : codeOf cf index = some code) (horiginal : codeInstructions code = .ok original)
    (hold : codeGraph code = .ok old) (hnamed : ∀ h ∈ hooks, h.NamedByInstall)
    (hhooks : ∀ h ∈ hooks, h.name = name → h.signature = signature → h.kind = .insertCall ∧
      ∃ j < original.items.length, h.bytecodeOffset.toNat = original.start j)
    (hanalysable : name = text "<init>" → (∃ h ∈ hooks, h.callsIn name signature = true) → Analysable cf code)
    (hrun : transformAll (applicationOrder hooks) cf = .ok () tree) :
    ∃ callEnd, (name = text "<init>" → (∃ h ∈ hooks, h.callsIn name signature = true) →
        ∀ editor, codeEditorLoad code cf.constantPool = .ok editor → constructorInitOffset cf editor = .found callEnd) ∧
      (∀ k, original.items.length < k → hooksAt name signature callEnd (original.start k)
        (applicationOrder hooks) = []) ∧
      WovenGraph old (hasFlag m.accessFlags Acc.static_) (fun k => (hooksAt name signature callEnd (original.start k)
        (applicationOrder hooks)).reverse) tree index := by
  by_cases hany : ∃ h ∈ hooks, h.callsIn name signature = true
  · obtain ⟨maxLocals, maxStack, callIndex, hr, hfound, hstarts⟩ := rebuilding_original hw hfind hcode horiginal hhooks
      (fun hinit => hanalysable hinit hany) hany hrun
    refine ⟨_, fun hinit _ => hfound hinit, fun k hk => List.filter_eq_nil_iff.mpr fun h hmem htrue => ?_, ?_⟩
    · obtain ⟨hcalls, hat⟩ := Bool.and_eq_true_iff.mp htrue
      obtain ⟨j, hj, hposition⟩ := hstarts h hmem hcalls
      rw [hposition, beq_iff_eq] at hat
      have := (start_eq_iff hj).mp hat
      omega
    · exact WovenGraph.run hr hcode hold (length_codeGraph horiginal hold)
        (fun h hmem hname hsignature => (hhooks h (mem_applicationOrder.mp hmem) hname hsignature).1)
        (fun h hmem hcalls _ => (hnamed h (mem_applicationOrder.mp hmem)).ne_init (callsIn_iff.mp hcalls).1) hstarts
        ((descending_applicationOrder name signature hooks).imp fun h => hookPosition_mono h) hrun
  · have hnone (offset : Nat) : hooksAt name signature 0 offset (applicationOrder hooks) = [] :=
      List.filter_eq_nil_iff.mpr fun h hmem htrue =>
        hany ⟨h, mem_applicationOrder.mp hmem, (Bool.and_eq_true_iff.mp htrue).1⟩
    have hother : ∀ h ∈ applicationOrder hooks, ¬(h.name = name ∧ h.signature = signature) := by
      rintro h hmem ⟨hname, hsignature⟩
      have hkind := (hhooks h (mem_applicationOrder.mp hmem) hname hsignature).1
      exact hany ⟨h, mem_applicationOrder.mp hmem, callsIn_iff.mpr ⟨hkind, hname, hsignature⟩⟩
    obtain ⟨-, hedits, hsame⟩ := transformAll_elsewhere hw hfind hother hrun
    refine ⟨0, fun _ h => absurd h hany, fun k _ => hnone _, code, old, hedits.codeOf hcode hsame, hold, ?_⟩
    simp only [hnone, List.reverse_nil]
    exact .refl old

end Rebuilt

/-- Each method of a tree that is not replaced, and whose hooks ask for starts of instructions, can make the steps of
the original one with the calls of `blocks k` run in order whenever control arrives at instruction `k`, and no others,
whatever the instructions do. The blocks hold the hooks that were recorded for their instruction; in a constructor that
the verifier accepts, the offsets before the end of the initialising call stand for that end. -/
def RunsHooked (cf tree : ClassFile) (hooks : List HookEntry) : Prop :=
  ∀ name signature index m code original old, findMethod cf name signature = some (index, m) →
    codeOf cf index = some code → codeInstructions code = .ok original → codeGraph code = .ok old →
    (∀ h ∈ hooks, h.name = name → h.signature = signature → h.kind = .insertCall ∧
      ∃ j < original.items.length, h.bytecodeOffset.toNat = original.start j) →
    (name = text "<init>" → (∃ h ∈ hooks, h.callsIn name signature = true) → Analysable cf code) →
    ∃ callEnd stored new blocks, (name = text "<init>" → (∃ h ∈ hooks, h.callsIn name signature = true) → ∀ editor,
        codeEditorLoad code cf.constantPool = .ok editor → constructorInitOffset cf editor = .found callEnd) ∧
      codeOf tree index = some stored ∧ codeGraph stored = .ok new ∧
      (∀ k, RunsInOrder (hooksAt name signature callEnd (original.start k) hooks) (blocks k)) ∧
      RunsWith old new (callBlocks (hookCalls tree (hasFlag m.accessFlags Acc.static_) blocks))

theorem runsHooked_of_transformAll {cf tree : ClassFile} {hooks : List HookEntry} (hw : cf.WellFormed)
    (hnamed : ∀ h ∈ hooks, h.NamedByInstall) (hrun : transformAll (applicationOrder hooks) cf = .ok () tree) :
    RunsHooked cf tree hooks := by
  intro name signature index m code original old hfind hcode horiginal hold hhooks hanalysable
  obtain ⟨callEnd, hfound, hbeyond, stored, new, hstored, hnew, hbody⟩ :=
    wovenGraph_of_transformAll hw hfind hcode horiginal hold hnamed hhooks hanalysable hrun
  refine ⟨callEnd, stored, new, _, hfound, hstored, hnew,
    fun k => runsInOrder_hooksAt name signature callEnd (original.start k) hooks,
    (hbody.interleaved (fun k hk => ?_) fun _ => outside_hookCalls).runsWith⟩
  rw [hookCalls, hbeyond k (by rw [← length_codeGraph horiginal hold]; exact hk)]
  rfl

/-- **A rebuilt method runs like the original one with its hooks in place**, for every class file and every list of
recorded hooks that a rebuild accepts, where the hooks ask for starts of instructions and constructors are verified. -/
theorem rebuilt_runs {bytes rebuilt : Bytes} {cf : ClassFile} {hooks : List HookEntry}
    (hparse : classfileParse bytes = .ok cf) (hnamed : ∀ h ∈ hooks, h.NamedByInstall)
    (hrebuild : rebuild bytes hooks = .ok rebuilt) :
    ∃ tree, transformAll (applicationOrder hooks) cf = .ok () tree ∧
      (∀ written, classfileSerialize tree = .ok written → written.length < 2 ^ 31 →
        classfileParse rebuilt = .ok tree) ∧ RunsHooked cf tree hooks := by
  obtain ⟨tree, hrun, hwritten⟩ := rebuild_ok hparse hrebuild
  exact ⟨tree, hrun, hwritten, runsHooked_of_transformAll (classfileParse_sound hparse).2 hnamed hrun⟩

theorem rebuilt_runs_plain : ∃ rebuilt tree stored old new blocks,
    rebuild (constructorBytes plainConstructor) plainHooks = .ok rebuilt ∧
      transformAll (applicationOrder plainHooks) (constructorClass plainConstructor) = .ok () tree ∧
      codeOf tree 0 = some stored ∧ codeGraph stored = .ok new ∧
      (∀ k, RunsInOrder (hooksAt (text "<init>") (text "()V") 4 (plainEditor.instructions.start k) plainHooks)
        (blocks k)) ∧
      RunsWith old new (callBlocks (hookCalls tree false blocks)) := by
  have hload : codeEditorLoad plainConstructor (constructorClass plainConstructor).constantPool = .ok plainEditor := by
    decide
  have hnamed : ∀ h ∈ plainHooks, h.NamedByInstall := by
    simp only [plainHooks, List.forall_mem_cons, constructorInsert_named, true_and]
    exact fun _ hmem => absurd hmem List.not_mem_nil
  obtain ⟨rebuilt, hrebuild⟩ := rebuild_plainHooks
  obtain ⟨tree, hrun, -, hmethods⟩ := rebuilt_runs parse_plainConstructor hnamed hrebuild
  obtain ⟨callEnd, stored, new, blocks, hfound, hstored, hnew, horder, hruns⟩ := hmethods (text "<init>") (text "()V") 0
    ⟨0x1, 5, 6, [plainConstructor]⟩ plainConstructor plainEditor.instructions _ (by decide) (by decide)
    (codeInstructions_of_load hload) (codeGraph_of_load hload) (by decide)
    fun _ _ => ⟨plainEditor, hload, verifies_plain.verified, verifies_plain.counted (by decide)⟩
  have hcall := hfound rfl ⟨constructorInsert "0" 0, List.mem_cons_self .., by decide⟩ plainEditor hload
  rw [show constructorInitOffset (constructorClass plainConstructor) plainEditor = .found 4 by decide] at hcall
  cases hcall
  exact ⟨rebuilt, tree, stored, _, new, blocks, hrebuild, hrun, hstored, hnew, horder, hruns⟩

end Jni2Hook
