import Jni2Hook.Code.Execution
import Jni2Hook.Transform.GuardFlow
import Jni2Hook.Transform.InsertionPoint

/-!
# Running a body with calls

What the transforms that insert calls do to the runs of a method, for every meaning of the instructions. The constants
of the class keep their indices, so that an old operand says in the new class what it said in the old one.

* `inserted_call_runs`: the call runs whenever control arrives at its point; a call that returns is not seen.
* `guarded_call_runs`: the prologue of a guarded call runs whenever control arrives at the first instruction; a guard
  that lets the method run is not seen, and behind one that does not only the path around the body runs.
-/

namespace Jni2Hook

open Lib

/-! ## A call at a point -/

/-- The call as one of all transforms. -/
def InsertionCall.transform : InsertionCall → TransformCall
  | .hook name descriptor atOffset hookName => .insertCall name descriptor atOffset hookName
  | .forward name descriptor atOffset owner callee argument forwardArguments =>
    .insertStaticCall name descriptor atOffset owner callee argument forwardArguments

theorem InsertionCall.run_transform (call : InsertionCall) : call.transform.run = call.run := by
  cases call <;> rfl

/-- **A call runs whenever control arrives at its point, and nothing else has changed.** For every tree and every call
that succeeds, and whatever the instructions do: at each place the new body can make the steps of the old one with the
inserted run before the instruction that the point names, on every way to it, and no others. When the run hands on every
frame and shows nothing, what is seen of the method is what was seen of it. -/
theorem inserted_call_runs {call : InsertionCall} {cf cf' : ClassFile} (hw : cf.WellFormed)
    (h : call.run cf = .ok () cf') :
    ∃ site stored old new nodes at_, call.site cf = some site ∧ codeOf cf site.index = some site.code ∧
      codeOf cf' site.index = some stored ∧ codeGraph site.code = .ok old ∧ codeGraph stored = .ok new ∧
      site.instructions.names (site.point call.atOffset) = some at_ ∧ CallRun nodes ∧
      cf.constantPool.entries <+: cf'.constantPool.entries ∧ RunsWith old new (callBlocks (callAt at_ nodes)) ∧
      ∀ {φ ε : Type} (sem : FrameMeaning φ ε) (visible : ε → Bool), Returns sem visible nodes →
        SameVisibleRuns sem visible old new := by
  obtain ⟨index, method, tree, code, stored, editor, point, nodes, hprepare, hinto⟩ := call.run_ok h
  obtain ⟨site, hsite, rfl, rfl, hinstructions, hpoint, hlt⟩ := hinto.point_eq hprepare
  obtain ⟨edited, extraStack, hinsert, hstore⟩ := hinto.inserted
  obtain ⟨at_, hnames, hat, rfl⟩ := hinto.names_point hlt
  obtain ⟨old, new, hold, hnew, rfl, hlength⟩ := graph_inserted hinto.loaded hat hinto.isCall hinsert hstore
  have hkeeps := keeps_transformCall cf.constantPool.entries call.transform cf ⟨hw, List.prefix_rfl⟩
  rw [InsertionCall.run_transform] at hkeeps
  have hat' : at_ ≤ old.instructions.length := by rw [hlength]; exact hat
  have hfalls : ∀ n ∈ nodes, fallsThrough n.opcode = true := fun n hn =>
    fallsThrough_of_isStraightLine (hinto.isCall.encodable n hn).2
  refine ⟨site, stored, old, _, nodes, at_, hsite, hinto.found, hinto.kept, hold, hnew, ?_, hinto.isCall,
    (hkeeps.of_ok h).kept, runsWith_insert hat' (fun n hn => outside_of_fallsThrough (hfalls n hn)) extraStack,
    fun sem visible hreturns => sameVisibleRuns_insert hat' hfalls extraStack hreturns⟩
  rw [hinstructions, hpoint]
  exact hnames

theorem loopClass_wellFormed : loopClass.WellFormed := by
  have hparse : classfileParse ((classfileSerialize loopClass).toOption.getD []) = .ok loopClass := by decide +kernel
  exact (classfileParse_sound hparse).2

/-- A method that loops without end calls the hook each time. -/
theorem inserted_call_runs_loop : ∃ cf' site stored old new nodes, (hookAt 0).run loopClass = .ok () cf' ∧
    (hookAt 0).site loopClass = some site ∧ codeOf cf' site.index = some stored ∧ codeGraph site.code = .ok old ∧
    codeGraph stored = .ok new ∧ CallRun nodes ∧ RunsWith old new (callBlocks (callAt 0 nodes)) := by
  obtain ⟨cf', h⟩ := ok_of_succeeded (r := (hookAt 0).run loopClass) (by decide +kernel)
  obtain ⟨site, stored, old, new, nodes, at_, hsite, -, hstored, hold, hnew, hnames, hcall, -, hruns, -⟩ :=
    inserted_call_runs loopClass_wellFormed h
  have hpoint : ((hookAt 0).site loopClass).map (fun s => s.instructions.names (s.point (hookAt 0).atOffset)) =
      some (some 0) := by decide +kernel
  rw [hsite, Option.map_some, hnames] at hpoint
  cases hpoint
  exact ⟨cf', site, stored, old, new, nodes, h, hsite, hstored, hold, hnew, hcall, hruns⟩

/-! ## The prologue as a block -/

/-- The prologue of a guarded call: its branch leads behind it. -/
def entryBlock (guard skip : List Instruction) : List (BodyInstruction Nat) :=
  guard.map (·.plain) ++ ⟨Opc.ifeq, false, .branch 0, [guard.length + 1 + skip.length]⟩ :: skip.map (·.plain)

/-- A block before the first instruction. -/
def atEntry (block : List (BodyInstruction Nat)) :
    Nat → List (BodyInstruction Nat) := prependBlock (fun _ => []) 0 block

/-- The branch of the prologue, without its target. -/
def guardBranch : BodyInstruction Unit := ⟨Opc.ifeq, false, .branch 0, [()]⟩

section Entry

variable {guard skip : List Instruction}

theorem length_entryBlock (guard skip : List Instruction) :
    (entryBlock guard skip).length = guard.length + 1 + skip.length := by
  rw [entryBlock, List.length_append, List.length_cons, List.length_map, List.length_map]
  omega

theorem atEntry_zero (block : List (BodyInstruction Nat)) : atEntry block 0 = block := by
  rw [atEntry, prependBlock_self, List.append_nil]

theorem atEntry_of_pos {block : List (BodyInstruction Nat)} {i : Nat} (hi : i ≠ 0) : atEntry block i = [] := by
  rw [atEntry, prependBlock_of_ne hi]

theorem weavePosition_atEntry (block : List (BodyInstruction Nat)) :
    weavePosition (atEntry block) = shiftPosition 0 block.length := by
  funext t
  rw [atEntry, weavePosition_prependBlock block (fun _ _ => rfl), weavePosition_of_empty (fun _ _ => rfl)]
  rfl

/-- The prologue where it stands. -/
theorem placed_entry (guard skip : List Instruction) : placedBlock (atEntry (entryBlock guard skip)) =
    prependBlock (fun _ => []) 0 (entryNodes (guard.map (·.plain)) (skip.map (·.plain))) := by
  funext j
  by_cases hj : j = 0
  · subst hj
    rw [placedBlock, atEntry_zero, prependBlock_self, List.append_nil, weavePosition]
    simp [entryBlock, entryNodes, entryBranch, BodyInstruction.map, Instruction.plain, Function.comp_def]
  · rw [placedBlock, atEntry_of_pos hj, prependBlock_of_ne hj]
    rfl

/-- An instruction of the block stands in the prologue. -/
theorem opcode_entryBlock {node : BodyInstruction Nat} (h : node ∈ entryBlock guard skip) :
    ∃ x ∈ entryNodes (guard.map (·.plain)) (skip.map (·.plain)), node.opcode = x.opcode := by
  rcases List.mem_append.mp h with hmem | hmem
  · obtain ⟨x, hx, rfl⟩ := List.mem_map.mp hmem
    exact ⟨x.plain, List.mem_append_left _ (List.mem_map_of_mem hx), rfl⟩
  · rcases List.mem_cons.mp hmem with rfl | hmem
    · exact ⟨_, List.mem_append_right _ List.mem_cons_self, rfl⟩
    · obtain ⟨x, hx, rfl⟩ := List.mem_map.mp hmem
      exact ⟨x.plain, List.mem_append_right _ (List.mem_cons_of_mem _ (List.mem_map_of_mem hx)), rfl⟩

theorem interleaved_entry (old : Body (Option Nat))
    (hshape : EntryShape (guard.map (·.plain)) (skip.map (·.plain))) (maxStack : UInt16) :
    Interleaved old { (old.spliceShifted 0 (entryNodes (guard.map (·.plain)) (skip.map (·.plain)))) with
      maxStack := maxStack } (atEntry (entryBlock guard skip)) := by
  have hlen : (entryNodes (guard.map (·.plain)) (skip.map (·.plain))).length = (entryBlock guard skip).length := by
    rw [length_entryNodes, length_entryBlock, List.length_map, List.length_map]
  refine ⟨?_, ?_, fun j hj => atEntry_of_pos (by omega), fun j node hnode t ht => ?_, fun j node hnode => ?_⟩
  · rw [placed_entry, weave_prependBlock _ _ (fun _ _ => rfl) (Nat.zero_le _), weave_empty,
      weavePosition_atEntry, ← hlen]
    rfl
  · rw [weavePosition_atEntry, ← hlen]
    rfl
  · by_cases hj : j = 0
    · subst hj
      rw [atEntry_zero] at hnode ⊢
      rcases List.mem_append.mp hnode with hmem | hmem
      · obtain ⟨_, -, rfl⟩ := List.mem_map.mp hmem
        cases ht
      · rcases List.mem_cons.mp hmem with rfl | hmem
        · rw [List.mem_singleton.mp ht, length_entryBlock]
        · obtain ⟨_, -, rfl⟩ := List.mem_map.mp hmem
          cases ht
    · rw [atEntry_of_pos hj] at hnode
      cases hnode
  · by_cases hj : j = 0
    · subst hj
      rw [atEntry_zero] at hnode
      obtain ⟨x, hx, hsame⟩ := opcode_entryBlock hnode
      rw [hsame]
      exact hshape.outside x hx
    · rw [atEntry_of_pos hj] at hnode
      cases hnode

/-! ## Runs through the prologue -/

theorem flow_guard {n : Nat} {o : BodyInstruction Unit} (hfalls : ∀ x ∈ guard, fallsThrough x.opcode = true)
    (ho : (guard.map (·.plain))[n]? = some o) :
    (blockFlow (entryBlock guard skip))[0 + n]? = some (o, [(.fallThrough, 0 + n + 1)]) := by
  rw [List.getElem?_map] at ho
  obtain ⟨node, hnode, rfl⟩ := Option.map_eq_some_iff.mp ho
  have hlt := (List.getElem?_eq_some_iff.mp hnode).1
  rw [Nat.zero_add]
  refine getElem?_straight ?_ (hfalls node (List.mem_of_getElem? hnode))
  rw [entryBlock, List.getElem?_append_left (by rw [List.length_map]; exact hlt), List.getElem?_map, hnode]
  rfl

theorem flow_branch (guard skip : List Instruction) : (blockFlow (entryBlock guard skip))[guard.length]? =
    some (guardBranch, [(.fallThrough, guard.length + 1), (.branch, guard.length + 1 + skip.length)]) := by
  rw [getElem?_blockFlow, entryBlock, List.getElem?_append_right (by rw [List.length_map]),
    List.length_map, Nat.sub_self]
  rfl

theorem flow_skip {n : Nat} {node : Instruction} (hnode : skip[n]? = some node) :
    (blockFlow (entryBlock guard skip))[guard.length + 1 + n]? =
      some (node.plain, (node.plain : BodyInstruction Nat).edgesAt (guard.length + 1 + n)) := by
  rw [getElem?_blockFlow, entryBlock, List.getElem?_append_right (by rw [List.length_map]; omega), List.length_map,
    show guard.length + 1 + n - guard.length = n + 1 by omega, List.getElem?_cons_succ, List.getElem?_map, hnode]
  rfl

variable {φ ε : Type} {sem : FrameMeaning φ ε} {visible : ε → Bool} {s s₁ s₂ s₃ u : φ}

/-- A guard that lets the method run leads to its first instruction. -/
theorem runsTo_entry (hfalls : ∀ x ∈ guard, fallsThrough x.opcode = true)
    (hguard : sem.Passes visible .fallThrough (guard.map (·.plain)) s s₁)
    (hbranch : sem.Leads visible guardBranch s₁ (.goOn .branch u)) :
    RunsTo sem visible (blockFlow (entryBlock guard skip)) 0 s (blockFlow (entryBlock guard skip)).length u := by
  have hcall := hguard.runsTo fun n o ho => @flow_guard guard skip n o hfalls ho
  rw [Nat.zero_add, List.length_map] at hcall
  have hend : RunsTo sem visible (blockFlow (entryBlock guard skip)) (guard.length + 1 + skip.length) u
      (blockFlow (entryBlock guard skip)).length u := by
    rw [length_blockFlow, length_entryBlock]
    exact .refl _ _
  exact hcall.trans (.step (flow_branch guard skip) hbranch (fun t' => by simp) hend)

/-- A guard that does not let it run leads to the path around the body, which leaves. -/
theorem leaves_entry {value : List Instruction} {ret : Instruction}
    (hfalls : ∀ x ∈ guard, fallsThrough x.opcode = true) (hvalue : ∀ x ∈ value, fallsThrough x.opcode = true)
    (hguard : sem.Passes visible .fallThrough (guard.map (·.plain)) s s₁)
    (hbranch : sem.Leads visible guardBranch s₁ (.goOn .fallThrough s₂))
    (hpush : sem.Passes visible .fallThrough (value.map (·.plain)) s₂ s₃)
    (hreturn : sem.Leads visible ret.plain s₃ (.leave u)) :
    Leaves sem visible (blockFlow (entryBlock guard (value ++ [ret]))) s u := by
  have hcall := hguard.runsTo fun n o ho => @flow_guard guard (value ++ [ret]) n o hfalls ho
  rw [Nat.zero_add, List.length_map] at hcall
  have hpushed (n : Nat) (o : BodyInstruction Unit) (ho : (value.map (·.plain))[n]? = some o) :
      (blockFlow (entryBlock guard (value ++ [ret])))[guard.length + 1 + n]? =
        some (o, [(.fallThrough, guard.length + 1 + n + 1)]) := by
    rw [List.getElem?_map] at ho
    obtain ⟨node, hnode, rfl⟩ := Option.map_eq_some_iff.mp ho
    have hlt := (List.getElem?_eq_some_iff.mp hnode).1
    rw [flow_skip (by rw [List.getElem?_append_left hlt]; exact hnode), BodyInstruction.edgesAt]
    simp [Instruction.plain, hvalue node (List.mem_of_getElem? hnode), BodyInstruction.jumps, BodyInstruction.map]
  have hskip := hpush.runsTo hpushed
  rw [List.length_map] at hskip
  exact ⟨_, _, _, _, hcall.trans (.step (flow_branch guard _) hbranch (fun t' => by simp) hskip),
    flow_skip (by rw [List.getElem?_concat_length]), hreturn⟩

end Entry

/-! ## A guarded call -/

/-- **A guard decides whether the method runs, whenever control arrives at its first instruction.** For every guarded
call that succeeds, and whatever the instructions do: at each place the new body can make the steps of the old one with
the prologue before the first instruction, and no others. When every frame passes the guard, what is seen of the method
is what was seen of it; from a frame that the guard keeps out, only the prologue is run, and it leaves as the path
around the body does. -/
theorem guarded_call_runs {name owner callee : Bytes} {d : MethodDescriptor} {valueCallee : Option Bytes}
    {argument : Int} {cf cf' : ClassFile} (hcount : cf.constantPool.count ≤ classfileMaxCount)
    (h : classTransformInsertGuardedCall (some name) (some d.text) (some owner) (some callee) valueCallee argument cf =
      .ok () cf') :
    ∃ index method code stored old new guard value ret, findMethod cf name d.text = some (index, method) ∧
      codeOf cf index = some code ∧ codeOf cf' index = some stored ∧ codeGraph code = .ok old ∧
      codeGraph stored = .ok new ∧
      GuardCall cf'.constantPool owner callee argument (d.argumentCount (hasFlag method.accessFlags Acc.static_))
        (guard.map (·.plain)) ∧
      (SkipPath cf'.constantPool owner argument d.result valueCallee ((value ++ [ret]).map (·.plain)) ↔
        ReadsResult d valueCallee) ∧
      RunsWith old new (atEntry (entryBlock guard (value ++ [ret]))) ∧
      ∀ {φ ε : Type} (sem : FrameMeaning φ ε) (visible : ε → Bool),
        ((∀ s, ∃ s₁, sem.Passes visible .fallThrough (guard.map (·.plain)) s s₁ ∧
            sem.Leads visible guardBranch s₁ (.goOn .branch s)) → SameVisibleRuns sem visible old new) ∧
        ∀ s s₁ s₂ s₃ u, sem.Passes visible .fallThrough (guard.map (·.plain)) s s₁ →
          sem.Leads visible guardBranch s₁ (.goOn .fallThrough s₂) →
          sem.Passes visible .fallThrough (value.map (·.plain)) s₂ s₃ → sem.Leads visible ret.plain s₃ (.leave u) →
          new.Shows sem visible s [] (· = .left u) ∧
            ∀ es y, Path (new.flow.Step sem) (.before 0 s) es y → es.filter visible = [] ∧
              (y = .left u ∨ ∃ k s', k < guard.length + 1 + (value ++ [ret]).length ∧ y = .before k s') := by
  obtain ⟨run⟩ := insertGuardedCall_ok h
  obtain ⟨maxStack, hgraph, -⟩ := run.graph_stored
  rw [run.prologue_eq] at hgraph
  have hguardFalls : ∀ x ∈ run.guard, fallsThrough x.opcode = true := by
    refine goesOn_forwardNodes ?_
    rw [run.parameters_eq]
    exact fun p hp => (mem_described run.argumentCount_le p hp).1
  have hruns : RunsWith run.editor.bare.resolve _ (atEntry (entryBlock run.guard
      (run.value ++ [newNode (returnOpcodeFor run.returns) .none]))) :=
    (interleaved_entry run.editor.bare.resolve run.entryShape maxStack).runsWith
  refine ⟨run.index, run.method, run.code, run.stored, _, _, run.guard, run.value,
    newNode (returnOpcodeFor run.returns) .none, run.findMethod, run.codeOf_before, run.codeOf_after,
    codeGraph_of_load run.loaded, hgraph, ?_, ?_, hruns, fun {φ ε} sem visible => ⟨fun hpass => ?_, ?_⟩⟩
  · rw [run.pool_after]
    exact run.guardCall hcount
  · rw [run.pool_after]
    exact run.skipPath_iff hcount
  · refine hruns.sameVisibleRuns fun i s => ?_
    by_cases hi : i = 0
    · subst hi
      obtain ⟨s₁, hguard, hbranch⟩ := hpass s
      rw [atEntry_zero]
      exact runsTo_entry hguardFalls hguard hbranch
    · rw [atEntry_of_pos hi]
      exact .refl 0 s
  · intro s s₁ s₂ s₃ u hguard hbranch hpush hreturn
    have hleaves := leaves_entry hguardFalls run.guardedValue.goesOn hguard hbranch hpush hreturn
    let block (i : Nat) := blockFlow (atEntry (entryBlock run.guard (run.value ++
      [newNode (returnOpcodeFor run.returns) .none])) i)
    have hblock : Leaves sem visible (block 0) s u := by
      rw [show block 0 = _ from congrArg blockFlow (atEntry_zero _)]
      exact hleaves
    refine ⟨?_, fun es y hpath => ?_⟩
    · obtain ⟨es, hpath, hsilent⟩ := hblock.path (g := run.editor.bare.resolve.flow)
      exact ⟨es, _, (hruns.runs sem s es _).mpr ⟨_, hpath, rfl⟩, hsilent, rfl⟩
    · obtain ⟨x, hmeant, rfl⟩ := (hruns.runs sem s es y).mp hpath
      obtain ⟨hsilent, rfl | ⟨k, s', hk, rfl⟩⟩ := hblock.only hmeant
      · exact ⟨hsilent, .inl rfl⟩
      · rw [show (block 0).length = _ from length_blockFlow _, atEntry_zero, length_entryBlock] at hk
        exact ⟨hsilent, .inr ⟨k, s', hk, by simp [Place.map, blockPosition, weavePosition]⟩⟩

theorem guarded_call_runs_string : ∃ cf' stored old new guard skip, guardString stringClass = .ok () cf' ∧
    codeOf cf' 0 = some stored ∧ codeGraph stored = .ok new ∧
    GuardCall cf'.constantPool (text "G") (text "g") 7 1 (guard.map (·.plain)) ∧
    SkipPath cf'.constantPool (text "G") 7 (some stringType) (some (text "v")) (skip.map (·.plain)) ∧
    RunsWith old new (atEntry (entryBlock guard skip)) := by
  obtain ⟨cf', h⟩ := ok_of_succeeded (r := guardString stringClass) (by decide +kernel)
  obtain ⟨index, method, code, stored, old, new, guard, value, ret, hfind, -, hstored, -, hnew, hguard,
    hskip, hruns, -⟩ :=
    guarded_call_runs (by decide +kernel) h
  have hmethod : (findMethod stringClass (text "m") stringDescriptor.text).map
      (fun m => (m.1, hasFlag m.2.accessFlags Acc.static_)) = some (0, true) := by decide +kernel
  rw [hfind, Option.map_some, Option.some.injEq, Prod.mk.injEq] at hmethod
  obtain ⟨rfl, hstatic⟩ := hmethod
  rw [hstatic] at hguard
  exact ⟨cf', stored, old, new, guard, value ++ [ret], h, hstored, hnew, hguard,
    hskip.mpr ⟨by decide +kernel, by decide +kernel⟩, hruns⟩

end Jni2Hook
