import Jni2Hook.Code.ControlFlow
import Jni2Hook.Lib.Weave

/-!
# Insertions at points of the original body

A body is edited more than once, each time stored and loaded again, and each time the point is an offset of the original
body. From the last point to the first this is well defined: what stands before a point has not moved yet.

* `woven`: the original instructions with the calls of each point before it.
* `WovenFrom`: the instructions of an edited body are woven from the original ones, and the points that can still be
  used are where they were.
* `WovenFrom.insert`: one more insertion.
-/

namespace Jni2Hook

open Lib

/-! ## Weaving -/

/-- The instructions in the view with indices. -/
def InstructionList.view (list : InstructionList) : List (BodyInstruction (Option Nat)) :=
  list.items.map fun node => node.body.map list.names

theorem length_view (list : InstructionList) : list.view.length = list.items.length := List.length_map _

theorem resolve_instructions (editor : CodeEditor) : editor.resolve.instructions = editor.instructions.view := by
  simp [CodeEditor.resolve, Body.map, CodeEditor.body, InstructionList.view]

/-- The original instructions with the calls of each point before it. What referred to an instruction refers to the
first call before it. -/
def woven (calls : Nat → List Instruction) (original : List (BodyInstruction (Option Nat))) :
    List (BodyInstruction (Option Nat)) :=
  weave (fun j => (calls j).map (·.plain)) (original.map (·.map (Option.map (weavePosition calls))))

theorem woven_empty (original : List (BodyInstruction (Option Nat))) : woven (fun _ => []) original = original := by
  have position (t : Nat) : weavePosition (fun _ => ([] : List Instruction)) t = t :=
    weavePosition_of_empty fun _ _ => rfl
  have same (i : BodyInstruction (Option Nat)) :
      i.map (Option.map (weavePosition fun _ => ([] : List Instruction))) = i := by
    obtain ⟨opcode, wide, operand, targets⟩ := i
    simp [BodyInstruction.map, show (weavePosition fun _ => ([] : List Instruction)) = id from funext position]
  simp only [woven, List.map_nil, weave_empty]
  rw [List.map_congr_left fun i _ => same i, List.map_id']

/-- One more call before the first point is a splice of the nodes there. -/
theorem woven_prependBlock {calls : Nat → List Instruction} {j : Nat} (nodes : List Instruction)
    {original : List (BodyInstruction (Option Nat))} (hbelow : ∀ k, k < j → calls k = []) (hj : j ≤ original.length) :
    woven (prependBlock calls j nodes) original =
      spliceAt ((woven calls original).map (·.map (Option.map (shiftPosition j nodes.length)))) j
        (nodes.map (·.plain)) := by
  have blocks : (fun k => (prependBlock calls j nodes k).map (@Instruction.plain (Option Nat))) =
      prependBlock (fun k => (calls k).map (·.plain)) j (nodes.map (·.plain)) := by
    funext k
    by_cases hk : k = j
    · rw [hk, prependBlock_self, prependBlock_self, List.map_append]
    · rw [prependBlock_of_ne hk, prependBlock_of_ne hk]
  have moved : (fun i : BodyInstruction (Option Nat) =>
    i.map (Option.map (weavePosition (prependBlock calls j nodes)))) =
      fun i => (i.map (Option.map (weavePosition calls))).map (Option.map (shiftPosition j nodes.length)) := by
    funext i
    simp only [BodyInstruction.map, List.map_map, Option.map_comp_map]
    rw [show weavePosition (prependBlock calls j nodes) = shiftPosition j nodes.length ∘ weavePosition calls from
      funext fun t => weavePosition_prependBlock nodes hbelow t]
  have plain (nodes : List Instruction) (f : Option Nat → Option Nat) :
      (nodes.map (·.plain)).map (·.map f) = nodes.map (·.plain) := by
    simp [Instruction.plain, BodyInstruction.map]
  unfold woven
  rw [blocks, weave_prependBlock _ _ (fun k hk => by simp [hbelow k hk]) (by simpa using hj),
    map_weave, spliceAt, moved]
  simp only [plain, List.map_map]
  rfl

/-- Instructions woven from the original ones, with the points before the first call where they were. -/
structure WovenFrom (original list : InstructionList) (calls : Nat → List Instruction) : Prop where
  view : list.view = woven calls original.view
  start : ∀ j ≤ original.items.length, (∀ k, k < j → calls k = []) → list.start j = original.start j

theorem WovenFrom.refl (original : InstructionList) : WovenFrom original original fun _ => [] :=
  ⟨(woven_empty _).symm, fun _ _ _ => rfl⟩

theorem WovenFrom.length_le {original list : InstructionList} {calls : Nat → List Instruction}
    (h : WovenFrom original list calls) : original.items.length ≤ list.items.length := by
  rw [← length_view list, h.view, ← length_view original]
  refine le_trans ?_ (length_weave_ge _ _)
  rw [List.length_map]

/-- An insertion at a point of the original body before which nothing was inserted yet. -/
theorem WovenFrom.insert {original : InstructionList} {calls : Nat → List Instruction} {pool : ConstantPool}
    {code target stored : AttributeInfo} {editor edited : CodeEditor} {j : Nat} {nodes : List Instruction}
    {extraStack : UInt16} (h : WovenFrom original editor.instructions calls)
    (hload : codeEditorLoad code pool = .ok editor) (hj : j ≤ original.items.length)
    (hbelow : ∀ k, k < j → calls k = []) (hnodes : ∀ n ∈ nodes, n.Encodable ∧ n.isStraightLine = true)
    (hne : nodes ≠ []) (hinsert : codeEditorInsert editor (original.start j) nodes extraStack = (.ok (), edited))
    (hstore : codeEditorStore edited target = .ok stored) :
    Inserting editor j nodes ∧ ∃ reloaded, codeEditorLoad stored pool = .ok reloaded ∧
      reloaded.instructions = (insertNodes editor j nodes).instructions ∧ reloaded.maxLocals = editor.maxLocals ∧
      WovenFrom original reloaded.instructions (prependBlock calls j nodes) := by
  rw [← h.start j hj hbelow] at hinsert
  obtain ⟨hinserting, reloaded, hre, hins, hview⟩ :=
    reload_inserted_at hload (hj.trans h.length_le) hnodes hne hinsert hstore
  refine ⟨hinserting, reloaded, hre, hins, congrArg Body.maxLocals hview, ?_, fun t ht hempty => ?_⟩
  · have := congrArg Body.instructions hview
    simp only [Body.insert, Body.splice, Body.map, resolve_instructions] at this
    rw [this, h.view, woven_prependBlock nodes hbelow (by rw [length_view]; exact hj)]
  · have htj : t ≤ j := by
      by_contra hlt
      have := hempty j (by omega)
      rw [prependBlock_self] at this
      exact hne (List.append_eq_nil_iff.mp this).1
    rw [hins, hinserting.start_before htj]
    exact h.start t ht fun k hk => hbelow k (by omega)

end Jni2Hook
