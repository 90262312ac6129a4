import Jni2Hook.Code.Flush
import Jni2Hook.Code.FrameGrowth

/-!
# Insertion through a store and a reload

* `codeEditorInsert_ok`: what an insertion that succeeds has checked and done.
* `coherent_insert`: the edited editor is coherent, so it is loaded as it is stored.
* `insertion_moves_references`: the view of the reloaded editor is the old view with the nodes inserted.
-/

namespace Jni2Hook

open Lib

/-! ## What a successful insertion has done -/

theorem maxStack_insertNodes (editor : CodeEditor) (at_ : Nat) (nodes : List Instruction) :
    (insertNodes editor at_ nodes).maxStack = editor.maxStack := rfl

theorem codeEditorInsert_ok {editor edited : CodeEditor} {offset : Nat} {nodes : List Instruction} {extraStack : UInt16}
    (hne : nodes ≠ []) (h : codeEditorInsert editor offset nodes extraStack = (.ok (), edited)) :
    ∃ at_ : Nat, offsetToIndex editor.instructions (wrapI4 offset) = at_ ∧
      (∀ v ∈ editor.refs, 0 ≤ offsetToIndex editor.instructions v) ∧ ∃ written,
        typeAnnotationFlush (insertNodes editor at_ nodes).typeAnnotations
          (insertNodes editor at_ nodes).otherAttributes = (.ok (), written) ∧
        edited = { insertNodes editor at_ nodes with
          otherAttributes := written, maxStack := editor.maxStack + extraStack } := by
  unfold codeEditorInsert at h
  rw [if_neg (by simpa using hne)] at h
  dsimp only at h
  split at h
  · cases h
  rename_i hat
  split at h
  · cases h
  split at h
  · cases h
  rename_i hall
  refine ⟨(offsetToIndex editor.instructions (wrapI4 offset)).toNat, by omega, ?_, ?_⟩
  · intro v hv
    have : (editor.refs.all fun value => decide (0 ≤ offsetToIndex editor.instructions value)) = true := by
      simpa using hall
    exact of_decide_eq_true (List.all_eq_true.mp this v hv)
  · split at h
    · cases h
    · rename_i x written hf
      rw [← maxStack_insertNodes editor (offsetToIndex editor.instructions (wrapI4 offset)).toNat nodes]
      cases h
      exact ⟨written, hf, rfl⟩

theorem wrapI4_nonneg {x : Int} (h₀ : 0 ≤ x) (h : x < 2 ^ 32) (hw : 0 ≤ wrapI4 x) : wrapI4 x = x := by
  simp only [wrapI4, Int.bmod] at hw ⊢
  split at hw <;> rename_i hc
  · rw [if_pos hc]
    omega
  · omega

/-- The point of an insertion at the start of an instruction, or at the end of the code, is that index. -/
theorem insertion_point {editor : CodeEditor} (hl : editor.instructions.Laid)
    (hcode : editor.instructions.codeLength < 2 ^ 32) {at_ i : Nat} (hi : i ≤ editor.instructions.items.length)
    (hlen : editor.instructions.items.length < 2 ^ 31)
    (h : offsetToIndex editor.instructions (wrapI4 (editor.instructions.start i)) = at_) : at_ = i := by
  have hstart := hl.start_le (j := i)
  obtain ⟨j, hj⟩ := hl.names_of_offsetToIndex (v := wrapI4 (editor.instructions.start i)) (by omega)
  obtain ⟨hle, hv⟩ := hl.names_iff.mp hj
  have hwrap : wrapI4 (editor.instructions.start i) = editor.instructions.start i :=
    wrapI4_nonneg (by omega) (by omega) (by omega)
  have hji : j = i := startOf_inj Instruction.size_pos hle hi (by
    have : (editor.instructions.start j : Int) = editor.instructions.start i := by rw [← hv, hwrap]
    exact Int.ofNat_inj.mp this)
  have := hl.offsetToIndex_eq hj hlen
  omega

/-! ## The tables of the edited editor -/

theorem FrameKind.mapOffsets_mapOffsets (f g : Int → Int) (kind : FrameKind) :
    (kind.mapOffsets f).mapOffsets g = kind.mapOffsets (g ∘ f) := by
  have one (type : VerificationType) : (type.mapOffset f).mapOffset g = type.mapOffset (g ∘ f) := by cases type <;> rfl
  cases kind <;> simp [FrameKind.mapOffsets, one]

theorem StackMapFrame.mapRefs_mapRefs (pos ins pos' ins' : Int → Int) (frame : StackMapFrame) :
    (frame.mapRefs pos ins).mapRefs pos' ins' = frame.mapRefs (pos' ∘ pos) (ins' ∘ ins) := by
  simp [StackMapFrame.mapRefs, FrameKind.mapOffsets_mapOffsets]

theorem TypeAnnotationRef.mapRefs_mapRefs (pos ins pos' ins' : Int → Int) (ref : TypeAnnotationRef) :
    (ref.mapRefs pos ins).mapRefs pos' ins' = ref.mapRefs (pos' ∘ pos) (ins' ∘ ins) := by
  obtain ⟨index, offset, kind, start, stop⟩ := ref
  cases kind <;> rfl

section Tables

variable (editor : CodeEditor) (at_ : Nat) (nodes : List Instruction)

/-- The frames of the edited editor are the old frames, moved. -/
theorem stackMap_insertNodes : (insertNodes editor at_ nodes).stackMap = editor.stackMap.map (·.mapEntries
    (·.mapRefs (moveRef editor at_ nodes (shiftAfter at_ nodes.length))
      (moveRef editor at_ nodes (shiftWith at_ nodes.length)))) := by
  rw [insertNodes_eq]
  simp only [CodeEditor.mapRefs, placedEditor, shiftedEditor, Option.map_map]
  refine Option.map_congr fun t _ => ?_
  simp only [Function.comp_apply, NamedTable.mapEntries, List.map_map, NamedTable.mk.injEq, true_and]
  refine List.map_congr_left fun frame _ => ?_
  simp only [Function.comp_apply, StackMapFrame.mapRefs_mapRefs]
  rfl

theorem typeAnnotations_insertNodes : (insertNodes editor at_ nodes).typeAnnotations = editor.typeAnnotations.map
    (·.mapRefs (moveRef editor at_ nodes (shiftAfter at_ nodes.length))
      (moveRef editor at_ nodes (shiftWith at_ nodes.length))) := by
  rw [insertNodes_eq]
  simp only [CodeEditor.mapRefs, placedEditor, shiftedEditor, List.map_map]
  refine List.map_congr_left fun ref _ => ?_
  simp only [Function.comp_apply, TypeAnnotationRef.mapRefs_mapRefs]
  rfl

theorem exceptions_insertNodes : (insertNodes editor at_ nodes).exceptions.length = editor.exceptions.length := by
  simp [insertNodes, CodeEditor.mapRefs]

end Tables

/-- A table that is mapped keeps its name and its length. -/
theorem NamedTable.Ok.mapEntries {α : Type} {pool : ConstantPool} {name : String} {t : NamedTable α} {f : α → α}
    (h : t.Ok pool name) : (t.mapEntries f).Ok pool name := ⟨h.named, by simpa [NamedTable.mapEntries] using h.count⟩

/-- The tables of the edited editor: the references were mapped to indices, moved and mapped back. -/
theorem ok_mapEntries {α : Type} {pool : ConstantPool} {name : String} {f g k : α → α} {t : Option (NamedTable α)}
    (ht : ∀ x ∈ t, x.Ok pool name) :
    ∀ x ∈ ((t.map (·.mapEntries f)).map (·.mapEntries g)).map (·.mapEntries k), x.Ok pool name := by
  intro x hx
  simp only [Option.map_map, Option.mem_map] at hx
  obtain ⟨y, hy, rfl⟩ := hx
  exact (ht y hy).mapEntries.mapEntries.mapEntries

theorem FrameKind.Fits.mapOffsets {kind : FrameKind} {f : Int → Int} (h : kind.Fits)
    (hf : ∀ v ∈ kind.refs, 0 ≤ f v ∧ f v ≤ 0xFFFF) : (kind.mapOffsets f).Fits := by
  have one {type : VerificationType} (ht : ∀ v ∈ type.refs, 0 ≤ f v ∧ f v ≤ 0xFFFF) : (type.mapOffset f).Fits := by
    cases type with
    | uninitialized offset => exact ht offset List.mem_cons_self
    | _ => trivial
  have all {types : List VerificationType} (ht : ∀ v ∈ types.flatMap (·.refs), 0 ≤ f v ∧ f v ≤ 0xFFFF) :
      ∀ type ∈ types.map (·.mapOffset f), type.Fits := by
    intro type hmem
    obtain ⟨old, hold, rfl⟩ := List.mem_map.mp hmem
    exact one fun v hv => ht v (List.mem_flatMap.mpr ⟨old, hold, hv⟩)
  cases kind with
  | same => trivial
  | sameLocals1StackItem stack => exact one hf
  | chop count => exact h
  | append locals =>
    obtain ⟨h₁, h₃, -⟩ := h
    exact ⟨by simpa using h₁, by simpa using h₃, all hf⟩
  | full locals stack =>
    obtain ⟨hl, hs, -⟩ := h
    exact ⟨by simpa using hl, by simpa using hs, all fun v hv => hf v (List.mem_append_left _ hv),
      all fun v hv => hf v (List.mem_append_right _ hv)⟩

theorem retargets_of_flushed {refs : List TypeAnnotationRef} {pos ins : Int → Int}
    (h : ∀ ref ∈ refs.map (·.mapRefs pos ins), ref.Flushed) :
    List.Forall₂ Retargets refs (refs.map (·.mapRefs pos ins)) := by
  induction refs with
  | nil => exact .nil
  | cons ref rest ih =>
    refine .cons ?_ (ih fun r hr => h r (List.mem_cons_of_mem _ hr))
    obtain ⟨h₀, h₁, hs⟩ := h (ref.mapRefs pos ins) List.mem_cons_self
    obtain ⟨index, offset, kind, start, stop⟩ := ref
    cases kind with
    | span => exact ⟨rfl, rfl, rfl, h₀, h₁, fun _ => hs rfl, fun hk => (nomatch hk)⟩
    | instruction => exact ⟨rfl, rfl, rfl, h₀, h₁, fun hk => (nomatch hk), fun _ => rfl⟩

namespace Splicing

variable {editor : CodeEditor} {at_ : Nat} {nodes : List Instruction} (h : Splicing editor at_ nodes)

include h

/-- A reference that has moved fits a `u2`. -/
theorem moveRef_le {v : Int} (hv : v ∈ editor.refs) :
    (0 ≤ moveRef editor at_ nodes (shiftAfter at_ nodes.length) v ∧
      moveRef editor at_ nodes (shiftAfter at_ nodes.length) v ≤ 0xFFFF) ∧
    0 ≤ moveRef editor at_ nodes (shiftWith at_ nodes.length) v ∧
      moveRef editor at_ nodes (shiftWith at_ nodes.length) v ≤ 0xFFFF := by
  obtain ⟨hl, hcode⟩ := h.laid_insert
  obtain ⟨j, hj, -, rfl⟩ := h.names_of_mem hv
  have h₁ := hl.start_le (j := shiftPosition at_ nodes.length j)
  have h₂ := hl.start_le (j := shiftInstruction at_ nodes.length j)
  rw [h.moveRef_position hj, h.moveRef_instruction hj]
  omega

/-- The frames of the edited editor can be written, and the table has room for them. -/
theorem framesRead_insert {t : NamedTable StackMapFrame} (ht : editor.stackMap = some t) {length : Nat}
    (hf : FramesRead length t.entries) {w : Bytes} (hw : writeFrames none (t.entries.map
      (·.mapRefs (moveRef editor at_ nodes (shiftAfter at_ nodes.length))
        (moveRef editor at_ nodes (shiftWith at_ nodes.length)))) = .ok w) :
    ∃ length', length' ≤ length + 4 ∧ FramesRead length' (t.entries.map
      (·.mapRefs (moveRef editor at_ nodes (shiftAfter at_ nodes.length))
        (moveRef editor at_ nodes (shiftWith at_ nodes.length)))) := by
  have mem {frame : StackMapFrame} (hmem : frame ∈ t.entries) : frame.offset ∈ editor.refs ∧
      ∀ v ∈ frame.kind.refs, v ∈ editor.refs := by
    simp only [CodeEditor.refs, ht, tableEntries, List.mem_append, List.mem_flatMap]
    exact ⟨.inl (.inr ⟨frame, hmem, List.mem_cons_self⟩), fun v hv =>
      .inl (.inr ⟨frame, hmem, List.mem_cons_of_mem _ hv⟩)⟩
  refine ⟨_, ?_, ⟨by simpa using hf.count, fun frame hmem => ?_, rfl⟩⟩
  · obtain ⟨phase, shift, hg⟩ := h.movesInGroups
    have named : ∀ frame ∈ t.entries, ∃ j ≤ editor.instructions.items.length,
        frame.offset = editor.instructions.start j := by
      intro frame hmem
      obtain ⟨j, hj, -, heq⟩ := h.names_of_mem (mem hmem).1
      exact ⟨j, hj, heq⟩
    have growth := @framesLength_growth _ _ _ _ _ hg _ _ (fun j hj => h.moveRef_position hj) t.entries none w
      (by intro p hp; cases hp) named hw
    have := hf.length
    simp only [Option.map_none, Option.getD_none] at growth
    omega
  · obtain ⟨old, hold, rfl⟩ := List.mem_map.mp hmem
    obtain ⟨hoff, hkind⟩ := mem hold
    have hle := (h.moveRef_le hoff).1
    exact ⟨(hf.fits old hold).kind.mapOffsets fun v hv => (h.moveRef_le (hkind v hv)).2, by
      constructor <;> simp only [StackMapFrame.mapRefs] <;> omega⟩

end Splicing

/-! ## Storing and loading again -/

/-- An editor that was stored had code that could be encoded and frames that could be written. -/
theorem codeEditorStore_ok {editor : CodeEditor} {code stored : AttributeInfo}
    (h : codeEditorStore editor code = .ok stored) :
    (∃ bytes, instructionListEncode editor.instructions = .ok bytes) ∧
      ∀ t ∈ editor.stackMap, ∃ w, writeFrames none t.entries = .ok w := by
  obtain ⟨bytecode, hb, h₁⟩ := bind_ok h
  obtain ⟨attributes, hattrs, -⟩ := bind_ok h₁
  obtain ⟨l₁, -, k₁⟩ := bind_ok hattrs
  obtain ⟨l₂, -, k₂⟩ := bind_ok k₁
  obtain ⟨l₃, -, k₃⟩ := bind_ok k₂
  obtain ⟨l₄, s₄, -⟩ := bind_ok k₃
  refine ⟨⟨bytecode, hb⟩, fun t ht => ?_⟩
  rw [Option.mem_def] at ht
  rw [ht, storeStackMap] at s₄
  split at s₄
  · cases s₄
  · obtain ⟨a, ha, -⟩ := bind_ok s₄
    obtain ⟨w, hw, -⟩ := bind_ok ha
    exact ⟨w, hw⟩

theorem Splicing.coherent_insert {editor : CodeEditor} {at_ : Nat} {nodes : List Instruction} {pool : ConstantPool}
    (h : Splicing editor at_ nodes) (hc : editor.Coherent pool 18) {written : List AttributeInfo} {maxStack : UInt16}
    (hflush : typeAnnotationFlush (insertNodes editor at_ nodes).typeAnnotations
      (insertNodes editor at_ nodes).otherAttributes = (.ok (), written))
    (hframes : ∀ t ∈ (insertNodes editor at_ nodes).stackMap, ∃ w, writeFrames none t.entries = .ok w) :
    CodeEditor.Coherent pool 0
      { insertNodes editor at_ nodes with otherAttributes := written, maxStack := maxStack } := by
  obtain ⟨hl, hcode⟩ := h.laid_insert
  obtain ⟨hfl, rfl⟩ := typeAnnotationFlush_ok hflush
  exact {
    instructions := hl
    codeLength := by dsimp only; omega
    exceptions := by dsimp only; rw [exceptions_insertNodes]; exact hc.exceptions
    lineNumbers := ok_mapEntries hc.lineNumbers
    locals := ok_mapEntries hc.locals
    localTypes := ok_mapEntries hc.localTypes
    stackMap := by
      intro t ht
      have ht' := ht
      dsimp only at ht
      rw [stackMap_insertNodes, Option.mem_map] at ht
      obtain ⟨old, hold, rfl⟩ := ht
      obtain ⟨hok, length, hread, hroom⟩ := hc.stackMap old hold
      obtain ⟨w, hw⟩ := hframes _ ht'
      obtain ⟨length', hle, hread'⟩ := h.framesRead_insert hold hread hw
      exact ⟨hok.mapEntries, length', hread', by omega⟩
    others := others_fill hc.others
    othersCount := by dsimp only; rw [length_fillOthers]; exact hc.othersCount
    annotations := by
      refine annotationsFrom_fill (fun a ha => (hc.others a ha).wellFormed) hc.annotations ?_
      rw [typeAnnotations_insertNodes] at hfl ⊢
      exact retargets_of_flushed hfl }

/-- The view of the edited editor. -/
theorem Inserting.resolve_edited {editor : CodeEditor} {at_ : Nat} {nodes : List Instruction}
    (h : Inserting editor at_ nodes) {written : List AttributeInfo} {extraStack : UInt16}
    (hflush : typeAnnotationFlush (insertNodes editor at_ nodes).typeAnnotations
      (insertNodes editor at_ nodes).otherAttributes = (.ok (), written)) (hne : nodes ≠ []) :
    CodeEditor.resolve { insertNodes editor at_ nodes with
      otherAttributes := written, maxStack := editor.maxStack + extraStack } =
      editor.resolve.insert at_ nodes extraStack := by
  obtain ⟨-, rfl⟩ := typeAnnotationFlush_ok hflush
  have body : CodeEditor.body { insertNodes editor at_ nodes with
      otherAttributes := fillOthers (insertNodes editor at_ nodes).typeAnnotations 0
        (insertNodes editor at_ nodes).otherAttributes, maxStack := editor.maxStack + extraStack } =
      { (insertNodes editor at_ nodes).body with maxStack := editor.maxStack + extraStack } := by
    simp only [CodeEditor.body, blankOthers_fill]
  have inserted := h.resolve_insertNodes
  rw [CodeEditor.resolve] at inserted
  rw [CodeEditor.resolve, body, Body.insert, if_neg (by simpa using hne), ← inserted]
  rfl

/-- Inserting nothing changes nothing. -/
theorem Body.insert_nil (b : Body (Option Nat)) (at_ : Nat) (extraStack : UInt16) : b.insert at_ [] extraStack = b := by
  have moved : b.map (Option.map (shiftPosition at_ 0)) (Option.map (shiftInstruction at_ 0)) = b := by
    refine Body.map_id (fun r => ?_) (fun r => ?_) b <;> cases r <;> simp [shiftPosition, shiftInstruction]
  simp only [Body.insert, List.length_nil, moved, Body.splice, spliceAt, List.map_nil, List.nil_append,
    List.take_append_drop, List.isEmpty_nil, if_true]

/-- A coherent editor that can be stored is loaded again with the same instructions and the same view. -/
theorem resolve_of_store {pool : ConstantPool} {editor : CodeEditor} {code stored : AttributeInfo}
    (hc : editor.Coherent pool 0) (h : codeEditorStore editor code = .ok stored) :
    ∃ reloaded, codeEditorLoad stored pool = .ok reloaded ∧ reloaded.instructions = editor.instructions ∧
      reloaded.resolve = editor.resolve := by
  obtain ⟨frames, hload, hframes, -⟩ := load_of_store hc h
  refine ⟨_, hload, rfl, ?_⟩
  rw [CodeEditor.resolve, body_of_sameFrames hframes, CodeEditor.resolve]

/-- What an insertion and a store that both succeed come to, when there is something to insert. -/
theorem reload_inserted_at {pool : ConstantPool} {code target stored : AttributeInfo} {editor edited : CodeEditor}
    {at_ : Nat} {nodes : List Instruction} {extraStack : UInt16} (hload : codeEditorLoad code pool = .ok editor)
    (hpoint : at_ ≤ editor.instructions.items.length) (hnodes : ∀ n ∈ nodes, n.Encodable ∧ n.isStraightLine = true)
    (hne : nodes ≠ [])
    (hinsert : codeEditorInsert editor (editor.instructions.start at_) nodes extraStack = (.ok (), edited))
    (hstore : codeEditorStore edited target = .ok stored) :
    Inserting editor at_ nodes ∧ ∃ reloaded, codeEditorLoad stored pool = .ok reloaded ∧
      reloaded.instructions = (insertNodes editor at_ nodes).instructions ∧
      reloaded.resolve = editor.resolve.insert at_ nodes extraStack := by
  have hc := coherent_of_load hload
  obtain ⟨i, hi, hnamed, written, hflush, rfl⟩ := codeEditorInsert_ok hne hinsert
  obtain ⟨⟨bytes, hbytes⟩, hframes⟩ := codeEditorStore_ok hstore
  have hlen := indices_le hbytes
  obtain rfl : i = at_ := insertion_point hc.instructions hc.codeLength hpoint (by omega) hi
  have horigin : ∀ n ∈ nodes, ∀ t ∈ n.operand.targets, t = 0 := by
    intro n hn t ht
    rw [((hnodes n hn).1.straight (hnodes n hn).2).1] at ht
    cases ht
  have hspliceable : Spliceable editor i nodes :=
    ⟨hc.instructions, hpoint, fun n hn => (hnodes n hn).1, horigin, hnamed, hlen⟩
  have h : Inserting editor i nodes := ⟨hspliceable.splicing hbytes, fun n hn => (hnodes n hn).2⟩
  obtain ⟨reloaded, hre, hins, hview⟩ := resolve_of_store (h.coherent_insert hc hflush hframes) hstore
  exact ⟨h, reloaded, hre, hins, hview.trans (h.resolve_edited hflush hne)⟩

/-- The same at the offset of an instruction. -/
theorem reload_inserted {pool : ConstantPool} {code target stored : AttributeInfo} {editor edited : CodeEditor}
    {at_ : Nat} {node : Instruction} {nodes : List Instruction} {extraStack : UInt16}
    (hload : codeEditorLoad code pool = .ok editor) (hnode : editor.instructions.items[at_]? = some node)
    (hnodes : ∀ n ∈ nodes, n.Encodable ∧ n.isStraightLine = true) (hne : nodes ≠ [])
    (hinsert : codeEditorInsert editor node.offset nodes extraStack = (.ok (), edited))
    (hstore : codeEditorStore edited target = .ok stored) :
    ∃ reloaded, codeEditorLoad stored pool = .ok reloaded ∧
      reloaded.resolve = editor.resolve.insert at_ nodes extraStack := by
  rw [(coherent_of_load hload).instructions.offset_eq hnode] at hinsert
  have hpoint := Nat.le_of_lt (List.getElem?_eq_some_iff.mp hnode).1
  obtain ⟨-, reloaded, hre, -, hview⟩ := reload_inserted_at hload hpoint hnodes hne hinsert hstore
  exact ⟨reloaded, hre, hview⟩

/-- **Insertion moves every reference and nothing else, through a store and a reload.** For every Code attribute that is
loaded, every instruction of it and every run of straight-line nodes that can be encoded: when the insertion at the
offset of that instruction and the store succeed, the stored attribute is loaded again, and its view is the old one with
the nodes inserted. -/
theorem insertion_moves_references {pool : ConstantPool} {code target stored : AttributeInfo}
    {editor edited : CodeEditor} {at_ : Nat} {node : Instruction} {nodes : List Instruction} {extraStack : UInt16}
    (hload : codeEditorLoad code pool = .ok editor) (hnode : editor.instructions.items[at_]? = some node)
    (hnodes : ∀ n ∈ nodes, n.Encodable ∧ n.isStraightLine = true)
    (hinsert : codeEditorInsert editor node.offset nodes extraStack = (.ok (), edited))
    (hstore : codeEditorStore edited target = .ok stored) :
    ∃ reloaded, codeEditorLoad stored pool = .ok reloaded ∧
      reloaded.resolve = editor.resolve.insert at_ nodes extraStack := by
  by_cases hne : nodes = []
  · subst hne
    cases hinsert
    obtain ⟨reloaded, hre, -, hview⟩ := resolve_of_store (coherent_of_load hload).weaken hstore
    exact ⟨reloaded, hre, by rw [hview, Body.insert_nil]⟩
  · exact reload_inserted hload hnode hnodes hne hinsert hstore

/-! ## A body with a branch, a handler and line numbers -/

/-- `iconst_0; ifeq 5; nop; return`, guarded from 0 to 5 by the handler at 5, with two line numbers. -/
def branchingCode : AttributeInfo :=
  ⟨1, 42, [0, 1, 0, 1, 0, 0, 0, 6, 3, 153, 0, 4, 0, 177, 0, 1, 0, 0, 0, 5, 0, 5, 0, 0, 0, 1, 0, 2, 0, 0,
    0, 10, 0, 2, 0, 0, 0, 10, 0, 5, 0, 11]⟩

def branchingPool : ConstantPool := ⟨[.utf8 (text "Code"), .utf8 (text "LineNumberTable")]⟩

def branchingEditor : CodeEditor where
  maxStack := 1
  maxLocals := 1
  instructions := ⟨[⟨0, Opc.iconst_0, false, .none⟩, ⟨1, Opc.ifeq, false, .branch 5⟩, ⟨4, Opc.nop, false, .none⟩,
    ⟨5, Opc.return_, false, .none⟩], 6⟩
  exceptions := [⟨0, 5, 5, 0⟩]
  lineNumbers := some ⟨2, [⟨0, 10⟩, ⟨5, 11⟩]⟩
  locals := none
  localTypes := none
  stackMap := none
  otherAttributes := []
  typeAnnotations := []

/-- `sipush 7; invokestatic`. -/
def forwardSeven : List Instruction :=
  [⟨0, Opc.sipush, false, .immediate 7⟩, ⟨0, Opc.invokestatic, false, .cpIndex 9⟩]

/-- The nodes before the `nop`: the branch, the range and the second line move behind them. -/
def branchingStored : AttributeInfo :=
  ⟨1, 48, [0, 3, 0, 1, 0, 0, 0, 12, 3, 153, 0, 10, 17, 0, 7, 184, 0, 9, 0, 177, 0, 1, 0, 0, 0, 11, 0,
    11, 0, 0, 0, 1, 0, 2, 0, 0, 0, 10, 0, 2, 0, 0, 0, 10, 0, 11, 0, 11]⟩

theorem encodable_forwardSeven : ∀ n ∈ forwardSeven, n.Encodable ∧ n.isStraightLine = true := by
  intro n hn
  simp only [forwardSeven, List.mem_cons, List.not_mem_nil, or_false] at hn
  rcases hn with rfl | rfl
  · exact ⟨⟨by decide, by decide, by decide, by decide, by decide⟩, by decide⟩
  · exact ⟨⟨by decide, by decide, by decide, by decide, by decide⟩, by decide⟩

theorem insertion_moves_references_branching :
    ∃ reloaded, codeEditorLoad branchingStored branchingPool = .ok reloaded ∧
      reloaded.resolve = branchingEditor.resolve.insert 2 forwardSeven 2 :=
  @insertion_moves_references branchingPool branchingCode branchingCode branchingStored branchingEditor
    (codeEditorInsert branchingEditor 4 forwardSeven 2).2 2 ⟨4, Opc.nop, false, .none⟩ forwardSeven 2
    (by decide +kernel) rfl encodable_forwardSeven (Prod.ext (by decide +kernel) rfl) (by decide +kernel)

end Jni2Hook
