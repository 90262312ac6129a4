import Jni2Hook.Code.FrontInsertion
import Jni2Hook.Transform.GuardFlow

/-!
# The frames of a guarded method

The branch of a guard needs a frame at the body. It is put into the table between frames that are differences.

* `KeepsFrames`: every old frame says the same about the position it has moved to, the body is entered with the locals
  of the method, and the frames stand in order.
* `insertFrame_split`: the new frame stands behind a frame at offset 0, and before every other one.
* `guard_keeps_frames_iff`: the frames keep their meaning exactly when the frame behind one at offset 0 does not depend
  on it, and the table still fits its length field.
-/

namespace Jni2Hook

open Lib

/-! ## What is asked for -/

/-- The type of a parameter when the method is entered. -/
def FieldType.resolved : FieldType → ResolvedType
  | .base .float => .basic 2
  | .base .double => .basic 3
  | .base .long => .basic 4
  | .base _ => .basic 1
  | .object name => .object (some name.1)
  | .array component => .object (some (0x5B :: component.text))

/-- The locals a method starts with: the receiver and the parameters. -/
def initialLocals (cf : ClassFile) (d : MethodDescriptor) (isStatic : Bool) : List ResolvedType :=
  (if isStatic then [] else [.object (classNameAt cf.constantPool cf.thisClass)]) ++ d.parameters.map FieldType.resolved

/-- The frames of a table as the method starting with these locals reads them. -/
def framesOf (pool : ConstantPool) (initial : List ResolvedType) (list : InstructionList)
    (frames : List StackMapFrame) :
    List AbsoluteFrame :=
  absoluteFrames (VerificationType.resolve pool list.names) list.names initial frames

/-- The frames of the stored code say about the old code what its own frames said, and of the body that it is entered
with the locals of the method. -/
structure KeepsFrames (pool : ConstantPool) (initial : List ResolvedType) (list list' : InstructionList)
    (frames frames' : List StackMapFrame) (count : Nat) : Prop where
  behind : list'.items.length = list.items.length + count
  kept : ∀ frame ∈ framesOf pool initial list frames, frame.moved count ∈ framesOf pool initial list' frames'
  entry : ⟨some count, initial, []⟩ ∈ framesOf pool initial list' frames'
  increasing : frames'.Pairwise fun frame later => frame.offset < later.offset

/-- What the frames of a stored Code attribute say. -/
def KeepsMeaning (pool : ConstantPool) (initial : List ResolvedType) (list : InstructionList)
    (frames : List StackMapFrame)
    (stored : AttributeInfo) : Prop :=
  ∃ list' frames' count, codeFrames pool stored = .ok (list', frames') ∧
    KeepsFrames pool initial list list' frames frames' count

/-- The frame behind one at offset 0 has the locals it would have without it. -/
def EntryFree (pool : ConstantPool) (initial : List ResolvedType) (list : InstructionList)
    (frames : List StackMapFrame) :
    Prop :=
  ∀ first next rest, frames = first :: next :: rest → first.offset = 0 →
    next.kind.localsOn (VerificationType.resolve pool list.names) initial =
      next.kind.localsOn (VerificationType.resolve pool list.names)
        (first.kind.localsOn (VerificationType.resolve pool list.names) initial)

/-! ## The initial locals -/

theorem resolve_typeOf {pool : ConstantPool} {type : FieldType} {v : VerificationType} (h : TypeOf pool type v)
    (names : Int → Option Nat) : v.resolve pool names = type.resolved := by
  cases type with
  | base base =>
    cases base <;>
    · cases h
      rfl
  | object name =>
    obtain ⟨index, rfl, hname⟩ := h
    rw [VerificationType.resolve, hname, FieldType.resolved]
  | array component =>
    obtain ⟨index, rfl, hname⟩ := h
    rw [VerificationType.resolve, hname, FieldType.resolved]

/-- The entry frame has the locals of the method. -/
theorem EntryLocals.resolve {cf cf' : ClassFile} {d : MethodDescriptor} {isStatic : Bool}
    {locals : List VerificationType}
    (h : EntryLocals cf d isStatic locals) (hgrows : Grows cf.constantPool cf'.constantPool)
    (hthis : cf'.thisClass = cf.thisClass) (names : Int → Option Nat) :
    locals.map (VerificationType.resolve cf'.constantPool names) = initialLocals cf' d isStatic := by
  obtain ⟨types, rfl, hall⟩ := h
  have htypes : types.map (VerificationType.resolve cf'.constantPool names) = d.parameters.map FieldType.resolved := by
    generalize d.parameters = parameters at hall
    induction hall with
    | nil => rfl
    | cons htype _ ih => rw [List.map_cons, List.map_cons, resolve_typeOf (htype.grows hgrows), ih]
  rw [List.map_append, htypes, initialLocals, hthis]
  cases isStatic <;> rfl

theorem moved_resolved (type : FieldType) (count : Nat) : type.resolved.moved count = type.resolved := by
  cases type with
  | base base => cases base <;> rfl
  | object name => rfl
  | array component => rfl

/-- The locals of the method name no instruction. -/
theorem moved_initialLocals (cf : ClassFile) (d : MethodDescriptor) (isStatic : Bool) (count : Nat) :
    (initialLocals cf d isStatic).map (·.moved count) = initialLocals cf d isStatic := by
  rw [initialLocals, List.map_append, List.map_map]
  refine congrArg₂ _ ?_ (List.map_congr_left fun type _ => moved_resolved type count)
  cases isStatic <;> rfl

theorem EntryLocals.fits {cf : ClassFile} {d : MethodDescriptor} {isStatic : Bool} {locals : List VerificationType}
    (h : EntryLocals cf d isStatic locals) :
    locals.length = d.argumentCount isStatic ∧ ∀ type ∈ locals, type.Fits := by
  obtain ⟨types, rfl, hall⟩ := h
  have htypes : ∀ type ∈ types, type.Fits := by
    intro v hv
    obtain ⟨type, -, htype⟩ : ∃ type ∈ d.parameters, TypeOf cf.constantPool type v := by
      obtain ⟨i, hi, rfl⟩ := List.mem_iff_getElem.mp hv
      have hi' : i < d.parameters.length := by rw [hall.length_eq]; exact hi
      exact ⟨d.parameters[i], List.getElem_mem hi', hall.get hi' hi⟩
    cases type with
    | base base =>
      cases base <;>
      · cases htype
        trivial
    | object name =>
      obtain ⟨index, rfl, -⟩ := htype
      trivial
    | array component =>
      obtain ⟨index, rfl, -⟩ := htype
      trivial
  have hlen := hall.length_eq
  cases isStatic with
  | true =>
    refine ⟨?_, fun type ht => htypes type (by simpa using ht)⟩
    simp [MethodDescriptor.argumentCount, hlen]
  | false =>
    refine ⟨?_, fun type ht => ?_⟩
    · simp [MethodDescriptor.argumentCount, hlen]
      omega
    · rcases List.mem_append.mp ht with ht | ht
      · rw [List.mem_singleton.mp ht]
        trivial
      · exact htypes type ht

/-! ## Where the frame stands -/

/-- A frame between frames before it and behind it. -/
theorem insertFrame_between {before behind table : List StackMapFrame} {entry : StackMapFrame}
    (hbefore : ∀ x ∈ before, x.offset < entry.offset) (hbehind : ∀ x ∈ behind, entry.offset < x.offset)
    (h : insertFrame (before ++ behind) entry = .ok table) :
    table = before ++ entry :: behind ∧ (before ++ behind).length ≠ classfileMaxCount := by
  unfold insertFrame at h
  split at h
  · cases h
  rename_i hcount
  refine ⟨?_, hcount⟩
  have hpos : ∀ x ∈ before, decide (x.offset < entry.offset) = true := fun x hx => decide_eq_true (hbefore x hx)
  dsimp only at h
  rw [List.takeWhile_append_of_pos hpos, List.dropWhile_append_of_pos hpos] at h
  cases behind with
  | nil =>
    cases h
    simp
  | cons next rest =>
    have hnext := hbehind next List.mem_cons_self
    have hnot : ¬next.offset < entry.offset := by omega
    rw [List.takeWhile_cons_of_neg (by simpa using hnot), List.dropWhile_cons_of_neg (by simpa using hnot)] at h
    dsimp only at h
    rw [if_neg (by omega), List.append_nil] at h
    cases h
    rfl

/-- The new frame stands behind a frame at offset 0, and before every other one. -/
theorem insertFrame_split {frames table : List StackMapFrame} {f : StackMapFrame → StackMapFrame}
    {entry : StackMapFrame} (hfirst : ∀ x ∈ frames, x.offset = 0 → (f x).offset < entry.offset)
    (hrest : ∀ x ∈ frames, x.offset ≠ 0 → entry.offset < (f x).offset) (hlow : ∀ x ∈ frames, 0 ≤ x.offset)
    (hsorted : frames.Pairwise fun frame later => frame.offset < later.offset)
    (h : insertFrame (frames.map f) entry = .ok table) :
    ∃ before behind, frames = before ++ behind ∧ table = before.map f ++ entry :: behind.map f ∧
      (before = [] ∨ ∃ first, before = [first] ∧ first.offset = 0) ∧ (∀ x ∈ behind, x.offset ≠ 0) ∧
      frames.length ≠ classfileMaxCount := by
  obtain ⟨before, behind, rfl, hbefore, hbehind⟩ : ∃ before behind, frames = before ++ behind ∧
      (before = [] ∨ ∃ first, before = [first] ∧ first.offset = 0) ∧ ∀ x ∈ behind, x.offset ≠ 0 := by
    cases frames with
    | nil => exact ⟨[], [], rfl, .inl rfl, fun x hx => absurd hx List.not_mem_nil⟩
    | cons first rest =>
      obtain ⟨hlater, -⟩ := List.pairwise_cons.mp hsorted
      have hnonzero : ∀ x ∈ rest, x.offset ≠ 0 := by
        intro x hx
        have := hlater x hx
        have := hlow first List.mem_cons_self
        omega
      by_cases hzero : first.offset = 0
      · exact ⟨[first], rest, rfl, .inr ⟨first, rfl, hzero⟩, hnonzero⟩
      · refine ⟨[], first :: rest, rfl, .inl rfl, fun x hx => ?_⟩
        rcases List.mem_cons.mp hx with rfl | hx
        · exact hzero
        · exact hnonzero x hx
  have hlower : ∀ x ∈ before.map f, x.offset < entry.offset := by
    intro x hx
    obtain ⟨y, hy, rfl⟩ := List.mem_map.mp hx
    refine hfirst y (List.mem_append_left _ hy) ?_
    rcases hbefore with rfl | ⟨first, rfl, hzero⟩
    · cases hy
    · rw [List.mem_singleton.mp hy]
      exact hzero
  have hupper : ∀ x ∈ behind.map f, entry.offset < x.offset := by
    intro x hx
    obtain ⟨y, hy, rfl⟩ := List.mem_map.mp hx
    exact hrest y (List.mem_append_right _ hy) (hbehind y hy)
  rw [List.map_append] at h
  obtain ⟨htable, hcount⟩ := insertFrame_between hlower hupper h
  exact ⟨before, behind, rfl, htable, hbefore, hbehind, by simpa using hcount⟩

/-! ## What the frames say -/

/-- References of frames that move with their instructions. -/
structure MovesFrames (pool : ConstantPool) (list list' : InstructionList) (pos ins : Int → Int) (count : Nat)
    (frames : List StackMapFrame) : Prop where
  positions : ∀ frame ∈ frames, list'.names (pos frame.offset) = (list.names frame.offset).map (shiftPosition 0 count)
  types : ∀ frame ∈ frames, ∀ type ∈ frame.kind.types, (type.mapOffset ins).resolve pool list'.names =
    (type.resolve pool list.names).moved count

section Meaning

variable {pool : ConstantPool} {initial : List ResolvedType} {list list' : InstructionList} {pos ins : Int → Int}
  {count : Nat} {before behind : List StackMapFrame} {locals : List VerificationType} {body : Int}
  (hinitial : initial.map (·.moved count) = initial)
  (hmoves : MovesFrames pool list list' pos ins count (before ++ behind))
  (hbody : list'.names body = some count) (hlocals : locals.map (VerificationType.resolve pool list'.names) = initial)

include hinitial hmoves hbody hlocals

/-- The frames with the new one: it says what it should, and the ones behind it start from it. -/
theorem framesOf_inserted : framesOf pool initial list'
      (before.map (·.mapRefs pos ins) ++ ⟨255, body, .full locals []⟩ :: behind.map (·.mapRefs pos ins)) =
    (framesOf pool initial list before).map (·.moved count) ++ ⟨some count, initial, []⟩ ::
      (framesOf pool initial list behind).map (·.moved count) := by
  have moved {frames : List StackMapFrame} (hsub : frames ⊆ before ++ behind) :
      framesOf pool initial list' (frames.map (·.mapRefs pos ins)) =
        (framesOf pool initial list frames).map (·.moved count) := by
    have := @absoluteFrames_moved (VerificationType.resolve pool list.names)
      (VerificationType.resolve pool list'.names) list.names list'.names pos ins _ _ initial
      fun frame hf => ⟨hmoves.positions frame (hsub hf), hmoves.types frame (hsub hf)⟩
    rw [hinitial] at this
    exact this
  have hbehind := moved (List.subset_append_right before behind)
  have hbefore := moved (List.subset_append_left before behind)
  unfold framesOf at hbehind hbefore ⊢
  rw [absoluteFrames_append, hbefore, absoluteFrames]
  simp only [FrameKind.localsOn, FrameKind.stackTypes, hlocals, hbody, hbehind, List.map_nil]

theorem kept_iff (hbefore : before = [] ∨ ∃ first, before = [first] ∧ first.offset = 0)
    (hbehind : ∀ x ∈ behind, x.offset ≠ 0) (hnodup : ((before.map (·.mapRefs pos ins) ++
      (⟨255, body, .full locals []⟩ : StackMapFrame) :: behind.map (·.mapRefs pos ins)).map
        fun frame => list'.names frame.offset).Nodup) :
    (∀ frame ∈ framesOf pool initial list (before ++ behind), frame.moved count ∈ framesOf pool initial list'
      (before.map (·.mapRefs pos ins) ++ ⟨255, body, .full locals []⟩ :: behind.map (·.mapRefs pos ins))) ↔
      EntryFree pool initial list (before ++ behind) := by
  rw [← @positions_absoluteFrames (VerificationType.resolve pool list'.names) _ initial] at hnodup
  change ((framesOf pool initial list' _).map _).Nodup at hnodup
  rw [framesOf_inserted hinitial hmoves hbody hlocals] at hnodup ⊢
  have hold : framesOf pool initial list (before ++ behind) = framesOf pool initial list before ++
      framesOf pool (localsBehind (VerificationType.resolve pool list.names) initial before) list behind :=
    absoluteFrames_append _ _ _
  constructor
  · rintro hkept first next rest hsplit hzero
    -- the frame behind the first one stands at one position only, in both readings
    obtain ⟨rfl, rfl⟩ : before = [first] ∧ behind = next :: rest := by
      rcases hbefore with rfl | ⟨first', rfl, -⟩
      · exact absurd hzero (hbehind first (by rw [← List.nil_append behind, hsplit]; exact List.mem_cons_self))
      · simpa using hsplit
    have hmem : ∀ base, (⟨list.names next.offset, next.kind.localsOn (VerificationType.resolve pool list.names) base,
        next.kind.stackTypes.map (VerificationType.resolve pool list.names)⟩ : AbsoluteFrame) ∈
        framesOf pool base list (next :: rest) := fun base => List.mem_cons_self
    have hthere := hkept _ (hold ▸ List.mem_append_right _ (hmem _))
    have hhere := List.mem_append_right ((framesOf pool initial list [first]).map (·.moved count))
      (List.mem_cons_of_mem (⟨some count, initial, []⟩ : AbsoluteFrame)
        (List.mem_map_of_mem (f := (·.moved count)) (hmem initial)))
    have hsame := congrArg AbsoluteFrame.locals (List.inj_on_of_nodup_map hnodup hhere hthere rfl)
    exact List.map_injective_iff.mpr (moved_injective count) hsame
  · intro hfree frame hframe
    have hreading : framesOf pool (localsBehind (VerificationType.resolve pool list.names) initial before) list behind =
        framesOf pool initial list behind := by
      rcases hbefore with rfl | ⟨first, rfl, hzero⟩
      · rfl
      · cases behind with
        | nil => rfl
        | cons next rest => exact (absoluteFrames_cons_congr (hfree first next rest rfl hzero) rest).symm
    rw [hold, hreading] at hframe
    rcases List.mem_append.mp hframe with hframe | hframe
    · exact List.mem_append_left _ (List.mem_map_of_mem hframe)
    · exact List.mem_append_right _ (List.mem_cons_of_mem _ (List.mem_map_of_mem hframe))

end Meaning

/-! ## The frames of a run -/

theorem mem_refs_of_types {kind : FrameKind} {offset : Int} (h : .uninitialized offset ∈ kind.types) :
    offset ∈ kind.refs := by
  have flat {types : List VerificationType} (ht : .uninitialized offset ∈ types) : offset ∈ types.flatMap (·.refs) :=
    List.mem_flatMap.mpr ⟨_, ht, List.mem_singleton.mpr rfl⟩
  cases kind with
  | same => cases h
  | sameLocals1StackItem type =>
    rw [← List.mem_singleton.mp h]
    exact List.mem_singleton.mpr rfl
  | chop count => cases h
  | append locals => exact flat h
  | full locals stack =>
    rcases List.mem_append.mp h with h | h
    · exact List.mem_append_left _ (flat h)
    · exact List.mem_append_right _ (flat h)

theorem Splicing.movesFrames {editor : CodeEditor} {nodes : List Instruction} (h : Splicing editor 0 nodes)
    (pool : ConstantPool) : MovesFrames pool editor.instructions
    (insertNodes editor 0 nodes).instructions (moveRef editor 0 nodes (shiftAfter (0 : Nat) nodes.length))
    (moveRef editor 0 nodes (shiftWith (0 : Nat) nodes.length)) nodes.length (tableEntries editor.stackMap) := by
  obtain ⟨hl, -⟩ := h.laid_insert
  refine ⟨fun frame hf => ?_, fun frame hf type ht => ?_⟩
  · obtain ⟨j, hj, hname, -, hmoved⟩ := h.frame_moved hf
    rw [hname, hmoved]
    refine hl.names_iff.mpr ⟨?_, rfl⟩
    rw [length_insertNodes]
    unfold shiftPosition
    split <;> omega
  · cases type with
    | object index => rfl
    | basic tag => rfl
    | uninitialized offset =>
      obtain ⟨j, hj, hname, hstart⟩ := h.names_of_mem ((mem_refs_of_frame hf).2 offset (mem_refs_of_types ht))
      have hmoved := h.moveRef_instruction hj
      rw [← hstart, shiftInstruction, if_neg (Nat.not_lt_zero j)] at hmoved
      rw [VerificationType.mapOffset, VerificationType.resolve, VerificationType.resolve, hname, hmoved,
        ResolvedType.moved, Option.map_some]
      refine congrArg _ (hl.names_iff.mpr ⟨?_, rfl⟩)
      rw [length_insertNodes]
      omega

theorem NamedTable.Ok.grows {α : Type} {pool pool' : ConstantPool} (h : Grows pool pool') {name : String}
    {t : NamedTable α} (ht : t.Ok pool name) : t.Ok pool' name := by
  refine ⟨?_, ht.count⟩
  have hnamed := ht.named
  rw [constantPoolUtf8Equals, beq_iff_eq] at hnamed ⊢
  exact h.utf8 hnamed

namespace GuardRun

variable {name owner callee : Bytes} {d : MethodDescriptor} {valueCallee : Option Bytes} {argument : Int}
  {cf cf' : ClassFile} (run : GuardRun name d.text owner callee valueCallee argument cf cf')

/-- The code with the prologue. -/
def extended : CodeEditor := insertNodes run.editor 0 run.nodes

/-- Where an offset of a frame moves. -/
def moveFrame (frame : StackMapFrame) : StackMapFrame :=
  frame.mapRefs (moveRef run.editor 0 run.nodes (shiftAfter (0 : Nat) run.nodes.length))
    (moveRef run.editor 0 run.nodes (shiftWith (0 : Nat) run.nodes.length))

/-- The frame at the body. -/
def entryFrame (locals : List VerificationType) : StackMapFrame :=
  ⟨255, run.extended.instructions.start run.nodes.length, .full locals []⟩

theorem frame_eq : ∃ locals, run.frame = run.entryFrame locals ∧
    (cf.constantPool.count ≤ classfileMaxCount → EntryLocals run.frameTree d run.isStatic locals) := by
  obtain ⟨-, locals, hframe, hlocals⟩ := buildEntryFrame_ok run.framedBody
  have hgrown := ((run.interns_owner.trans run.interns_guard).trans run.guardedValue.interns)
  refine ⟨locals, ?_, fun hcount => hlocals (hgrown.count hcount)⟩
  rw [hframe, run.bodyOffset]
  rfl

theorem tableEntries_extended :
    tableEntries run.extended.stackMap = (tableEntries run.editor.stackMap).map run.moveFrame :=
  tableEntries_front run.editor run.nodes

/-- Old frames stand in order. -/
theorem sorted_frames :
    (tableEntries run.editor.stackMap).Pairwise fun frame later => frame.offset < later.offset := by
  obtain ⟨-, w, hw⟩ := codeFrames_of_load run.loaded
  have hc := coherent_of_load run.loaded
  refine (pairwise_of_writeFrames hw (fun p hp => by cases hp) fun frame hf => ?_).2
  refine ⟨(run.splicing.frame_sides run.nodes_ne_nil hf).1, ?_⟩
  cases htable : run.editor.stackMap with
  | none =>
    rw [htable] at hf
    cases hf
  | some t =>
    rw [htable] at hf
    obtain ⟨-, length, hread, -⟩ := hc.stackMap t htable
    exact (hread.fits frame hf).offset.2

/-- The table that is stored: the old frames, moved, and the entry frame behind one at offset 0. -/
theorem table_split : ∃ table locals before behind, run.framed.stackMap = some table ∧
    insertFrame (tableEntries run.extended.stackMap) (run.entryFrame locals) = .ok table.entries ∧
    (cf.constantPool.count ≤ classfileMaxCount → EntryLocals run.frameTree d run.isStatic locals) ∧
    tableEntries run.editor.stackMap = before ++ behind ∧
    table.entries = before.map run.moveFrame ++ run.entryFrame locals :: behind.map run.moveFrame ∧
    (before = [] ∨ ∃ first, before = [first] ∧ first.offset = 0) ∧ (∀ x ∈ behind, x.offset ≠ 0) ∧
    (tableEntries run.editor.stackMap).length ≠ classfileMaxCount ∧
    (cf.constantPool.count ≤ classfileMaxCount →
      constantPoolUtf8Equals run.tableTree.constantPool table.nameIndex (text "StackMapTable") = true) := by
  obtain ⟨written, maxStack, table, -, hframed, hinsert, hkept, hnew⟩ := run.framed_eq
  obtain ⟨locals, hframe, hlocals⟩ := run.frame_eq
  rw [hframe] at hinsert
  have hinsert' := hinsert
  change insertFrame (tableEntries run.extended.stackMap) _ = _ at hinsert'
  rw [run.tableEntries_extended] at hinsert'
  have hsides {x : StackMapFrame} (hx : x ∈ tableEntries run.editor.stackMap) :=
    run.splicing.frame_sides run.nodes_ne_nil hx
  obtain ⟨before, behind, hsplit, htable, hbefore, hbehind, hlen⟩ := insertFrame_split
    (fun x hx hzero => (hsides hx).2.1 hzero) (fun x hx hzero => (hsides hx).2.2 hzero) (fun x hx => (hsides hx).1)
    run.sorted_frames hinsert'
  refine ⟨table, locals, before, behind, by rw [hframed], hinsert, hlocals, hsplit, htable, hbefore, hbehind, hlen,
    fun hcount => ?_⟩
  have hgrows := (run.interns_guard.trans (run.guardedValue.interns.trans run.interns_behind)).grows
  rw [constantPoolUtf8Equals, beq_iff_eq]
  cases hold : run.editor.stackMap with
  | none => exact utf8_of_find (run.interns.count hcount) (hnew hold)
  | some old =>
    have hnamed := ((coherent_of_load run.loaded).stackMap old hold).1.named
    rw [constantPoolUtf8Equals, beq_iff_eq] at hnamed
    rw [hkept old hold]
    exact hgrows.utf8 hnamed

theorem read_frames : (tableEntries run.editor.stackMap).length ≤ classfileMaxCount ∧
    ∀ frame ∈ tableEntries run.editor.stackMap, frame.Fits := by
  cases htable : run.editor.stackMap with
  | none => exact ⟨Nat.zero_le _, fun frame hf => absurd hf List.not_mem_nil⟩
  | some t =>
    obtain ⟨-, length, hread, -⟩ := (coherent_of_load run.loaded).stackMap t htable
    exact ⟨hread.count, hread.fits⟩

/-- A frame that has moved is one that a class file may hold. -/
theorem fits_moveFrame {frame : StackMapFrame} (hf : frame ∈ tableEntries run.editor.stackMap) :
    (0 ≤ (run.moveFrame frame).offset ∧ (run.moveFrame frame).offset ≤ 0xFFFF) ∧ (run.moveFrame frame).kind.Fits := by
  obtain ⟨hoffset, hkind⟩ := mem_refs_of_frame hf
  exact ⟨(run.splicing.moveRef_le hoffset).1, (run.read_frames.2 frame hf).kind.mapOffsets fun v hv =>
    (run.splicing.moveRef_le (hkind v hv)).2⟩

theorem names_framed : run.framed.instructions.names = run.extended.instructions.names := by
  obtain ⟨written, maxStack, table, -, hframed, -⟩ := run.framed_eq
  rw [hframed]
  exact names_retarget _ _ _

theorem length_framed :
    run.framed.instructions.items.length = run.editor.instructions.items.length + run.nodes.length := by
  obtain ⟨written, maxStack, table, -, hframed, -⟩ := run.framed_eq
  rw [hframed]
  simp only [InstructionList.retarget, List.length_modify]
  exact length_insertNodes ..

theorem start_body_le : run.extended.instructions.start run.nodes.length ≤ 0xFFFF := by
  obtain ⟨hl, hcode⟩ := run.splicing.laid_insert
  exact (hl.start_le).trans hcode

/-- The table with the entry frame is one that a class file may hold. -/
theorem validTable {table : NamedTable StackMapFrame} {locals : List VerificationType}
    {before behind : List StackMapFrame} (hmap : run.framed.stackMap = some table)
    (hlocals : EntryLocals run.frameTree d run.isStatic locals)
    (hsplit : tableEntries run.editor.stackMap = before ++ behind)
    (htable : table.entries = before.map run.moveFrame ++ run.entryFrame locals :: behind.map run.moveFrame)
    (hlen : (tableEntries run.editor.stackMap).length ≠ classfileMaxCount) : ValidTable table.entries := by
  obtain ⟨hcount, -⟩ := run.read_frames
  obtain ⟨hargs, htypes⟩ := hlocals.fits
  have hmax := run.argumentCount_le
  unfold parameterCapacity at hmax
  have hall : ∀ frame ∈ table.entries, (0 ≤ frame.offset ∧ frame.offset ≤ 0xFFFF) ∧ frame.kind.Fits := by
    intro frame hf
    rw [htable] at hf
    have hmoved {l : List StackMapFrame} (hl : l ⊆ before ++ behind) (hf : frame ∈ l.map run.moveFrame) :
        (0 ≤ frame.offset ∧ frame.offset ≤ 0xFFFF) ∧ frame.kind.Fits := by
      obtain ⟨old, hold, rfl⟩ := List.mem_map.mp hf
      exact run.fits_moveFrame (by rw [hsplit]; exact hl hold)
    rcases List.mem_append.mp hf with hf | hf
    · exact hmoved (List.subset_append_left _ _) hf
    rcases List.mem_cons.mp hf with rfl | hf
    · have hle := run.start_body_le
      refine ⟨⟨?_, ?_⟩, ?_, Nat.zero_le _, htypes, fun type ht => absurd ht List.not_mem_nil⟩
      · simp only [entryFrame]
        omega
      · simp only [entryFrame]
        omega
      · rw [hargs]
        unfold classfileMaxCount
        omega
    · exact hmoved (List.subset_append_right _ _) hf
  obtain ⟨-, hwritten⟩ := codeEditorStore_ok run.storedCode
  obtain ⟨w, hw⟩ := hwritten table hmap
  refine ⟨?_, ?_, fun frame hf => (hall frame hf).1, fun frame hf => (hall frame hf).2⟩
  · rw [hsplit] at hcount hlen
    rw [htable]
    simp only [List.length_append, List.length_cons, List.length_map] at hcount hlen ⊢
    omega
  · refine (pairwise_of_writeFrames hw (fun p hp => by cases hp) fun frame hf => ?_).2
    have := (hall frame hf).1
    omega

/-- The new frame and the longer distances need less than 2 ^ 18 bytes. -/
theorem size_table_le {table : NamedTable StackMapFrame} {locals : List VerificationType}
    {before behind : List StackMapFrame} (hlocals : EntryLocals run.frameTree d run.isStatic locals)
    (hsplit : tableEntries run.editor.stackMap = before ++ behind)
    (htable : table.entries = before.map run.moveFrame ++ run.entryFrame locals :: behind.map run.moveFrame) :
    stackMapTableSize table.entries ≤ stackMapTableSize (tableEntries run.editor.stackMap) + (2 ^ 18 - 1) := by
  obtain ⟨hargs, -⟩ := hlocals.fits
  obtain ⟨hcount, -⟩ := run.read_frames
  have hmax := run.argumentCount_le
  have hentry := typesSize_le locals
  have hleast : StackMapFrame.leastSize ∘ run.moveFrame = StackMapFrame.leastSize := by
    funext frame
    exact leastSize_mapRefs _ _ frame
  have hnew := (framesSize_bounds (-1) table.entries).2
  have hold := (framesSize_bounds (-1) (tableEntries run.editor.stackMap)).1
  unfold parameterCapacity at hmax
  unfold classfileMaxCount at hcount
  unfold stackMapTableSize
  rw [htable] at hnew ⊢
  rw [hsplit] at hcount hold ⊢
  simp only [List.map_append, List.map_map, List.map_cons, hleast, List.sum_append, List.sum_cons, List.length_append,
    List.length_cons, List.length_map] at hnew hold hcount
  have hfull : (run.entryFrame locals).leastSize = 7 + typesSize locals + typesSize [] := rfl
  have hnone : typesSize [] = 0 := rfl
  omega

/-- What is read of the stored code. -/
theorem codeFrames_stored {table : NamedTable StackMapFrame} (hmap : run.framed.stackMap = some table)
    (hnamed : constantPoolUtf8Equals run.tableTree.constantPool table.nameIndex (text "StackMapTable") = true) :
    ∃ a, stackMapTableWrite table.entries table.nameIndex = .ok a ∧ codeFrames run.tableTree.constantPool run.stored =
      (stackMapTableParse a >>= fun frames => .ok (run.framed.instructions, frames)) := by
  have hc := coherent_of_load run.loaded
  have hgrows := (run.interns_guard.trans (run.guardedValue.interns.trans run.interns_behind)).grows
  obtain ⟨written, maxStack, table', -, hframed, -⟩ := run.framed_eq
  refine codeFrames_of_store run.laid_framed run.exceptions_framed ?_ ?_ ?_ hmap hnamed run.others_framed run.storedCode
  · rw [hframed]
    exact fun t ht => (ok_mapEntries hc.lineNumbers t ht).grows hgrows
  · rw [hframed]
    exact fun t ht => (ok_mapEntries hc.locals t ht).grows hgrows
  · rw [hframed]
    exact fun t ht => (ok_mapEntries hc.localTypes t ht).grows hgrows

/-- The entry frame has the locals of the method, in the tree that is left. -/
theorem resolve_locals {locals : List VerificationType} (h : EntryLocals run.frameTree d run.isStatic locals)
    (names : Int → Option Nat) :
    locals.map (VerificationType.resolve cf'.constantPool names) = initialLocals cf' d run.isStatic := by
  have hinterns := (addFrame_ok run.tabled).1
  have hpool := run.pool_after
  have hthis : cf'.thisClass = run.frameTree.thisClass := by
    have hfinal : cf'.thisClass = run.tableTree.thisClass := (congrArg ClassFile.thisClass run.final :)
    rw [hfinal, hinterns.rest]
  exact h.resolve (by rw [hpool]; exact hinterns.grows) hthis names

/-- The frames with the entry frame, read again, say what they should exactly when no frame depends on the one at offset
0. -/
theorem keepsFrames_iff {table : NamedTable StackMapFrame} {locals : List VerificationType}
    {before behind frames' : List StackMapFrame} {count : Nat} (hvalid : ValidTable table.entries)
    (hlocals : EntryLocals run.frameTree d run.isStatic locals)
    (hsplit : tableEntries run.editor.stackMap = before ++ behind)
    (htable : table.entries = before.map run.moveFrame ++ run.entryFrame locals :: behind.map run.moveFrame)
    (hbefore : before = [] ∨ ∃ first, before = [first] ∧ first.offset = 0) (hbehind : ∀ x ∈ behind, x.offset ≠ 0)
    (hcontent : frames'.map StackMapFrame.content = table.entries.map StackMapFrame.content) :
    KeepsFrames cf'.constantPool (initialLocals cf' d run.isStatic) run.editor.instructions run.framed.instructions
        (tableEntries run.editor.stackMap) frames' count ↔
      count = run.nodes.length ∧ EntryFree cf'.constantPool (initialLocals cf' d run.isStatic) run.editor.instructions
        (tableEntries run.editor.stackMap) := by
  have hlen := run.length_framed
  have hmoves := run.splicing.movesFrames cf'.constantPool
  rw [hsplit] at hmoves ⊢
  have hread : framesOf cf'.constantPool (initialLocals cf' d run.isStatic) run.framed.instructions frames' =
      framesOf cf'.constantPool (initialLocals cf' d run.isStatic) run.extended.instructions table.entries := by
    unfold framesOf
    rw [run.names_framed]
    exact absoluteFrames_content _ hcontent
  have hinitial : ∀ count, (initialLocals cf' d run.isStatic).map (·.moved count) = initialLocals cf' d run.isStatic :=
    moved_initialLocals cf' d run.isStatic
  obtain ⟨hl, -⟩ := run.splicing.laid_insert
  have hbody : run.extended.instructions.names (run.extended.instructions.start run.nodes.length) =
      some run.nodes.length := by
    refine hl.names_iff.mpr ⟨?_, rfl⟩
    rw [length_insertNodes]
    omega
  have hresolve := run.resolve_locals hlocals run.extended.instructions.names
  -- every frame of the table names an instruction, so frames at different offsets have different positions
  have hnamed : ∀ frame ∈ table.entries, ∃ j, run.extended.instructions.names frame.offset = some j ∧
      frame.offset = run.extended.instructions.start j := by
    have hmoved {l : List StackMapFrame} (hsub : l ⊆ before ++ behind) : ∀ frame ∈ l.map run.moveFrame,
        ∃ j, run.extended.instructions.names frame.offset = some j ∧
          frame.offset = run.extended.instructions.start j := by
      intro frame hf
      obtain ⟨old, hold, rfl⟩ := List.mem_map.mp hf
      have hmem : old ∈ tableEntries run.editor.stackMap := by rw [hsplit]; exact hsub hold
      obtain ⟨j, -, hname, -, hstart⟩ := run.splicing.frame_moved hmem
      have hposition := hmoves.positions old (hsub hold)
      rw [hname] at hposition
      exact ⟨_, hposition, hstart⟩
    intro frame hf
    rw [htable] at hf
    rcases List.mem_append.mp hf with hf | hf
    · exact hmoved (List.subset_append_left _ _) frame hf
    rcases List.mem_cons.mp hf with rfl | hf
    · exact ⟨_, hbody, rfl⟩
    · exact hmoved (List.subset_append_right _ _) frame hf
  have hnodup : (table.entries.map fun frame => run.extended.instructions.names frame.offset).Nodup := by
    refine List.pairwise_map.mpr (hvalid.increasing.imp_of_mem fun {a b} ha hb hlt heq => ?_)
    obtain ⟨i, hi, hai⟩ := hnamed a ha
    obtain ⟨j, hj, hbj⟩ := hnamed b hb
    rw [hi, hj, Option.some.injEq] at heq
    rw [heq] at hai
    omega
  rw [htable] at hnodup
  have hiff := kept_iff (hinitial run.nodes.length) hmoves hbody hresolve hbefore hbehind hnodup
  have hentry : (⟨some run.nodes.length, initialLocals cf' d run.isStatic, []⟩ : AbsoluteFrame) ∈
      framesOf cf'.constantPool (initialLocals cf' d run.isStatic) run.extended.instructions table.entries := by
    rw [htable]
    have := framesOf_inserted (hinitial run.nodes.length) hmoves hbody hresolve
    exact this ▸ List.mem_append_right _ List.mem_cons_self
  constructor
  · rintro ⟨hcounted, hkept, -, -⟩
    obtain rfl : count = run.nodes.length := by omega
    refine ⟨rfl, hiff.mp fun frame hf => ?_⟩
    have := hkept frame hf
    rw [hread, htable] at this
    exact this
  · rintro ⟨rfl, hfree⟩
    refine ⟨hlen, fun frame hf => ?_, by rw [hread]; exact hentry, ?_⟩
    · rw [hread, htable]
      exact hiff.mpr hfree frame hf
    · have hoffsets : frames'.map StackMapFrame.offset = table.entries.map StackMapFrame.offset := by
        simpa [List.map_map, Function.comp_def, StackMapFrame.content] using congrArg (List.map Prod.fst) hcontent
      have := List.pairwise_map.mpr hvalid.increasing
      rw [← hoffsets] at this
      exact List.pairwise_map.mp this

end GuardRun

/-! ## The table -/

/-- **The guard and the other frames.** For every guarded call that succeeds, the old frames keep their meaning, the
body is entered with the locals of the method and the frames stand in order, exactly when the frame behind one at offset
0 has the locals it would have without it, and the table with the new frame still fits its length field, which it does
unless the old one was within 2 ^ 18 bytes of the limit. -/
theorem guard_keeps_frames_iff {name owner callee : Bytes} {d : MethodDescriptor} {valueCallee : Option Bytes}
    {argument : Int} {cf cf' : ClassFile} (hcount : cf.constantPool.count ≤ classfileMaxCount)
    (h : classTransformInsertGuardedCall (some name) (some d.text) (some owner) (some callee) valueCallee argument cf =
      .ok () cf') :
    ∃ index method code stored pool editor nodes locals table, findMethod cf name d.text = some (index, method) ∧
      codeOf cf index = some code ∧ codeOf cf' index = some stored ∧
      Grows cf.constantPool pool ∧ Grows pool cf'.constantPool ∧ codeEditorLoad code pool = .ok editor ∧
      codeFrames pool code = .ok (editor.instructions, tableEntries editor.stackMap) ∧
      insertFrame (tableEntries (insertNodes editor 0 nodes).stackMap)
        ⟨255, (insertNodes editor 0 nodes).instructions.start nodes.length, .full locals []⟩ = .ok table ∧
      (KeepsMeaning cf'.constantPool (initialLocals cf' d (hasFlag method.accessFlags Acc.static_)) editor.instructions
          (tableEntries editor.stackMap) stored ↔
        EntryFree cf'.constantPool (initialLocals cf' d (hasFlag method.accessFlags Acc.static_)) editor.instructions
          (tableEntries editor.stackMap) ∧ stackMapTableSize table ≤ 0xFFFFFFFF) ∧
      (stackMapTableSize (tableEntries editor.stackMap) + 2 ^ 18 ≤ 2 ^ 32 → stackMapTableSize table ≤ 0xFFFFFFFF) := by
  obtain ⟨run⟩ := insertGuardedCall_ok h
  obtain ⟨table, locals, before, behind, hmap, hinsert, hlocals, hsplit, htable, hbefore, hbehind, hlen, hnamed⟩ :=
    run.table_split
  have hvalid := run.validTable hmap (hlocals hcount) hsplit htable hlen
  obtain ⟨a, hwrite, hstored⟩ := run.codeFrames_stored hmap (hnamed hcount)
  have hpool := run.pool_after
  have hbehindOwner := (run.interns_guard.trans (run.guardedValue.interns.trans run.interns_behind)).grows
  refine ⟨run.index, run.method, run.code, run.stored, run.ownerTree.constantPool, run.editor, run.nodes, locals,
    table.entries, run.findMethod, run.codeOf_before, run.codeOf_after, run.interns_owner.grows,
    by rw [hpool]; exact hbehindOwner, run.loaded, (codeFrames_of_load run.loaded).1, hinsert, ?_, fun hroom => ?_⟩
  swap
  · have := run.size_table_le (hlocals hcount) hsplit htable
    omega
  have hcontent {back : List StackMapFrame} (hparse : stackMapTableParse a = .ok back) :
      back.map StackMapFrame.content = table.entries.map StackMapFrame.content := by
    obtain ⟨attr, back', hwrite', hparse', hmap'⟩ :=
      (hvalid.reads_back_iff table.nameIndex).mpr (hvalid.size_of_parse hwrite hparse)
    rw [hwrite, Except.ok.injEq] at hwrite'
    rw [← hwrite', hparse, Except.ok.injEq] at hparse'
    rw [hparse', hmap']
  constructor
  · rintro ⟨list', frames', count, hread, hkeeps⟩
    rw [hpool, hstored] at hread
    obtain ⟨back, hparse, hend⟩ := bind_ok hread
    cases hend
    exact ⟨((run.keepsFrames_iff hvalid (hlocals hcount) hsplit htable hbefore hbehind (hcontent hparse)).mp
      hkeeps).2, hvalid.size_of_parse hwrite hparse⟩
  · rintro ⟨hfree, hsize⟩
    obtain ⟨attr, back, hwrite', hparse, -⟩ := (hvalid.reads_back_iff table.nameIndex).mpr hsize
    rw [hwrite, Except.ok.injEq] at hwrite'
    rw [← hwrite'] at hparse
    refine ⟨run.framed.instructions, back, run.nodes.length, ?_, (run.keepsFrames_iff hvalid (hlocals hcount)
      hsplit htable hbefore hbehind (hcontent hparse)).mpr ⟨rfl, hfree⟩⟩
    rw [hpool, hstored, bind_of_ok hparse]

instance (pool : ConstantPool) (initial : List ResolvedType) (list list' : InstructionList)
    (frames frames' : List StackMapFrame) (count : Nat) :
    Decidable (KeepsFrames pool initial list list' frames frames' count) :=
  decidable_of_iff (list'.items.length = list.items.length + count ∧
    (∀ frame ∈ framesOf pool initial list frames, frame.moved count ∈ framesOf pool initial list' frames') ∧
    ⟨some count, initial, []⟩ ∈ framesOf pool initial list' frames' ∧
    frames'.Pairwise fun frame later => frame.offset < later.offset)
    ⟨fun h => ⟨h.1, h.2.1, h.2.2.1, h.2.2.2⟩, fun h => ⟨h.behind, h.kept, h.entry, h.increasing⟩⟩

def takesString : MethodDescriptor := ⟨[stringType], none⟩

/-- A loop to the first instruction, with its frames. -/
def loopingClass (frames : Bytes) : ClassFile :=
  guardedClass takesString.text [Opc.iconst_0, Opc.ifeq, 0xFF, 0xFF, Opc.return_] frames

def guardLooping : Transform Unit :=
  classTransformInsertGuardedCall (some (text "m")) (some takesString.text) (some (text "G")) (some (text "g")) none 7

/-- Both frames have the locals of the method. -/
theorem guard_keeps_frames_same : ∃ cf' code stored list frames, guardLooping (loopingClass [0, 2, 0, 3]) = .ok () cf' ∧
    codeOf (loopingClass [0, 2, 0, 3]) 0 = some code ∧ codeOf cf' 0 = some stored ∧
    codeFrames (loopingClass [0, 2, 0, 3]).constantPool code = .ok (list, frames) ∧
    KeepsMeaning cf'.constantPool (initialLocals cf' takesString true) list frames stored := by
  obtain ⟨cf', h⟩ := ok_of_succeeded (r := guardLooping (loopingClass [0, 2, 0, 3])) (by decide +kernel)
  obtain ⟨index, method, code, stored, pool, editor, nodes, locals, table, hfind, hcode, hstored,
    hgrows, -, -, hread, -, hiff, hroom⟩ := guard_keeps_frames_iff (by decide +kernel) h
  have hmethod : (findMethod (loopingClass [0, 2, 0, 3]) (text "m") takesString.text).map
      (fun m => (m.1, hasFlag m.2.accessFlags Acc.static_)) = some (0, true) := by decide +kernel
  rw [hfind, Option.map_some, Option.some.injEq, Prod.mk.injEq] at hmethod
  obtain ⟨rfl, hstatic⟩ := hmethod
  rw [hstatic] at hiff
  rw [codeFrames_of_grows hgrows (by decide +kernel)] at hread
  have hframes : ((codeOf (loopingClass [0, 2, 0, 3]) 0).map (codeFrames (loopingClass [0, 2, 0, 3]).constantPool)).map
      (fun x => x.toOption.map (·.2)) = some (some [⟨0, 0, .same⟩, ⟨3, 4, .same⟩]) := by decide +kernel
  rw [hcode, Option.map_some, Option.map_some, hread] at hframes
  have hframes : tableEntries editor.stackMap = [⟨0, 0, .same⟩, ⟨3, 4, .same⟩] :=
    Option.some.inj (Option.some.inj hframes)
  refine ⟨cf', code, stored, _, _, h, hcode, hstored, hread, hiff.mpr ⟨fun first next rest hsplit _ => ?_, hroom ?_⟩⟩
  · rw [hframes] at hsplit
    cases hsplit
    rfl
  · rw [hframes]
    decide

/-- The frame at the first instruction has forgotten the parameter, and the one behind it says the same as it: there the
guard brings the parameter back. -/
theorem guard_changes_frame : ∃ cf' code stored list frames,
    guardLooping (loopingClass [0, 2, 255, 0, 0, 0, 1, 0, 0, 0, 3]) = .ok () cf' ∧
    codeOf (loopingClass [0, 2, 255, 0, 0, 0, 1, 0, 0, 0, 3]) 0 = some code ∧ codeOf cf' 0 = some stored ∧
    codeFrames (loopingClass [0, 2, 255, 0, 0, 0, 1, 0, 0, 0, 3]).constantPool code = .ok (list, frames) ∧
    ¬KeepsMeaning cf'.constantPool (initialLocals cf' takesString true) list frames stored := by
  generalize hcf : loopingClass [0, 2, 255, 0, 0, 0, 1, 0, 0, 0, 3] = cf
  obtain ⟨cf', h⟩ := ok_of_succeeded (r := guardLooping cf) (by rw [← hcf]; decide +kernel)
  have hend : endState guardLooping cf = cf' := by rw [endState, h]
  have hcheck : ((codeOf cf 0).bind fun code => (codeOf (endState guardLooping cf) 0).bind fun stored =>
      (codeFrames cf.constantPool code).toOption.bind fun old =>
        (codeFrames (endState guardLooping cf).constantPool stored).toOption.map fun new =>
          decide (KeepsFrames (endState guardLooping cf).constantPool
            (initialLocals (endState guardLooping cf) takesString true) old.1 new.1 old.2 new.2
            (new.1.items.length - old.1.items.length))) = some false := by
    rw [← hcf]
    decide +kernel
  rw [hend] at hcheck
  obtain ⟨code, hcode, hcheck⟩ := Option.bind_eq_some_iff.mp hcheck
  obtain ⟨stored, hstored, hcheck⟩ := Option.bind_eq_some_iff.mp hcheck
  obtain ⟨⟨list, frames⟩, hold, hcheck⟩ := Option.bind_eq_some_iff.mp hcheck
  obtain ⟨⟨list', frames'⟩, hnew, hcheck⟩ := Option.map_eq_some_iff.mp hcheck
  refine ⟨cf', code, stored, list, frames, h, hcode, hstored, ok_of_toOption hold, ?_⟩
  rintro ⟨list'', frames'', count, hread, hkeeps⟩
  rw [ok_of_toOption hnew] at hread
  cases hread
  obtain rfl : count = list'.items.length - list.items.length := by
    have := hkeeps.behind
    omega
  exact of_decide_eq_false hcheck hkeeps

end Jni2Hook
