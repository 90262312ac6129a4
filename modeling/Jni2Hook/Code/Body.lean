import Jni2Hook.Code.EditorRoundTrip

/-!
# Bodies: what an editor says, up to the naming of places

A `Body ρ` holds what a Code attribute says, with its references to places in the code taken out as values of type `ρ`.
The view of an editor (`CodeEditor.body`) has the stored offsets as references; `CodeEditor.resolve` has the index of
the instruction that an offset names. What the view leaves out is the position of an instruction itself, the form in
which a stack map frame is written, and the bytes of an opaque attribute that hold offsets (they are blanked, and the
offsets stand among the references).

References come in two kinds: those that name a position, and those that name one specific instruction. `Body.map`
takes a function for each.
-/

namespace Jni2Hook

/-! ## Bodies -/

/-- An instruction, with its targets taken out of the operand. -/
structure BodyInstruction (ρ : Type) where
  opcode : UInt8
  wide : Bool
  operand : Operand
  targets : List ρ
  deriving DecidableEq, Repr

/-- An exception handler and the range it covers. -/
structure BodyException (ρ : Type) where
  start : ρ
  stop : ρ
  handler : ρ
  catchType : UInt16
  deriving DecidableEq, Repr

/-- The first instruction of a source line. -/
structure BodyLine (ρ : Type) where
  start : ρ
  lineNumber : UInt16
  deriving DecidableEq, Repr

/-- A local variable and the range it lives in. -/
structure BodyLocal (ρ : Type) where
  start : ρ
  stop : ρ
  nameIndex : UInt16
  descriptorIndex : UInt16
  index : UInt16
  deriving DecidableEq, Repr

/-- A stack map frame; `sites` are the instructions that its Uninitialized types name. -/
structure BodyFrame (ρ : Type) where
  position : ρ
  kind : FrameKind
  sites : List ρ
  deriving DecidableEq, Repr

/-- A place in an opaque attribute and the references it holds. -/
structure BodyPlace (ρ : Type) where
  attributeIndex : Nat
  payloadOffset : Nat
  kind : TypeAnnotationRefKind
  places : List ρ
  deriving DecidableEq, Repr

/-- What a Code attribute says, with references of type `ρ`. -/
structure Body (ρ : Type) where
  maxStack : UInt16
  maxLocals : UInt16
  instructions : List (BodyInstruction ρ)
  exceptions : List (BodyException ρ)
  lineNumbers : Option (NamedTable (BodyLine ρ))
  locals : Option (NamedTable (BodyLocal ρ))
  localTypes : Option (NamedTable (BodyLocal ρ))
  stackMap : Option (NamedTable (BodyFrame ρ))
  otherAttributes : List AttributeInfo
  annotations : List (BodyPlace ρ)
  deriving DecidableEq, Repr

/-! ## Mapping the references -/

/-- A table with its entries replaced. -/
def NamedTable.map {α β : Type} (f : α → β) (t : NamedTable α) : NamedTable β := ⟨t.nameIndex, t.entries.map f⟩

section Map

variable {ρ σ τ : Type}

def BodyInstruction.map (pos : ρ → σ) (i : BodyInstruction ρ) : BodyInstruction σ :=
  ⟨i.opcode, i.wide, i.operand, i.targets.map pos⟩

def BodyException.map (pos : ρ → σ) (e : BodyException ρ) : BodyException σ :=
  ⟨pos e.start, pos e.stop, pos e.handler, e.catchType⟩

def BodyLine.map (pos : ρ → σ) (e : BodyLine ρ) : BodyLine σ := ⟨pos e.start, e.lineNumber⟩

def BodyLocal.map (pos : ρ → σ) (e : BodyLocal ρ) : BodyLocal σ :=
  ⟨pos e.start, pos e.stop, e.nameIndex, e.descriptorIndex, e.index⟩

def BodyFrame.map (pos ins : ρ → σ) (f : BodyFrame ρ) : BodyFrame σ := ⟨pos f.position, f.kind, f.sites.map ins⟩

def BodyPlace.map (pos ins : ρ → σ) (a : BodyPlace ρ) : BodyPlace σ :=
  ⟨a.attributeIndex, a.payloadOffset, a.kind, a.places.map (if a.kind = .span then pos else ins)⟩

/-- References that name a position go through `pos`, references that name an instruction through `ins`. -/
def Body.map (pos ins : ρ → σ) (b : Body ρ) : Body σ where
  maxStack := b.maxStack
  maxLocals := b.maxLocals
  instructions := b.instructions.map (·.map pos)
  exceptions := b.exceptions.map (·.map pos)
  lineNumbers := b.lineNumbers.map (·.map (·.map pos))
  locals := b.locals.map (·.map (·.map pos))
  localTypes := b.localTypes.map (·.map (·.map pos))
  stackMap := b.stackMap.map (·.map (·.map pos ins))
  otherAttributes := b.otherAttributes
  annotations := b.annotations.map (·.map pos ins)

/-- Every reference of a body. -/
def Body.refs (b : Body ρ) : List ρ :=
  b.instructions.flatMap (·.targets) ++
  b.exceptions.flatMap (fun e => [e.start, e.stop, e.handler]) ++
  (tableEntries b.lineNumbers).map (·.start) ++
  (tableEntries b.locals).flatMap (fun e => [e.start, e.stop]) ++
  (tableEntries b.localTypes).flatMap (fun e => [e.start, e.stop]) ++
  (tableEntries b.stackMap).flatMap (fun f => f.position :: f.sites) ++
  b.annotations.flatMap (·.places)

@[simp] theorem NamedTable.map_map {α β γ : Type} (f : α → β) (g : β → γ) (t : NamedTable α) :
    (t.map f).map g = t.map (g ∘ f) := by
  simp [NamedTable.map]

@[simp] theorem tableEntries_map {α β : Type} (f : α → β) (t : Option (NamedTable α)) :
    tableEntries (t.map (·.map f)) = (tableEntries t).map f := by
  cases t <;> rfl

theorem BodyPlace.map_map (pos ins : ρ → σ) (pos' ins' : σ → τ) (a : BodyPlace ρ) :
    (a.map pos ins).map pos' ins' = a.map (pos' ∘ pos) (ins' ∘ ins) := by
  obtain ⟨index, offset, kind, places⟩ := a
  cases kind <;> simp [BodyPlace.map]

/-- Mapping twice is mapping by the composite. -/
theorem Body.map_map (pos ins : ρ → σ) (pos' ins' : σ → τ) (b : Body ρ) :
    (b.map pos ins).map pos' ins' = b.map (pos' ∘ pos) (ins' ∘ ins) := by
  simp [Body.map, BodyInstruction.map, BodyException.map, BodyLine.map, BodyLocal.map, BodyFrame.map, Function.comp_def,
    BodyPlace.map_map]

theorem table_map_id {α : Type} {f : α → α} (hf : ∀ x, f x = x) (t : Option (NamedTable α)) : t.map (·.map f) = t := by
  obtain rfl : f = id := funext hf
  cases t <;> simp [NamedTable.map]

/-- Mapping by the identity changes nothing. -/
theorem Body.map_id {pos ins : ρ → ρ} (hp : ∀ r, pos r = r) (hi : ∀ r, ins r = r) (b : Body ρ) : b.map pos ins = b := by
  obtain rfl : pos = id := funext hp
  obtain rfl : ins = id := funext hi
  simp only [Body.map]
  rw [table_map_id (f := BodyLine.map id) (fun _ => rfl), table_map_id (f := BodyLocal.map id) (fun _ => rfl),
    table_map_id (f := BodyLocal.map id) (fun _ => rfl), table_map_id (f := BodyFrame.map id id) fun f => by
      simp [BodyFrame.map]]
  simp [BodyInstruction.map, BodyException.map, BodyPlace.map]

theorem table_map_congr {α β : Type} {f g : α → β} {t : Option (NamedTable α)} (h : ∀ x ∈ tableEntries t, f x = g x) :
    t.map (·.map f) = t.map (·.map g) := by
  cases t with
  | none => rfl
  | some t =>
    simp only [Option.map_some, NamedTable.map]
    rw [show t.entries.map f = t.entries.map g from List.map_congr_left h]

/-- Functions that agree on the references of a body agree on the body. -/
theorem Body.map_congr {pos ins pos' ins' : ρ → σ} {b : Body ρ} (hp : ∀ r ∈ b.refs, pos r = pos' r)
    (hi : ∀ r ∈ b.refs, ins r = ins' r) : b.map pos ins = b.map pos' ins' := by
  simp only [Body.refs, List.mem_append, List.mem_flatMap, List.mem_map] at hp hi
  unfold Body.map
  congr 1
  · refine List.map_congr_left fun i hmem => ?_
    simp only [BodyInstruction.map]
    rw [List.map_congr_left fun t ht => hp t (by grind)]
  · refine List.map_congr_left fun e hmem => ?_
    simp only [BodyException.map]
    rw [hp e.start (by grind), hp e.stop (by grind), hp e.handler (by grind)]
  · refine table_map_congr fun e hmem => ?_
    simp only [BodyLine.map]
    rw [hp e.start (by grind)]
  · refine table_map_congr fun e hmem => ?_
    simp only [BodyLocal.map]
    rw [hp e.start (by grind), hp e.stop (by grind)]
  · refine table_map_congr fun e hmem => ?_
    simp only [BodyLocal.map]
    rw [hp e.start (by grind), hp e.stop (by grind)]
  · refine table_map_congr fun f hmem => ?_
    simp only [BodyFrame.map]
    rw [hp f.position (by grind), List.map_congr_left fun t ht => hi t (by grind)]
  · refine List.map_congr_left fun a hmem => ?_
    simp only [BodyPlace.map]
    split
    · rw [List.map_congr_left fun t ht => hp t (by grind)]
    · rw [List.map_congr_left fun t ht => hi t (by grind)]

theorem Body.mem_refs_map {pos ins : ρ → σ} {b : Body ρ} {r : σ} (h : r ∈ (b.map pos ins).refs) :
    ∃ v ∈ b.refs, r = pos v ∨ r = ins v := by
  have any {l : List ρ} {f : ρ → σ} (hf : f = pos ∨ f = ins) (hl : ∀ v ∈ l, v ∈ b.refs) (hr : r ∈ l.map f) :
      ∃ v ∈ b.refs, r = pos v ∨ r = ins v := by
    obtain ⟨v, hv, rfl⟩ := List.mem_map.mp hr
    rcases hf with rfl | rfl
    · exact ⟨v, hl v hv, .inl rfl⟩
    · exact ⟨v, hl v hv, .inr rfl⟩
  simp only [Body.refs, Body.map, tableEntries_map, List.flatMap_map, List.map_map, List.mem_append, List.mem_flatMap,
    List.mem_map, Function.comp_apply] at h
  rcases h with (((((⟨i, hi, hr⟩ | ⟨e, he, hr⟩) | ⟨e, he, hr⟩) | ⟨e, he, hr⟩) | ⟨e, he, hr⟩) | ⟨f, hf, hr⟩) |
    ⟨a, ha, hr⟩
  · exact any (.inl rfl) (fun v hv => by simp only [Body.refs, List.mem_append, List.mem_flatMap]; grind) hr
  · exact any (l := [e.start, e.stop, e.handler]) (.inl rfl)
      (fun v hv => by simp only [Body.refs, List.mem_append, List.mem_flatMap]; grind) hr
  · exact ⟨e.start, by simp only [Body.refs, List.mem_append, List.mem_map]; grind, .inl hr.symm⟩
  · exact any (l := [e.start, e.stop]) (.inl rfl)
      (fun v hv => by simp only [Body.refs, List.mem_append, List.mem_flatMap]; grind) hr
  · exact any (l := [e.start, e.stop]) (.inl rfl)
      (fun v hv => by simp only [Body.refs, List.mem_append, List.mem_flatMap]; grind) hr
  · rcases List.mem_cons.mp hr with rfl | hr
    · exact ⟨f.position, by simp only [Body.refs, List.mem_append, List.mem_flatMap]; grind, .inl rfl⟩
    · exact any (.inr rfl) (fun v hv => by simp only [Body.refs, List.mem_append, List.mem_flatMap]; grind) hr
  · refine any (l := a.places) ?_ (fun v hv => by simp only [Body.refs, List.mem_append, List.mem_flatMap]; grind) hr
    split
    · exact .inl rfl
    · exact .inr rfl

/-- A body with instructions put before the one of that index. -/
def Body.splice (b : Body ρ) (at_ : Nat) (nodes : List (BodyInstruction ρ)) : Body ρ :=
  { b with instructions := spliceAt b.instructions at_ nodes }

theorem spliceAt_map {α β : Type} (f : α → β) (items : List α) (at_ : Nat) (nodes : List α) :
    (spliceAt items at_ nodes).map f = spliceAt (items.map f) at_ (nodes.map f) := by
  simp [spliceAt]

theorem Body.map_splice (pos ins : ρ → σ) (b : Body ρ) (at_ : Nat) (nodes : List (BodyInstruction ρ)) :
    (b.splice at_ nodes).map pos ins = (b.map pos ins).splice at_ (nodes.map (·.map pos)) := by
  simp [Body.map, Body.splice, spliceAt_map]

/-- The references of a body with instructions put in are its own and their targets. -/
theorem Body.mem_refs_splice {b : Body ρ} {at_ : Nat} {nodes : List (BodyInstruction ρ)} {r : ρ}
    (h : r ∈ (b.splice at_ nodes).refs) : r ∈ b.refs ∨ ∃ node ∈ nodes, r ∈ node.targets := by
  simp only [Body.refs, Body.splice, List.mem_append, or_assoc] at h ⊢
  rcases h with h | h
  · obtain ⟨i, hi, hr⟩ := List.mem_flatMap.mp h
    simp only [spliceAt, List.mem_append] at hi
    rcases hi with hi | hi | hi
    · exact .inl (List.mem_flatMap.mpr ⟨i, List.mem_of_mem_take hi, hr⟩)
    · exact .inr (.inr (.inr (.inr (.inr (.inr (.inr ⟨i, hi, hr⟩))))))
    · exact .inl (List.mem_flatMap.mpr ⟨i, List.mem_of_mem_drop hi, hr⟩)
  · grind

end Map

/-! ## The view of an editor -/

/-- An operand with its targets taken out. -/
def Operand.blank (operand : Operand) : Operand := operand.mapTargets fun _ => 0

/-- The types of a frame with the offsets of the Uninitialized ones taken out. -/
def FrameKind.blank (kind : FrameKind) : FrameKind := kind.mapOffsets fun _ => 0

def Instruction.body (node : Instruction) : BodyInstruction Int :=
  ⟨node.opcode, node.wide, node.operand.blank, node.operand.targets⟩

def ExceptionEntry.body (e : ExceptionEntry) : BodyException Int :=
  ⟨e.startPc.toNat, e.endPc.toNat, e.handlerPc.toNat, e.catchType⟩

def LineNumberEntry.body (e : LineNumberEntry) : BodyLine Int := ⟨e.startPc.toNat, e.lineNumber⟩

def LocalVariableEntry.body (e : LocalVariableEntry) : BodyLocal Int :=
  ⟨e.startPc.toNat, e.startPc.toNat + e.length.toNat, e.nameIndex, e.descriptorIndex, e.index⟩

def StackMapFrame.body (frame : StackMapFrame) : BodyFrame Int := ⟨frame.offset, frame.kind.blank, frame.kind.refs⟩

def TypeAnnotationRef.body (ref : TypeAnnotationRef) : BodyPlace Int :=
  ⟨ref.attributeIndex, ref.payloadOffset, ref.kind, ref.refs⟩

/-- Byte `k` of attribute `index` holds a part of an offset. -/
def covered (refs : List TypeAnnotationRef) (index k : Nat) : Bool :=
  refs.any fun ref => ref.attributeIndex = index && ref.payloadOffset ≤ k && k < ref.payloadOffset + ref.width

/-- The opaque attributes without the offsets they hold. -/
def blankOthers (refs : List TypeAnnotationRef) (others : List AttributeInfo) : List AttributeInfo :=
  others.mapIdx fun index a => { a with info := a.info.mapIdx fun k b => if covered refs index k then 0 else b }

/-- The view of an editor, with the stored offsets as references. -/
def CodeEditor.body (editor : CodeEditor) : Body Int where
  maxStack := editor.maxStack
  maxLocals := editor.maxLocals
  instructions := editor.instructions.items.map (·.body)
  exceptions := editor.exceptions.map (·.body)
  lineNumbers := editor.lineNumbers.map (·.map (·.body))
  locals := editor.locals.map (·.map (·.body))
  localTypes := editor.localTypes.map (·.map (·.body))
  stackMap := editor.stackMap.map (·.map (·.body))
  otherAttributes := blankOthers editor.typeAnnotations editor.otherAttributes
  annotations := editor.typeAnnotations.map (·.body)

/-- The index of the instruction that starts at an offset; the end of the code counts as one more. -/
def InstructionList.names (list : InstructionList) (offset : Int) : Option Nat :=
  (list.items.map (fun node => (node.offset : Int)) ++ [(list.codeLength : Int)]).idxOf? offset

/-- The view of an editor, with the indices that its offsets name. -/
def CodeEditor.resolve (editor : CodeEditor) : Body (Option Nat) :=
  editor.body.map editor.instructions.names editor.instructions.names

theorem CodeEditor.mem_body_refs {editor : CodeEditor} {v : Int} : v ∈ editor.body.refs ↔ v ∈ editor.refs := by
  simp [Body.refs, CodeEditor.body, CodeEditor.refs, Instruction.body, ExceptionEntry.body, LineNumberEntry.body,
    LocalVariableEntry.body, StackMapFrame.body, TypeAnnotationRef.body, ExceptionEntry.refs, LocalVariableEntry.refs,
    List.flatMap_map]

/-- Frames in another form have the same view. -/
theorem body_of_sameFrames {editor : CodeEditor} {frames : Option (NamedTable StackMapFrame)}
    (h : SameFrames frames editor.stackMap) : ({ editor with stackMap := frames } : CodeEditor).body = editor.body := by
  have view (t : NamedTable StackMapFrame) : t.map (·.body) =
      ⟨t.nameIndex, (t.entries.map StackMapFrame.content).map fun c => ⟨c.1, c.2.blank, c.2.refs⟩⟩ := by
    simp [NamedTable.map, StackMapFrame.body, StackMapFrame.content, Function.comp_def]
  have same : frames.map (·.map (·.body)) = editor.stackMap.map (·.map (·.body)) := by
    have := congrArg (Option.map fun x : UInt16 × List (Int × FrameKind) =>
      (⟨x.1, x.2.map fun c => ⟨c.1, c.2.blank, c.2.refs⟩⟩ : NamedTable (BodyFrame Int))) h
    simpa [Option.map_map, Function.comp_def, view] using this
  simp only [CodeEditor.body, same]

/-! ## Mapping the references of an editor -/

theorem take_map_append_drop {α : Type} (f : α → α) (l : List α) (k : Nat) :
    ((l.take k).map f ++ l.drop k).take k = (l.take k).map f := by
  rcases Nat.le_total k l.length with h | h
  · exact List.take_left' (by simp [h])
  · rw [List.drop_of_length_le h, List.append_nil, List.take_of_length_le (by simp [h])]

theorem drop_map_append_drop {α : Type} (f : α → α) (l : List α) (k : Nat) :
    ((l.take k).map f ++ l.drop k).drop k = l.drop k := by
  rcases Nat.le_total k l.length with h | h
  · exact List.drop_left' (by simp [h])
  · rw [List.drop_of_length_le h, List.append_nil, List.drop_of_length_le (by simp [h])]

@[simp] theorem Operand.targets_mapTargets (f : Int → Int) (operand : Operand) :
    (operand.mapTargets f).targets = operand.targets.map f := by
  cases operand with
  | tableSwitch defaultTarget low high targets =>
    simp only [Operand.mapTargets, Operand.targets, List.map_cons]
    exact congrArg _ (take_map_append_drop f targets _)
  | lookupSwitch defaultTarget pairs => simp [Operand.mapTargets, Operand.targets, Function.comp_def]
  | _ => rfl

@[simp] theorem Operand.mapTargets_mapTargets (f g : Int → Int) (operand : Operand) :
    (operand.mapTargets f).mapTargets g = operand.mapTargets (g ∘ f) := by
  cases operand with
  | tableSwitch defaultTarget low high targets =>
    have entries (d : Int) (l : List Int) : instructionSwitchEntries (.tableSwitch d low high l) =
        instructionSwitchEntries (.tableSwitch defaultTarget low high targets) := rfl
    simp only [Operand.mapTargets]
    rw [entries (f defaultTarget), take_map_append_drop, drop_map_append_drop, List.map_map]
    rfl
  | lookupSwitch defaultTarget pairs => simp [Operand.mapTargets, Function.comp_def]
  | _ => rfl

/-- Targets that stay where they are leave the operand as it is. -/
theorem Operand.mapTargets_of_fixed {f : Int → Int} (operand : Operand) (h : ∀ t ∈ operand.targets, f t = t) :
    operand.mapTargets f = operand := by
  have fixed {l : List Int} (hl : ∀ t ∈ l, f t = t) : l.map f = l :=
    (List.map_congr_left hl).trans (List.map_id l)
  cases operand with
  | branch target => exact congrArg _ (h target List.mem_cons_self)
  | branchWide target => exact congrArg _ (h target List.mem_cons_self)
  | tableSwitch d low high targets =>
    have hd := h d List.mem_cons_self
    have htargets := fixed fun t ht => h t (List.mem_cons_of_mem d ht)
    simp only [Operand.mapTargets]
    rw [hd, htargets, List.take_append_drop]
  | lookupSwitch d pairs =>
    have hd := h d List.mem_cons_self
    have hpairs : pairs.map (fun p : SwitchPair => { p with target := f p.target }) = pairs := by
      refine (List.map_congr_left fun p hp => ?_).trans (List.map_id pairs)
      rw [h p.target (List.mem_cons_of_mem d (List.mem_map_of_mem hp))]
      rfl
    simp only [Operand.mapTargets, hd, hpairs]
  | _ => rfl

theorem Instruction.body_mapTargets (f : Int → Int) (node : Instruction) :
    (node.mapTargets f).body = node.body.map f := by
  simp [Instruction.mapTargets, Instruction.body, BodyInstruction.map, Operand.blank, Function.comp_def]

@[simp] theorem FrameKind.refs_mapOffsets (f : Int → Int) (kind : FrameKind) :
    (kind.mapOffsets f).refs = kind.refs.map f := by
  have one (type : VerificationType) : (type.mapOffset f).refs = type.refs.map f := by cases type <;> rfl
  cases kind <;> simp [FrameKind.mapOffsets, FrameKind.refs, one, List.flatMap_map, List.map_flatMap]

@[simp] theorem FrameKind.blank_mapOffsets (f : Int → Int) (kind : FrameKind) :
    (kind.mapOffsets f).blank = kind.blank := by
  have one (type : VerificationType) : (type.mapOffset f).mapOffset (fun _ => 0) = type.mapOffset fun _ => 0 := by
    cases type <;> rfl
  cases kind <;> simp [FrameKind.mapOffsets, FrameKind.blank, one]

theorem StackMapFrame.body_mapRefs (pos ins : Int → Int) (frame : StackMapFrame) :
    (frame.mapRefs pos ins).body = frame.body.map pos ins := by
  simp [StackMapFrame.mapRefs, StackMapFrame.body, BodyFrame.map]

theorem TypeAnnotationRef.body_mapRefs (pos ins : Int → Int) (ref : TypeAnnotationRef) :
    (ref.mapRefs pos ins).body = ref.body.map pos ins := by
  obtain ⟨index, offset, kind, start, stop⟩ := ref
  cases kind <;> simp [TypeAnnotationRef.mapRefs, TypeAnnotationRef.body, BodyPlace.map, TypeAnnotationRef.refs]

/-- The place of a reference. -/
def TypeAnnotationRef.place (ref : TypeAnnotationRef) : Nat × Nat × TypeAnnotationRefKind :=
  (ref.attributeIndex, ref.payloadOffset, ref.kind)

@[simp] theorem TypeAnnotationRef.place_mapRefs (pos ins : Int → Int) (ref : TypeAnnotationRef) :
    (ref.mapRefs pos ins).place = ref.place := by
  obtain ⟨index, offset, kind, start, stop⟩ := ref
  cases kind <;> rfl

theorem covered_eq (refs : List TypeAnnotationRef) (index k : Nat) :
    covered refs index k = (refs.map TypeAnnotationRef.place).any fun p =>
      p.1 = index && p.2.1 ≤ k && k < p.2.1 + if p.2.2 = .span then 4 else 2 := by
  rw [covered, List.any_map]
  rfl

/-- Which bytes are blanked depends only on the places. -/
theorem blankOthers_of_places {refs refs' : List TypeAnnotationRef} (others : List AttributeInfo)
    (h : refs'.map TypeAnnotationRef.place = refs.map TypeAnnotationRef.place) :
    blankOthers refs' others = blankOthers refs others := by
  simp only [blankOthers, covered_eq, h]

/-- A function that keeps references in `u2` fields, and in their order. -/
structure Bounded (pos : Int → Int) (refs : List Int) : Prop where
  nonneg : ∀ v ∈ refs, 0 ≤ pos v
  le : ∀ v ∈ refs, pos v ≤ 0xFFFF
  mono : ∀ v ∈ refs, ∀ w ∈ refs, v ≤ w → pos v ≤ pos w

theorem toNat_mapU2 {f : Int → Int} {v : UInt16} (h₀ : 0 ≤ f v.toNat) (h : f v.toNat ≤ 0xFFFF) :
    ((mapU2 f v).toNat : Int) = f v.toNat := toNat_u2OfInt_of_fits h₀ h

theorem table_view {α β : Type} {f : α → α} {v : α → β} {g : β → β} {t : Option (NamedTable α)}
    (h : ∀ e ∈ tableEntries t, v (f e) = g (v e)) :
    (t.map (·.mapEntries f)).map (·.map v) = (t.map (·.map v)).map (·.map g) := by
  cases t with
  | none => rfl
  | some t =>
    simp only [Option.map_some, NamedTable.mapEntries, NamedTable.map, List.map_map]
    rw [show t.entries.map (v ∘ f) = t.entries.map (g ∘ v) from List.map_congr_left h]

theorem LocalVariableEntry.body_mapRefs {f : Int → Int} {e : LocalVariableEntry} (h₀ : 0 ≤ f e.startPc.toNat)
    (hm : f e.startPc.toNat ≤ f (e.startPc.toNat + e.length.toNat))
    (h₁ : f (e.startPc.toNat + e.length.toNat) ≤ 0xFFFF) : (e.mapRefs f).body = e.body.map f := by
  simp only [LocalVariableEntry.mapRefs, LocalVariableEntry.body, BodyLocal.map]
  rw [toNat_u2OfInt_of_fits h₀ (by omega), toNat_u2OfInt_of_fits (by omega) (by omega)]
  congr 1
  omega

/-- As long as the references stay in their fields, mapping an editor maps its view. -/
theorem CodeEditor.body_mapRefs {pos ins : Int → Int} {editor : CodeEditor} (h : Bounded pos editor.body.refs) :
    (editor.mapRefs pos ins).body = editor.body.map pos ins := by
  obtain ⟨h₀, h₁, hm⟩ := h
  have mem {v : Int} (hv : v ∈ editor.refs) : v ∈ editor.body.refs := CodeEditor.mem_body_refs.mpr hv
  have span {t : Option (NamedTable LocalVariableEntry)} (ht : ∀ e ∈ tableEntries t, ∀ v ∈ e.refs, v ∈ editor.refs) :
      ∀ e ∈ tableEntries t, (e.mapRefs pos).body = e.body.map pos := by
    intro e he
    have hs := mem (ht e he e.startPc.toNat (by simp [LocalVariableEntry.refs]))
    have ht := mem (ht e he (e.startPc.toNat + e.length.toNat) (by simp [LocalVariableEntry.refs]))
    exact LocalVariableEntry.body_mapRefs (h₀ _ hs) (hm _ hs _ ht (by omega)) (h₁ _ ht)
  unfold CodeEditor.body CodeEditor.mapRefs Body.map
  congr 1
  · simp [Instruction.body_mapTargets, Function.comp_def]
  · simp only [List.map_map]
    refine List.map_congr_left fun e he => ?_
    have hr : ∀ v ∈ e.refs, v ∈ editor.body.refs := fun v hv => mem (by
      simp only [CodeEditor.refs, List.mem_append, List.mem_flatMap]; grind)
    have hs := hr e.startPc.toNat (by simp [ExceptionEntry.refs])
    have ht := hr e.endPc.toNat (by simp [ExceptionEntry.refs])
    have hh := hr e.handlerPc.toNat (by simp [ExceptionEntry.refs])
    simp only [Function.comp_apply, ExceptionEntry.mapRefs, ExceptionEntry.body, BodyException.map]
    rw [toNat_mapU2 (h₀ _ hs) (h₁ _ hs), toNat_mapU2 (h₀ _ ht) (h₁ _ ht), toNat_mapU2 (h₀ _ hh) (h₁ _ hh)]
  · refine table_view fun e he => ?_
    have hs : (e.startPc.toNat : Int) ∈ editor.body.refs := mem (by
      simp only [CodeEditor.refs, List.mem_append, List.mem_map]; grind)
    simp only [LineNumberEntry.mapRefs, LineNumberEntry.body, BodyLine.map]
    rw [toNat_mapU2 (h₀ _ hs) (h₁ _ hs)]
  · exact table_view (span fun e he v hv => by
      simp only [CodeEditor.refs, List.mem_append, List.mem_flatMap]; grind)
  · exact table_view (span fun e he v hv => by
      simp only [CodeEditor.refs, List.mem_append, List.mem_flatMap]; grind)
  · exact table_view fun frame _ => frame.body_mapRefs pos ins
  · exact blankOthers_of_places _ (by simp [Function.comp_def])
  · simp [TypeAnnotationRef.body_mapRefs, Function.comp_def]

end Jni2Hook
