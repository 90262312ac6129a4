import Jni2Hook.Code.StackMapTable
import Jni2Hook.Code.TypeAnnotation

/-!
# The code editor

`visitors/code_editor.c`: a Code attribute taken apart (`codeEditorLoad`), put together again (`codeEditorStore`), and
the insertion of instructions (`codeEditorInsert`), which turns every stored offset into an instruction index, shifts
the indices and turns them back.
-/

namespace Jni2Hook

open Lib

/-! ## The editor -/

/-- `line_number_entry`. -/
structure LineNumberEntry where
  startPc : UInt16
  lineNumber : UInt16
  deriving DecidableEq, Repr

/-- `local_variable_entry`. -/
structure LocalVariableEntry where
  startPc : UInt16
  length : UInt16
  nameIndex : UInt16
  descriptorIndex : UInt16
  index : UInt16
  deriving DecidableEq, Repr

/-- The entries of all attributes of one name, with the name of the last of them. -/
structure NamedTable (α : Type) where
  nameIndex : UInt16
  entries : List α
  deriving DecidableEq, Repr

/-- `code_editor`; a table whose `has_*` flag is false is `none`. -/
structure CodeEditor where
  maxStack : UInt16
  maxLocals : UInt16
  instructions : InstructionList
  exceptions : List ExceptionEntry
  lineNumbers : Option (NamedTable LineNumberEntry)
  locals : Option (NamedTable LocalVariableEntry)
  localTypes : Option (NamedTable LocalVariableEntry)
  stackMap : Option (NamedTable StackMapFrame)
  otherAttributes : List AttributeInfo
  typeAnnotations : List TypeAnnotationRef
  deriving DecidableEq, Repr

/-! ## Loading -/

def readLineNumberEntry : Parse LineNumberEntry := return ⟨← byteCursorU2, ← byteCursorU2⟩

def readLocalVariableEntry : Parse LocalVariableEntry :=
  return ⟨← byteCursorU2, ← byteCursorU2, ← byteCursorU2, ← byteCursorU2, ← byteCursorU2⟩

/-- `read_line_numbers` and `read_locals` behind `existing` entries; what follows the entries is not looked at. -/
def readTable {α : Type} (p : Parse α) (existing : Nat) : Parse (List α) := do
  let count ← byteCursorU2
  checkOk .truncated
  if existing + count.toNat > classfileMaxCount then throw .limitExceeded
  else do
    let entries ← readMany p count.toNat
    checkOk .truncated
    return entries

/-- The entries read so far. -/
def tableEntries {α : Type} : Option (NamedTable α) → List α
  | none => []
  | some table => table.entries

/-- A second attribute of the same name grows the table. -/
def growTable {α : Type} (p : Parse α) (table : Option (NamedTable α)) (nested : AttributeInfo) :
    Except ClassfileStatus (Option (NamedTable α)) :=
  match (readTable p (tableEntries table).length).run (byteCursorInit nested.payload) with
  | .error e => .error e
  | .ok (entries, _) => .ok (some ⟨nested.attributeNameIndex, tableEntries table ++ entries⟩)

/-- An attribute the editor does not take apart: kept opaque, with its bytecode offsets pulled out. -/
def loadOther (pool : ConstantPool) (editor : CodeEditor) (nested : AttributeInfo) :
    Except ClassfileStatus CodeEditor := do
  let index := editor.otherAttributes.length
  let copy : AttributeInfo := ⟨nested.attributeNameIndex, nested.attributeLength, nested.payload⟩
  let otherAttributes ← listAppend editor.otherAttributes copy
  if typeAnnotationIsCarrier pool nested.attributeNameIndex then
    let typeAnnotations ← typeAnnotationCollect copy index editor.typeAnnotations
    return { editor with otherAttributes := otherAttributes, typeAnnotations := typeAnnotations }
  else return { editor with otherAttributes := otherAttributes }

/-- One round of the attribute loop of `code_editor_load`. -/
def loadAttribute (pool : ConstantPool) (editor : CodeEditor) (nested : AttributeInfo) :
    Except ClassfileStatus CodeEditor :=
  let named (name : String) := constantPoolUtf8Equals pool nested.attributeNameIndex (text name)
  if named "LineNumberTable" then do
    return { editor with lineNumbers := ← growTable readLineNumberEntry editor.lineNumbers nested }
  else if named "LocalVariableTable" then do
    return { editor with locals := ← growTable readLocalVariableEntry editor.locals nested }
  else if named "LocalVariableTypeTable" then do
    return { editor with localTypes := ← growTable readLocalVariableEntry editor.localTypes nested }
  else if named "StackMapTable" then
    match editor.stackMap with
    | some _ => throw .unsupported
    | none => do
      return { editor with stackMap := some ⟨nested.attributeNameIndex, ← stackMapTableParse nested⟩ }
  else loadOther pool editor nested

/-- The attribute loop. -/
def loadAttributes (pool : ConstantPool) : CodeEditor → List AttributeInfo → Except ClassfileStatus CodeEditor
  | editor, [] => .ok editor
  | editor, nested :: rest => do
    let next ← loadAttribute pool editor nested
    loadAttributes pool next rest

def codeEditorLoad (code : AttributeInfo) (pool : ConstantPool) : Except ClassfileStatus CodeEditor := do
  let parsed ← codeAttributeParse code
  let instructions ← instructionListParse parsed.code
  loadAttributes pool
    ⟨parsed.maxStack, parsed.maxLocals, instructions, parsed.exceptions, none, none, none, none, [], []⟩
    parsed.attributes

/-- The instructions of a Code attribute. -/
def codeInstructions (code : AttributeInfo) : Except ClassfileStatus InstructionList := do
  let parsed ← codeAttributeParse code
  instructionListParse parsed.code

/-! ## Storing -/

def writeLineNumberEntry (e : LineNumberEntry) : Bytes := byteBufferU2 e.startPc ++ byteBufferU2 e.lineNumber

def writeLocalVariableEntry (e : LocalVariableEntry) : Bytes :=
  byteBufferU2 e.startPc ++ (byteBufferU2 e.length ++ (byteBufferU2 e.nameIndex ++
    (byteBufferU2 e.descriptorIndex ++ byteBufferU2 e.index)))

/-- `write_line_numbers` and `write_locals`. -/
def writeTable {α : Type} (write : α → Bytes) (entries : List α) : Bytes :=
  byteBufferU2 (UInt16.ofNat entries.length) ++ entries.flatMap write

/-- Appends a table that is there to the attributes written so far. -/
def storeTable {α : Type} (write : α → Bytes) (table : Option (NamedTable α)) (attributes : List AttributeInfo) :
    Except ClassfileStatus (List AttributeInfo) :=
  match table with
  | none => .ok attributes
  | some t =>
    if attributes.length = classfileMaxCount then .error .limitExceeded
    else do return attributes ++ [← takeBuffer t.nameIndex (writeTable write t.entries)]

def storeStackMap (table : Option (NamedTable StackMapFrame)) (attributes : List AttributeInfo) :
    Except ClassfileStatus (List AttributeInfo) :=
  match table with
  | none => .ok attributes
  | some t =>
    if attributes.length = classfileMaxCount then .error .limitExceeded
    else do return attributes ++ [← stackMapTableWrite t.entries t.nameIndex]

/-- The loop over the opaque attributes. -/
def storeOthers : List AttributeInfo → List AttributeInfo → Except ClassfileStatus (List AttributeInfo)
  | [], attributes => .ok attributes
  | other :: rest, attributes => do
    let copy : AttributeInfo := ⟨other.attributeNameIndex, other.attributeLength, other.payload⟩
    storeOthers rest (← listAppend attributes copy)

/-- The attributes in the order `javac` writes them. -/
def storeAttributes (editor : CodeEditor) : Except ClassfileStatus (List AttributeInfo) := do
  let attributes ← storeTable writeLineNumberEntry editor.lineNumbers []
  let attributes ← storeTable writeLocalVariableEntry editor.locals attributes
  let attributes ← storeTable writeLocalVariableEntry editor.localTypes attributes
  let attributes ← storeStackMap editor.stackMap attributes
  storeOthers editor.otherAttributes attributes

def codeEditorStore (editor : CodeEditor) (code : AttributeInfo) : Except ClassfileStatus AttributeInfo := do
  let bytecode ← instructionListEncode editor.instructions
  let attributes ← storeAttributes editor
  codeAttributeWrite ⟨editor.maxStack, editor.maxLocals, bytecode, editor.exceptions, attributes⟩ code

/-! ## References -/

/-- `offset_to_index`. -/
def offsetToIndex (list : InstructionList) (offset : Int) : Int :=
  if offset < 0 then -1
  else if offset = list.codeLength then wrapI4 list.items.length
  else match list.items.findIdx? fun node => node.offset = offset with
    | some i => wrapI4 i
    | none => -1

/-- `index_to_offset`. -/
def indexToOffset (list : InstructionList) (index : Int) : Int :=
  if index < 0 then -1
  else match list.items[index.toNat]? with
    | none => wrapI4 list.codeLength
    | some node => wrapI4 node.offset

/-- The targets that `map_all_references` visits in an instruction. -/
def Operand.targets : Operand → List Int
  | .branch target | .branchWide target => [target]
  | .tableSwitch defaultTarget low high targets =>
    defaultTarget :: targets.take (instructionSwitchEntries (.tableSwitch defaultTarget low high targets))
  | .lookupSwitch defaultTarget pairs => defaultTarget :: pairs.map (·.target)
  | _ => []

/-- Pushes the targets of an instruction through `f`. -/
def Operand.mapTargets (f : Int → Int) : Operand → Operand
  | .branch target => .branch (f target)
  | .branchWide target => .branchWide (f target)
  | .tableSwitch defaultTarget low high targets =>
    let entries := instructionSwitchEntries (.tableSwitch defaultTarget low high targets)
    .tableSwitch (f defaultTarget) low high ((targets.take entries).map f ++ targets.drop entries)
  | .lookupSwitch defaultTarget pairs =>
    .lookupSwitch (f defaultTarget) (pairs.map fun p => { p with target := f p.target })
  | operand => operand

/-- A reference kept in a `u2` field. -/
def mapU2 (f : Int → Int) (value : UInt16) : UInt16 := u2OfInt (f value.toNat)

def ExceptionEntry.mapRefs (f : Int → Int) (e : ExceptionEntry) : ExceptionEntry :=
  ⟨mapU2 f e.startPc, mapU2 f e.endPc, mapU2 f e.handlerPc, e.catchType⟩

def LineNumberEntry.mapRefs (f : Int → Int) (e : LineNumberEntry) : LineNumberEntry :=
  { e with startPc := mapU2 f e.startPc }

/-- A local variable is a span: both ends move, and the length is what is left between them. -/
def LocalVariableEntry.mapRefs (f : Int → Int) (e : LocalVariableEntry) : LocalVariableEntry :=
  let start := f e.startPc.toNat
  let stop := f (e.startPc.toNat + e.length.toNat)
  { e with startPc := u2OfInt start, length := u2OfInt (stop - start) }

def VerificationType.mapOffset (f : Int → Int) : VerificationType → VerificationType
  | .uninitialized offset => .uninitialized (f offset)
  | type => type

def FrameKind.mapOffsets (f : Int → Int) : FrameKind → FrameKind
  | .same => .same
  | .sameLocals1StackItem stack => .sameLocals1StackItem (stack.mapOffset f)
  | .chop count => .chop count
  | .append locals => .append (locals.map (·.mapOffset f))
  | .full locals stack => .full (locals.map (·.mapOffset f)) (stack.map (·.mapOffset f))

/-- The position of a frame goes through `pos`, the instructions its types name through `ins`. -/
def StackMapFrame.mapRefs (pos ins : Int → Int) (frame : StackMapFrame) : StackMapFrame :=
  { frame with offset := pos frame.offset, kind := frame.kind.mapOffsets ins }

def TypeAnnotationRef.mapRefs (pos ins : Int → Int) (ref : TypeAnnotationRef) : TypeAnnotationRef :=
  match ref.kind with
  | .span => { ref with start := pos ref.start, stop := pos ref.stop }
  | .instruction => { ref with start := ins ref.start }

def NamedTable.mapEntries {α : Type} (f : α → α) (table : NamedTable α) : NamedTable α :=
  { table with entries := table.entries.map f }

def Instruction.mapTargets (f : Int → Int) (node : Instruction) : Instruction :=
  { node with operand := node.operand.mapTargets f }

/-- The walk of `map_all_references` and of the shifts in `code_editor_insert`: references that name a position go
through `pos`, references that name an instruction through `ins`. -/
def CodeEditor.mapRefs (pos ins : Int → Int) (editor : CodeEditor) : CodeEditor :=
  { editor with
    instructions := { editor.instructions with items := editor.instructions.items.map (·.mapTargets pos) }
    exceptions := editor.exceptions.map (·.mapRefs pos)
    lineNumbers := editor.lineNumbers.map (·.mapEntries (·.mapRefs pos))
    locals := editor.locals.map (·.mapEntries (·.mapRefs pos))
    localTypes := editor.localTypes.map (·.mapEntries (·.mapRefs pos))
    stackMap := editor.stackMap.map (·.mapEntries (·.mapRefs pos ins))
    typeAnnotations := editor.typeAnnotations.map (·.mapRefs pos ins) }

def ExceptionEntry.refs (e : ExceptionEntry) : List Int := [e.startPc.toNat, e.endPc.toNat, e.handlerPc.toNat]

def LocalVariableEntry.refs (e : LocalVariableEntry) : List Int :=
  [e.startPc.toNat, e.startPc.toNat + e.length.toNat]

def VerificationType.refs : VerificationType → List Int
  | .uninitialized offset => [offset]
  | _ => []

def FrameKind.refs : FrameKind → List Int
  | .same | .chop _ => []
  | .sameLocals1StackItem stack => stack.refs
  | .append locals => locals.flatMap (·.refs)
  | .full locals stack => locals.flatMap (·.refs) ++ stack.flatMap (·.refs)

def TypeAnnotationRef.refs (ref : TypeAnnotationRef) : List Int :=
  match ref.kind with
  | .span => [ref.start, ref.stop]
  | .instruction => [ref.start]

/-- Every offset the walk visits. -/
def CodeEditor.refs (editor : CodeEditor) : List Int :=
  editor.instructions.items.flatMap (·.operand.targets) ++
  editor.exceptions.flatMap (·.refs) ++
  (tableEntries editor.lineNumbers).map (fun e => (e.startPc.toNat : Int)) ++
  (tableEntries editor.locals).flatMap (·.refs) ++
  (tableEntries editor.localTypes).flatMap (·.refs) ++
  (tableEntries editor.stackMap).flatMap (fun frame => frame.offset :: frame.kind.refs) ++
  editor.typeAnnotations.flatMap (·.refs)

/-- `map_reference` with `apply`: a reference that cannot be mapped stays. -/
def applyReference (map : Int → Int) (value : Int) : Int := if map value < 0 then value else map value

/-! ## Insertion -/

/-- A reference that names a position keeps it, so the inserted code takes it over. -/
def shiftAfter (at_ count index : Int) : Int := if index > at_ then index + count else index

/-- A reference that names one specific instruction follows that instruction. -/
def shiftWith (at_ count index : Int) : Int := if index ≥ at_ then index + count else index

/-- The nodes put before the instruction of that index. -/
def spliceAt {α : Type} (items : List α) (at_ : Nat) (nodes : List α) : List α :=
  items.take at_ ++ (nodes ++ items.drop at_)

/-- The part of `code_editor_insert` that cannot fail: everything up to the flush of the type annotations. -/
def insertNodes (editor : CodeEditor) (at_ : Nat) (nodes : List Instruction) : CodeEditor :=
  let indexed := editor.mapRefs (applyReference (offsetToIndex editor.instructions))
    (applyReference (offsetToIndex editor.instructions))
  let spliced := { indexed with
    instructions := { indexed.instructions with items := spliceAt indexed.instructions.items at_ nodes } }
  let shifted := spliced.mapRefs (shiftAfter at_ nodes.length) (shiftWith at_ nodes.length)
  let placed := { shifted with instructions := instructionListRecomputeOffsets shifted.instructions }
  placed.mapRefs (applyReference (indexToOffset placed.instructions))
    (applyReference (indexToOffset placed.instructions))

/-- `code_editor_insert`: the status and the editor it leaves behind. -/
def codeEditorInsert (editor : CodeEditor) (offset : Nat) (nodes : List Instruction) (extraStack : UInt16) :
    Except ClassfileStatus Unit × CodeEditor :=
  if nodes.isEmpty then (.ok (), editor)
  else
    let at_ := offsetToIndex editor.instructions (wrapI4 offset)
    if at_ < 0 then (.error .badOffset, editor)
    else if editor.maxStack.toNat + extraStack.toNat > 0xFFFF then (.error .limitExceeded, editor)
    else if (editor.refs.all fun value => 0 ≤ offsetToIndex editor.instructions value) = false then
      (.error .badOffset, editor)
    else
      let mapped := insertNodes editor at_.toNat nodes
      match typeAnnotationFlush mapped.typeAnnotations mapped.otherAttributes with
      | (.error e, partly) => (.error e, { mapped with otherAttributes := partly })
      | (.ok _, written) =>
        (.ok (), { mapped with otherAttributes := written, maxStack := mapped.maxStack + extraStack })

end Jni2Hook
