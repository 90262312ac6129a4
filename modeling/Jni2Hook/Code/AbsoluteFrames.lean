import Jni2Hook.ClassFile.PoolGrowth
import Jni2Hook.Code.AttributeCodecs
import Jni2Hook.Code.ControlFlow

/-!
# Stack maps read as absolute frames

A frame of a StackMapTable is a difference to the frame before it. `absoluteFrames` reads a table from the locals the
method starts with; classes are read by their names and instructions by their indices, so that two tables can be
compared.

* `codeFrames`: the instructions and the frames of a Code attribute; `codeFrames_of_load`, `codeFrames_of_store`.
* `absoluteFrames_moved`: frames that move with their instructions say the same.
* `pairwise_of_writeFrames`: frames that can be written stand in increasing order.
-/

namespace Jni2Hook

open Lib

/-! ## Reading a table -/

/-- A verification type, with its class by name and its instruction by index. -/
inductive ResolvedType
  | object (name : Option Bytes)
  | uninitialized (site : Option Nat)
  | basic (tag : UInt8)
  deriving DecidableEq, Repr

def VerificationType.resolve (pool : ConstantPool) (names : Int → Option Nat) : VerificationType → ResolvedType
  | .object index => .object (classNameAt pool index)
  | .uninitialized offset => .uninitialized (names offset)
  | .basic tag => .basic tag.1

/-- What a frame says about a position. -/
structure AbsoluteFrame where
  position : Option Nat
  locals : List ResolvedType
  stack : List ResolvedType
  deriving DecidableEq, Repr

/-- The locals of a frame, from those of the frame before it. -/
def FrameKind.localsOn (resolve : VerificationType → ResolvedType) (base : List ResolvedType) :
    FrameKind → List ResolvedType
  | .same | .sameLocals1StackItem _ => base
  | .chop count => base.take (base.length - count.toNat)
  | .append locals => base ++ locals.map resolve
  | .full locals _ => locals.map resolve

def FrameKind.stackTypes : FrameKind → List VerificationType
  | .sameLocals1StackItem type => [type]
  | .full _ stack => stack
  | _ => []

/-- The frames of a table, each applied to the locals of the frame before it. -/
def absoluteFrames (resolve : VerificationType → ResolvedType) (names : Int → Option Nat) :
    List ResolvedType → List StackMapFrame → List AbsoluteFrame
  | _, [] => []
  | base, frame :: rest =>
    ⟨names frame.offset, frame.kind.localsOn resolve base, frame.kind.stackTypes.map resolve⟩ ::
      absoluteFrames resolve names (frame.kind.localsOn resolve base) rest

/-- The locals behind the last frame. -/
def localsBehind (resolve : VerificationType → ResolvedType) (base : List ResolvedType) (frames : List StackMapFrame) :
    List ResolvedType :=
  frames.foldl (fun locals frame => frame.kind.localsOn resolve locals) base

section Reading

variable {resolve : VerificationType → ResolvedType} {names : Int → Option Nat}

theorem absoluteFrames_append : ∀ (base : List ResolvedType) (l₁ l₂ : List StackMapFrame),
    absoluteFrames resolve names base (l₁ ++ l₂) =
      absoluteFrames resolve names base l₁ ++ absoluteFrames resolve names (localsBehind resolve base l₁) l₂
  | _, [], _ => rfl
  | base, frame :: rest, l₂ => by
    rw [List.cons_append, absoluteFrames, absoluteFrames_append _ rest l₂]
    rfl

theorem positions_absoluteFrames : ∀ (base : List ResolvedType) (frames : List StackMapFrame),
    (absoluteFrames resolve names base frames).map AbsoluteFrame.position = frames.map fun frame => names frame.offset
  | _, [] => rfl
  | base, frame :: rest => by rw [absoluteFrames, List.map_cons, positions_absoluteFrames _ rest, List.map_cons]

/-- Two bases that the next frame takes to the same locals give the same frames from there on. -/
theorem absoluteFrames_cons_congr {base base' : List ResolvedType} {frame : StackMapFrame}
    (h : frame.kind.localsOn resolve base = frame.kind.localsOn resolve base') (rest : List StackMapFrame) :
    absoluteFrames resolve names base (frame :: rest) = absoluteFrames resolve names base' (frame :: rest) := by
  rw [absoluteFrames, absoluteFrames, h]

/-- The form a frame is written in does not matter. -/
theorem absoluteFrames_content : ∀ {frames frames' : List StackMapFrame} (base : List ResolvedType),
    frames.map StackMapFrame.content = frames'.map StackMapFrame.content →
    absoluteFrames resolve names base frames = absoluteFrames resolve names base frames'
  | [], frames', base, h => by
    rw [List.map_nil, eq_comm, List.map_eq_nil_iff] at h
    rw [h]
  | frame :: rest, [], base, h => by cases h
  | frame :: rest, frame' :: rest', base, h => by
    simp only [List.map_cons, List.cons.injEq, StackMapFrame.content, Prod.mk.injEq] at h
    obtain ⟨⟨hoffset, hkind⟩, hrest⟩ := h
    rw [absoluteFrames, absoluteFrames, hoffset, hkind, absoluteFrames_content _ hrest]

end Reading

/-! ## Frames that move -/

/-- A type that names an instruction follows it. -/
def ResolvedType.moved (count : Nat) : ResolvedType → ResolvedType
  | .uninitialized site => .uninitialized (site.map (· + count))
  | type => type

/-- A frame behind `count` instructions that were put before the first one, where the first position stays. -/
def AbsoluteFrame.moved (count : Nat) (frame : AbsoluteFrame) : AbsoluteFrame :=
  ⟨frame.position.map (shiftPosition 0 count), frame.locals.map (·.moved count), frame.stack.map (·.moved count)⟩

theorem moved_injective (count : Nat) : Function.Injective (ResolvedType.moved count) := by
  intro x y h
  cases x <;> cases y <;> simp only [ResolvedType.moved, ResolvedType.uninitialized.injEq, reduceCtorEq] at h ⊢
  · exact h
  · rename_i s t
    exact Option.map_injective (fun a b hab => by simpa using hab) h
  · exact h

section Moved

variable {resolve resolve' : VerificationType → ResolvedType} {names names' : Int → Option Nat} {pos ins : Int → Int}
  {count : Nat}

/-- The types of a kind of frame. -/
def FrameKind.types : FrameKind → List VerificationType
  | .same | .chop _ => []
  | .sameLocals1StackItem type => [type]
  | .append locals => locals
  | .full locals stack => locals ++ stack

theorem localsOn_moved {kind : FrameKind}
    (h : ∀ type ∈ kind.types, resolve' (type.mapOffset ins) = (resolve type).moved count) (base : List ResolvedType) :
    (kind.mapOffsets ins).localsOn resolve' (base.map (·.moved count)) =
      (kind.localsOn resolve base).map (·.moved count) := by
  have all {types : List VerificationType} (hmem : ∀ type ∈ types, type ∈ kind.types) :
      (types.map (·.mapOffset ins)).map resolve' = (types.map resolve).map (·.moved count) := by
    rw [List.map_map, List.map_map]
    exact List.map_congr_left fun type ht => h type (hmem type ht)
  cases kind with
  | same => rfl
  | sameLocals1StackItem type => rfl
  | chop n => simp only [FrameKind.mapOffsets, FrameKind.localsOn, List.length_map, List.map_take]
  | append locals =>
    simp only [FrameKind.mapOffsets, FrameKind.localsOn, List.map_append]
    rw [@all locals fun type ht => ht]
  | full locals stack =>
    simp only [FrameKind.mapOffsets, FrameKind.localsOn]
    rw [all fun type ht => List.mem_append_left _ ht]

theorem stackTypes_moved {kind : FrameKind}
    (h : ∀ type ∈ kind.types, resolve' (type.mapOffset ins) = (resolve type).moved count) :
    (kind.mapOffsets ins).stackTypes.map resolve' = (kind.stackTypes.map resolve).map (·.moved count) := by
  cases kind with
  | same => rfl
  | sameLocals1StackItem type =>
    simp only [FrameKind.mapOffsets, FrameKind.stackTypes, List.map_cons, List.map_nil]
    rw [h type List.mem_cons_self]
  | chop n => rfl
  | append locals => rfl
  | full locals stack =>
    simp only [FrameKind.mapOffsets, FrameKind.stackTypes, List.map_map]
    exact List.map_congr_left fun type ht => h type (List.mem_append_right _ ht)

/-- Frames that move with their instructions say the same. -/
theorem absoluteFrames_moved : ∀ {frames : List StackMapFrame} (base : List ResolvedType),
    (∀ frame ∈ frames, names' (pos frame.offset) = (names frame.offset).map (shiftPosition 0 count) ∧
      ∀ type ∈ frame.kind.types, resolve' (type.mapOffset ins) = (resolve type).moved count) →
    absoluteFrames resolve' names' (base.map (·.moved count)) (frames.map (·.mapRefs pos ins)) =
      (absoluteFrames resolve names base frames).map (·.moved count)
  | [], _, _ => rfl
  | frame :: rest, base, h => by
    obtain ⟨hposition, htypes⟩ := h frame List.mem_cons_self
    have hrest := absoluteFrames_moved (frame.kind.localsOn resolve base)
      fun f hf => h f (List.mem_cons_of_mem frame hf)
    simp only [List.map_cons, absoluteFrames, StackMapFrame.mapRefs, AbsoluteFrame.moved, localsOn_moved htypes,
      stackTypes_moved htypes, hposition] at hrest ⊢
    rw [hrest]

end Moved

/-! ## The order of the frames -/

/-- Frames that can be written, at offsets that do not wrap around, stand in increasing order. -/
theorem pairwise_of_writeFrames : ∀ {frames : List StackMapFrame} {previous : Option Int} {w : Bytes},
    writeFrames previous frames = .ok w → (∀ p ∈ previous, 0 ≤ p ∧ p < 2 ^ 31) →
    (∀ frame ∈ frames, 0 ≤ frame.offset ∧ frame.offset < 2 ^ 31) →
    (∀ p ∈ previous, ∀ frame ∈ frames, p < frame.offset) ∧
      frames.Pairwise fun frame later => frame.offset < later.offset
  | [], _, _, _, _, _ => ⟨fun _ _ frame hmem => absurd hmem List.not_mem_nil, .nil⟩
  | frame :: rest, previous, w, h, hp, hoff => by
    obtain ⟨h₀, -, tail, ht, -⟩ := writeFrames_cons h
    obtain ⟨hlo, hhi⟩ := hoff frame List.mem_cons_self
    obtain ⟨hlater, hrest⟩ := pairwise_of_writeFrames ht (by rintro p ⟨⟩; exact ⟨hlo, hhi⟩)
      fun f hf => hoff f (List.mem_cons_of_mem frame hf)
    have hbehind := hlater frame.offset rfl
    refine ⟨fun p hmem f hf => ?_, List.pairwise_cons.mpr ⟨hbehind, hrest⟩⟩
    obtain ⟨hp₀, hp₁⟩ := hp p hmem
    rw [Option.mem_def.mp hmem, frameDelta, wrapI4_of_fits ⟨by omega, by omega⟩] at h₀
    rcases List.mem_cons.mp hf with rfl | hf
    · omega
    · have := hbehind f hf
      omega

/-! ## How large a table can grow -/

/-- The bytes of a frame when the distance to the frame before it is small. -/
def StackMapFrame.leastSize (frame : StackMapFrame) : Nat := frame.kind.size frame.rawTag 0

theorem leastSize_le (frame : StackMapFrame) (distance : Int) :
    frame.leastSize ≤ frame.kind.size frame.rawTag distance ∧
      frame.kind.size frame.rawTag distance ≤ frame.leastSize + 2 := by
  unfold StackMapFrame.leastSize
  cases frame.kind with
  | same => by_cases hraw : frame.rawTag ≤ 63 <;> by_cases hfar : distance ≤ 63 <;> simp [FrameKind.size, hraw, hfar]
  | sameLocals1StackItem type =>
    by_cases hraw : frame.rawTag ≤ 127 <;> by_cases hfar : distance ≤ 63 <;> simp [FrameKind.size, hraw, hfar]
    omega
  | chop count => simp [FrameKind.size]
  | append locals => simp [FrameKind.size]
  | full locals stack => simp [FrameKind.size]

/-- Whatever the distances are, a frame has two bytes to gain. -/
theorem framesSize_bounds : ∀ (previous : Int) (frames : List StackMapFrame),
    (frames.map StackMapFrame.leastSize).sum ≤ framesSize previous frames ∧
      framesSize previous frames ≤ (frames.map StackMapFrame.leastSize).sum + 2 * frames.length
  | _, [] => ⟨Nat.le_refl _, Nat.le_refl _⟩
  | previous, frame :: rest => by
    have := framesSize_bounds frame.offset rest
    have := leastSize_le frame (frame.offset - previous - 1)
    simp only [framesSize, List.map_cons, List.sum_cons, List.length_cons]
    omega

theorem size_mapOffset (f : Int → Int) (type : VerificationType) : (type.mapOffset f).size = type.size := by
  cases type <;> rfl

theorem typesSize_mapOffset (f : Int → Int) (types : List VerificationType) :
    typesSize (types.map (·.mapOffset f)) = typesSize types := by
  simp only [typesSize, List.map_map, Function.comp_def, size_mapOffset]

theorem leastSize_mapRefs (pos ins : Int → Int) (frame : StackMapFrame) :
    (frame.mapRefs pos ins).leastSize = frame.leastSize := by
  obtain ⟨rawTag, offset, kind⟩ := frame
  unfold StackMapFrame.leastSize StackMapFrame.mapRefs
  cases kind with
  | same => rfl
  | sameLocals1StackItem type => exact congrArg (_ + ·) (size_mapOffset ins type)
  | chop count => rfl
  | append locals => exact congrArg (3 + ·) (typesSize_mapOffset ins locals)
  | full locals stack =>
    exact congrArg₂ (7 + · + ·) (typesSize_mapOffset ins locals) (typesSize_mapOffset ins stack)

theorem typesSize_le (types : List VerificationType) : typesSize types ≤ 3 * types.length := by
  induction types with
  | nil => exact Nat.le_refl _
  | cons type rest ih =>
    have hsize : type.size ≤ 3 := by cases type <;> simp [VerificationType.size]
    simp only [typesSize, List.map_cons, List.sum_cons, List.length_cons] at ih ⊢
    omega

/-! ## The frames of a Code attribute -/

def isStackMap (pool : ConstantPool) (a : AttributeInfo) : Bool :=
  constantPoolUtf8Equals pool a.attributeNameIndex (text "StackMapTable")

/-- The instructions of a Code attribute and the frames of its StackMapTable. -/
def codeFrames (pool : ConstantPool) (code : AttributeInfo) :
    Except ClassfileStatus (InstructionList × List StackMapFrame) := do
  let parsed ← codeAttributeParse code
  let instructions ← instructionListParse parsed.code
  match parsed.attributes.find? (isStackMap pool) with
  | none => return (instructions, [])
  | some table => return (instructions, ← stackMapTableParse table)

section Load

variable {pool : ConstantPool}

theorem loadAttribute_frames {editor next : CodeEditor} {nested : AttributeInfo}
    (h : loadAttribute pool editor nested = .ok next) :
    (isStackMap pool nested = false ∧ next.stackMap = editor.stackMap) ∨
      (isStackMap pool nested = true ∧ editor.stackMap = none ∧ ∃ frames, stackMapTableParse nested = .ok frames ∧
        next.stackMap = some ⟨nested.attributeNameIndex, frames⟩) := by
  have other {name : Bytes} (hname : constantPoolUtf8Equals pool nested.attributeNameIndex name = true)
      (hne : name ≠ text "StackMapTable") : isStackMap pool nested = false := utf8Equals_of_ne hname hne
  unfold loadAttribute at h
  dsimp only at h
  split at h
  · rename_i hname
    obtain ⟨table, -, hnext⟩ := bind_ok h
    cases hnext
    exact .inl ⟨other hname (by decide +kernel), rfl⟩
  split at h
  · rename_i hname
    obtain ⟨table, -, hnext⟩ := bind_ok h
    cases hnext
    exact .inl ⟨other hname (by decide +kernel), rfl⟩
  split at h
  · rename_i hname
    obtain ⟨table, -, hnext⟩ := bind_ok h
    cases hnext
    exact .inl ⟨other hname (by decide +kernel), rfl⟩
  split at h
  · rename_i hname
    cases hmap : editor.stackMap with
    | some t =>
      rw [hmap] at h
      cases h
    | none =>
      rw [hmap] at h
      obtain ⟨frames, hframes, hnext⟩ := bind_ok h
      cases hnext
      exact .inr ⟨hname, rfl, frames, hframes, rfl⟩
  · rename_i hname
    refine .inl ⟨by simpa [isStackMap] using hname, ?_⟩
    unfold loadOther at h
    obtain ⟨others, -, hnext⟩ := bind_ok h
    split at hnext
    · obtain ⟨refs, -, hend⟩ := bind_ok hnext
      cases hend
      rfl
    · cases hnext
      rfl

theorem loadAttributes_frames_some {t : NamedTable StackMapFrame} : ∀ {attributes : List AttributeInfo}
    {editor loaded : CodeEditor}, editor.stackMap = some t → loadAttributes pool editor attributes = .ok loaded →
    loaded.stackMap = some t
  | [], editor, loaded, ht, h => by
    cases h
    exact ht
  | nested :: rest, editor, loaded, ht, h => by
    obtain ⟨next, hnext, hrest⟩ := bind_ok h
    rcases loadAttribute_frames hnext with ⟨-, hsame⟩ | ⟨-, hnone, -⟩
    · exact loadAttributes_frames_some (hsame.trans ht) hrest
    · rw [ht] at hnone
      cases hnone

theorem loadAttributes_frames : ∀ {attributes : List AttributeInfo} {editor loaded : CodeEditor},
    editor.stackMap = none → loadAttributes pool editor attributes = .ok loaded →
    (attributes.find? (isStackMap pool) = none ∧ loaded.stackMap = none) ∨
      ∃ table frames, attributes.find? (isStackMap pool) = some table ∧ stackMapTableParse table = .ok frames ∧
        loaded.stackMap = some ⟨table.attributeNameIndex, frames⟩
  | [], editor, loaded, hnone, h => by
    cases h
    exact .inl ⟨rfl, hnone⟩
  | nested :: rest, editor, loaded, hnone, h => by
    obtain ⟨next, hnext, hrest⟩ := bind_ok h
    rcases loadAttribute_frames hnext with ⟨hname, hsame⟩ | ⟨hname, -, frames, hframes, hset⟩
    · rw [List.find?_cons_of_neg (by simp [hname])]
      exact loadAttributes_frames (hsame.trans hnone) hrest
    · exact .inr ⟨nested, frames, List.find?_cons_of_pos hname, hframes, loadAttributes_frames_some hset hrest⟩

/-- The frames of an attribute that is loaded are those of the editor, and they can be written. -/
theorem codeFrames_of_load {code : AttributeInfo} {editor : CodeEditor} (h : codeEditorLoad code pool = .ok editor) :
    codeFrames pool code = .ok (editor.instructions, tableEntries editor.stackMap) ∧
      ∃ w, writeFrames none (tableEntries editor.stackMap) = .ok w := by
  obtain ⟨parsed, hparse, h⟩ := bind_ok h
  obtain ⟨instructions, hlist, h⟩ := bind_ok h
  have hsame : editor.instructions = instructions := congrArg CodeEditor.instructions (loadAttributes_bare h)
  rw [codeFrames, bind_of_ok hparse, bind_of_ok hlist, hsame]
  rcases loadAttributes_frames rfl h with ⟨hfind, hnone⟩ | ⟨table, frames, hfind, hframes, hset⟩
  · rw [hfind, hnone]
    exact ⟨rfl, [], rfl⟩
  · rw [hfind, hset]
    dsimp only
    rw [bind_of_ok hframes]
    obtain ⟨w, hw, -⟩ := bind_ok (stackMapTable_parse_write hframes 0)
    exact ⟨rfl, w, hw⟩

end Load

/-- A pool that grows does not change which attribute is found, once it has the name. -/
theorem codeFrames_of_grows {pool pool' : ConstantPool} (h : Grows pool pool')
    (hmem : .utf8 (text "StackMapTable") ∈ pool.entries) (code : AttributeInfo) :
    codeFrames pool' code = codeFrames pool code := by
  have hsame : isStackMap pool' = isStackMap pool := by
    funext a
    exact h.utf8Equals hmem a.attributeNameIndex
  unfold codeFrames
  rw [hsame]

section Store

variable {pool : ConstantPool} {editor : CodeEditor} {t : NamedTable StackMapFrame}

theorem find_of_storedAs {α : Type} {holds : AttributeInfo → NamedTable α → Prop} {table : Option (NamedTable α)}
    {added : List AttributeInfo} {name : String} (hok : ∀ t ∈ table, t.Ok pool name)
    (hne : text name ≠ text "StackMapTable") (hadded : StoredAs holds table added) :
    ∀ a ∈ added, isStackMap pool a = false := by
  intro a ha
  cases table with
  | none =>
    cases hadded
    cases ha
  | some t =>
    obtain ⟨b, rfl, hname, -⟩ := hadded
    rw [List.mem_singleton.mp ha, isStackMap, hname]
    exact utf8Equals_of_ne (hok t rfl).named hne

/-- The first StackMapTable among the stored attributes is the one of the editor. -/
theorem find_stored (hlines : ∀ t ∈ editor.lineNumbers, t.Ok pool "LineNumberTable")
    (hlocals : ∀ t ∈ editor.locals, t.Ok pool "LocalVariableTable")
    (htypes : ∀ t ∈ editor.localTypes, t.Ok pool "LocalVariableTypeTable") (ht : editor.stackMap = some t)
    (hnamed : constantPoolUtf8Equals pool t.nameIndex (text "StackMapTable") = true)
    (hothers : ∀ a ∈ editor.otherAttributes, a.WellFormed) {attributes : List AttributeInfo}
    (h : storeAttributes editor = .ok attributes) :
    ∃ a, stackMapTableWrite t.entries t.nameIndex = .ok a ∧
      (attributes.map (·.cut)).find? (isStackMap pool) = some a.cut := by
  obtain ⟨l₁, s₁, k₁⟩ := bind_ok h
  obtain ⟨l₂, s₂, k₂⟩ := bind_ok k₁
  obtain ⟨l₃, s₃, k₃⟩ := bind_ok k₂
  obtain ⟨l₄, s₄, s₅⟩ := bind_ok k₃
  obtain ⟨a₁, ap₁, t₁⟩ := storeTable_ok s₁
  obtain ⟨a₂, ap₂, t₂⟩ := storeTable_ok s₂
  obtain ⟨a₃, ap₃, t₃⟩ := storeTable_ok s₃
  rw [ht, storeStackMap] at s₄
  split at s₄
  · cases s₄
  obtain ⟨a, ha, hone⟩ := bind_ok s₄
  cases hone
  have hname : a.attributeNameIndex = t.nameIndex := by
    obtain ⟨w, -, hw⟩ := bind_ok ha
    cases hw
    rfl
  refine ⟨a, ha, ?_⟩
  have hbefore : ∀ b ∈ l₃, isStackMap pool b = false := by
    intro b hb
    rw [((ap₁.trans ap₂).trans ap₃).eq, List.nil_append] at hb
    rcases List.mem_append.mp hb with hb | hb
    · rcases List.mem_append.mp hb with hb | hb
      · exact find_of_storedAs hlines (by decide +kernel) t₁ b hb
      · exact find_of_storedAs hlocals (by decide +kernel) t₂ b hb
    · exact find_of_storedAs htypes (by decide +kernel) t₃ b hb
  have hfound : isStackMap pool a = true := by rw [isStackMap, hname]; exact hnamed
  rw [(storeOthers_ok hothers s₅).eq, List.find?_map]
  have hcut : isStackMap pool ∘ (·.cut) = isStackMap pool := rfl
  rw [hcut, List.append_assoc, List.find?_append, List.find?_eq_none.mpr fun b hb => by simp [hbefore b hb],
    List.singleton_append, List.find?_cons_of_pos hfound]
  rfl

/-- The frames of an attribute that is stored are read off the table that was written. -/
theorem codeFrames_of_store (hlaid : editor.instructions.Laid)
    (hexceptions : editor.exceptions.length ≤ classfileMaxCount)
    (hlines : ∀ t ∈ editor.lineNumbers, t.Ok pool "LineNumberTable")
    (hlocals : ∀ t ∈ editor.locals, t.Ok pool "LocalVariableTable")
    (htypes : ∀ t ∈ editor.localTypes, t.Ok pool "LocalVariableTypeTable") (ht : editor.stackMap = some t)
    (hnamed : constantPoolUtf8Equals pool t.nameIndex (text "StackMapTable") = true)
    (hothers : ∀ a ∈ editor.otherAttributes, a.WellFormed) {code stored : AttributeInfo}
    (h : codeEditorStore editor code = .ok stored) :
    ∃ a, stackMapTableWrite t.entries t.nameIndex = .ok a ∧ codeFrames pool stored =
      (stackMapTableParse a >>= fun frames => .ok (editor.instructions, frames)) := by
  obtain ⟨bytecode, attributes, hencode, hstore, -, hparse⟩ := codeAttributeParse_of_store hexceptions hothers h
  obtain ⟨a, hwrite, hfind⟩ := find_stored hlines hlocals htypes ht hnamed hothers hstore
  refine ⟨a, hwrite, ?_⟩
  rw [codeFrames, bind_of_ok hparse, bind_of_ok (parse_of_encode hlaid hencode).1]
  dsimp only
  rw [hfind]
  dsimp only
  have hcut : stackMapTableParse a.cut = stackMapTableParse a := by
    simp only [stackMapTableParse, AttributeInfo.cut, AttributeInfo.payload, List.take_take, Nat.min_self]
  rw [hcut]
  rfl

end Store

end Jni2Hook
