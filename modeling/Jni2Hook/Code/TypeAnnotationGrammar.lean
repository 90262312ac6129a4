import Jni2Hook.Code.Flush

/-!
# Type annotations against their format

The walker of `visitors/type_annotation.c` against JVMS 4.7.20, which is written down here as trees with their bytes.

* `ElementValue`, `AnnotationTarget`, `TypeAnnotation`: the format. `ElementValue.Nested` bounds how deep values nest.
* `reads_skip`, `takes_skip`: the walker steps over exactly the encodings of values that nest no deeper than its budget.
* `collect_iff`: `type_annotation_collect` accepts exactly the tables of the format, and answers their offsets.
* `type_annotation_offsets_exact`: together with what `type_annotation_flush` writes.
-/

namespace Jni2Hook

open Lib

/-! ## The format -/

/-- The tags of an element value that holds one constant. -/
def constantTags : List UInt8 := [0x42, 0x43, 0x44, 0x46, 0x49, 0x4A, 0x53, 0x5A, 0x73, 0x63]

mutual

/-- `element_value`. -/
inductive ElementValue where
  | constant (tag : {tag : UInt8 // tag ∈ constantTags}) (index : UInt16)
  | enumConstant (typeName constName : UInt16)
  | annotationValue (type : UInt16) (pairs : List ElementPair)
  | array (values : List ElementValue)

/-- A name and its value in an `annotation`. -/
inductive ElementPair where
  | mk (name : UInt16) (value : ElementValue)

end

def ElementPair.name : ElementPair → UInt16
  | .mk name _ => name

def ElementPair.value : ElementPair → ElementValue
  | .mk _ value => value

mutual

def ElementValue.bytes : ElementValue → Bytes
  | .constant tag index => byteBufferU1 tag.1 ++ byteBufferU2 index
  | .enumConstant typeName constName => byteBufferU1 0x65 ++ (byteBufferU2 typeName ++ byteBufferU2 constName)
  | .annotationValue type pairs =>
    byteBufferU1 0x40 ++ (byteBufferU2 type ++ (byteBufferU2 (UInt16.ofNat pairs.length) ++ pairsBytes pairs))
  | .array values => byteBufferU1 0x5B ++ (byteBufferU2 (UInt16.ofNat values.length) ++ valuesBytes values)

def ElementPair.bytes : ElementPair → Bytes
  | .mk name value => byteBufferU2 name ++ value.bytes

def valuesBytes : List ElementValue → Bytes
  | [] => []
  | value :: rest => value.bytes ++ valuesBytes rest

def pairsBytes : List ElementPair → Bytes
  | [] => []
  | pair :: rest => pair.bytes ++ pairsBytes rest

end

/-- The bytes of an `annotation`. -/
def annotationBytes (type : UInt16) (pairs : List ElementPair) : Bytes :=
  byteBufferU2 type ++ (byteBufferU2 (UInt16.ofNat pairs.length) ++ pairs.flatMap ElementPair.bytes)

/-- The value takes at most this many levels, where an annotation and a value inside it are a level each, and its lists
fit their counts. -/
inductive ElementValue.Nested : Nat → ElementValue → Prop
  | constant {levels : Nat} {tag : {tag : UInt8 // tag ∈ constantTags}} {index : UInt16} :
      Nested (levels + 1) (.constant tag index)
  | enumConstant {levels : Nat} {typeName constName : UInt16} : Nested (levels + 1) (.enumConstant typeName constName)
  | annotationValue {levels : Nat} {type : UInt16} {pairs : List ElementPair} : pairs.length ≤ classfileMaxCount →
      (∀ pair ∈ pairs, Nested levels pair.value) → Nested (levels + 2) (.annotationValue type pairs)
  | array {levels : Nat} {values : List ElementValue} : values.length ≤ classfileMaxCount →
      (∀ value ∈ values, Nested levels value) → Nested (levels + 1) (.array values)

/-- One entry of the table of a `localvar_target`. -/
structure LocalvarEntry where
  startPc : UInt16
  length : UInt16
  index : UInt16

def LocalvarEntry.bytes (entry : LocalvarEntry) : Bytes :=
  byteBufferU2 entry.startPc ++ (byteBufferU2 entry.length ++ byteBufferU2 entry.index)

/-- `target_type` and `target_info`. -/
inductive AnnotationTarget where
  | typeParameter (type : {type : UInt8 // type ∈ [0x00, 0x01]}) (index : UInt8)
  | supertype (index : UInt16)
  | typeParameterBound (type : {type : UInt8 // type ∈ [0x11, 0x12]}) (parameter bound : UInt8)
  | empty (type : {type : UInt8 // type ∈ [0x13, 0x14, 0x15]})
  | formalParameter (index : UInt8)
  | throws (index : UInt16)
  | localvar (type : {type : UInt8 // type ∈ [0x40, 0x41]}) (table : List LocalvarEntry)
  | catchType (index : UInt16)
  | offset (type : {type : UInt8 // type ∈ [0x43, 0x44, 0x45, 0x46]}) (pc : UInt16)
  | typeArgument (type : {type : UInt8 // type ∈ [0x47, 0x48, 0x49, 0x4A, 0x4B]}) (pc : UInt16) (index : UInt8)

def AnnotationTarget.type : AnnotationTarget → UInt8
  | .typeParameter type _ => type.1
  | .supertype _ => 0x10
  | .typeParameterBound type _ _ => type.1
  | .empty type => type.1
  | .formalParameter _ => 0x16
  | .throws _ => 0x17
  | .localvar type _ => type.1
  | .catchType _ => 0x42
  | .offset type _ => type.1
  | .typeArgument type _ _ => type.1

def AnnotationTarget.info : AnnotationTarget → Bytes
  | .typeParameter _ index => byteBufferU1 index
  | .supertype index => byteBufferU2 index
  | .typeParameterBound _ parameter bound => byteBufferU1 parameter ++ byteBufferU1 bound
  | .empty _ => []
  | .formalParameter index => byteBufferU1 index
  | .throws index => byteBufferU2 index
  | .localvar _ table => byteBufferU2 (UInt16.ofNat table.length) ++ table.flatMap LocalvarEntry.bytes
  | .catchType index => byteBufferU2 index
  | .offset _ pc => byteBufferU2 pc
  | .typeArgument _ pc index => byteBufferU2 pc ++ byteBufferU1 index

/-- The table of a target fits its count. -/
def AnnotationTarget.Fits : AnnotationTarget → Prop
  | .localvar _ table => table.length ≤ classfileMaxCount
  | _ => True

/-- `type_annotation`. -/
structure TypeAnnotation where
  target : AnnotationTarget
  path : List (UInt8 × UInt8)
  type : UInt16
  pairs : List ElementPair

def pathEntryBytes (entry : UInt8 × UInt8) : Bytes := byteBufferU1 entry.1 ++ byteBufferU1 entry.2

def TypeAnnotation.bytes (a : TypeAnnotation) : Bytes :=
  byteBufferU1 a.target.type ++ (a.target.info ++ (byteBufferU1 (UInt8.ofNat a.path.length) ++
    (a.path.flatMap pathEntryBytes ++ annotationBytes a.type a.pairs)))

/-- `MAX_ANNOTATION_DEPTH`. -/
def maxAnnotationDepth : Nat := 32

/-- The lists of an annotation fit their counts, and its values nest no deeper than the walker goes. -/
structure TypeAnnotation.Fits (a : TypeAnnotation) : Prop where
  target : a.target.Fits
  path : a.path.length ≤ 0xFF
  pairs : a.pairs.length ≤ classfileMaxCount
  nested : ∀ pair ∈ a.pairs, pair.value.Nested maxAnnotationDepth

/-- The payload of a `RuntimeVisibleTypeAnnotations` or `RuntimeInvisibleTypeAnnotations` attribute. -/
def typeAnnotationTableBytes (table : List TypeAnnotation) : Bytes :=
  byteBufferU2 (UInt16.ofNat table.length) ++ table.flatMap TypeAnnotation.bytes

/-- The payload encodes the table. -/
structure EncodesTypeAnnotations (payload : Bytes) (table : List TypeAnnotation) : Prop where
  bytes : payload = typeAnnotationTableBytes table
  count : table.length ≤ classfileMaxCount
  fits : ∀ a ∈ table, a.Fits

/-! ## The bytecode offsets of a table -/

section Offsets

variable (attributeIndex : Nat)

/-- The spans of a localvar table that begins at `position`. -/
def localvarRefs : Nat → List LocalvarEntry → List TypeAnnotationRef
  | _, [] => []
  | position, entry :: rest =>
    ⟨attributeIndex, position, .span, entry.startPc.toNat, entry.startPc.toNat + entry.length.toNat⟩ ::
      localvarRefs (position + 6) rest

/-- The offsets of a target whose `target_info` begins at `position`. -/
def AnnotationTarget.refs (position : Nat) : AnnotationTarget → List TypeAnnotationRef
  | .localvar _ table => localvarRefs attributeIndex (position + 2) table
  | .offset _ pc => [⟨attributeIndex, position, .instruction, pc.toNat, 0⟩]
  | .typeArgument _ pc _ => [⟨attributeIndex, position, .instruction, pc.toNat, 0⟩]
  | _ => []

/-- The offsets of the annotations from `position` on. -/
def typeAnnotationRefs : Nat → List TypeAnnotation → List TypeAnnotationRef
  | _, [] => []
  | position, a :: rest =>
    a.target.refs attributeIndex (position + 1) ++ typeAnnotationRefs (position + a.bytes.length) rest

end Offsets

/-! ## Stepping over values -/

section Skips

variable {β : Type} {p : Parse Unit} {enc : β → Bytes}

theorem reads_skipMany {items : List β} (h : ∀ b ∈ items, ∀ m, Reads p m (enc b) ()) (n : Nat) :
    Reads (skipMany p items.length) n (items.flatMap enc) () := by
  have many : ∀ {items : List β} {n : Nat}, (∀ b ∈ items, ∀ m, Reads p m (enc b) ()) →
      Reads (readMany p items.length) n (items.flatMap enc) (items.map fun _ => ()) := by
    intro items
    induction items with
    | nil => exact fun _ => Reads.pure _ _
    | cons b rest ih =>
      intro n h
      rw [List.flatMap_cons]
      refine (h b List.mem_cons_self n).bind ?_
      exact (ih fun c hc => h c (List.mem_cons_of_mem b hc)).last (Reads.pure _ _)
  exact (many h).last (Reads.pure _ _)

theorem takes_skipMany {P : β → Prop} (hp : Takes p fun _ w _ => ∃ b, w = enc b ∧ P b) (k : Nat) :
    Takes (skipMany p k) fun _ w _ => ∃ items : List β, w = items.flatMap enc ∧ items.length = k ∧
      ∀ b ∈ items, P b := by
  have many : Takes (readMany p k) fun _ w _ =>
      ∃ items : List β, w = items.flatMap enc ∧ items.length = k ∧ ∀ b ∈ items, P b := by
    induction k with
    | zero => exact (Takes.pure _).mono (by rintro n w l ⟨rfl, rfl⟩; exact ⟨[], rfl, rfl, fun b hb => nomatch hb⟩)
    | succ k ih =>
      refine (hp.bind fun _ => ih.bind fun _ => Takes.pure _).mono ?_
      rintro n w l ⟨_, w₁, w₂, rfl, ⟨b, rfl, hb⟩, _, w₃, w₄, rfl, ⟨items, rfl, hlen, hitems⟩, rfl, rfl⟩
      refine ⟨b :: items, by rw [List.flatMap_cons, List.append_nil], by rw [List.length_cons, hlen], ?_⟩
      intro c hc
      rcases List.mem_cons.mp hc with rfl | hc
      · exact hb
      · exact hitems c hc
  refine (many.bind fun _ => Takes.pure ()).mono ?_
  rintro n w _ ⟨_, w₁, w₂, rfl, hitems, rfl, -⟩
  rw [List.append_nil]
  exact hitems

end Skips

theorem reads_skipU1 (v : UInt8) (n : Nat) : Reads skipU1 n (byteBufferU1 v) () := (reads_u1 v n).last (Reads.pure _ _)

theorem reads_skipU2 (v : UInt16) (n : Nat) : Reads skipU2 n (byteBufferU2 v) () := (reads_u2 v n).last (Reads.pure _ _)

theorem takes_skipU1 : Takes skipU1 fun _ w _ => ∃ v : UInt8, w = byteBufferU1 v := by
  refine (takes_u1.bind fun _ => Takes.pure ()).mono ?_
  rintro n w _ ⟨v, w₁, w₂, rfl, rfl, rfl, -⟩
  exact ⟨v, by rw [List.append_nil]⟩

theorem takes_skipU2 : Takes skipU2 fun _ w _ => ∃ v : UInt16, w = byteBufferU2 v := by
  refine (takes_u2.bind fun _ => Takes.pure ()).mono ?_
  rintro n w _ ⟨v, w₁, w₂, rfl, rfl, rfl, -⟩
  exact ⟨v, by rw [List.append_nil]⟩

theorem valuesBytes_eq (values : List ElementValue) : valuesBytes values = values.flatMap ElementValue.bytes := by
  induction values with
  | nil => rfl
  | cons value rest ih => rw [valuesBytes, ih, List.flatMap_cons]

theorem pairsBytes_eq (pairs : List ElementPair) : pairsBytes pairs = pairs.flatMap ElementPair.bytes := by
  induction pairs with
  | nil => rfl
  | cons pair rest ih => rw [pairsBytes, ih, List.flatMap_cons]

theorem bytes_annotationValue (type : UInt16) (pairs : List ElementPair) :
    (ElementValue.annotationValue type pairs).bytes = byteBufferU1 0x40 ++ annotationBytes type pairs := by
  rw [ElementValue.bytes, pairsBytes_eq, annotationBytes]

/-- The walker steps over an annotation and over a value that nest no deeper than its budget. -/
theorem reads_skip : ∀ budget,
    (∀ (type : UInt16) (pairs : List ElementPair) (n : Nat), pairs.length ≤ classfileMaxCount →
      (∀ pair ∈ pairs, pair.value.Nested budget) →
      Reads ( skipAnnotation (budget + 1)) n (annotationBytes type pairs) ()) ∧
    ∀ (value : ElementValue) (n : Nat), value.Nested budget → Reads (skipElementValue budget) n value.bytes () := by
  -- an annotation is read with the values below it, so the claim for values comes first
  have step {budget : Nat}
      (hvalue : ∀ (value : ElementValue) (n : Nat), value.Nested budget →
        Reads (skipElementValue budget) n value.bytes ())
      (type : UInt16) (pairs : List ElementPair) (n : Nat) (hcount : pairs.length ≤ classfileMaxCount)
      (hpairs : ∀ pair ∈ pairs, pair.value.Nested budget) :
      Reads ( skipAnnotation (budget + 1)) n (annotationBytes type pairs) () := by
    rw [ skipAnnotation]
    refine (reads_skipU2 type n).bind ((reads_u2 _ _).bind ((reads_checkOk _ _).skip ?_))
    rw [u2_length hcount]
    refine (reads_skipMany (fun pair hmem m => ?_) _).last (reads_checkOk _ _)
    obtain ⟨name, value⟩ := pair
    rw [ElementPair.bytes]
    exact (reads_skipU2 name m).bind (hvalue value _ (hpairs _ hmem))
  intro budget
  induction budget using Nat.strong_induction_on with
  | _ budget ih =>
    suffices hvalue : ∀ (value : ElementValue) (n : Nat), value.Nested budget →
        Reads (skipElementValue budget) n value.bytes () from ⟨step hvalue, hvalue⟩
    intro value n h
    cases h with
    | constant =>
      rename_i levels tag index
      obtain ⟨tag, htag⟩ := tag
      rw [skipElementValue, ElementValue.bytes]
      refine (reads_u1 tag n).bind ((reads_checkOk _ _).skip ?_)
      unfold constantTags at htag
      rw [if_pos htag]
      exact (reads_skipU2 index _).last (reads_checkOk _ _)
    | enumConstant =>
      rename_i levels typeName constName
      rw [skipElementValue, ElementValue.bytes]
      refine (reads_u1 _ n).bind ((reads_checkOk _ _).skip ?_)
      rw [if_neg (by decide), if_pos rfl]
      exact (reads_skipU2 typeName _).bind ((reads_skipU2 constName _).last (reads_checkOk _ _))
    | annotationValue hcount hpairs =>
      rename_i levels type pairs
      rw [skipElementValue, bytes_annotationValue]
      refine (reads_u1 _ n).bind ((reads_checkOk _ _).skip ?_)
      rw [if_neg (by decide), if_neg (by decide), if_pos rfl]
      exact ((ih levels (by omega)).1 type pairs _ hcount hpairs).last (reads_checkOk _ _)
    | array hcount hvalues =>
      rename_i levels values
      rw [skipElementValue, ElementValue.bytes, valuesBytes_eq]
      refine (reads_u1 _ n).bind ((reads_checkOk _ _).skip ?_)
      rw [if_neg (by decide), if_neg (by decide), if_neg (by decide), if_pos rfl]
      refine (reads_u2 _ _).bind ((reads_checkOk _ _).skip ?_)
      rw [u2_length hcount]
      exact (reads_skipMany (fun v hmem m => (ih levels (by omega)).2 v m (hvalues v hmem)) _).last (reads_checkOk _ _)

/-- The walker steps over nothing else. -/
theorem takes_skip : ∀ budget,
    (Takes ( skipAnnotation budget) fun _ w _ => ∃ levels type pairs, budget = levels + 1 ∧
      w = annotationBytes type pairs ∧ pairs.length ≤ classfileMaxCount ∧ ∀ pair ∈ pairs, pair.value.Nested levels) ∧
    Takes (skipElementValue budget) fun _ w _ => ∃ value, w = ElementValue.bytes value ∧ value.Nested budget
  | 0 => ⟨by rw [ skipAnnotation]; exact Takes.throw _ _, by rw [skipElementValue]; exact Takes.throw _ _⟩
  | budget + 1 => by
    obtain ⟨hskip, hvalue⟩ := takes_skip budget
    refine ⟨?_, ?_⟩
    · have hpair : Takes (do skipU2; skipElementValue budget) fun _ w _ =>
          ∃ pair : ElementPair, w = pair.bytes ∧ pair.value.Nested budget := by
        refine (takes_skipU2.bind fun _ => hvalue).mono ?_
        rintro n w _ ⟨_, w₁, w₂, rfl, ⟨name, rfl⟩, value, rfl, hnested⟩
        exact ⟨.mk name value, by rw [ElementPair.bytes], hnested⟩
      rw [ skipAnnotation]
      refine (takes_skipU2.bind fun _ => takes_u2.bind fun count => (takes_checkOk _).bind fun _ =>
        (takes_skipMany hpair count.toNat).bind fun _ => takes_checkOk _).mono ?_
      rintro n w _ ⟨_, w₁, w₂, rfl, ⟨type, rfl⟩, count, w₃, w₄, rfl, rfl, _, w₅, w₆, rfl, rfl, _, w₇, w₈, rfl,
        ⟨pairs, rfl, hlen, hpairs⟩, rfl⟩
      refine ⟨budget, type, pairs, rfl, ?_, by rw [hlen]; exact u2_le_maxCount count, hpairs⟩
      rw [annotationBytes, ofNat_of_toNat hlen, List.nil_append, List.append_nil]
    · rw [skipElementValue]
      refine (takes_u1.bind fun tag => (takes_checkOk _).bind fun _ => Takes.ite (fun htag => ?_) fun _ =>
        Takes.ite (fun htag => ?_) fun _ => Takes.ite (fun htag => ?_) fun _ => Takes.ite (fun htag => ?_) fun _ =>
          Takes.throw _ fun _ w _ => ∃ value, byteBufferU1 tag ++ w = ElementValue.bytes value ∧
            value.Nested (budget + 1)).mono ?_
      · refine (takes_skipU2.bind fun _ => takes_checkOk _).mono ?_
        rintro n w _ ⟨_, w₁, w₂, rfl, ⟨index, rfl⟩, rfl⟩
        exact ⟨.constant ⟨tag, htag⟩ index, by rw [ElementValue.bytes, List.append_nil], .constant⟩
      · subst htag
        refine (takes_skipU2.bind fun _ => takes_skipU2.bind fun _ => takes_checkOk _).mono ?_
        rintro n w _ ⟨_, w₁, w₂, rfl, ⟨typeName, rfl⟩, _, w₃, w₄, rfl, ⟨constName, rfl⟩, rfl⟩
        exact ⟨.enumConstant typeName constName, by rw [ElementValue.bytes, List.append_nil], .enumConstant⟩
      · subst htag
        refine (hskip.bind fun _ => takes_checkOk _).mono ?_
        rintro n w _ ⟨_, w₁, w₂, rfl, ⟨levels, type, pairs, rfl, rfl, hcount, hpairs⟩, rfl⟩
        exact ⟨.annotationValue type pairs, by rw [bytes_annotationValue, List.append_nil],
          .annotationValue hcount hpairs⟩
      · subst htag
        refine (takes_u2.bind fun count => (takes_checkOk _).bind fun _ => (takes_skipMany hvalue count.toNat).bind
          fun _ => takes_checkOk _).mono ?_
        rintro n w _ ⟨count, w₁, w₂, rfl, rfl, _, w₃, w₄, rfl, rfl, _, w₅, w₆, rfl, ⟨values, rfl, hlen, hvalues⟩, rfl⟩
        refine ⟨.array values, ?_, .array (by rw [hlen]; exact u2_le_maxCount count) hvalues⟩
        rw [ElementValue.bytes, valuesBytes_eq, ofNat_of_toNat hlen, List.nil_append, List.append_nil]
      · rintro n w _ ⟨tag, w₁, w₂, rfl, rfl, _, w₃, w₄, rfl, rfl, hvalue⟩
        rw [List.nil_append]
        exact hvalue

/-! ## Targets -/

section Targets

variable {index count : Nat}

theorem length_localvarRefs (index : Nat) : ∀ (position : Nat) (table : List LocalvarEntry),
    (localvarRefs index position table).length = table.length
  | _, [] => rfl
  | position, _ :: rest => congrArg (· + 1) (length_localvarRefs index (position + 6) rest)

theorem reads_readSpan (entry : LocalvarEntry) (h : count ≠ classfileMaxCount) (n : Nat) :
    Reads (readSpan index count) n entry.bytes
      [⟨index, n, .span, entry.startPc.toNat, entry.startPc.toNat + entry.length.toNat⟩] := by
  refine (reads_offset n).skip ((reads_u2 _ _).bind ((reads_u2 _ _).bind ?_))
  exact (reads_skipU2 _ _).last ((reads_checkOk _ _).skip (reads_appendRef h _ _))

theorem takes_readSpan : Takes (readSpan index count) fun n w refs => ∃ entry : LocalvarEntry, w = entry.bytes ∧
    refs = [⟨index, n, .span, entry.startPc.toNat, entry.startPc.toNat + entry.length.toNat⟩] ∧
    count ≠ classfileMaxCount := by
  refine (takes_offset.bind fun at_ => takes_u2.bind fun start => takes_u2.bind fun length => takes_skipU2.bind fun _ =>
    (takes_checkOk _).bind fun _ => takes_appendRef count _).mono ?_
  rintro n w refs ⟨at_, w₁, w₂, rfl, ⟨rfl, rfl⟩, start, w₃, w₄, rfl, rfl, length, w₅, w₆, rfl, rfl, _, w₇, w₈, rfl,
    ⟨slot, rfl⟩, _, w₉, w₁₀, rfl, rfl, rfl, rfl, hcount⟩
  exact ⟨⟨start, length, slot⟩, by simp [LocalvarEntry.bytes], rfl, hcount⟩

theorem length_localvarEntry (entry : LocalvarEntry) : entry.bytes.length = 6 := rfl

theorem reads_readSpans : ∀ {table : List LocalvarEntry} {count n : Nat}, count + table.length ≤ classfileMaxCount →
    Reads (readSpans index table.length count) n (table.flatMap LocalvarEntry.bytes) (localvarRefs index n table)
  | [], _, _, _ => Reads.pure _ _
  | entry :: rest, count, n, h => by
    rw [List.length_cons] at h
    rw [List.flatMap_cons]
    refine (reads_readSpan entry (by omega) n).bind ?_
    rw [length_localvarEntry]
    exact (reads_readSpans (by rw [List.length_singleton]; omega)).last (Reads.pure _ _)

theorem takes_readSpans : ∀ (entries count : Nat), Takes (readSpans index entries count) fun n w refs =>
    ∃ table : List LocalvarEntry, w = table.flatMap LocalvarEntry.bytes ∧ table.length = entries ∧
      refs = localvarRefs index n table ∧ (count ≤ classfileMaxCount → count + refs.length ≤ classfileMaxCount)
  | 0, count => by
    refine (Takes.pure _).mono ?_
    rintro n w refs ⟨rfl, rfl⟩
    exact ⟨[], rfl, rfl, rfl, fun h => h⟩
  | entries + 1, count => by
    refine (takes_readSpan.bind fun refs => (takes_readSpans entries (count + refs.length)).bind fun rest =>
      Takes.pure _).mono ?_
    rintro n w refs ⟨refs₁, w₁, w₂, rfl, ⟨entry, rfl, rfl, hcount⟩, refs₂, w₃, w₄, rfl, ⟨table, rfl, rfl, rfl, hroom⟩,
      rfl, rfl⟩
    refine ⟨entry :: table, by rw [List.flatMap_cons, List.append_nil], rfl, rfl, fun h => ?_⟩
    rw [List.length_append, ← Nat.add_assoc]
    exact hroom (by rw [List.length_singleton]; omega)

/-- A target is read with its offsets, as long as there is room for them. -/
theorem reads_readTarget {target : AnnotationTarget} {n : Nat} (hfits : target.Fits)
    (hroom : count + (target.refs index n).length ≤ classfileMaxCount) :
    Reads (readTarget target.type index count) n target.info (target.refs index n) := by
  cases target with
  | typeParameter type i =>
    obtain ⟨type, htype⟩ := type
    simp only [List.mem_cons, List.not_mem_nil, or_false] at htype
    rcases htype with rfl | rfl <;>
      exact (reads_skipU1 i _).last ((reads_checkOk _ _).skip (Reads.pure _ _))
  | supertype i => exact (reads_skipU2 i _).last ((reads_checkOk _ _).skip (Reads.pure _ _))
  | typeParameterBound type parameter bound =>
    obtain ⟨type, htype⟩ := type
    simp only [List.mem_cons, List.not_mem_nil, or_false] at htype
    rcases htype with rfl | rfl <;>
      exact (reads_skipU1 parameter _).bind ((reads_skipU1 bound _).last ((reads_checkOk _ _).skip (Reads.pure _ _)))
  | empty type =>
    obtain ⟨type, htype⟩ := type
    simp only [List.mem_cons, List.not_mem_nil, or_false] at htype
    rcases htype with rfl | rfl | rfl <;> exact (reads_checkOk _ _).skip (Reads.pure _ _)
  | formalParameter i => exact (reads_skipU1 i _).last ((reads_checkOk _ _).skip (Reads.pure _ _))
  | throws i => exact (reads_skipU2 i _).last ((reads_checkOk _ _).skip (Reads.pure _ _))
  | localvar type table =>
    have hspans : Reads (byteCursorU2 >>= fun entries => checkOk .truncated >>= fun _ =>
        readSpans index entries.toNat count) n (byteBufferU2 (UInt16.ofNat table.length) ++
          table.flatMap LocalvarEntry.bytes) (localvarRefs index (n + 2) table) := by
      refine (reads_u2 _ _).bind ((reads_checkOk _ _).skip ?_)
      rw [u2_length hfits]
      refine reads_readSpans ?_
      rw [AnnotationTarget.refs, length_localvarRefs] at hroom
      exact hroom
    obtain ⟨type, htype⟩ := type
    simp only [List.mem_cons, List.not_mem_nil, or_false] at htype
    rcases htype with rfl | rfl <;> exact hspans
  | catchType i => exact (reads_skipU2 i _).last ((reads_checkOk _ _).skip (Reads.pure _ _))
  | offset type pc =>
    have hcount : count ≠ classfileMaxCount := by
      rw [AnnotationTarget.refs, List.length_singleton] at hroom
      omega
    obtain ⟨type, htype⟩ := type
    simp only [List.mem_cons, List.not_mem_nil, or_false] at htype
    rcases htype with rfl | rfl | rfl | rfl <;>
      exact (reads_offset n).skip ((reads_u2 pc _).last ((reads_checkOk _ _).skip (reads_appendRef hcount _ _)))
  | typeArgument type pc i =>
    have hcount : count ≠ classfileMaxCount := by
      rw [AnnotationTarget.refs, List.length_singleton] at hroom
      omega
    obtain ⟨type, htype⟩ := type
    simp only [List.mem_cons, List.not_mem_nil, or_false] at htype
    rcases htype with rfl | rfl | rfl | rfl | rfl <;>
      exact (reads_offset n).skip ((reads_u2 pc _).bind ((reads_skipU1 i _).last
        ((reads_checkOk _ _).skip (reads_appendRef hcount _ _))))

/-- What a target of this type is read from. -/
structure TargetRead (type : UInt8) (index count n : Nat) (w : Bytes) (refs : List TypeAnnotationRef)
    (target : AnnotationTarget) : Prop where
  type : target.type = type
  info : w = target.info
  fits : target.Fits
  offsets : refs = target.refs index n
  room : count ≤ classfileMaxCount → count + refs.length ≤ classfileMaxCount

theorem takes_readTarget (type : UInt8) :
    Takes (readTarget type index count) fun n w refs => ∃ target, TargetRead type index count n w refs target := by
  refine Takes.ite (fun h₁ => ?_) fun h₁ => Takes.ite (fun h₂ => ?_) fun h₂ => Takes.ite (fun h₃ => ?_) fun h₃ =>
    Takes.ite (fun h₄ => ?_) fun h₄ => Takes.ite (fun h₅ => ?_) fun h₅ => Takes.ite (fun h₆ => ?_) fun h₆ =>
      Takes.ite (fun h₇ => ?_) fun h₇ => Takes.throw _ _
  · refine (takes_skipU1.bind fun _ => (takes_checkOk _).bind fun _ => Takes.pure _).mono ?_
    rintro n w refs ⟨_, w₁, w₂, rfl, ⟨i, rfl⟩, _, w₃, w₄, rfl, rfl, rfl, rfl⟩
    by_cases htype : type ∈ [0x00, 0x01]
    · exact ⟨.typeParameter ⟨type, htype⟩ i, rfl, List.append_nil _, trivial, rfl, fun h => h⟩
    · obtain rfl : type = 0x16 := by
        simp only [List.mem_cons, List.not_mem_nil, or_false, not_or] at h₁ htype
        rcases h₁ with h | h | h
        · exact absurd h htype.1
        · exact absurd h htype.2
        · exact h
      exact ⟨.formalParameter i, rfl, List.append_nil _, trivial, rfl, fun h => h⟩
  · refine (takes_skipU2.bind fun _ => (takes_checkOk _).bind fun _ => Takes.pure _).mono ?_
    rintro n w refs ⟨_, w₁, w₂, rfl, ⟨i, rfl⟩, _, w₃, w₄, rfl, rfl, rfl, rfl⟩
    simp only [List.mem_cons, List.not_mem_nil, or_false] at h₂
    rcases h₂ with rfl | rfl | rfl
    · exact ⟨.supertype i, rfl, List.append_nil _, trivial, rfl, fun h => h⟩
    · exact ⟨.throws i, rfl, List.append_nil _, trivial, rfl, fun h => h⟩
    · exact ⟨.catchType i, rfl, List.append_nil _, trivial, rfl, fun h => h⟩
  · refine (takes_skipU1.bind fun _ => takes_skipU1.bind fun _ => (takes_checkOk _).bind fun _ => Takes.pure _).mono ?_
    rintro n w refs ⟨_, w₁, w₂, rfl, ⟨parameter, rfl⟩, _, w₃, w₄, rfl, ⟨bound, rfl⟩, _, w₅, w₆, rfl, rfl, rfl, rfl⟩
    exact ⟨.typeParameterBound ⟨type, h₃⟩ parameter bound, rfl, rfl, trivial, rfl, fun h => h⟩
  · refine ((takes_checkOk _).bind fun _ => Takes.pure _).mono ?_
    rintro n w refs ⟨_, w₁, w₂, rfl, rfl, rfl, rfl⟩
    exact ⟨.empty ⟨type, h₄⟩, rfl, rfl, trivial, rfl, fun h => h⟩
  · refine (takes_u2.bind fun entries => (takes_checkOk _).bind fun _ => takes_readSpans entries.toNat count).mono ?_
    rintro n w refs ⟨entries, w₁, w₂, rfl, rfl, _, w₃, w₄, rfl, rfl, table, rfl, hlen, rfl, hroom⟩
    refine ⟨.localvar ⟨type, h₅⟩ table, rfl, ?_, by rw [AnnotationTarget.Fits, hlen]; exact u2_le_maxCount entries, rfl,
      hroom⟩
    rw [AnnotationTarget.info, ofNat_of_toNat hlen, List.nil_append]
  · refine (takes_offset.bind fun at_ => takes_u2.bind fun pc => (takes_checkOk _).bind fun _ =>
      takes_appendRef count _).mono ?_
    rintro n w refs ⟨at_, w₁, w₂, rfl, ⟨rfl, rfl⟩, pc, w₃, w₄, rfl, rfl, _, w₅, w₆, rfl, rfl, rfl, rfl, hcount⟩
    refine ⟨.offset ⟨type, h₆⟩ pc, rfl, rfl, trivial, rfl, fun h => ?_⟩
    rw [List.length_singleton]
    omega
  · refine (takes_offset.bind fun at_ => takes_u2.bind fun pc => takes_skipU1.bind fun _ =>
      (takes_checkOk _).bind fun _ =>
      takes_appendRef count _).mono ?_
    rintro n w refs ⟨at_, w₁, w₂, rfl, ⟨rfl, rfl⟩, pc, w₃, w₄, rfl, rfl, _, w₅, w₆, rfl, ⟨i, rfl⟩, _, w₇, w₈, rfl, rfl,
      rfl, rfl, hcount⟩
    refine ⟨.typeArgument ⟨type, h₇⟩ pc i, rfl, rfl, trivial, rfl, fun h => ?_⟩
    rw [List.length_singleton]
    omega

end Targets

/-! ## Tables -/

section Tables

variable {index count : Nat}

theorem reads_pathEntry (entry : UInt8 × UInt8) (n : Nat) : Reads (do skipU1; skipU1) n (pathEntryBytes entry) () :=
  (reads_skipU1 entry.1 n).bind (reads_skipU1 entry.2 _)

theorem takes_pathEntry : Takes (do skipU1; skipU1) fun _ w _ => ∃ entry : UInt8 × UInt8, w = pathEntryBytes entry ∧
    True := by
  refine (takes_skipU1.bind fun _ => takes_skipU1).mono ?_
  rintro n w _ ⟨_, w₁, w₂, rfl, ⟨first, rfl⟩, second, rfl⟩
  exact ⟨(first, second), rfl, trivial⟩

theorem reads_entry {a : TypeAnnotation} {n : Nat} (hfits : a.Fits)
    (hroom : count + (a.target.refs index (n + 1)).length ≤ classfileMaxCount) :
    Reads ( readTypeAnnotation index count) n a.bytes (a.target.refs index (n + 1)) := by
  have hpath : (UInt8.ofNat a.path.length).toNat = a.path.length := by
    have := hfits.path
    rw [UInt8.toNat_ofNat', Nat.mod_eq_of_lt (by omega)]
  refine (reads_u1 _ n).bind ((reads_checkOk _ _).skip ((reads_readTarget hfits.target hroom).bind ?_))
  refine (reads_u1 _ _).bind ((reads_checkOk _ _).skip ?_)
  rw [hpath]
  refine (reads_skipMany (fun entry _ m => reads_pathEntry entry m) _).bind ((reads_checkOk _ _).skip ?_)
  exact ((reads_skip maxAnnotationDepth).1 a.type a.pairs _ hfits.pairs hfits.nested).last (Reads.pure _ _)

/-- What an annotation at `n` is read from. -/
structure TypeAnnotationRead (index count n : Nat) (w : Bytes) (refs : List TypeAnnotationRef)
    (a : TypeAnnotation) : Prop where
  bytes : w = a.bytes
  fits : a.Fits
  offsets : refs = a.target.refs index (n + 1)
  room : count ≤ classfileMaxCount → count + refs.length ≤ classfileMaxCount

theorem takes_entry :
    Takes ( readTypeAnnotation index count) fun n w refs => ∃ a, TypeAnnotationRead index count n w refs a := by
  refine (takes_u1.bind fun type => (takes_checkOk _).bind fun _ => (takes_readTarget type).bind fun refs =>
    takes_u1.bind fun pathLength => (takes_checkOk _).bind fun _ => (takes_skipMany takes_pathEntry _).bind fun _ =>
      (takes_checkOk _).bind fun _ => (takes_skip 33).1.bind fun _ => Takes.pure refs).mono ?_
  rintro n w refs ⟨type, w₁, w₂, rfl, rfl, _, w₃, w₄, rfl, rfl, refs', w₅, w₆, rfl, ⟨target, htarget⟩,
    pathLength, w₇, w₈, rfl, rfl, _, w₉, w₁₀, rfl, rfl, _, w₁₁, w₁₂, rfl, ⟨path, rfl, hpath, -⟩, _, w₁₃, w₁₄, rfl,
    rfl, _, w₁₅, w₁₆, rfl, ⟨levels, kind, pairs, hlevels, rfl, hpairs, hnested⟩, rfl, rfl⟩
  obtain ⟨rfl, rfl, hfits, rfl, hroom⟩ := htarget
  obtain rfl : levels = maxAnnotationDepth := by
    rw [maxAnnotationDepth]
    omega
  have hlength : UInt8.ofNat path.length = pathLength := by rw [hpath, UInt8.ofNat_toNat]
  have := pathLength.toNat_lt
  refine ⟨⟨target, path, kind, pairs⟩, ?_, ⟨hfits, by dsimp only; omega, hpairs, hnested⟩, rfl, hroom⟩
  simp only [ TypeAnnotation.bytes, hlength, List.nil_append, List.append_nil]

theorem reads_readTypeAnnotations : ∀ {table : List TypeAnnotation} {count n : Nat}, (∀ a ∈ table, a.Fits) →
    count + (typeAnnotationRefs index n table).length ≤ classfileMaxCount →
    Reads (readTypeAnnotations index table.length count) n (table.flatMap TypeAnnotation.bytes)
      (typeAnnotationRefs index n table)
  | [], _, _, _, _ => Reads.pure _ _
  | a :: rest, count, n, hfits, hroom => by
    rw [typeAnnotationRefs, List.length_append] at hroom
    rw [List.flatMap_cons]
    refine (reads_entry (hfits a List.mem_cons_self) (by omega)).bind ?_
    exact (reads_readTypeAnnotations (fun b hb => hfits b (List.mem_cons_of_mem a hb)) (by omega)).last (Reads.pure _ _)

theorem takes_readTypeAnnotations : ∀ (k count : Nat), Takes (readTypeAnnotations index k count) fun n w refs =>
    ∃ table : List TypeAnnotation, w = table.flatMap TypeAnnotation.bytes ∧ table.length = k ∧ (∀ a ∈ table, a.Fits) ∧
      refs = typeAnnotationRefs index n table ∧ (count ≤ classfileMaxCount → count + refs.length ≤ classfileMaxCount)
  | 0, count => by
    refine (Takes.pure _).mono ?_
    rintro n w refs ⟨rfl, rfl⟩
    exact ⟨[], rfl, rfl, fun a ha => absurd ha List.not_mem_nil, rfl, fun h => h⟩
  | k + 1, count => by
    refine (takes_entry.bind fun refs => (takes_readTypeAnnotations k (count + refs.length)).bind fun rest =>
      Takes.pure _).mono ?_
    rintro n w refs ⟨refs₁, w₁, w₂, rfl, ⟨a, rfl, hfits, rfl, hroom₁⟩, refs₂, w₃, w₄, rfl,
      ⟨table, rfl, rfl, hrest, rfl, hroom₂⟩, rfl, rfl⟩
    refine ⟨a :: table, by rw [List.flatMap_cons, List.append_nil], rfl, fun b hb => ?_, rfl, fun h => ?_⟩
    · rcases List.mem_cons.mp hb with rfl | hb
      · exact hfits
      · exact hrest b hb
    · rw [List.length_append, ← Nat.add_assoc]
      exact hroom₂ (hroom₁ h)

/-- **What `type_annotation_collect` accepts**, and what it answers. -/
theorem collect_iff {payload : Bytes} {found : List TypeAnnotationRef} (hcount : count ≤ classfileMaxCount) :
    parseAll (readTypeAnnotationTable index count) payload = .ok found ↔
      ∃ table, EncodesTypeAnnotations payload table ∧ found = typeAnnotationRefs index 2 table ∧
        count + found.length ≤ classfileMaxCount := by
  constructor
  · intro h
    have htakes : Takes (readTypeAnnotationTable index count) fun n w refs => ∃ table, EncodesTypeAnnotations w table ∧
        refs = typeAnnotationRefs index (n + 2) table ∧
        (count ≤ classfileMaxCount → count + refs.length ≤ classfileMaxCount) := by
      refine (takes_u2.bind fun k => (takes_checkOk _).bind fun _ => takes_readTypeAnnotations k.toNat count).mono ?_
      rintro n w refs ⟨k, w₁, w₂, rfl, rfl, _, w₃, w₄, rfl, rfl, table, rfl, hlen, hfits, rfl, hroom⟩
      refine ⟨table, ⟨?_, by rw [hlen]; exact u2_le_maxCount k, hfits⟩, rfl, hroom⟩
      rw [typeAnnotationTableBytes, ofNat_of_toNat hlen, List.nil_append]
    obtain ⟨table, hencodes, hfound, hroom⟩ :=
      takes_of_parseAll htakes (checks_readTypeAnnotationTable index count) h
    exact ⟨table, hencodes, hfound, hroom hcount⟩
  · rintro ⟨table, hencodes, rfl, hroom⟩
    rw [hencodes.bytes]
    refine parseAll_of_reads ((reads_u2 _ _).bind ((reads_checkOk _ _).skip ?_))
    rw [u2_length hencodes.count]
    exact reads_readTypeAnnotations hencodes.fits hroom

end Tables

/-! ## New offsets -/

/-- The same place with new offsets. -/
structure GivenOffsets (ref given : TypeAnnotationRef) : Prop where
  attributeIndex : given.attributeIndex = ref.attributeIndex
  payloadOffset : given.payloadOffset = ref.payloadOffset
  kind : given.kind = ref.kind
  nonneg : 0 ≤ given.start
  start : given.start ≤ 0xFFFF
  span : ref.kind = .span → given.start ≤ given.stop ∧ given.stop ≤ 0xFFFF

/-- What is recorded of a reference: an instruction has no end. -/
def TypeAnnotationRef.recorded (ref : TypeAnnotationRef) : TypeAnnotationRef :=
  if ref.kind = .instruction then { ref with stop := 0 } else ref

theorem stop_localvarRefs (index : Nat) : ∀ (position : Nat) (table : List LocalvarEntry),
    ∀ ref ∈ localvarRefs index position table, ref.kind = .span
  | _, [], ref, hmem => nomatch hmem
  | position, entry :: rest, ref, hmem => by
    rcases List.mem_cons.mp hmem with rfl | hmem
    · rfl
    · exact stop_localvarRefs index (position + 6) rest ref hmem

/-- An instruction is recorded without an end. -/
theorem stop_typeAnnotationRefs (index : Nat) : ∀ (position : Nat) (table : List TypeAnnotation),
    ∀ ref ∈ typeAnnotationRefs index position table, ref.kind = .instruction → ref.stop = 0
  | _, [], ref, hmem, _ => nomatch hmem
  | position, a :: rest, ref, hmem, hkind => by
    rcases List.mem_append.mp hmem with hmem | hmem
    · cases htarget : a.target with
      | localvar type table =>
        rw [htarget] at hmem
        rw [stop_localvarRefs index _ table ref hmem] at hkind
        cases hkind
      | offset type pc =>
        rw [htarget] at hmem
        rw [List.mem_singleton.mp hmem]
      | typeArgument type pc i =>
        rw [htarget] at hmem
        rw [List.mem_singleton.mp hmem]
      | typeParameter | supertype | typeParameterBound | empty | formalParameter | throws | catchType =>
        rw [htarget] at hmem
        exact nomatch hmem
    · exact stop_typeAnnotationRefs index _ rest ref hmem hkind

theorem GivenOffsets.retargets {ref given : TypeAnnotationRef} (h : GivenOffsets ref given)
    (hstop : ref.kind = .instruction → ref.stop = 0) : Retargets ref given.recorded := by
  unfold TypeAnnotationRef.recorded
  split
  · rename_i hkind
    rw [h.kind] at hkind
    refine ⟨h.attributeIndex, h.payloadOffset, h.kind, h.nonneg, h.start, fun hspan => ?_, fun _ => (hstop hkind).symm⟩
    rw [hkind] at hspan
    cases hspan
  · rename_i hkind
    rw [h.kind] at hkind
    exact ⟨h.attributeIndex, h.payloadOffset, h.kind, h.nonneg, h.start, h.span,
      fun hinstruction => absurd hinstruction hkind⟩

theorem retargets_of_given {found given : List TypeAnnotationRef} (h : List.Forall₂ GivenOffsets found given)
    (hstop : ∀ ref ∈ found, ref.kind = .instruction → ref.stop = 0) :
    List.Forall₂ Retargets found (given.map TypeAnnotationRef.recorded) := by
  induction h with
  | nil => exact .nil
  | cons hone _ ih =>
    exact .cons (hone.retargets (hstop _ List.mem_cons_self)) (ih fun r hr => hstop r (List.mem_cons_of_mem _ hr))

/-- The end of an instruction is not written. -/
theorem putRef_recorded (n : Nat) (ref : TypeAnnotationRef) (w : Bytes) : putRef n ref.recorded w = putRef n ref w := by
  unfold TypeAnnotationRef.recorded
  split
  · rename_i hkind
    simp only [putRef, hkind, if_true]
  · rfl

theorem fillRefs_recorded (n : Nat) : ∀ (refs : List TypeAnnotationRef) (w : Bytes),
    fillRefs n (refs.map TypeAnnotationRef.recorded) w = fillRefs n refs w
  | [], _ => rfl
  | ref :: rest, w => by
    simp only [fillRefs, List.map_cons, List.foldl_cons, putRef_recorded]
    exact fillRefs_recorded n rest (putRef n ref w)

/-- A reference whose offsets fit is flushed. -/
theorem flushRef_of_fits {ref : TypeAnnotationRef} {attributes : List AttributeInfo} {attr : AttributeInfo}
    (hat : attributes[ref.attributeIndex]? = some attr) (hattr : attr.WellFormed) (hin : ref.Within 0 attr.info.length)
    (h₀ : 0 ≤ ref.start) (h₁ : ref.start ≤ 0xFFFF)
    (hspan : ref.kind = .span → ref.start ≤ ref.stop ∧ ref.stop ≤ 0xFFFF) :
    flushRef ref attributes =
      (.ok (), attributes.set ref.attributeIndex { attr with info := putRef 0 ref attr.info }) := by
  have hlt := attr.attributeLength.toNat_lt
  have hwidth : ref.payloadOffset + ref.width ≤ attr.attributeLength.toNat := by
    have := hin.2
    rw [hattr]
    omega
  have hfit : ¬u4 (ref.payloadOffset + if ref.kind = .span then 4 else 2) > attr.attributeLength.toNat := by
    rw [TypeAnnotationRef.width] at hwidth
    rw [u4, Nat.mod_eq_of_lt (by omega)]
    omega
  have hset : ∀ payload, payload = putRef 0 ref attr.info → setPayload attributes ref.attributeIndex payload =
      attributes.set ref.attributeIndex { attr with info := putRef 0 ref attr.info } := by
    rintro payload rfl
    apply List.ext_getElem?
    intro k
    rw [setPayload, List.getElem?_modify]
    by_cases hk : ref.attributeIndex = k
    · subst hk
      rw [hat, List.getElem?_set_self (List.getElem?_eq_some_iff.mp hat).1]
      simp
    · rw [List.getElem?_set_ne hk]
      simp [hk]
  rw [flushRef, hat]
  dsimp only
  rw [if_neg hfit, if_neg (by rw [jvmMaxCodeLength]; omega)]
  cases hkind : ref.kind with
  | instruction =>
    rw [if_pos rfl, hset]
    simp only [putRef, hkind, if_true, Nat.sub_zero]
  | span =>
    obtain ⟨h₂, h₃⟩ := hspan hkind
    rw [if_neg (by decide), if_neg (by rw [jvmMaxCodeLength]; omega), hset]
    simp [putRef, hkind]

/-- All of them, in one attribute. -/
theorem typeAnnotationFlush_of_fits {index : Nat} : ∀ {refs : List TypeAnnotationRef} {attributes : List AttributeInfo}
    {attr : AttributeInfo}, attributes[index]? = some attr → attr.WellFormed →
    (∀ ref ∈ refs, ref.Within 0 attr.info.length ∧ ref.attributeIndex = index ∧ 0 ≤ ref.start ∧ ref.start ≤ 0xFFFF ∧
      (ref.kind = .span → ref.start ≤ ref.stop ∧ ref.stop ≤ 0xFFFF)) →
    typeAnnotationFlush refs attributes = (.ok (), attributes.set index { attr with info := fillRefs 0 refs attr.info })
  | [], attributes, attr, hat, _, _ => by
    obtain ⟨hlen, hget⟩ := List.getElem?_eq_some_iff.mp hat
    rw [typeAnnotationFlush, fillRefs, List.foldl_nil, ← hget, List.set_getElem_self]
  | ref :: rest, attributes, attr, hat, hattr, h => by
    obtain ⟨hin, hindex, h₀, h₁, hspan⟩ := h ref List.mem_cons_self
    subst hindex
    have hlen := (List.getElem?_eq_some_iff.mp hat).1
    rw [typeAnnotationFlush, flushRef_of_fits hat hattr hin h₀ h₁ hspan]
    dsimp only
    have hput : ({ attr with info := putRef 0 ref attr.info } : AttributeInfo).WellFormed := by
      rw [AttributeInfo.WellFormed, length_putRef]
      exact hattr
    rw [typeAnnotationFlush_of_fits (List.getElem?_set_self hlen) hput fun r hr => ?_]
    · rw [List.set_set]
      rfl
    · rw [length_putRef]
      exact h r (List.mem_cons_of_mem ref hr)

/-- **Type annotations.** `type_annotation_collect` accepts exactly the tables of the format, and answers their bytecode
offsets with their places. New offsets are flushed into these places and nowhere else, and are what is found there. -/
theorem type_annotation_offsets_exact (attr : AttributeInfo) (index : Nat) (before : List TypeAnnotationRef)
    (hattr : attr.WellFormed) (hbefore : before.length ≤ classfileMaxCount) :
    (∀ refs, typeAnnotationCollect attr index before = .ok refs ↔ ∃ table, EncodesTypeAnnotations attr.info table ∧
      refs = before ++ typeAnnotationRefs index 2 table ∧ refs.length ≤ classfileMaxCount) ∧
    (∀ (found given : List TypeAnnotationRef) (attributes : List AttributeInfo),
      typeAnnotationCollect attr index before = .ok (before ++ found) → List.Forall₂ GivenOffsets found given →
      attributes[index]? = some attr → ∃ flushed,
        typeAnnotationFlush given attributes = (.ok (), attributes.set index { attr with info := flushed }) ∧
        flushed.length = attr.info.length ∧
        (∀ k, (∀ ref ∈ found, ¬(ref.payloadOffset ≤ k ∧ k < ref.payloadOffset + ref.width)) →
          flushed[k]? = attr.info[k]?) ∧
        typeAnnotationCollect { attr with info := flushed } index before =
          .ok (before ++ given.map TypeAnnotationRef.recorded)) := by
  have hcollect : ∀ a : AttributeInfo, a.WellFormed → ∀ found,
      typeAnnotationCollect a index before = .ok (before ++ found) ↔
        parseAll (readTypeAnnotationTable index before.length) a.info = .ok found := by
    intro a ha found
    rw [typeAnnotationCollect, payload_of_wellFormed ha]
    cases parseAll (readTypeAnnotationTable index before.length) a.info with
    | error e => exact ⟨fun h => (by cases h), fun h => (by cases h)⟩
    | ok other =>
      show Except.ok (before ++ other) = .ok (before ++ found) ↔ _
      rw [Except.ok.injEq, Except.ok.injEq, List.append_cancel_left_eq]
  refine ⟨fun refs => ⟨fun h => ?_, ?_⟩, fun found given attributes h hgiven hat => ?_⟩
  · obtain ⟨found, hfound, hrefs⟩ := bind_ok h
    cases hrefs
    rw [payload_of_wellFormed hattr] at hfound
    obtain ⟨table, hencodes, rfl, hroom⟩ := (collect_iff hbefore).mp hfound
    exact ⟨table, hencodes, rfl, by rw [List.length_append]; exact hroom⟩
  · rintro ⟨table, hencodes, rfl, hroom⟩
    rw [List.length_append] at hroom
    exact (hcollect attr hattr _).mpr ((collect_iff hbefore).mpr ⟨table, hencodes, rfl, hroom⟩)
  · rw [hcollect attr hattr] at h
    obtain ⟨hin, hfill⟩ := collect_fill h
    obtain ⟨table, -, rfl, -⟩ := (collect_iff hbefore).mp h
    have hretargets := retargets_of_given hgiven (stop_typeAnnotationRefs index 2 table)
    refine ⟨fillRefs 0 given attr.info, ?_, length_fillRefs _ _ _, fun k hk => ?_, ?_⟩
    · refine typeAnnotationFlush_of_fits hat hattr fun ref hmem => ?_
      obtain ⟨old, hold, hone⟩ := forall₂_mem_right hgiven ref hmem
      obtain ⟨⟨hlo, hhi⟩, hindex⟩ := hin old hold
      refine ⟨⟨by omega, ?_⟩, hone.attributeIndex.trans hindex, hone.nonneg, hone.start, fun hspan =>
        hone.span (hone.kind ▸ hspan)⟩
      rw [hone.payloadOffset, TypeAnnotationRef.width, hone.kind]
      exact hhi
    · refine getElem?_fillRefs fun ref hmem hcover => ?_
      obtain ⟨old, hold, hone⟩ := forall₂_mem_right hgiven ref hmem
      refine hk old hold ?_
      rw [hone.payloadOffset, TypeAnnotationRef.width, hone.kind] at hcover
      exact hcover
    · refine (hcollect _ (wellFormed_fill hattr given) _).mpr ?_
      have := hfill _ hretargets
      rw [fillRefs_recorded] at this
      exact this

/-- One annotation on a local variable, with an array of an enum constant as its value, and one on an instruction. -/
def twoTypeAnnotations : List TypeAnnotation :=
  [⟨.localvar ⟨0x40, by decide⟩ [⟨2, 5, 1⟩], [], 7, [.mk 8 (.array [.enumConstant 9 10])]⟩,
    ⟨.offset ⟨0x44, by decide⟩ 3, [(0, 1)], 7, []⟩]

theorem encodes_twoTypeAnnotations :
    EncodesTypeAnnotations (typeAnnotationTableBytes twoTypeAnnotations) twoTypeAnnotations := by
  refine ⟨rfl, by decide, fun a hmem => ?_⟩
  simp only [twoTypeAnnotations, List.mem_cons, List.not_mem_nil, or_false] at hmem
  rcases hmem with rfl | rfl
  · refine ⟨by simp [AnnotationTarget.Fits, classfileMaxCount], by decide, by simp [classfileMaxCount],
      fun pair hpair => ?_⟩
    rw [List.mem_singleton.mp hpair]
    refine .array (by simp [classfileMaxCount]) fun value hvalue => ?_
    rw [List.mem_singleton.mp hvalue]
    exact .enumConstant
  · exact ⟨trivial, by decide, by simp [classfileMaxCount], fun pair hpair => absurd hpair List.not_mem_nil⟩

theorem type_annotation_offsets_two :
    typeAnnotationCollect (attributeInfoOf 1 (typeAnnotationTableBytes twoTypeAnnotations)) 0 [] =
      .ok [⟨0, 5, .span, 2, 7⟩, ⟨0, 27, .instruction, 3, 0⟩] ∧
    ∃ flushed, typeAnnotationFlush [⟨0, 5, .span, 4, 9⟩, ⟨0, 27, .instruction, 6, 0⟩]
        [attributeInfoOf 1 (typeAnnotationTableBytes twoTypeAnnotations)] =
        (.ok (), [{ attributeInfoOf 1 (typeAnnotationTableBytes twoTypeAnnotations) with info := flushed }]) ∧
      typeAnnotationCollect { attributeInfoOf 1 (typeAnnotationTableBytes twoTypeAnnotations) with info := flushed } 0
        [] = .ok [⟨0, 5, .span, 4, 9⟩, ⟨0, 27, .instruction, 6, 0⟩] := by
  have hwf : (attributeInfoOf 1 (typeAnnotationTableBytes twoTypeAnnotations)).WellFormed := by
    show _ = _
    decide +kernel
  obtain ⟨hcollect, hflush⟩ := type_annotation_offsets_exact
    (attributeInfoOf 1 (typeAnnotationTableBytes twoTypeAnnotations)) 0 [] hwf (by decide)
  have hfound := (hcollect [⟨0, 5, .span, 2, 7⟩, ⟨0, 27, .instruction, 3, 0⟩]).mpr
    ⟨twoTypeAnnotations, encodes_twoTypeAnnotations, by decide +kernel, by decide⟩
  refine ⟨hfound, ?_⟩
  obtain ⟨flushed, hok, -, -, hagain⟩ := hflush _ [⟨0, 5, .span, 4, 9⟩, ⟨0, 27, .instruction, 6, 0⟩]
    [attributeInfoOf 1 (typeAnnotationTableBytes twoTypeAnnotations)] hfound
    (.cons ⟨rfl, rfl, rfl, by decide, by decide, fun _ => by decide⟩
      (.cons ⟨rfl, rfl, rfl, by decide, by decide, fun h => by cases h⟩ .nil)) rfl
  exact ⟨flushed, hok, hagain⟩

end Jni2Hook
