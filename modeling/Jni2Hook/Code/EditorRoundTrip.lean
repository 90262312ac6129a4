import Jni2Hook.Code.CodeEditor
import Jni2Hook.Code.StackMapRoundTrip
import Jni2Hook.Code.TypeAnnotationRoundTrip

/-!
# The code editor: what is stored is loaded

* `CodeEditor.Coherent`: what holds of every editor that was loaded (`coherent_of_load`). Its tables carry the names
  they are looked up under, its counts fit, its instructions are laid out, and its type annotation references are those
  that a walk over its opaque attributes finds.
* `load_of_store`: a coherent editor that can be stored is loaded again with the same contents. Only the tag of a stack
  map frame may differ.
-/

namespace Jni2Hook

open Lib

/-! ## The Code attribute -/

theorem reads_readExceptionEntry (e : ExceptionEntry) (n : Nat) :
    Reads readExceptionEntry n (writeExceptionEntry e) e :=
  (reads_u2 _ _).bind ((reads_u2 _ _).bind ((reads_u2 _ _).bind ((reads_u2 _ _).last
    ((reads_checkOk _ _).skip (Reads.pure _ _)))))

theorem takes_readExceptionEntry : Takes readExceptionEntry fun _ w e => w = writeExceptionEntry e ∧ True := by
  refine (takes_u2.bind fun startPc => takes_u2.bind fun endPc => takes_u2.bind fun handlerPc =>
    takes_u2.bind fun catchType => (takes_checkOk _).bind fun _ => Takes.pure _).mono ?_
  rintro n w e ⟨a, w₁, w₂, rfl, rfl, b, w₃, w₄, rfl, rfl, c, w₅, w₆, rfl, rfl, d, w₇, w₈, rfl, rfl, _,
    w₉, w₁₀, rfl, rfl, rfl, rfl⟩
  exact ⟨by simp [writeExceptionEntry], trivial⟩

/-- The counts and lengths of a Code attribute fit their fields. -/
structure CodeAttribute.WellFormed (code : CodeAttribute) : Prop where
  length : code.code.length < 2 ^ 32
  exceptions : code.exceptions.length ≤ classfileMaxCount
  attributes : AttributesWellFormed code.attributes

theorem reads_readCodeAttribute {code : CodeAttribute} (h : code.WellFormed) (n : Nat) :
    Reads readCodeAttribute n (encodeCodeAttribute code) code := by
  have hlen : (UInt32.ofNat code.code.length).toNat = code.code.length := by
    rw [UInt32.toNat_ofNat', Nat.mod_eq_of_lt h.length]
  refine (reads_u2 _ _).bind ((reads_u2 _ _).bind ((reads_u4 _ _).bind ?_))
  refine (reads_requireBytes ⟨code.code, hlen.symm⟩).bind ((reads_u2 _ _).bind ?_)
  rw [u2_length h.exceptions]
  refine (Reads.many fun e _ m => reads_readExceptionEntry e m).bind ((reads_u2 _ _).bind ?_)
  rw [u2_length h.attributes.count]
  exact (Reads.many fun a ha m => reads_attribute (h.attributes.items a ha) m).last (Reads.pure _ _)

theorem takes_readCodeAttribute :
    Takes readCodeAttribute fun _ w code => w = encodeCodeAttribute code ∧ code.WellFormed := by
  refine (takes_u2.bind fun maxStack => takes_u2.bind fun maxLocals => takes_u4.bind fun length =>
    (takes_requireBytes _).bind fun b => takes_u2.bind fun ec => (takes_readExceptionEntry.many _).bind fun es =>
      takes_u2.bind fun ac => (takes_attribute.many _).bind fun as => Takes.pure _).mono ?_
  rintro n w code ⟨maxStack, w₁, w₂, rfl, rfl, maxLocals, w₃, w₄, rfl, rfl, length, w₅, w₆, rfl, rfl,
    b, w₇, w₈, rfl, rfl, ec, w₉, w₁₀, rfl, rfl, es, w₁₁, w₁₂, rfl, ⟨rfl, hes, -⟩, ac, w₁₃, w₁₄, rfl, rfl, as, w₁₅, w₁₆,
    rfl, ⟨rfl, has, ha⟩, rfl, rfl⟩
  have hb : UInt32.ofNat b.1.length = length := by rw [b.2, UInt32.ofNat_toNat]
  refine ⟨?_, ⟨by rw [b.2]; exact length.toNat_lt, by rw [hes]; exact u2_le_maxCount ec,
    by rw [has]; exact u2_le_maxCount ac, ha⟩⟩
  simp [encodeCodeAttribute, hb, ofNat_of_toNat hes, ofNat_of_toNat has]

theorem length_writeAttribute {a : AttributeInfo} (h : a.WellFormed) :
    (writeAttribute a).length = a.info.length + 6 := by
  simp [writeAttribute, byteBufferBytes, h.symm]
  have : a.info.length = a.attributeLength.toNat := h.symm
  omega

/-- What is known of an attribute that a Code attribute was found to hold: it leaves room for the rest of the
payload. -/
structure NestedAttribute (a : AttributeInfo) : Prop where
  wellFormed : a.WellFormed
  room : a.info.length + 18 < 2 ^ 32

theorem nested_of_encode {code : CodeAttribute} (h : code.WellFormed)
    (hl : (encodeCodeAttribute code).length < 2 ^ 32) :
    ∀ a ∈ code.attributes, NestedAttribute a := by
  intro a ha
  have hw := h.attributes.items a ha
  refine ⟨hw, ?_⟩
  have hmem : (writeAttribute a).length ≤ (code.attributes.flatMap writeAttribute).length := by
    obtain ⟨l₁, l₂, hsplit⟩ := List.append_of_mem ha
    rw [hsplit]
    simp only [List.flatMap_append, List.flatMap_cons, List.length_append]
    omega
  rw [length_writeAttribute hw] at hmem
  simp only [encodeCodeAttribute, List.length_append, length_byteBufferU2, length_byteBufferU4] at hl
  omega

/-- The reader does not ask the latch behind its last two counts, so a payload may end before either of them. What is
read then is empty. -/
theorem codeAttribute_of_parse {attr : AttributeInfo} {code : CodeAttribute}
    (h : codeAttributeParse attr = .ok code) :
    code.code.length < 2 ^ 32 ∧ code.exceptions.length ≤ classfileMaxCount ∧ ∀ a ∈ code.attributes,
      NestedAttribute a := by
  rw [codeAttributeParse, parseAll] at h
  cases hr : readCodeAttribute.run (byteCursorInit attr.payload) with
  | error e => rw [hr] at h; cases h
  | ok x =>
    obtain ⟨code', c⟩ := x
    rw [hr] at h
    simp only at h
    split at h
    · cases h
      obtain ⟨maxStack, c₁, h₁, k₁⟩ := run_bind_ok hr
      obtain ⟨maxLocals, c₂, h₂, k₂⟩ := run_bind_ok k₁
      obtain ⟨length, c₃, h₃, k₃⟩ := run_bind_ok k₂
      obtain ⟨b, c₄, h₄, k₄⟩ := run_bind_ok k₃
      obtain ⟨ec, c₅, h₅, k₅⟩ := run_bind_ok k₄
      obtain ⟨es, c₆, h₆, k₆⟩ := run_bind_ok k₅
      obtain ⟨ac, c₇, h₇, k₇⟩ := run_bind_ok k₆
      obtain ⟨as, c₈, h₈, k₈⟩ := run_bind_ok k₇
      cases k₈
      have hes := length_of_readMany h₆
      have has := length_of_readMany h₈
      refine ⟨by rw [b.2]; exact length.toNat_lt, by rw [hes]; exact u2_le_maxCount ec, ?_⟩
      by_cases hn : ac.toNat = 0
      · obtain rfl : as = [] := List.length_eq_zero_iff.mp (has.trans hn)
        exact fun a ha => absurd ha List.not_mem_nil
      · -- an attribute was read, so the latch is open
        obtain ⟨⟨n', r⟩, hv⟩ := Option.isSome_iff_exists.mp (Checks.many checks_attribute hn _ _ _ h₈)
        obtain ⟨n, w, hv₀, -, rfl, hw⟩ := takes_readCodeAttribute _ _ _ _ _ hr hv
        rw [view_init] at hv₀
        have hpay : attr.payload.length < 2 ^ 32 := by
          have := attr.attributeLength.toNat_lt
          rw [AttributeInfo.payload, List.length_take]
          omega
        refine nested_of_encode hw ?_
        have := congrArg (fun o => o.map fun x => x.2.length) hv₀
        simp only [Option.map_some, Option.some.injEq, List.length_append] at this
        omega
    · cases h

/-! ## Tables -/

theorem reads_readLineNumberEntry (e : LineNumberEntry) (n : Nat) :
    Reads readLineNumberEntry n (writeLineNumberEntry e) e :=
  (reads_u2 _ _).bind ((reads_u2 _ _).last (Reads.pure _ _))

theorem reads_readLocalVariableEntry (e : LocalVariableEntry) (n : Nat) :
    Reads readLocalVariableEntry n (writeLocalVariableEntry e) e :=
  (reads_u2 _ _).bind ((reads_u2 _ _).bind ((reads_u2 _ _).bind ((reads_u2 _ _).bind ((reads_u2 _ _).last
    (Reads.pure _ _)))))

section Tables

variable {α : Type} {p : Parse α} {write : α → Bytes}

theorem growTable_ok {table grown : Option (NamedTable α)} {nested : AttributeInfo}
    (h : growTable p table nested = .ok grown) : ∃ entries,
      grown = some ⟨nested.attributeNameIndex, tableEntries table ++ entries⟩ ∧
        (tableEntries table ++ entries).length ≤ classfileMaxCount := by
  rw [growTable] at h
  cases hr : (readTable p (tableEntries table).length).run (byteCursorInit nested.payload) with
  | error e => rw [hr] at h; cases h
  | ok x =>
    obtain ⟨entries, c⟩ := x
    rw [hr] at h
    cases h
    refine ⟨entries, rfl, ?_⟩
    obtain ⟨count, c₁, -, k₁⟩ := run_bind_ok hr
    obtain ⟨_, c₂, -, k₂⟩ := run_bind_ok k₁
    split at k₂
    · cases k₂
    · obtain ⟨es, c₃, h₃, k₃⟩ := run_bind_ok k₂
      obtain ⟨_, c₄, -, k₄⟩ := run_bind_ok k₃
      cases k₄
      rw [List.length_append, length_of_readMany h₃]
      omega

/-- A table that was written alone under its name is read back. -/
theorem growTable_write (hp : ∀ e n, Reads p n (write e) e) {entries : List α} (hl : entries.length ≤ classfileMaxCount)
    {nested : AttributeInfo} (hn : nested.payload = writeTable write entries) :
    growTable p none nested = .ok (some ⟨nested.attributeNameIndex, entries⟩) := by
  have read : Reads (readTable p 0) 0 (writeTable write entries) entries := by
    refine (reads_u2 _ _).bind ((reads_checkOk _ _).skip ?_)
    rw [u2_length hl, if_neg (by omega)]
    exact (Reads.many fun e _ m => hp e m).last ((reads_checkOk _ _).skip (Reads.pure _ _))
  obtain ⟨c, hc, -⟩ := read (byteCursorInit (writeTable write entries)) [] (by simp)
  simp only [growTable, tableEntries, List.length_nil, hn, hc, List.nil_append]

end Tables

/-! ## Names -/

/-- The attributes that the editor takes apart. -/
def tableNames : List String := ["LineNumberTable", "LocalVariableTable", "LocalVariableTypeTable", "StackMapTable"]

/-- A constant has one text. -/
theorem utf8Equals_of_ne {pool : ConstantPool} {index : UInt16} {name other : Bytes}
    (h : constantPoolUtf8Equals pool index name = true) (hne : name ≠ other) :
    constantPoolUtf8Equals pool index other = false := by
  rw [constantPoolUtf8Equals, beq_iff_eq] at h
  rw [constantPoolUtf8Equals, h]
  simpa using hne

/-- A table of the editor: it is found under its name, and its entries can be counted. -/
structure NamedTable.Ok {α : Type} (pool : ConstantPool) (name : String) (table : NamedTable α) : Prop where
  named : constantPoolUtf8Equals pool table.nameIndex (text name) = true
  count : table.entries.length ≤ classfileMaxCount

/-- An attribute that the editor keeps opaque. -/
structure OtherAttribute (pool : ConstantPool) (a : AttributeInfo) : Prop where
  wellFormed : a.WellFormed
  name : ∀ name ∈ tableNames, constantPoolUtf8Equals pool a.attributeNameIndex (text name) = false

theorem payload_of_wellFormed {a : AttributeInfo} (h : a.WellFormed) : a.payload = a.info :=
  List.take_of_length_le (by rw [h])

/-- The references that a walk over one attribute finds, with `count` references found before. -/
def annotationsIn (pool : ConstantPool) (index count : Nat) (a : AttributeInfo) :
    Except ClassfileStatus (List TypeAnnotationRef) :=
  if typeAnnotationIsCarrier pool a.attributeNameIndex then parseAll (readTypeAnnotationTable index count) a.payload
  else .ok []

/-- The references that a walk over the attributes finds. -/
def annotationsFrom (pool : ConstantPool) : Nat → Nat → List AttributeInfo →
    Except ClassfileStatus (List TypeAnnotationRef)
  | _, _, [] => .ok []
  | index, count, a :: rest => do
    let found ← annotationsIn pool index count a
    let more ← annotationsFrom pool (index + 1) (count + found.length) rest
    return found ++ more

/-- What holds of every editor that was loaded; `slack` more bytes would still fit the length of a StackMapTable. -/
structure CodeEditor.Coherent (pool : ConstantPool) (slack : Nat) (editor : CodeEditor) : Prop where
  instructions : editor.instructions.Laid
  codeLength : editor.instructions.codeLength < 2 ^ 32
  exceptions : editor.exceptions.length ≤ classfileMaxCount
  lineNumbers : ∀ t ∈ editor.lineNumbers, t.Ok pool "LineNumberTable"
  locals : ∀ t ∈ editor.locals, t.Ok pool "LocalVariableTable"
  localTypes : ∀ t ∈ editor.localTypes, t.Ok pool "LocalVariableTypeTable"
  stackMap : ∀ t ∈ editor.stackMap, t.Ok pool "StackMapTable" ∧ ∃ length, FramesRead length t.entries ∧
    length + slack < 2 ^ 32
  others : ∀ a ∈ editor.otherAttributes, OtherAttribute pool a
  othersCount : editor.otherAttributes.length ≤ classfileMaxCount
  annotations : annotationsFrom pool 0 0 editor.otherAttributes = .ok editor.typeAnnotations

theorem CodeEditor.Coherent.weaken {pool : ConstantPool} {slack : Nat} {editor : CodeEditor}
    (h : editor.Coherent pool slack) : editor.Coherent pool 0 :=
  { h with
    stackMap := fun t ht => by
      obtain ⟨hok, length, hread, hroom⟩ := h.stackMap t ht
      exact ⟨hok, length, hread, by omega⟩ }

/-! ## Loading -/

theorem annotationsFrom_snoc {pool : ConstantPool} {a : AttributeInfo} {found : List TypeAnnotationRef} :
    ∀ {l : List AttributeInfo} {index count : Nat} {refs : List TypeAnnotationRef},
    annotationsFrom pool index count l = .ok refs →
    annotationsIn pool (index + l.length) (count + refs.length) a = .ok found →
    annotationsFrom pool index count (l ++ [a]) = .ok (refs ++ found)
  | [], index, count, refs, h, ha => by
    cases h
    simp only [List.length_nil, Nat.add_zero] at ha
    rw [List.nil_append, annotationsFrom, bind_of_ok ha]
    simp [annotationsFrom, bind, Except.bind, pure, Except.pure]
  | b :: l, index, count, refs, h, ha => by
    rw [annotationsFrom] at h
    obtain ⟨first, h₁, h₂⟩ := bind_ok h
    obtain ⟨more, h₃, h₄⟩ := bind_ok h₂
    cases h₄
    have last : annotationsIn pool (index + 1 + l.length) (count + first.length + more.length) a = .ok found := by
      rw [← ha]
      simp only [List.length_cons, List.length_append, Nat.add_assoc, Nat.add_comm 1]
    have next := annotationsFrom_snoc h₃ last
    rw [List.cons_append, annotationsFrom, bind_of_ok h₁, bind_of_ok next]
    simp [pure, Except.pure]

theorem listAppend_ok {α : Type} {list appended : List α} {item : α} (h : listAppend list item = .ok appended) :
    appended = list ++ [item] ∧ list.length ≠ classfileMaxCount := by
  rw [listAppend] at h
  split at h
  · cases h
  · cases h
    exact ⟨rfl, ‹_›⟩

theorem loadOther_coherent {pool : ConstantPool} {editor next : CodeEditor} {nested : AttributeInfo}
    (hc : editor.Coherent pool 18) (hn : OtherAttribute pool nested) (h : loadOther pool editor nested = .ok next) :
    next.Coherent pool 18 := by
  have hpay := payload_of_wellFormed hn.wellFormed
  have hcount := hc.othersCount
  obtain ⟨others, ho, h₁⟩ := bind_ok h
  obtain ⟨rfl, hlen⟩ := listAppend_ok ho
  simp only [hpay] at h₁
  have hothers : ∀ a ∈ editor.otherAttributes ++ [nested], OtherAttribute pool a := by
    intro a ha
    rcases List.mem_append.mp ha with ha | ha
    · exact hc.others a ha
    · rw [List.mem_singleton.mp ha]
      exact hn
  have hlen' : (editor.otherAttributes ++ [nested]).length ≤ classfileMaxCount := by
    rw [List.length_append, List.length_singleton]
    omega
  split at h₁
  · rename_i hcar
    obtain ⟨refs, hr, h₂⟩ := bind_ok h₁
    obtain ⟨found, hfound, h₃⟩ := bind_ok hr
    cases h₃
    cases h₂
    refine { hc with others := hothers, othersCount := hlen', annotations := ?_ }
    refine annotationsFrom_snoc hc.annotations ?_
    rw [annotationsIn, if_pos hcar, Nat.zero_add, Nat.zero_add]
    exact hfound
  · rename_i hcar
    cases h₁
    refine { hc with others := hothers, othersCount := hlen', annotations := ?_ }
    have none : annotationsIn pool (0 + editor.otherAttributes.length)
      (0 + editor.typeAnnotations.length) nested = .ok [] := by
      rw [annotationsIn, if_neg hcar]
    simpa using annotationsFrom_snoc hc.annotations none

theorem loadAttribute_coherent {pool : ConstantPool} {editor next : CodeEditor} {nested : AttributeInfo}
    (hc : editor.Coherent pool 18) (hn : NestedAttribute nested) (h : loadAttribute pool editor nested = .ok next) :
    next.Coherent pool 18 := by
  unfold loadAttribute at h
  dsimp only at h
  split at h
  case isTrue hname =>
    obtain ⟨table, ht, h₁⟩ := bind_ok h
    cases h₁
    obtain ⟨entries, rfl, hl⟩ := growTable_ok ht
    exact { hc with lineNumbers := by rintro t ⟨⟩; exact ⟨hname, hl⟩ }
  rename_i h₁
  split at h
  case isTrue hname =>
    obtain ⟨table, ht, h₁⟩ := bind_ok h
    cases h₁
    obtain ⟨entries, rfl, hl⟩ := growTable_ok ht
    exact { hc with locals := by rintro t ⟨⟩; exact ⟨hname, hl⟩ }
  rename_i h₂
  split at h
  case isTrue hname =>
    obtain ⟨table, ht, h₁⟩ := bind_ok h
    cases h₁
    obtain ⟨entries, rfl, hl⟩ := growTable_ok ht
    exact { hc with localTypes := by rintro t ⟨⟩; exact ⟨hname, hl⟩ }
  rename_i h₃
  split at h
  case isTrue hname =>
    split at h
    · cases h
    · obtain ⟨frames, hf, h₄⟩ := bind_ok h
      cases h₄
      have read := framesRead_of_parse hf
      refine { hc with stackMap := ?_ }
      rintro t ⟨⟩
      exact ⟨⟨hname, read.count⟩, _, read, by rw [payload_of_wellFormed hn.wellFormed]; exact hn.room⟩
  rename_i h₄
  refine loadOther_coherent hc ⟨hn.wellFormed, fun name hmem => ?_⟩ h
  simp only [tableNames, List.mem_cons, List.not_mem_nil, or_false] at hmem
  rcases hmem with rfl | rfl | rfl | rfl
  · simpa using h₁
  · simpa using h₂
  · simpa using h₃
  · simpa using h₄

theorem loadAttributes_coherent {pool : ConstantPool} :
    ∀ {attributes : List AttributeInfo} {editor loaded : CodeEditor}, editor.Coherent pool 18 →
      (∀ a ∈ attributes, NestedAttribute a) →
    loadAttributes pool editor attributes = .ok loaded → loaded.Coherent pool 18
  | [], editor, loaded, hc, _, h => by cases h; exact hc
  | a :: rest, editor, loaded, hc, hn, h => by
    obtain ⟨next, h₁, h₂⟩ := bind_ok h
    exact loadAttributes_coherent (loadAttribute_coherent hc (hn a List.mem_cons_self) h₁)
      (fun b hb => hn b (List.mem_cons_of_mem a hb)) h₂

/-- Every editor that was loaded is coherent. -/
theorem coherent_of_load {pool : ConstantPool} {code : AttributeInfo} {editor : CodeEditor}
    (h : codeEditorLoad code pool = .ok editor) : editor.Coherent pool 18 := by
  obtain ⟨parsed, hp, h₁⟩ := bind_ok h
  obtain ⟨instructions, hi, h₂⟩ := bind_ok h₁
  obtain ⟨hlen, he, ha⟩ := codeAttribute_of_parse hp
  obtain ⟨hlaid, hcode⟩ := laid_of_parse hi
  refine loadAttributes_coherent ?_ ha h₂
  exact {
    instructions := hlaid
    codeLength := by rw [hcode]; exact hlen
    exceptions := he
    lineNumbers := by rintro t ⟨⟩
    locals := by rintro t ⟨⟩
    localTypes := by rintro t ⟨⟩
    stackMap := by rintro t ⟨⟩
    others := fun a ha => absurd ha List.not_mem_nil
    othersCount := Nat.zero_le _
    annotations := rfl }

/-! ## Storing -/

theorem takeBuffer_ok {nameIndex : UInt16} {payload : Bytes} {attr : AttributeInfo}
    (h : takeBuffer nameIndex payload = .ok attr) : attr = attributeInfoOf nameIndex payload ∧ attr.WellFormed := by
  rw [takeBuffer] at h
  split at h
  · cases h
  · cases h
    refine ⟨rfl, ?_⟩
    rw [AttributeInfo.WellFormed, attributeInfoOf, UInt32.toNat_ofNat', Nat.mod_eq_of_lt (by omega)]

/-- What a step of the storing appends: at most one attribute. -/
structure Appended (attributes stored added : List AttributeInfo) : Prop where
  eq : stored = attributes ++ added
  count : attributes.length ≤ classfileMaxCount → stored.length ≤ classfileMaxCount
  wellFormed : ∀ a ∈ added, a.WellFormed

theorem appended_nil (attributes : List AttributeInfo) : Appended attributes attributes [] :=
  ⟨(List.append_nil _).symm, id, fun _ ha => absurd ha List.not_mem_nil⟩

theorem appended_one {attributes : List AttributeInfo} {a : AttributeInfo} (hl : attributes.length ≠ classfileMaxCount)
    (ha : a.WellFormed) : Appended attributes (attributes ++ [a]) [a] := by
  refine ⟨rfl, fun h => ?_, fun b hb => ?_⟩
  · rw [List.length_append, List.length_singleton]
    omega
  · rw [List.mem_singleton.mp hb]
    exact ha

theorem Appended.trans {l₁ l₂ l₃ a₁ a₂ : List AttributeInfo} (h₁ : Appended l₁ l₂ a₁) (h₂ : Appended l₂ l₃ a₂) :
    Appended l₁ l₃ (a₁ ++ a₂) := by
  refine ⟨by rw [h₂.eq, h₁.eq, List.append_assoc], fun h => h₂.count (h₁.count h), fun a ha => ?_⟩
  rcases List.mem_append.mp ha with ha | ha
  · exact h₁.wellFormed a ha
  · exact h₂.wellFormed a ha

/-- A table that is there is stored as one attribute of its name. -/
def StoredAs {α : Type} (holds : AttributeInfo → NamedTable α → Prop) :
    Option (NamedTable α) → List AttributeInfo → Prop
  | none, added => added = []
  | some t, added => ∃ a, added = [a] ∧ a.attributeNameIndex = t.nameIndex ∧ holds a t

/-- The attribute holds the entries of a table. -/
def HoldsTable {α : Type} (write : α → Bytes) (a : AttributeInfo) (t : NamedTable α) : Prop :=
  a.payload = writeTable write t.entries

/-- The attribute holds the frames of a table as they are written, which is up to their form as they were. -/
def HoldsFrames (a : AttributeInfo) (t : NamedTable StackMapFrame) : Prop :=
  stackMapTableWrite t.entries t.nameIndex = .ok a ∧
    ∃ back, stackMapTableParse a = .ok back ∧ back.map StackMapFrame.content = t.entries.map StackMapFrame.content

section StoreTables

variable {α : Type} {write : α → Bytes}

theorem storeTable_ok {table : Option (NamedTable α)} {attributes stored : List AttributeInfo}
    (h : storeTable write table attributes = .ok stored) : ∃ added, Appended attributes stored added ∧
      StoredAs (HoldsTable write) table added := by
  cases table with
  | none =>
    cases h
    exact ⟨[], appended_nil _, rfl⟩
  | some t =>
    rw [storeTable] at h
    split at h
    · cases h
    · rename_i hl
      obtain ⟨a, ha, h₁⟩ := bind_ok h
      cases h₁
      obtain ⟨rfl, hw⟩ := takeBuffer_ok ha
      exact ⟨_, appended_one hl hw, _, rfl, rfl, payload_of_wellFormed hw⟩

end StoreTables

theorem storeStackMap_ok {pool : ConstantPool} {table : Option (NamedTable StackMapFrame)}
    {attributes stored : List AttributeInfo} (ht : ∀ t ∈ table, t.Ok pool "StackMapTable" ∧
      ∃ length, FramesRead length t.entries ∧ length + 0 < 2 ^ 32) (h : storeStackMap table attributes = .ok stored) :
    ∃ added, Appended attributes stored added ∧ StoredAs HoldsFrames table added := by
  cases table with
  | none =>
    cases h
    exact ⟨[], appended_nil _, rfl⟩
  | some t =>
    rw [storeStackMap] at h
    split at h
    · cases h
    · rename_i hl
      obtain ⟨a, ha, h₁⟩ := bind_ok h
      cases h₁
      obtain ⟨-, length, hf, hlen⟩ := ht t rfl
      obtain ⟨hname, hw, hback⟩ := stackMapTable_write_parse ha hf (by omega)
      exact ⟨_, appended_one hl hw.symm, a, rfl, hname, ha, hback⟩

theorem storeOthers_ok : ∀ {others attributes stored : List AttributeInfo}, (∀ a ∈ others, a.WellFormed) →
    storeOthers others attributes = .ok stored → Appended attributes stored others
  | [], attributes, stored, _, h => by cases h; exact appended_nil _
  | a :: rest, attributes, stored, hw, h => by
    obtain ⟨next, h₁, h₂⟩ := bind_ok h
    obtain ⟨rfl, hl⟩ := listAppend_ok h₁
    have ha := hw a List.mem_cons_self
    rw [payload_of_wellFormed ha] at h₂
    exact (appended_one hl ha).trans (storeOthers_ok (fun b hb => hw b (List.mem_cons_of_mem a hb)) h₂)

/-- What the storing of an editor writes: each table as one attribute, and the opaque attributes as they are. -/
theorem storeAttributes_ok {pool : ConstantPool} {editor : CodeEditor} {attributes : List AttributeInfo}
    (hc : editor.Coherent pool 0) (h : storeAttributes editor = .ok attributes) :
    ∃ a₁ a₂ a₃ a₄, attributes = a₁ ++ (a₂ ++ (a₃ ++ (a₄ ++ editor.otherAttributes))) ∧
      AttributesWellFormed attributes ∧ StoredAs (HoldsTable writeLineNumberEntry) editor.lineNumbers a₁ ∧
      StoredAs (HoldsTable writeLocalVariableEntry) editor.locals a₂ ∧
      StoredAs (HoldsTable writeLocalVariableEntry) editor.localTypes a₃ ∧ StoredAs HoldsFrames editor.stackMap a₄ := by
  obtain ⟨l₁, s₁, k₁⟩ := bind_ok h
  obtain ⟨l₂, s₂, k₂⟩ := bind_ok k₁
  obtain ⟨l₃, s₃, k₃⟩ := bind_ok k₂
  obtain ⟨l₄, s₄, s₅⟩ := bind_ok k₃
  obtain ⟨a₁, ap₁, t₁⟩ := storeTable_ok s₁
  obtain ⟨a₂, ap₂, t₂⟩ := storeTable_ok s₂
  obtain ⟨a₃, ap₃, t₃⟩ := storeTable_ok s₃
  obtain ⟨a₄, ap₄, t₄⟩ := storeStackMap_ok hc.stackMap s₄
  have all := (((ap₁.trans ap₂).trans ap₃).trans ap₄).trans
    (storeOthers_ok (fun a ha => (hc.others a ha).wellFormed) s₅)
  refine ⟨a₁, a₂, a₃, a₄, by rw [all.eq]; simp, ⟨all.count (Nat.zero_le _), fun a ha => ?_⟩, t₁, t₂, t₃, t₄⟩
  rw [all.eq, List.nil_append] at ha
  exact all.wellFormed a ha

/-! ## Loading what was stored -/

theorem loadAttributes_append {pool : ConstantPool} {l₂ : List AttributeInfo} :
    ∀ {l₁ : List AttributeInfo} {editor next : CodeEditor}, loadAttributes pool editor l₁ = .ok next →
    loadAttributes pool editor (l₁ ++ l₂) = loadAttributes pool next l₂
  | [], editor, next, h => by cases h; rfl
  | a :: rest, editor, next, h => by
    obtain ⟨first, h₁, h₂⟩ := bind_ok h
    rw [List.cons_append, loadAttributes, bind_of_ok h₁]
    exact loadAttributes_append h₂

theorem loadAttributes_one {pool : ConstantPool} {a : AttributeInfo} {editor next : CodeEditor}
    (h : loadAttribute pool editor a = .ok next) : loadAttributes pool editor [a] = .ok next := by
  rw [loadAttributes, bind_of_ok h]
  rfl

/-! What the loop does with an attribute of each name. -/

section Named

variable {pool : ConstantPool} {editor : CodeEditor} {a : AttributeInfo}

theorem loadAttribute_lineNumbers
    (h : constantPoolUtf8Equals pool a.attributeNameIndex (text "LineNumberTable") = true) :
    loadAttribute pool editor a =
      (growTable readLineNumberEntry editor.lineNumbers a >>= fun t => .ok { editor with lineNumbers := t }) := by
  unfold loadAttribute
  dsimp only
  rw [if_pos h]
  rfl

theorem loadAttribute_locals (h : constantPoolUtf8Equals pool a.attributeNameIndex (text "LocalVariableTable") = true) :
    loadAttribute pool editor a =
      (growTable readLocalVariableEntry editor.locals a >>= fun t => .ok { editor with locals := t }) := by
  unfold loadAttribute
  dsimp only
  rw [if_neg (by simp [utf8Equals_of_ne h (by decide +kernel : _ ≠ text "LineNumberTable")]), if_pos h]
  rfl

theorem loadAttribute_localTypes
    (h : constantPoolUtf8Equals pool a.attributeNameIndex (text "LocalVariableTypeTable") = true) :
    loadAttribute pool editor a =
      (growTable readLocalVariableEntry editor.localTypes a >>= fun t => .ok { editor with localTypes := t }) := by
  unfold loadAttribute
  dsimp only
  rw [if_neg (by simp [utf8Equals_of_ne h (by decide +kernel : _ ≠ text "LineNumberTable")]),
    if_neg (by simp [utf8Equals_of_ne h (by decide +kernel : _ ≠ text "LocalVariableTable")]), if_pos h]
  rfl

theorem loadAttribute_stackMap (h : constantPoolUtf8Equals pool a.attributeNameIndex (text "StackMapTable") = true)
    (hnone : editor.stackMap = none) : loadAttribute pool editor a =
      (stackMapTableParse a >>= fun frames => .ok { editor with stackMap := some ⟨a.attributeNameIndex, frames⟩ }) := by
  unfold loadAttribute
  dsimp only
  rw [if_neg (by simp [utf8Equals_of_ne h (by decide +kernel : _ ≠ text "LineNumberTable")]),
    if_neg (by simp [utf8Equals_of_ne h (by decide +kernel : _ ≠ text "LocalVariableTable")]),
    if_neg (by simp [utf8Equals_of_ne h (by decide +kernel : _ ≠ text "LocalVariableTypeTable")]), if_pos h, hnone]
  rfl

end Named

section LoadStored

variable {pool : ConstantPool} {editor : CodeEditor} {added : List AttributeInfo}

/-- A table that was stored is put back by the step for its name. -/
theorem load_table {α : Type} {p : Parse α} {write : α → Bytes} {name : String}
    (hp : ∀ e n, Reads p n (write e) e) (put : Option (NamedTable α) → CodeEditor) (hput : put none = editor)
    (hstep : ∀ a : AttributeInfo, constantPoolUtf8Equals pool a.attributeNameIndex (text name) = true →
      loadAttribute pool editor a = (growTable p none a >>= fun t => .ok (put t)))
    {table : Option (NamedTable α)} (ht : ∀ t ∈ table, t.Ok pool name)
    (hadd : StoredAs (HoldsTable write) table added) :
    loadAttributes pool editor added = .ok (put table) := by
  cases table with
  | none =>
    cases hadd
    rw [hput]
    rfl
  | some t =>
    obtain ⟨a, rfl, hname, hpay⟩ := hadd
    obtain ⟨hnamed, hcount⟩ := ht t rfl
    rw [← hname] at hnamed
    refine loadAttributes_one ?_
    rw [hstep a hnamed, bind_of_ok (growTable_write hp hcount hpay), hname]

theorem load_lineNumbers {table : Option (NamedTable LineNumberEntry)} (ht : ∀ t ∈ table, t.Ok pool "LineNumberTable")
    (hadd : StoredAs (HoldsTable writeLineNumberEntry) table added) (hnone : editor.lineNumbers = none) :
    loadAttributes pool editor added = .ok { editor with lineNumbers := table } := by
  refine load_table reads_readLineNumberEntry (fun t => { editor with lineNumbers := t }) (by rw [← hnone])
    (fun a h => ?_) ht hadd
  rw [loadAttribute_lineNumbers h, hnone]

theorem load_locals {table : Option (NamedTable LocalVariableEntry)} (ht : ∀ t ∈ table, t.Ok pool "LocalVariableTable")
    (hadd : StoredAs (HoldsTable writeLocalVariableEntry) table added) (hnone : editor.locals = none) :
    loadAttributes pool editor added = .ok { editor with locals := table } := by
  refine load_table reads_readLocalVariableEntry (fun t => { editor with locals := t }) (by rw [← hnone])
    (fun a h => ?_) ht hadd
  rw [loadAttribute_locals h, hnone]

theorem load_localTypes {table : Option (NamedTable LocalVariableEntry)}
    (ht : ∀ t ∈ table, t.Ok pool "LocalVariableTypeTable")
    (hadd : StoredAs (HoldsTable writeLocalVariableEntry) table added) (hnone : editor.localTypes = none) :
    loadAttributes pool editor added = .ok { editor with localTypes := table } := by
  refine load_table reads_readLocalVariableEntry (fun t => { editor with localTypes := t }) (by rw [← hnone])
    (fun a h => ?_) ht hadd
  rw [loadAttribute_localTypes h, hnone]

/-- The same frames up to the form they are written in. -/
def SameFrames (table table' : Option (NamedTable StackMapFrame)) : Prop :=
  table.map (fun t => (t.nameIndex, t.entries.map StackMapFrame.content)) =
    table'.map fun t => (t.nameIndex, t.entries.map StackMapFrame.content)

/-- The frames that are read back from a table as it is written. -/
def Rewritten (table table' : Option (NamedTable StackMapFrame)) : Prop :=
  ∀ t ∈ table, ∃ a back, stackMapTableWrite t.entries t.nameIndex = .ok a ∧ stackMapTableParse a = .ok back ∧
    table' = some ⟨t.nameIndex, back⟩

theorem load_stackMap {slack : Nat} {table : Option (NamedTable StackMapFrame)}
    (ht : ∀ t ∈ table, t.Ok pool "StackMapTable" ∧ ∃ length, FramesRead length t.entries ∧ length + slack < 2 ^ 32)
    (hadd : StoredAs HoldsFrames table added)
    (hnone : editor.stackMap = none) :
    ∃ table', loadAttributes pool editor added = .ok { editor with stackMap := table' } ∧ SameFrames table' table ∧
      Rewritten table table' := by
  cases table with
  | none =>
    cases hadd
    refine ⟨none, ?_, rfl, fun t ht => by cases ht⟩
    rw [← hnone]
    rfl
  | some t =>
    obtain ⟨a, rfl, hname, hwrite, back, hparse, hback⟩ := hadd
    obtain ⟨⟨hnamed, hcount⟩, -⟩ := ht t rfl
    rw [← hname] at hnamed
    refine ⟨some ⟨t.nameIndex, back⟩, loadAttributes_one ?_, by simp [SameFrames, hback], ?_⟩
    · rw [loadAttribute_stackMap hnamed hnone, bind_of_ok hparse, hname]
    · intro t' ht'
      cases ht'
      exact ⟨a, back, hwrite, hparse, rfl⟩

end LoadStored

theorem loadAttribute_other {pool : ConstantPool} {editor : CodeEditor} {a : AttributeInfo}
    (h : OtherAttribute pool a) :
    loadAttribute pool editor a = loadOther pool editor a := by
  have hname := h.name
  simp only [tableNames, List.mem_cons, List.not_mem_nil, or_false, forall_eq_or_imp, forall_eq] at hname
  simp [loadAttribute, hname]

theorem load_others {pool : ConstantPool} : ∀ {others : List AttributeInfo} {editor : CodeEditor}
    {refs : List TypeAnnotationRef}, (∀ a ∈ others, OtherAttribute pool a) →
    (editor.otherAttributes ++ others).length ≤ classfileMaxCount →
    annotationsFrom pool editor.otherAttributes.length editor.typeAnnotations.length others = .ok refs →
    loadAttributes pool editor others = .ok { editor with
      otherAttributes := editor.otherAttributes ++ others, typeAnnotations := editor.typeAnnotations ++ refs }
  | [], editor, refs, _, _, h => by
    cases h
    simp [loadAttributes]
  | a :: rest, editor, refs, ho, hl, h => by
    rw [annotationsFrom] at h
    obtain ⟨found, h₁, h₂⟩ := bind_ok h
    obtain ⟨more, h₃, h₄⟩ := bind_ok h₂
    cases h₄
    have ha := ho a List.mem_cons_self
    have hlen : listAppend editor.otherAttributes a = .ok (editor.otherAttributes ++ [a]) := by
      rw [listAppend, if_neg]
      simp only [List.length_append, List.length_cons] at hl
      omega
    have one : loadAttribute pool editor a = .ok { editor with
        otherAttributes := editor.otherAttributes ++ [a], typeAnnotations := editor.typeAnnotations ++ found } := by
      rw [loadAttribute_other ha]
      unfold loadOther
      simp only [payload_of_wellFormed ha.wellFormed]
      rw [bind_of_ok hlen]
      rw [annotationsIn] at h₁
      split
      · rename_i hcar
        rw [if_pos hcar] at h₁
        rw [typeAnnotationCollect, bind_of_ok h₁]
        rfl
      · rename_i hcar
        rw [if_neg hcar] at h₁
        cases h₁
        simp [pure, Except.pure]
    rw [loadAttributes, bind_of_ok one,
      @load_others pool rest _ more (fun b hb => ho b (List.mem_cons_of_mem a hb)) (by simpa using hl)
        (by simpa using h₃)]
    simp

/-- **What is stored is loaded**: a coherent editor that can be stored is loaded again as it is, up to the form of its
stack map frames. -/
theorem load_of_store {pool : ConstantPool} {editor : CodeEditor} {code stored : AttributeInfo}
    (hc : editor.Coherent pool 0) (h : codeEditorStore editor code = .ok stored) :
    ∃ frames, codeEditorLoad stored pool = .ok { editor with stackMap := frames } ∧
      SameFrames frames editor.stackMap ∧ Rewritten editor.stackMap frames := by
  obtain ⟨bytecode, hb, h₁⟩ := bind_ok h
  obtain ⟨attributes, hattrs, h₂⟩ := bind_ok h₁
  obtain ⟨a₁, a₂, a₃, a₄, hall, hallwf, t₁, t₂, t₃, t₄⟩ := storeAttributes_ok hc hattrs
  obtain ⟨hparse, hlen⟩ := parse_of_encode hc.instructions hb
  have hmax := (instructionListEncode_cases hb).2
  obtain ⟨rfl, hw⟩ := takeBuffer_ok h₂
  have wellFormed : CodeAttribute.WellFormed
      ⟨editor.maxStack, editor.maxLocals, bytecode, editor.exceptions, attributes⟩ := by
    refine ⟨?_, hc.exceptions, hallwf⟩
    unfold jvmMaxCodeLength at hmax
    dsimp only
    omega
  have read : codeAttributeParse (attributeInfoOf code.attributeNameIndex (encodeCodeAttribute
      ⟨editor.maxStack, editor.maxLocals, bytecode, editor.exceptions, attributes⟩)) =
      .ok ⟨editor.maxStack, editor.maxLocals, bytecode, editor.exceptions, attributes⟩ := by
    rw [codeAttributeParse, payload_of_wellFormed hw]
    exact parseAll_of_reads (reads_readCodeAttribute wellFormed 0)
  let tables (frames : Option (NamedTable StackMapFrame)) : CodeEditor :=
    { editor with stackMap := frames, otherAttributes := [], typeAnnotations := [] }
  obtain ⟨frames, load₄, same, rewritten⟩ := @load_stackMap pool (tables none) a₄ 0 _ hc.stackMap t₄ rfl
  refine ⟨frames, ?_, same, rewritten⟩
  rw [codeEditorLoad, bind_of_ok read, bind_of_ok hparse, hall,
    loadAttributes_append (load_lineNumbers hc.lineNumbers t₁ rfl),
    loadAttributes_append (load_locals hc.locals t₂ rfl), loadAttributes_append (load_localTypes hc.localTypes t₃ rfl),
    loadAttributes_append load₄]
  exact @load_others pool _ (tables frames) _ hc.others hc.othersCount hc.annotations

/-! ## The code of what was stored -/

/-- An attribute with at least as many bytes as its length says. -/
def AttributeInfo.Backed (a : AttributeInfo) : Prop := a.attributeLength.toNat ≤ a.info.length

/-- An attribute as it is written. -/
def AttributeInfo.cut (a : AttributeInfo) : AttributeInfo := { a with info := a.payload }

theorem AttributeInfo.WellFormed.backed {a : AttributeInfo} (h : a.WellFormed) : a.Backed := Nat.le_of_eq h

theorem backed_attributeInfoOf (nameIndex : UInt16) (payload : Bytes) : (attributeInfoOf nameIndex payload).Backed := by
  rw [AttributeInfo.Backed, attributeInfoOf, UInt32.toNat_ofNat']
  exact Nat.mod_le _ _

theorem AttributeInfo.Backed.cut {a : AttributeInfo} (h : a.Backed) : a.cut.WellFormed := by
  rw [AttributeInfo.WellFormed, AttributeInfo.cut, AttributeInfo.payload, List.length_take]
  exact (Nat.min_eq_left h).symm

theorem writeAttribute_cut (a : AttributeInfo) : writeAttribute a.cut = writeAttribute a := by
  simp only [writeAttribute, AttributeInfo.cut, AttributeInfo.payload, byteBufferBytes, List.take_take, Nat.min_self]

/-- What is stored has all the bytes its lengths name, whatever the size of the stack map. -/
theorem storeAttributes_backed {editor : CodeEditor} {attributes : List AttributeInfo}
    (hothers : ∀ a ∈ editor.otherAttributes, a.WellFormed) (h : storeAttributes editor = .ok attributes) :
    attributes.length ≤ classfileMaxCount ∧ ∀ a ∈ attributes, a.Backed := by
  obtain ⟨l₁, s₁, k₁⟩ := bind_ok h
  obtain ⟨l₂, s₂, k₂⟩ := bind_ok k₁
  obtain ⟨l₃, s₃, k₃⟩ := bind_ok k₂
  obtain ⟨l₄, s₄, s₅⟩ := bind_ok k₃
  obtain ⟨a₁, ap₁, -⟩ := storeTable_ok s₁
  obtain ⟨a₂, ap₂, -⟩ := storeTable_ok s₂
  obtain ⟨a₃, ap₃, -⟩ := storeTable_ok s₃
  have tables := (ap₁.trans ap₂).trans ap₃
  have others := storeOthers_ok hothers s₅
  have htables : l₃.length ≤ classfileMaxCount ∧ ∀ a ∈ l₃, a.Backed := by
    refine ⟨tables.count (Nat.zero_le _), fun a ha => ?_⟩
    rw [tables.eq, List.nil_append] at ha
    exact (tables.wellFormed a ha).backed
  have hframes : l₄.length ≤ classfileMaxCount ∧ ∀ a ∈ l₄, a.Backed := by
    cases htable : editor.stackMap with
    | none =>
      rw [htable] at s₄
      cases s₄
      exact htables
    | some t =>
      rw [htable, storeStackMap] at s₄
      split at s₄
      · cases s₄
      · rename_i hl
        obtain ⟨a, ha, hone⟩ := bind_ok s₄
        obtain ⟨w, -, hw⟩ := bind_ok ha
        cases hw
        cases hone
        refine ⟨by rw [List.length_append, List.length_singleton]; omega, fun b hb => ?_⟩
        rcases List.mem_append.mp hb with hb | hb
        · exact htables.2 b hb
        · rw [List.mem_singleton.mp hb]
          exact backed_attributeInfoOf _ _
  refine ⟨others.count hframes.1, fun a ha => ?_⟩
  rw [others.eq] at ha
  rcases List.mem_append.mp ha with ha | ha
  · exact hframes.2 a ha
  · exact (others.wellFormed a ha).backed

/-- The code and the handlers of what is stored are those of the editor, whatever the size of the stack map. -/
theorem codeAttributeParse_of_store {editor : CodeEditor} {code stored : AttributeInfo}
    (hexceptions : editor.exceptions.length ≤ classfileMaxCount)
    (hothers : ∀ a ∈ editor.otherAttributes, a.WellFormed) (h : codeEditorStore editor code = .ok stored) :
    ∃ bytecode attributes, instructionListEncode editor.instructions = .ok bytecode ∧
      storeAttributes editor = .ok attributes ∧ stored.attributeNameIndex = code.attributeNameIndex ∧
      codeAttributeParse stored =
        .ok ⟨editor.maxStack, editor.maxLocals, bytecode, editor.exceptions, attributes.map (·.cut)⟩ := by
  obtain ⟨bytecode, hb, h₁⟩ := bind_ok h
  obtain ⟨attributes, hattrs, h₂⟩ := bind_ok h₁
  obtain ⟨hcount, hbacked⟩ := storeAttributes_backed hothers hattrs
  obtain ⟨rfl, hw⟩ := takeBuffer_ok h₂
  have hmax := (instructionListEncode_cases hb).2
  have wellFormed : CodeAttribute.WellFormed
      ⟨editor.maxStack, editor.maxLocals, bytecode, editor.exceptions, attributes.map (·.cut)⟩ := by
    refine ⟨?_, hexceptions, by simpa using hcount, fun a ha => ?_⟩
    · unfold jvmMaxCodeLength at hmax
      dsimp only
      omega
    · obtain ⟨b, hmem, rfl⟩ := List.mem_map.mp ha
      exact (hbacked b hmem).cut
  have written : encodeCodeAttribute ⟨editor.maxStack, editor.maxLocals, bytecode, editor.exceptions, attributes⟩ =
      encodeCodeAttribute
        ⟨editor.maxStack, editor.maxLocals, bytecode, editor.exceptions, attributes.map (·.cut)⟩ := by
    simp only [encodeCodeAttribute, List.length_map, List.flatMap_map, writeAttribute_cut]
  refine ⟨bytecode, attributes, hb, hattrs, rfl, ?_⟩
  rw [codeAttributeParse, payload_of_wellFormed hw]
  show parseAll readCodeAttribute (encodeCodeAttribute _) = _
  rw [written]
  exact parseAll_of_reads (reads_readCodeAttribute wellFormed 0)

end Jni2Hook
