import Jni2Hook.Code.EditorRoundTrip
import Jni2Hook.Code.InstructionBytes

/-!
# Loading and storing a body loses nothing

* `stackMapTable_parse_write`: a table that was parsed is written to the bytes it was read from.
* `reload_untouched`: an editor that is stored as it was loaded is loaded again as it is.
* `CanonicalBody`, `stored_payload_eq`: a body in the order in which the editor stores is stored byte by byte.
-/

namespace Jni2Hook

open Lib

/-! ## Frames, byte by byte -/

/-- A table that was parsed is written as it was. -/
theorem stackMapTable_parse_write {attr : AttributeInfo} {frames : List StackMapFrame}
    (hparse : stackMapTableParse attr = .ok frames) (nameIndex : UInt16) :
    stackMapTableWrite frames nameIndex = .ok (attributeInfoOf nameIndex attr.payload) := by
  obtain ⟨-, -, bytes, hwrite, hpayload⟩ := takes_of_parseAll bytes_readStackMapTable checks_readStackMapTable hparse
  rw [stackMapTableWrite, hwrite, hpayload]
  rfl

/-! ## An untouched editor -/

/-- The frames of the editor come from an attribute. -/
def FramesParsed (table : Option (NamedTable StackMapFrame)) : Prop :=
  ∀ t ∈ table, ∃ a : AttributeInfo, a.WellFormed ∧ stackMapTableParse a = .ok t.entries

theorem loadOther_ok {pool : ConstantPool} {editor next : CodeEditor} {a : AttributeInfo} (ha : a.WellFormed)
    (h : loadOther pool editor a = .ok next) :
    ∃ refs, next = { editor with otherAttributes := editor.otherAttributes ++ [a], typeAnnotations := refs } := by
  obtain ⟨others, ho, h₁⟩ := bind_ok h
  obtain ⟨rfl, -⟩ := listAppend_ok ho
  simp only [payload_of_wellFormed ha] at h₁
  split at h₁
  · obtain ⟨refs, hr, h₂⟩ := bind_ok h₁
    cases h₂
    exact ⟨refs, rfl⟩
  · cases h₁
    exact ⟨_, rfl⟩

theorem loadAttribute_framesParsed {pool : ConstantPool} {editor next : CodeEditor} {a : AttributeInfo}
    (hf : FramesParsed editor.stackMap) (ha : a.WellFormed) (h : loadAttribute pool editor a = .ok next) :
    FramesParsed next.stackMap := by
  unfold loadAttribute at h
  dsimp only at h
  split at h
  · obtain ⟨t, -, h₁⟩ := bind_ok h
    cases h₁
    exact hf
  split at h
  · obtain ⟨t, -, h₁⟩ := bind_ok h
    cases h₁
    exact hf
  split at h
  · obtain ⟨t, -, h₁⟩ := bind_ok h
    cases h₁
    exact hf
  split at h
  · split at h
    · cases h
    · obtain ⟨frames, hparse, h₁⟩ := bind_ok h
      cases h₁
      intro t ht
      cases ht
      exact ⟨a, ha, hparse⟩
  · obtain ⟨refs, rfl⟩ := loadOther_ok ha h
    exact hf

theorem loadAttributes_framesParsed {pool : ConstantPool} : ∀ {attributes : List AttributeInfo}
    {editor loaded : CodeEditor}, FramesParsed editor.stackMap → (∀ a ∈ attributes, a.WellFormed) →
    loadAttributes pool editor attributes = .ok loaded → FramesParsed loaded.stackMap
  | [], editor, loaded, hf, _, h => by cases h; exact hf
  | a :: rest, editor, loaded, hf, hw, h => by
    obtain ⟨next, h₁, h₂⟩ := bind_ok h
    exact loadAttributes_framesParsed (loadAttribute_framesParsed hf (hw a List.mem_cons_self) h₁)
      (fun b hb => hw b (List.mem_cons_of_mem a hb)) h₂

theorem framesParsed_of_load {pool : ConstantPool} {code : AttributeInfo} {editor : CodeEditor}
    (h : codeEditorLoad code pool = .ok editor) : FramesParsed editor.stackMap := by
  obtain ⟨parsed, hp, h₁⟩ := bind_ok h
  obtain ⟨instructions, -, h₂⟩ := bind_ok h₁
  obtain ⟨-, -, ha⟩ := codeAttribute_of_parse hp
  exact loadAttributes_framesParsed (by intro t ht; cases ht) (fun a hmem => (ha a hmem).wellFormed) h₂

/-- A StackMapTable that was parsed is written as it was, up to its name. -/
theorem stackMapTableWrite_parsed {a stored : AttributeInfo} {frames : List StackMapFrame} {nameIndex : UInt16}
    (ha : a.WellFormed) (hparse : stackMapTableParse a = .ok frames)
    (hwrite : stackMapTableWrite frames nameIndex = .ok stored) :
    stored = { a with attributeNameIndex := nameIndex } := by
  rw [stackMapTable_parse_write hparse, Except.ok.injEq] at hwrite
  rw [← hwrite, payload_of_wellFormed ha, attributeInfoOf, ← ha, UInt32.ofNat_toNat]

/-- An editor that is stored as it was loaded is loaded again as it is. -/
theorem reload_untouched {pool : ConstantPool} {code target stored : AttributeInfo} {editor : CodeEditor}
    (hload : codeEditorLoad code pool = .ok editor) (hstore : codeEditorStore editor target = .ok stored) :
    codeEditorLoad stored pool = .ok editor := by
  obtain ⟨frames, hback, same, rewritten⟩ := load_of_store (coherent_of_load hload).weaken hstore
  suffices hframes : frames = editor.stackMap by rw [hback, hframes]
  cases ht : editor.stackMap with
  | none =>
    rw [ht] at same
    exact Option.map_eq_none_iff.mp same
  | some t =>
    obtain ⟨a, back, hwrite, hparse, hframes⟩ := rewritten t (by rw [ht]; rfl)
    obtain ⟨a', hwf, hparse'⟩ := framesParsed_of_load hload t (by rw [ht]; rfl)
    rw [stackMapTableWrite_parsed hwf hparse' hwrite] at hparse
    have : stackMapTableParse { a' with attributeNameIndex := t.nameIndex } = stackMapTableParse a' := rfl
    rw [this, hparse'] at hparse
    cases hparse
    exact hframes

/-! ## A body in the order of the editor -/

/-- The attribute ends behind the entries that it counts, which are `width` bytes each. -/
def ExactTable (width : Nat) (a : AttributeInfo) : Prop :=
  a.info.length = 2 + width * (joinU2 (a.info.getD 0 0) (a.info.getD 1 0)).toNat

instance (width : Nat) (a : AttributeInfo) : Decidable (ExactTable width a) := inferInstanceAs (Decidable (_ = _))

/-- The attribute carries a name. -/
def AttributeInfo.Named (pool : ConstantPool) (name : String) (a : AttributeInfo) : Prop :=
  constantPoolUtf8Equals pool a.attributeNameIndex (text name) = true

instance (pool : ConstantPool) (name : String) (a : AttributeInfo) : Decidable (a.Named pool name) :=
  inferInstanceAs (Decidable (_ = _))

/-- The tables at most once each and of exact length, in the order in which the editor stores them, and then the
attributes it keeps opaque. The reader of a StackMapTable accepts no other length. -/
def CanonicalAttributes (pool : ConstantPool) (attributes : List AttributeInfo) : Prop :=
  ∃ (lineNumbers locals localTypes stackMap : Option AttributeInfo) (others : List AttributeInfo),
    attributes = lineNumbers.toList ++ (locals.toList ++ (localTypes.toList ++ (stackMap.toList ++ others))) ∧
    (∀ a ∈ lineNumbers, a.Named pool "LineNumberTable" ∧ ExactTable 4 a) ∧
    (∀ a ∈ locals, a.Named pool "LocalVariableTable" ∧ ExactTable 10 a) ∧
    (∀ a ∈ localTypes, a.Named pool "LocalVariableTypeTable" ∧ ExactTable 10 a) ∧
    (∀ a ∈ stackMap, a.Named pool "StackMapTable") ∧
    ∀ a ∈ others, ∀ name ∈ tableNames, ¬a.Named pool name

/-- The padding of every switch is zero. -/
def ZeroPadding (code : Bytes) : Prop :=
  ∀ list, instructionListParse code = .ok list → ∀ k, inSwitchPadding list.items k = true → code[k]? = some 0

/-- A body as a compiler writes it. -/
structure CanonicalBody (pool : ConstantPool) (body : CodeAttribute) : Prop where
  wellFormed : body.WellFormed
  attributes : CanonicalAttributes pool body.attributes
  padding : ZeroPadding body.code

section ExactTables

variable {α : Type} {p : Parse α} {write : α → Bytes} {width : Nat}

theorem length_flatMap_write (hw : ∀ e, (write e).length = width) (entries : List α) :
    (entries.flatMap write).length = width * entries.length := by
  induction entries with
  | nil => rfl
  | cons e rest ih =>
    rw [List.flatMap_cons, List.length_append, hw, ih, List.length_cons, Nat.mul_add, Nat.mul_one, Nat.add_comm]

theorem takes_readTable (hp : Takes p fun _ w e => w = write e ∧ True) (existing : Nat) :
    Takes (readTable p existing) fun _ w entries =>
      w = writeTable write entries ∧ entries.length ≤ classfileMaxCount := by
  refine (takes_u2.bind fun count => (takes_checkOk _).bind fun _ => Takes.ite (fun _ => Takes.throw _
    fun _ w (entries : List α) => w = entries.flatMap write ∧ entries.length = count.toNat) fun _ =>
      ((hp.many _).bind fun entries => (takes_checkOk _).bind fun _ => Takes.pure _).mono ?_).mono ?_
  · rintro n w entries ⟨es, w₁, w₂, rfl, ⟨rfl, hl, -⟩, _, w₃, w₄, rfl, rfl, rfl, rfl⟩
    exact ⟨by simp, hl⟩
  · rintro n w entries ⟨count, w₁, w₂, rfl, rfl, _, w₃, w₄, rfl, rfl, rfl, hl⟩
    refine ⟨?_, by rw [hl]; exact u2_le_maxCount count⟩
    rw [writeTable, ofNat_of_toNat hl, List.nil_append]

theorem checks_readTable (existing : Nat) : Checks (readTable p existing) :=
  Checks.bind fun _ => Checks.bind fun _ => Checks.ite (fun _ => Checks.throw _) fun _ =>
    Checks.bind fun _ => (checks_checkOk _).last

/-- A table that was read from an attribute of exact length is written to the bytes of the attribute. -/
theorem growTable_exact (hp : Takes p fun _ w e => w = write e ∧ True) (hw : ∀ e, (write e).length = width)
    {a : AttributeInfo} {grown : Option (NamedTable α)} (ha : a.WellFormed) (hexact : ExactTable width a)
    (h : growTable p none a = .ok grown) : StoredAs (HoldsTable write) grown [a] := by
  rw [growTable] at h
  cases hr : (readTable p (tableEntries (none : Option (NamedTable α))).length).run (byteCursorInit a.payload) with
  | error e =>
    rw [hr] at h
    cases h
  | ok x =>
    obtain ⟨entries, c⟩ := x
    rw [hr] at h
    cases h
    obtain ⟨n, w, r, hv, -, rfl, hl⟩ := (takes_readTable hp _).checked (checks_readTable _) hr
    rw [view_init, payload_of_wellFormed ha] at hv
    obtain ⟨rfl, hinfo⟩ : 0 = n ∧ a.info = writeTable write entries ++ r := by simpa using hv
    refine ⟨a, rfl, rfl, ?_⟩
    rw [ExactTable, hinfo] at hexact
    simp only [writeTable, byteBufferU2, List.cons_append, List.nil_append, List.getD_cons_zero, List.getD_cons_succ,
      joinU2_split, List.length_cons, List.length_append, length_flatMap_write hw, u2_length hl] at hexact
    obtain rfl : r = [] := List.length_eq_zero_iff.mp (by omega)
    rw [HoldsTable, payload_of_wellFormed ha, hinfo, List.append_nil, tableEntries, List.nil_append]

/-- Loading a table that is there at most once, and of exact length. -/
theorem load_exact {pool : ConstantPool} {editor next : CodeEditor} {name : String}
    (hp : Takes p fun _ w e => w = write e ∧ True) (hw : ∀ e, (write e).length = width)
    (put : Option (NamedTable α) → CodeEditor) (hput : put none = editor)
    (hstep : ∀ a : AttributeInfo, a.Named pool name →
      loadAttribute pool editor a = (growTable p none a >>= fun t => .ok (put t)))
    {found : Option AttributeInfo} (hf : ∀ a ∈ found, a.Named pool name ∧ ExactTable width a)
    (hwf : ∀ a ∈ found.toList, a.WellFormed) {rest : List AttributeInfo}
    (h : loadAttributes pool editor (found.toList ++ rest) = .ok next) :
    ∃ table, StoredAs (HoldsTable write) table found.toList ∧ loadAttributes pool (put table) rest = .ok next := by
  cases found with
  | none => exact ⟨none, rfl, by rw [hput]; exact h⟩
  | some a =>
    obtain ⟨hnamed, hexact⟩ := hf a rfl
    obtain ⟨first, h₁, h₂⟩ := bind_ok h
    rw [hstep a hnamed] at h₁
    obtain ⟨table, hgrow, h₃⟩ := bind_ok h₁
    cases h₃
    exact ⟨table, growTable_exact hp hw (hwf a (by simp)) hexact hgrow, h₂⟩

/-- A table is stored in one way. -/
theorem storedAs_unique {table : Option (NamedTable α)} {l₁ l₂ : List AttributeInfo} (hw₁ : ∀ a ∈ l₁, a.WellFormed)
    (hw₂ : ∀ a ∈ l₂, a.WellFormed) (h₁ : StoredAs (HoldsTable write) table l₁)
    (h₂ : StoredAs (HoldsTable write) table l₂) : l₁ = l₂ := by
  cases table with
  | none =>
    cases h₁
    cases h₂
    rfl
  | some t =>
    obtain ⟨a, rfl, hname, hpay⟩ := h₁
    obtain ⟨b, rfl, hname', hpay'⟩ := h₂
    have ha := hw₁ a (by simp)
    have hb := hw₂ b (by simp)
    rw [HoldsTable, payload_of_wellFormed ha] at hpay
    rw [HoldsTable, payload_of_wellFormed hb, ← hpay] at hpay'
    have hlen : b.attributeLength = a.attributeLength := UInt32.toNat_inj.mp (by rw [ha, hb, hpay'])
    cases a
    cases b
    simp_all

end ExactTables

theorem takes_readLineNumberEntry : Takes readLineNumberEntry fun _ w e => w = writeLineNumberEntry e ∧ True := by
  refine (takes_u2.bind fun startPc => takes_u2.bind fun lineNumber => Takes.pure _).mono ?_
  rintro n w e ⟨a, w₁, w₂, rfl, rfl, b, w₃, w₄, rfl, rfl, rfl, rfl⟩
  exact ⟨by simp [writeLineNumberEntry], trivial⟩

theorem takes_readLocalVariableEntry :
    Takes readLocalVariableEntry fun _ w e => w = writeLocalVariableEntry e ∧ True := by
  refine (takes_u2.bind fun startPc => takes_u2.bind fun length => takes_u2.bind fun nameIndex =>
    takes_u2.bind fun descriptorIndex => takes_u2.bind fun index => Takes.pure _).mono ?_
  rintro n w e ⟨a, w₁, w₂, rfl, rfl, b, w₃, w₄, rfl, rfl, c, w₅, w₆, rfl, rfl, d, w₇, w₈, rfl, rfl, f,
    w₉, w₁₀, rfl, rfl, rfl, rfl⟩
  exact ⟨by simp [writeLocalVariableEntry], trivial⟩

/-- Loading a StackMapTable that is there at most once. -/
theorem load_frames {pool : ConstantPool} {editor next : CodeEditor} (hnone : editor.stackMap = none)
    {found : Option AttributeInfo} (hf : ∀ a ∈ found, a.Named pool "StackMapTable") {rest : List AttributeInfo}
    (h : loadAttributes pool editor (found.toList ++ rest) = .ok next) :
    ∃ table, StoredAs (fun a t => stackMapTableParse a = .ok t.entries) table found.toList ∧
      loadAttributes pool { editor with stackMap := table } rest = .ok next := by
  cases found with
  | none => exact ⟨none, rfl, by rw [← hnone]; exact h⟩
  | some a =>
    obtain ⟨first, h₁, h₂⟩ := bind_ok h
    rw [loadAttribute_stackMap (hf a rfl) hnone] at h₁
    obtain ⟨frames, hparse, h₃⟩ := bind_ok h₁
    cases h₃
    exact ⟨some ⟨a.attributeNameIndex, frames⟩, ⟨a, rfl, rfl, hparse⟩, h₂⟩

theorem frames_unique {table : Option (NamedTable StackMapFrame)} {l₁ l₂ : List AttributeInfo}
    (hw : ∀ a ∈ l₁, a.WellFormed) (h₁ : StoredAs (fun a t => stackMapTableParse a = .ok t.entries) table l₁)
    (h₂ : StoredAs HoldsFrames table l₂) : l₁ = l₂ := by
  cases table with
  | none =>
    cases h₁
    cases h₂
    rfl
  | some t =>
    obtain ⟨a, rfl, hname, hparse⟩ := h₁
    obtain ⟨b, rfl, -, hwrite, -⟩ := h₂
    rw [stackMapTableWrite_parsed (hw a (by simp)) hparse hwrite, ← hname]

theorem load_opaque {pool : ConstantPool} : ∀ {others : List AttributeInfo} {editor next : CodeEditor},
    (∀ a ∈ others, OtherAttribute pool a) → loadAttributes pool editor others = .ok next →
    ∃ refs, next = { editor with otherAttributes := editor.otherAttributes ++ others, typeAnnotations := refs }
  | [], editor, next, _, h => by
    cases h
    exact ⟨editor.typeAnnotations, by rw [List.append_nil]⟩
  | a :: rest, editor, next, ho, h => by
    obtain ⟨first, h₁, h₂⟩ := bind_ok h
    have ha := ho a List.mem_cons_self
    rw [loadAttribute_other ha] at h₁
    obtain ⟨refs, rfl⟩ := loadOther_ok ha.wellFormed h₁
    obtain ⟨refs', rfl⟩ := load_opaque (fun b hb => ho b (List.mem_cons_of_mem a hb)) h₂
    exact ⟨refs', by simp⟩

theorem bytecode_untouched {code bytecode : Bytes} {list : InstructionList} (hpad : ZeroPadding code)
    (hparse : instructionListParse code = .ok list) (henc : instructionListEncode list = .ok bytecode) :
    bytecode = code := by
  obtain ⟨hlaid, hcode⟩ := laid_of_parse hparse
  have hlen := (parse_of_encode hlaid henc).2
  have hmax := (instructionListEncode_cases henc).2
  obtain ⟨bytes, hb, -, hsame⟩ | ⟨-, e, he⟩ := encode_of_parse (by omega) hparse
  · rw [henc] at hb
    cases hb
    refine List.ext_getElem? fun k => ?_
    rw [hsame k, Nat.zero_add]
    split
    · rename_i hk
      rw [hpad list hparse k hk]
      rfl
    · rfl
  · rw [henc] at he
    cases he

/-- A body in the order of the editor is stored byte by byte. -/
theorem stored_payload_eq {pool : ConstantPool} {code target stored : AttributeInfo} {editor : CodeEditor}
    {body : CodeAttribute} (hbody : CanonicalBody pool body) (hcode : code.payload = encodeCodeAttribute body)
    (hload : codeEditorLoad code pool = .ok editor) (hstore : codeEditorStore editor target = .ok stored) :
    stored.payload = code.payload := by
  have hc := (coherent_of_load hload).weaken
  obtain ⟨hwf, ⟨lines, locals, types, frames, others, hattrs, hl, hlo, hlt, hfr, hot⟩, hpad⟩ := hbody
  obtain ⟨bytecode, hb, h₁⟩ := bind_ok hstore
  obtain ⟨attributes, hs, h₂⟩ := bind_ok h₁
  obtain ⟨rfl, hw⟩ := takeBuffer_ok h₂
  obtain ⟨a₁, a₂, a₃, a₄, hall, hallwf, t₁, t₂, t₃, t₄⟩ := storeAttributes_ok hc hs
  -- the body that is parsed is the one that was encoded
  have hparse : codeAttributeParse code = .ok body := by
    rw [codeAttributeParse, hcode]
    exact parseAll_of_reads (reads_readCodeAttribute hwf 0)
  rw [codeEditorLoad, bind_of_ok hparse] at hload
  obtain ⟨list, hlist, hload⟩ := bind_ok hload
  have wf := hwf.attributes.items
  rw [hattrs] at hload wf
  simp only [List.mem_append] at wf
  -- each table is read from the attribute that holds it
  obtain ⟨lineNumbers, u₁, hload⟩ := load_exact takes_readLineNumberEntry (fun _ => rfl)
    (fun t => ⟨body.maxStack, body.maxLocals, list, body.exceptions, t, none, none, none, [], []⟩) rfl
    (fun a h => loadAttribute_lineNumbers h) hl
    (fun a ha => wf a (.inl ha)) hload
  obtain ⟨localVariables, u₂, hload⟩ := load_exact takes_readLocalVariableEntry (fun _ => rfl)
    (fun t => ⟨body.maxStack, body.maxLocals, list, body.exceptions, lineNumbers, t, none, none, [], []⟩) rfl
    (fun a h => loadAttribute_locals h) hlo
    (fun a ha => wf a (.inr (.inl ha))) hload
  obtain ⟨localTypes, u₃, hload⟩ := load_exact takes_readLocalVariableEntry (fun _ => rfl)
    (fun t => ⟨body.maxStack, body.maxLocals, list, body.exceptions, lineNumbers, localVariables, t, none, [], []⟩) rfl
    (fun a h => loadAttribute_localTypes h) hlt
    (fun a ha => wf a (.inr (.inr (.inl ha)))) hload
  obtain ⟨stackMap, u₄, hload⟩ := load_frames rfl hfr hload
  have hopaque : ∀ a ∈ others, OtherAttribute pool a := fun a ha =>
    ⟨wf a (.inr (.inr (.inr (.inr ha)))), fun name hname => Bool.eq_false_iff.mpr (hot a ha name hname)⟩
  obtain ⟨refs, rfl⟩ := load_opaque hopaque hload
  have same : attributes = body.attributes := by
    rw [hall] at hallwf
    have swf := hallwf.items
    simp only [List.mem_append] at swf
    rw [hall, hattrs, storedAs_unique (fun a ha => swf a (.inl ha)) (fun a ha => wf a (.inl ha)) t₁ u₁,
      storedAs_unique (fun a ha => swf a (.inr (.inl ha))) (fun a ha => wf a (.inr (.inl ha))) t₂ u₂,
      storedAs_unique (fun a ha => swf a (.inr (.inr (.inl ha)))) (fun a ha => wf a (.inr (.inr (.inl ha)))) t₃ u₃,
      ← frames_unique (fun a ha => wf a (.inr (.inr (.inr (.inl ha))))) u₄ t₄]
    rfl
  rw [payload_of_wellFormed hw, hcode, bytecode_untouched hpad hlist hb, same]
  rfl

/-- `iload_0; tableswitch 0 to 0; return` with a line, a frame at the `return` and an attribute of a private name. -/
def switchingBody : CodeAttribute where
  maxStack := 1
  maxLocals := 1
  code := [26, 170, 0, 0, 0, 0, 0, 19, 0, 0, 0, 0, 0, 0, 0, 0, 0, 0, 0, 19, 177]
  exceptions := []
  attributes := [⟨2, 6, [0, 1, 0, 0, 0, 10]⟩, ⟨3, 3, [0, 1, 20]⟩, ⟨4, 1, [7]⟩]

def switchingPool : ConstantPool :=
  ⟨[.utf8 (text "Code"), .utf8 (text "LineNumberTable"), .utf8 (text "StackMapTable"), .utf8 (text "Note")]⟩

def switchingEditor : CodeEditor where
  maxStack := 1
  maxLocals := 1
  instructions := ⟨[⟨0, 26, false, .none⟩, ⟨1, Opc.tableswitch, false, .tableSwitch 20 0 0 [20]⟩,
    ⟨20, Opc.return_, false, .none⟩], 21⟩
  exceptions := []
  lineNumbers := some ⟨2, [⟨0, 10⟩]⟩
  locals := none
  localTypes := none
  stackMap := some ⟨3, [⟨20, 20, .same⟩]⟩
  otherAttributes := [⟨4, 1, [7]⟩]
  typeAnnotations := []

theorem canonical_switchingBody : CanonicalBody switchingPool switchingBody := by
  refine ⟨⟨by decide, by decide, by decide, by unfold AttributeInfo.WellFormed; decide⟩, ?_, ?_⟩
  · refine ⟨some ⟨2, 6, [0, 1, 0, 0, 0, 10]⟩, none, none, some ⟨3, 3, [0, 1, 20]⟩, [⟨4, 1, [7]⟩], rfl,
      ?_, ?_, ?_, ?_, ?_⟩
    · intro a ha
      cases ha
      exact ⟨by decide +kernel, by decide +kernel⟩
    · intro a ha
      cases ha
    · intro a ha
      cases ha
    · intro a ha
      cases ha
      exact by decide +kernel
    · intro a ha name hname
      cases List.mem_singleton.mp ha
      revert name
      decide +kernel
  · intro list hlist k hk
    have : instructionListParse switchingBody.code = .ok switchingEditor.instructions := by decide +kernel
    rw [this] at hlist
    cases hlist
    have hpad : 1 < k ∧ k ≤ 1 + switchPadding 1 := by
      simpa [inSwitchPadding, switchingEditor, Instruction.pads] using hk
    have hk : k = 2 ∨ k = 3 := by
      have : switchPadding 1 = 2 := by decide
      omega
    rcases hk with rfl | rfl <;> rfl

end Jni2Hook
