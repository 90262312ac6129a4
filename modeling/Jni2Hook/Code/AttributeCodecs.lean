import Jni2Hook.Code.StoredBytes

/-!
# The codecs of the Code and the StackMapTable attribute

Both readers stand against their writers, payload by payload.

* `codeAttributeParse_cases`: what `code_attribute_parse` accepts. It asks the latch behind the code array and behind
  each entry of a list, and never behind the two counts, so a payload may end before either of them (`EndsEarly`).
* `code_attribute_complete_iff`: apart from those payloads the reader accepts what the writer gives.
* `stack_map_codec_iff`: the table is written to the bytes it was read from, and read back from the bytes it is written
  to as long as their number fits the `u4` that `stack_map_table_write` cuts it to.
-/

namespace Jni2Hook

open Lib

/-! ## Lists behind a count that is not checked -/

/-- A count and that many items, without a look at the latch in between. -/
def readUnchecked {α : Type} (p : Parse α) : Parse (List α) := do
  let count ← byteCursorU2
  readMany p count.toNat

/-- A `u2` is read from an open cursor, or it is zero and the latch is closed. -/
theorem run_u2_cases {c c' : ByteCursor} {v : UInt16} (h : byteCursorU2.run c = .ok (v, c')) :
    (Input.view c').isSome ∨ (v = 0 ∧ c' = { c with ok := false }) := by
  obtain ⟨bytes, c₁, h₁, h₂⟩ := run_bind_ok h
  rw [run_byteCursorBytes] at h₁
  rcases cursorTake_cases 2 c with ⟨w, r, hw, -, ht⟩ | ht
  · rw [ht] at h₁
    cases h₁
    obtain ⟨x, y, rfl⟩ := List.length_eq_two.mp hw
    cases h₂
    exact .inl rfl
  · rw [ht] at h₁
    cases h₁
    cases h₂
    exact .inr ⟨rfl, rfl⟩

/-- The list is read with the latch open, or it is empty and nothing was read. -/
theorem run_readUnchecked_cases {α : Type} {p : Parse α} (hp : Checks p) {c c' : ByteCursor} {l : List α}
    (h : (readUnchecked p).run c = .ok (l, c')) :
    (Input.view c').isSome ∨ (l = [] ∧ c' = { c with ok := false }) := by
  obtain ⟨count, c₁, h₁, h₂⟩ := run_bind_ok h
  by_cases hn : count.toNat = 0
  · rw [hn] at h₂
    cases h₂
    rcases run_u2_cases h₁ with hopen | ⟨-, hlatched⟩
    · exact .inl hopen
    · exact .inr ⟨rfl, hlatched⟩
  · exact .inl (Checks.many hp hn c₁ l c' h₂)

/-- At the end of the input, and behind it, the list is empty. -/
theorem run_readUnchecked_end {α : Type} (p : Parse α) (n : Nat) (ok : Bool) :
    (readUnchecked p).run ⟨[], n, ok⟩ = .ok ([], ⟨[], n, false⟩) := by
  cases ok <;> rfl

theorem reads_readUnchecked {α : Type} {p : Parse α} {enc : α → Bytes} {l : List α} {n : Nat}
    (hl : l.length ≤ classfileMaxCount) (hp : ∀ a ∈ l, ∀ m, Reads p m (enc a) a) :
    Reads (readUnchecked p) n (byteBufferU2 (UInt16.ofNat l.length) ++ l.flatMap enc) l := by
  refine (reads_u2 _ _).bind ?_
  rw [u2_length hl]
  exact Reads.many hp

theorem takes_readUnchecked {α : Type} {p : Parse α} {enc : α → Bytes} {P : α → Prop}
    (hp : Takes p fun _ w a => w = enc a ∧ P a) : Takes (readUnchecked p) fun _ w l =>
      w = byteBufferU2 (UInt16.ofNat l.length) ++ l.flatMap enc ∧ l.length ≤ classfileMaxCount ∧ ∀ a ∈ l, P a := by
  refine (takes_u2.bind fun count => Takes.many hp count.toNat).mono ?_
  rintro n w l ⟨count, w₁, w₂, rfl, rfl, rfl, hl, hP⟩
  exact ⟨by rw [ofNat_of_toNat hl], by rw [hl]; exact u2_le_maxCount count, hP⟩

/-! ## The parts of a Code payload -/

/-- What stands before the exception table. -/
structure CodeHead where
  maxStack : UInt16
  maxLocals : UInt16
  code : Bytes

def CodeHead.bytes (head : CodeHead) : Bytes :=
  byteBufferU2 head.maxStack ++ (byteBufferU2 head.maxLocals ++ (byteBufferU4 (UInt32.ofNat head.code.length) ++
    head.code))

/-- An exception table with its count. -/
def exceptionTableBytes (exceptions : List ExceptionEntry) : Bytes :=
  byteBufferU2 (UInt16.ofNat exceptions.length) ++ exceptions.flatMap writeExceptionEntry

/-- The node with these parts. -/
def CodeHead.node (head : CodeHead) (exceptions : List ExceptionEntry) (attributes : List AttributeInfo) :
    CodeAttribute := ⟨head.maxStack, head.maxLocals, head.code, exceptions, attributes⟩

def readCodeHead : Parse CodeHead := do
  let maxStack ← byteCursorU2
  let maxLocals ← byteCursorU2
  let codeLength ← byteCursorU4
  let code ← requireBytes codeLength.toNat
  return ⟨maxStack, maxLocals, code.1⟩

theorem readCodeAttribute_eq : readCodeAttribute = do
    let head ← readCodeHead
    let exceptions ← readUnchecked readExceptionEntry
    let attributes ← readUnchecked readAttribute
    return head.node exceptions attributes := by
  simp only [readCodeAttribute, readCodeHead, readUnchecked, bind_assoc, pure_bind]
  rfl

theorem encodeCodeAttribute_node (head : CodeHead) (exceptions : List ExceptionEntry)
    (attributes : List AttributeInfo) :
    encodeCodeAttribute (head.node exceptions attributes) =
      head.bytes ++ (exceptionTableBytes exceptions ++ writeAttributes attributes) := by
  simp [encodeCodeAttribute, CodeHead.node, CodeHead.bytes, exceptionTableBytes, writeAttributes]

theorem reads_readCodeHead {head : CodeHead} (h : head.code.length < 2 ^ 32) (n : Nat) :
    Reads readCodeHead n head.bytes head := by
  have hlen : (UInt32.ofNat head.code.length).toNat = head.code.length := by
    rw [UInt32.toNat_ofNat', Nat.mod_eq_of_lt h]
  refine (reads_u2 _ _).bind ((reads_u2 _ _).bind ((reads_u4 _ _).bind ?_))
  exact (reads_requireBytes ⟨head.code, hlen.symm⟩).last (Reads.pure _ _)

theorem takes_readCodeHead : Takes readCodeHead fun _ w head => w = head.bytes ∧ head.code.length < 2 ^ 32 := by
  refine (takes_u2.bind fun maxStack => takes_u2.bind fun maxLocals => takes_u4.bind fun length =>
    (takes_requireBytes _).bind fun b => Takes.pure _).mono ?_
  rintro n w head ⟨maxStack, w₁, w₂, rfl, rfl, maxLocals, w₃, w₄, rfl, rfl, length, w₅, w₆, rfl, rfl,
    b, w₇, w₈, rfl, rfl, rfl, rfl⟩
  have hb : UInt32.ofNat b.1.length = length := by rw [b.2, UInt32.ofNat_toNat]
  refine ⟨by simp [CodeHead.bytes, hb], ?_⟩
  dsimp only
  rw [b.2]
  exact length.toNat_lt

theorem checks_readCodeHead : Checks readCodeHead :=
  Checks.bind fun _ => Checks.bind fun _ => Checks.bind fun _ => (checks_requireBytes _).last

theorem checks_readExceptionEntry : Checks readExceptionEntry :=
  Checks.bind fun _ => Checks.bind fun _ => Checks.bind fun _ => Checks.bind fun _ => (checks_checkOk _).last

/-! ## What the reader accepts -/

/-- A payload that ends right behind its code array, or right behind its exception table. -/
inductive EndsEarly : Bytes → Prop
  | behindCode (head : CodeHead) : head.code.length < 2 ^ 32 → EndsEarly head.bytes
  | behindExceptions (head : CodeHead) (exceptions : List ExceptionEntry) : head.code.length < 2 ^ 32 →
      exceptions.length ≤ classfileMaxCount → EndsEarly (head.bytes ++ exceptionTableBytes exceptions)

/-- The answers of the reader, with the payloads they are read from. -/
inductive CodeAccepted : Bytes → CodeAttribute → Prop
  | complete {code : CodeAttribute} : code.WellFormed → CodeAccepted (encodeCodeAttribute code) code
  | behindCode {head : CodeHead} : head.code.length < 2 ^ 32 → CodeAccepted head.bytes (head.node [] [])
  | behindExceptions {head : CodeHead} {exceptions : List ExceptionEntry} : head.code.length < 2 ^ 32 →
      exceptions.length ≤ classfileMaxCount →
      CodeAccepted (head.bytes ++ exceptionTableBytes exceptions) (head.node exceptions [])

theorem parseAll_ok {α : Type} {p : Parse α} {data : Bytes} {a : α} (h : parseAll p data = .ok a) :
    ∃ c, p.run (byteCursorInit data) = .ok (a, c) ∧ c.rest = [] := by
  rw [parseAll] at h
  cases hr : p.run (byteCursorInit data) with
  | error e =>
    rw [hr] at h
    cases h
  | ok x =>
    obtain ⟨a', c⟩ := x
    rw [hr] at h
    simp only at h
    split at h
    · cases h
      exact ⟨c, rfl, List.isEmpty_iff.mp ‹_›⟩
    · cases h

theorem codeAccepted_of_parse {attr : AttributeInfo} {code : CodeAttribute} (h : codeAttributeParse attr = .ok code) :
    CodeAccepted attr.payload code := by
  obtain ⟨c, hrun, hrest⟩ := parseAll_ok h
  rw [readCodeAttribute_eq] at hrun
  obtain ⟨head, c₁, h₁, k₁⟩ := run_bind_ok hrun
  obtain ⟨exceptions, c₂, h₂, k₂⟩ := run_bind_ok k₁
  obtain ⟨attributes, c₃, h₃, k₃⟩ := run_bind_ok k₂
  cases k₃
  obtain ⟨n, w, r, hv, hv₁, rfl, hhead⟩ := takes_readCodeHead.checked checks_readCodeHead h₁
  rw [view_init, Option.some.injEq, Prod.mk.injEq] at hv
  obtain ⟨rfl, hpayload⟩ := hv
  rw [view_eq_some] at hv₁
  subst hv₁
  rw [hpayload]
  rcases run_readUnchecked_cases checks_readExceptionEntry h₂ with hopen₂ | ⟨rfl, rfl⟩
  · obtain ⟨⟨n₂, r₂⟩, hv₂⟩ := Option.isSome_iff_exists.mp hopen₂
    obtain ⟨m, w₂, hw₂, -, rfl, hcount, -⟩ := takes_readUnchecked takes_readExceptionEntry _ _ _ _ _ h₂ hv₂
    rw [view_eq_some] at hw₂ hv₂
    cases hw₂
    subst hv₂
    rcases run_readUnchecked_cases checks_attribute h₃ with hopen₃ | ⟨rfl, rfl⟩
    · -- both counts were there: the payload is complete
      obtain ⟨⟨n₃, r₃⟩, hv₃⟩ := Option.isSome_iff_exists.mp hopen₃
      obtain ⟨m₃, w₃, hw₃, -, rfl, hcount₃, hwf⟩ := takes_readUnchecked takes_attribute _ _ _ _ _ h₃ hv₃
      rw [view_eq_some] at hw₃ hv₃
      cases hw₃
      subst hv₃
      obtain rfl : r₃ = [] := hrest
      have := @CodeAccepted.complete (head.node exceptions attributes) ⟨hhead, hcount, hcount₃, hwf⟩
      rw [encodeCodeAttribute_node] at this
      rw [List.append_nil]
      exact this
    · obtain rfl : r₂ = [] := hrest
      rw [List.append_nil]
      exact .behindExceptions hhead hcount
  · -- behind a closed latch nothing more is read
    rcases run_readUnchecked_cases checks_attribute h₃ with hopen₃ | ⟨rfl, rfl⟩
    · obtain ⟨⟨n₃, r₃⟩, hv₃⟩ := Option.isSome_iff_exists.mp hopen₃
      obtain ⟨m₃, w₃, hw₃, -⟩ := takes_readUnchecked takes_attribute _ _ _ _ _ h₃ hv₃
      cases hw₃
    · obtain rfl : r = [] := hrest
      rw [List.append_nil]
      exact .behindCode hhead

theorem run_codeHead {head : CodeHead} (h : head.code.length < 2 ^ 32) (r : Bytes) :
    readCodeHead.run (byteCursorInit (head.bytes ++ r)) = .ok (head, ⟨r, head.bytes.length, true⟩) := by
  obtain ⟨c, hc, hv⟩ := reads_readCodeHead h 0 (byteCursorInit (head.bytes ++ r)) r rfl
  rw [view_eq_some, Nat.zero_add] at hv
  rw [hc, hv]

theorem parse_of_codeAccepted {attr : AttributeInfo} {code : CodeAttribute} (h : CodeAccepted attr.payload code) :
    codeAttributeParse attr = .ok code := by
  rw [codeAttributeParse]
  generalize attr.payload = payload at h ⊢
  cases h with
  | complete hwf => exact parseAll_of_reads (reads_readCodeAttribute hwf 0)
  | @behindCode head hhead =>
    rw [parseAll, readCodeAttribute_eq, ← List.append_nil head.bytes, run_bind_of_ok (run_codeHead hhead []),
      run_bind_of_ok (run_readUnchecked_end _ _ _), run_bind_of_ok (run_readUnchecked_end _ _ _)]
    rfl
  | @behindExceptions head exceptions hhead hcount =>
    obtain ⟨c, hc, hv⟩ := reads_readUnchecked (n := head.bytes.length) hcount
      (fun e _ m => reads_readExceptionEntry e m) ⟨exceptionTableBytes exceptions, head.bytes.length, true⟩ []
      (by rw [view_eq_some, List.append_nil, exceptionTableBytes])
    rw [view_eq_some] at hv
    rw [parseAll, readCodeAttribute_eq, run_bind_of_ok (run_codeHead hhead _), run_bind_of_ok hc, hv,
      run_bind_of_ok (run_readUnchecked_end _ _ _)]
    rfl

/-- What `code_attribute_parse` accepts, and what it answers. -/
theorem codeAttributeParse_cases {attr : AttributeInfo} {code : CodeAttribute} :
    codeAttributeParse attr = .ok code ↔ CodeAccepted attr.payload code :=
  ⟨codeAccepted_of_parse, parse_of_codeAccepted⟩

/-! ## Complete payloads -/

/-- The bytes that a Code attribute needs. -/
def CodeAttribute.size (code : CodeAttribute) : Nat :=
  12 + code.code.length + 8 * code.exceptions.length + (code.attributes.map fun a => a.info.length + 6).sum

theorem length_writeAttributes_items {list : List AttributeInfo} (h : ∀ a ∈ list, a.WellFormed) :
    (list.flatMap writeAttribute).length = (list.map fun a => a.info.length + 6).sum := by
  induction list with
  | nil => rfl
  | cons a rest ih =>
    rw [List.flatMap_cons, List.length_append, length_writeAttribute (h a List.mem_cons_self),
      ih fun b hb => h b (List.mem_cons_of_mem a hb), List.map_cons, List.sum_cons]

theorem length_encodeCodeAttribute {code : CodeAttribute} (h : code.WellFormed) :
    (encodeCodeAttribute code).length = code.size := by
  have hentries := @length_flatMap_write _ writeExceptionEntry 8 (fun e => rfl) code.exceptions
  have hattributes := length_writeAttributes_items h.attributes.items
  simp only [encodeCodeAttribute, CodeAttribute.size, List.length_append, length_byteBufferU2, length_byteBufferU4,
    hentries, hattributes]
  omega

theorem attributeInfoOf_info {attr : AttributeInfo} (h : attr.WellFormed) :
    attributeInfoOf attr.attributeNameIndex attr.info = attr := by
  rw [attributeInfoOf, ← h, UInt32.ofNat_toNat]

theorem codeAttributeWrite_of_size {code : CodeAttribute} (h : code.WellFormed) (attr : AttributeInfo) :
    codeAttributeWrite code attr = if code.size ≤ 0xFFFFFFFF
      then .ok (attributeInfoOf attr.attributeNameIndex (encodeCodeAttribute code)) else .error .limitExceeded := by
  rw [codeAttributeWrite, takeBuffer, length_encodeCodeAttribute h]
  split
  · rw [if_neg (by omega)]
  · rw [if_pos (by omega)]

/-- A payload that ends early is accepted all the same. -/
theorem EndsEarly.accepted {p : Bytes} (h : EndsEarly p) :
    ∃ code, CodeAccepted p code ∧ encodeCodeAttribute code ≠ p := by
  cases h with
  | behindCode head hhead =>
    refine ⟨_, .behindCode hhead, fun heq => ?_⟩
    rw [encodeCodeAttribute_node] at heq
    have := congrArg List.length heq
    simp [exceptionTableBytes] at this
  | behindExceptions head exceptions hhead hcount =>
    refine ⟨_, .behindExceptions hhead hcount, fun heq => ?_⟩
    rw [encodeCodeAttribute_node] at heq
    have := congrArg List.length heq
    simp [writeAttributes] at this

/-- A payload that is accepted and does not end early is the one that the writer gives. -/
theorem CodeAccepted.encode {p : Bytes} {code : CodeAttribute} (h : CodeAccepted p code) (he : ¬EndsEarly p) :
    code.WellFormed ∧ encodeCodeAttribute code = p := by
  cases h with
  | complete hwf => exact ⟨hwf, rfl⟩
  | behindCode hhead => exact absurd (.behindCode _ hhead) he
  | behindExceptions hhead hcount => exact absurd (.behindExceptions _ _ hhead hcount) he

/-- Reading and writing back gives the attribute again exactly when the payload does not end early. -/
theorem writes_back_iff {attr : AttributeInfo} (hattr : attr.WellFormed) :
    (∀ code, codeAttributeParse attr = .ok code → codeAttributeWrite code attr = .ok attr) ↔ ¬EndsEarly attr.info := by
  rw [← payload_of_wellFormed hattr]
  constructor
  · intro hall hearly
    obtain ⟨code, haccepted, hne⟩ := hearly.accepted
    obtain ⟨hinfo, -⟩ := takeBuffer_ok (hall code (parse_of_codeAccepted haccepted))
    rw [payload_of_wellFormed hattr] at hne
    exact hne (by rw [hinfo]; rfl)
  · intro hearly code hparse
    obtain ⟨hwf, hbytes⟩ := (codeAccepted_of_parse hparse).encode hearly
    have hsize : code.size ≤ 0xFFFFFFFF := by
      have := attr.attributeLength.toNat_lt
      rw [← length_encodeCodeAttribute hwf, hbytes, payload_of_wellFormed hattr, ← hattr]
      omega
    rw [codeAttributeWrite_of_size hwf, if_pos hsize, hbytes, payload_of_wellFormed hattr, attributeInfoOf_info hattr]

/-- A node is stored and read back exactly when its payload fits the length field. -/
theorem reads_back_iff {code : CodeAttribute} (h : code.WellFormed) (attr : AttributeInfo) :
    (∃ stored, codeAttributeWrite code attr = .ok stored ∧ codeAttributeParse stored = .ok code) ↔
      code.size ≤ 0xFFFFFFFF := by
  rw [codeAttributeWrite_of_size h]
  constructor
  · rintro ⟨stored, hwrite, -⟩
    by_contra hsize
    rw [if_neg hsize] at hwrite
    cases hwrite
  · intro hsize
    refine ⟨_, if_pos hsize, parse_of_codeAccepted ?_⟩
    rw [payload_of_wellFormed]
    · exact .complete h
    · rw [AttributeInfo.WellFormed, attributeInfoOf, UInt32.toNat_ofNat', Nat.mod_eq_of_lt]
      rw [length_encodeCodeAttribute h]
      omega

/-- A proper prefix of an accepted payload is rejected exactly when it does not end early. -/
theorem prefix_rejected_iff {attr short : AttributeInfo} {code : CodeAttribute} (hattr : attr.WellFormed)
    (hshort : short.WellFormed) (h : codeAttributeParse attr = .ok code) (hstart : short.info <+: attr.info)
    (hproper : short.info ≠ attr.info) :
    (∀ c, codeAttributeParse short ≠ .ok c) ↔ ¬EndsEarly short.info := by
  rw [← payload_of_wellFormed hshort]
  constructor
  · intro hreject hearly
    obtain ⟨c, haccepted, -⟩ := hearly.accepted
    exact hreject c (parse_of_codeAccepted haccepted)
  · intro hearly c hparse
    obtain ⟨hwf, hbytes⟩ := (codeAccepted_of_parse hparse).encode hearly
    rw [payload_of_wellFormed hshort] at hbytes
    obtain ⟨t, ht⟩ := hstart
    -- the reader takes the short payload in front of the rest, which is left over
    obtain ⟨c', hrun, hrest⟩ := parseAll_ok h
    obtain ⟨c₁, hrun₁, hv₁⟩ := reads_readCodeAttribute hwf 0 (byteCursorInit attr.payload) t
      (by rw [view_init, hbytes, ht, payload_of_wellFormed hattr])
    rw [hrun] at hrun₁
    cases hrun₁
    rw [view_eq_some] at hv₁
    rw [hv₁] at hrest
    obtain rfl : t = [] := hrest
    exact hproper (by rw [← ht, List.append_nil])

/-- Apart from the payloads that end right behind the code array or the exception table, the reader accepts what the
writer gives. -/
theorem code_attribute_complete_iff (attr short : AttributeInfo) (code : CodeAttribute) :
    (attr.WellFormed →
      ((∀ c, codeAttributeParse attr = .ok c → codeAttributeWrite c attr = .ok attr) ↔ ¬EndsEarly attr.info)) ∧
    (code.WellFormed →
      ((∃ stored, codeAttributeWrite code attr = .ok stored ∧ codeAttributeParse stored = .ok code) ↔
        code.size ≤ 0xFFFFFFFF)) ∧
    (attr.WellFormed → short.WellFormed → codeAttributeParse attr = .ok code → short.info <+: attr.info →
      short.info ≠ attr.info → ((∀ c, codeAttributeParse short ≠ .ok c) ↔ ¬EndsEarly short.info)) :=
  ⟨fun hattr => writes_back_iff hattr, fun hcode => reads_back_iff hcode attr,
    fun hattr hshort hparse hstart hproper => prefix_rejected_iff hattr hshort hparse hstart hproper⟩

/-- The payload of a body that returns, whole and without its two last counts. -/
def returnPayload : Bytes := [0, 0, 0, 1, 0, 0, 0, 1, 0xB1, 0, 0, 0, 0]
def returnPayloadCut : Bytes := [0, 0, 0, 1, 0, 0, 0, 1, 0xB1]

theorem endsEarly_cut : EndsEarly returnPayloadCut := .behindCode ⟨0, 1, [0xB1]⟩ (by decide)

theorem code_attribute_complete_iff_return :
    (¬(∀ code, codeAttributeParse (attributeInfoOf 1 returnPayloadCut) = .ok code →
      codeAttributeWrite code (attributeInfoOf 1 returnPayloadCut) = .ok (attributeInfoOf 1 returnPayloadCut))) ∧
    (∃ stored, codeAttributeWrite ⟨0, 1, [0xB1], [], []⟩ (attributeInfoOf 1 []) = .ok stored ∧
      codeAttributeParse stored = .ok ⟨0, 1, [0xB1], [], []⟩) ∧
    ¬∀ c, codeAttributeParse (attributeInfoOf 1 returnPayloadCut) ≠ .ok c := by
  refine ⟨fun h => ?_, ?_, fun h => ?_⟩
  · exact ((code_attribute_complete_iff (attributeInfoOf 1 returnPayloadCut) (attributeInfoOf 1 [])
      ⟨0, 1, [0xB1], [], []⟩).1 rfl).mp h endsEarly_cut
  · exact ((code_attribute_complete_iff (attributeInfoOf 1 []) (attributeInfoOf 1 []) ⟨0, 1, [0xB1], [], []⟩).2.1
      ⟨by decide, by decide, by decide, fun a ha => nomatch ha⟩).mpr (by decide)
  · exact ((code_attribute_complete_iff (attributeInfoOf 1 returnPayload) (attributeInfoOf 1 returnPayloadCut)
      ⟨0, 1, [0xB1], [], []⟩).2.2 rfl rfl rfl ⟨[0, 0, 0, 0], rfl⟩ (by decide)).mp h endsEarly_cut

/-- A payload that is cut behind its code array is accepted, and written back longer. -/
theorem code_attribute_incomplete :
    codeAttributeParse (attributeInfoOf 1 returnPayloadCut) = .ok ⟨0, 1, [0xB1], [], []⟩ ∧
    codeAttributeWrite ⟨0, 1, [0xB1], [], []⟩ (attributeInfoOf 1 returnPayloadCut) =
      .ok (attributeInfoOf 1 returnPayload) ∧
    returnPayload ≠ returnPayloadCut ∧
    codeAttributeParse (attributeInfoOf 1 returnPayload) = .ok ⟨0, 1, [0xB1], [], []⟩ ∧
    returnPayloadCut <+: returnPayload := by
  refine ⟨by rfl, by rfl, by decide, by rfl, ⟨[0, 0, 0, 0], rfl⟩⟩

/-! ## The StackMapTable -/

theorem rereads_readVerificationType : Rereads readVerificationType :=
  takes_readVerificationType.mono fun n _ _ h => h.1 ▸ reads_readVerificationType h.2 n

theorem rereads_readDelta : Rereads readDelta := Rereads.bind rereads_u2 fun _ => Rereads.pure _

theorem rereads_readFrameBody (tag : UInt8) : Rereads (readFrameBody tag) := by
  refine Rereads.ite (fun _ => Rereads.pure _) fun _ => Rereads.ite (fun _ => ?_) fun _ => Rereads.ite (fun _ => ?_)
    fun _ => Rereads.ite (fun _ => ?_) fun _ => Rereads.ite (fun _ => ?_) fun _ => Rereads.ite (fun _ => ?_) fun _ =>
      Rereads.ite (fun _ => ?_) fun _ => Rereads.throw _
  · exact Rereads.bind rereads_readVerificationType fun _ => Rereads.pure _
  · exact Rereads.bind rereads_readDelta fun _ => Rereads.bind rereads_readVerificationType fun _ => Rereads.pure _
  · exact Rereads.bind rereads_readDelta fun _ => Rereads.pure _
  · exact Rereads.bind rereads_readDelta fun _ => Rereads.pure _
  · exact Rereads.bind rereads_readDelta fun _ =>
      Rereads.bind (rereads_readVerificationType.many _) fun _ => Rereads.pure _
  · exact Rereads.bind rereads_readDelta fun _ => Rereads.bind rereads_u2 fun _ =>
      Rereads.bind (rereads_readVerificationType.many _) fun _ => Rereads.bind rereads_u2 fun _ =>
        Rereads.bind (rereads_readVerificationType.many _) fun _ => Rereads.pure _

theorem rereads_readFrames : ∀ (count : Nat) (previous : Option Int), Rereads (readFrames count previous)
  | 0, _ => Rereads.pure _
  | count + 1, previous => by
    have one : Rereads (readFrame previous) := Rereads.bind rereads_u1 fun tag =>
      Rereads.bind (rereads_readFrameBody tag) fun _ => Rereads.bind (rereads_checkOk _) fun _ => Rereads.pure _
    exact one.bind fun frame => (rereads_readFrames count (some frame.offset)).bind fun _ => Rereads.pure _

theorem rereads_readStackMapTable : Rereads readStackMapTable :=
  Rereads.bind rereads_u2 fun _ => Rereads.bind (rereads_checkOk _) fun _ => rereads_readFrames _ _

/-- The bytes that a type needs. -/
def VerificationType.size : VerificationType → Nat
  | .object _ | .uninitialized _ => 3
  | .basic _ => 1

def typesSize (types : List VerificationType) : Nat := (types.map VerificationType.size).sum

/-- The bytes that a frame needs at a distance from the frame before it, with the tag it was read with. -/
def FrameKind.size (rawTag : UInt8) (distance : Int) : FrameKind → Nat
  | .same => if rawTag ≤ 63 ∧ distance ≤ 63 then 1 else 3
  | .sameLocals1StackItem stack => (if rawTag ≤ 127 ∧ distance ≤ 63 then 1 else 3) + stack.size
  | .chop _ => 3
  | .append locals => 3 + typesSize locals
  | .full locals stack => 7 + typesSize locals + typesSize stack

/-- The bytes that the frames need behind a frame at `previous`; the first frame counts from `-1`. -/
def framesSize (previous : Int) : List StackMapFrame → Nat
  | [] => 0
  | frame :: rest => frame.kind.size frame.rawTag (frame.offset - previous - 1) + framesSize frame.offset rest

/-- The bytes that a table needs. -/
def stackMapTableSize (frames : List StackMapFrame) : Nat := 2 + framesSize (-1) frames

/-- A table that a class file may hold: the positions go up, and the counts fit the kinds. -/
structure ValidTable (frames : List StackMapFrame) : Prop where
  count : frames.length ≤ classfileMaxCount
  increasing : frames.Pairwise fun frame later => frame.offset < later.offset
  offsets : ∀ frame ∈ frames, 0 ≤ frame.offset ∧ frame.offset ≤ 0xFFFF
  kinds : ∀ frame ∈ frames, frame.kind.Fits

theorem length_writeVerificationType (type : VerificationType) :
    (writeVerificationType type).length = type.size := by
  cases type <;> rfl

theorem length_writeTypes (types : List VerificationType) :
    (types.flatMap writeVerificationType).length = typesSize types := by
  rw [List.length_flatMap, typesSize]
  simp only [length_writeVerificationType]

theorem length_writeFrameBody (rawTag : UInt8) (delta : Int) (kind : FrameKind) :
    (writeFrameBody rawTag delta kind).length = kind.size rawTag delta := by
  cases kind with
  | same =>
    simp only [writeFrameBody, FrameKind.size]
    split <;> rfl
  | sameLocals1StackItem stack =>
    simp only [writeFrameBody, FrameKind.size]
    split
    · rw [List.length_append, length_writeVerificationType, length_byteBufferU1]
    · simp only [List.length_append, length_writeVerificationType, length_byteBufferU1, length_byteBufferU2]
      omega
  | chop count => rfl
  | append locals =>
    simp only [writeFrameBody, FrameKind.size, List.length_append, length_writeTypes, length_byteBufferU1,
      length_byteBufferU2]
    omega
  | full locals stack =>
    simp only [writeFrameBody, FrameKind.size, List.length_append, length_writeTypes, length_byteBufferU1,
      length_byteBufferU2]
    omega

/-- Behind a frame of the table the distances are those of the format. -/
theorem frameDelta_of_increasing {previous : Option Int} {offset : Int} (hp : ∀ p ∈ previous, 0 ≤ p ∧ p < offset)
    (h₀ : 0 ≤ offset) (h₁ : offset ≤ 0xFFFF) :
    frameDelta previous offset = offset - previous.getD (-1) - 1 ∧ 0 ≤ frameDelta previous offset ∧
      frameDelta previous offset ≤ 0xFFFF := by
  cases previous with
  | none =>
    simp only [frameDelta, Option.getD_none]
    omega
  | some p =>
    obtain ⟨hp₀, hp₁⟩ := hp p rfl
    have hwrap : wrapI4 (offset - p - 1) = offset - p - 1 := wrapI4_of_fits ⟨by omega, by omega⟩
    rw [frameDelta, hwrap, Option.getD_some]
    omega

/-- The frames of a table are written, whatever tags they were read with. -/
theorem writeFrames_increasing : ∀ {frames : List StackMapFrame} {previous : Option Int},
    (∀ p ∈ previous, 0 ≤ p ∧ ∀ frame ∈ frames, p < frame.offset) →
    (frames.Pairwise fun frame later => frame.offset < later.offset) →
    (∀ frame ∈ frames, 0 ≤ frame.offset ∧ frame.offset ≤ 0xFFFF) →
    ∃ w, writeFrames previous frames = .ok w ∧ w.length = framesSize (previous.getD (-1)) frames
  | [], previous, _, _, _ => ⟨[], rfl, rfl⟩
  | frame :: rest, previous, hp, hinc, hoff => by
    obtain ⟨h₀, h₁⟩ := hoff frame List.mem_cons_self
    obtain ⟨hlater, hrest⟩ := List.pairwise_cons.mp hinc
    obtain ⟨hdelta, hd₀, hd₁⟩ := frameDelta_of_increasing
      (fun p hmem => ⟨(hp p hmem).1, (hp p hmem).2 frame List.mem_cons_self⟩) h₀ h₁
    obtain ⟨tail, htail, hlen⟩ := @writeFrames_increasing rest (some frame.offset)
      (by rintro p ⟨⟩; exact ⟨h₀, hlater⟩) hrest (fun f hmem => hoff f (List.mem_cons_of_mem frame hmem))
    refine ⟨_, writeFrames_of_delta hd₀ hd₁ htail, ?_⟩
    rw [List.length_append, length_writeFrameBody, hlen, framesSize, hdelta]
    rfl

theorem ValidTable.fits {frames : List StackMapFrame} (h : ValidTable frames) : ∀ frame ∈ frames, frame.Fits := by
  intro frame hmem
  obtain ⟨h₀, h₁⟩ := h.offsets frame hmem
  exact ⟨h.kinds frame hmem, by omega, by omega⟩

/-- What `stack_map_table_write` gives for a table, and what is read in front of it. -/
theorem ValidTable.write {frames : List StackMapFrame} (h : ValidTable frames) (nameIndex : UInt16) :
    ∃ bytes back, stackMapTableWrite frames nameIndex = .ok (attributeInfoOf nameIndex bytes) ∧
      bytes.length = stackMapTableSize frames ∧ Reads readStackMapTable 0 bytes back ∧
      back.map StackMapFrame.content = frames.map StackMapFrame.content := by
  obtain ⟨w, hw, hlen⟩ := @writeFrames_increasing _ none (by rintro p ⟨⟩) h.increasing h.offsets
  obtain ⟨back, hback, hmap⟩ := reads_writeFrames hw h.fits 2
  refine ⟨byteBufferU2 (UInt16.ofNat frames.length) ++ w, back, ?_, ?_, ?_, hmap⟩
  · rw [stackMapTableWrite, hw]
    rfl
  · rw [List.length_append, hlen]
    rfl
  · refine (reads_u2 _ _).bind ((reads_checkOk _ _).skip ?_)
    rw [u2_length h.count]
    exact hback

/-- What is written of a table can only be read when the number of its bytes fits the length field: a length that is cut
leaves the reader short of bytes. -/
theorem ValidTable.size_of_parse {frames back : List StackMapFrame} (h : ValidTable frames) {nameIndex : UInt16}
    {attr : AttributeInfo} (hwrite : stackMapTableWrite frames nameIndex = .ok attr)
    (hparse : stackMapTableParse attr = .ok back) : stackMapTableSize frames ≤ 0xFFFFFFFF := by
  obtain ⟨bytes, other, hwrite', hlen, hreads, -⟩ := h.write nameIndex
  by_contra hsize
  rw [hwrite', Except.ok.injEq] at hwrite
  subst hwrite
  obtain ⟨c, hrun, -⟩ := parseAll_ok hparse
  have hcut : (UInt32.ofNat bytes.length).toNat < bytes.length := by
    have := (UInt32.ofNat bytes.length).toNat_lt
    omega
  rw [AttributeInfo.payload, attributeInfoOf] at hrun
  refine rereads_readStackMapTable.not_of_prefix checks_readStackMapTable
    (q := bytes.take (UInt32.ofNat bytes.length).toNat) (t := bytes.drop (UInt32.ofNat bytes.length).toNat)
    (by rw [List.take_append_drop]; exact hreads) (fun hnil => ?_) (view_init _) (view_init _) _ _ hrun
  have := List.drop_eq_nil_iff.mp hnil
  omega

/-- A table is read back from the bytes it is written to exactly as long as their number fits the length field. -/
theorem ValidTable.reads_back_iff {frames : List StackMapFrame} (h : ValidTable frames) (nameIndex : UInt16) :
    (∃ attr back, stackMapTableWrite frames nameIndex = .ok attr ∧ stackMapTableParse attr = .ok back ∧
      back.map StackMapFrame.content = frames.map StackMapFrame.content) ↔ stackMapTableSize frames ≤ 0xFFFFFFFF := by
  constructor
  · rintro ⟨attr, other, hwrite, hparse, -⟩
    exact h.size_of_parse hwrite hparse
  · intro hsize
    obtain ⟨bytes, back, hwrite, hlen, hreads, hmap⟩ := h.write nameIndex
    refine ⟨_, back, hwrite, parseAll_of_reads ?_, hmap⟩
    rw [payload_of_wellFormed]
    · exact hreads
    · rw [AttributeInfo.WellFormed, attributeInfoOf, UInt32.toNat_ofNat', Nat.mod_eq_of_lt (by omega)]

/-- Every table is written to the bytes it was read from, and read back from the bytes it is written to as long as their
number fits the length field. -/
theorem stack_map_codec_iff (attr : AttributeInfo) (frames : List StackMapFrame) (nameIndex : UInt16) :
    (stackMapTableParse attr = .ok frames →
      stackMapTableWrite frames nameIndex = .ok (attributeInfoOf nameIndex attr.payload)) ∧
    (ValidTable frames →
      ((∃ stored back, stackMapTableWrite frames nameIndex = .ok stored ∧ stackMapTableParse stored = .ok back ∧
        back.map StackMapFrame.content = frames.map StackMapFrame.content) ↔
        stackMapTableSize frames ≤ 0xFFFFFFFF)) :=
  ⟨fun h => stackMapTable_parse_write h nameIndex, fun h => h.reads_back_iff nameIndex⟩

/-- A short frame, one with a value on the stack and one that drops a local; and frames that need their long forms. -/
theorem stack_map_codec_iff_three :
    stackMapTableWrite [⟨5, 5, .same⟩, ⟨66, 8, .sameLocals1StackItem (.object 1)⟩, ⟨250, 18, .chop 1⟩] 1 =
      .ok (attributeInfoOf 1 [0, 3, 5, 66, 7, 0, 1, 250, 0, 9]) ∧
    ∃ attr back, stackMapTableWrite
        [⟨0, 70, .same⟩, ⟨0, 71, .sameLocals1StackItem (.object 1)⟩, ⟨0, 300, .full [.object 1] []⟩] 1 = .ok attr ∧
      stackMapTableParse attr = .ok back ∧
      back.map StackMapFrame.content =
        [(70, .same), (71, .sameLocals1StackItem (.object 1)), (300, .full [.object 1] [])] := by
  refine ⟨?_, ?_⟩
  · exact (stack_map_codec_iff (attributeInfoOf 1 [0, 3, 5, 66, 7, 0, 1, 250, 0, 9])
      [⟨5, 5, .same⟩, ⟨66, 8, .sameLocals1StackItem (.object 1)⟩, ⟨250, 18, .chop 1⟩] 1).1 (by decide)
  · exact ((stack_map_codec_iff (attributeInfoOf 1 [])
      [⟨0, 70, .same⟩, ⟨0, 71, .sameLocals1StackItem (.object 1)⟩, ⟨0, 300, .full [.object 1] []⟩] 1).2
      ⟨by decide, by simp, by simp, by simp [FrameKind.Fits, VerificationType.Fits, classfileMaxCount]⟩).mpr (by decide)

/-- Frames that name the most locals and stack items a frame can name. -/
def widestFrame (offset : Nat) : StackMapFrame :=
  ⟨255, offset, .full (List.replicate 65535 (.object 1)) (List.replicate 65535 (.object 1))⟩

def widestTable (count : Nat) : List StackMapFrame := (List.range count).map widestFrame

theorem typesSize_replicate (n : Nat) (type : VerificationType) :
    typesSize (List.replicate n type) = n * type.size := by
  rw [typesSize, List.map_replicate, List.sum_replicate_nat]

theorem framesSize_widest : ∀ (offsets : List Nat) (previous : Int),
    framesSize previous (offsets.map widestFrame) = 393217 * offsets.length
  | [], previous => rfl
  | offset :: rest, previous => by
    rw [List.map_cons, framesSize, framesSize_widest rest, widestFrame, FrameKind.size, typesSize_replicate,
      List.length_cons]
    simp only [VerificationType.size]
    omega

theorem validTable_widest {count : Nat} (h : count ≤ classfileMaxCount) : ValidTable (widestTable count) where
  count := by rw [widestTable, List.length_map, List.length_range]; exact h
  increasing := by
    rw [widestTable, List.pairwise_map]
    exact List.pairwise_lt_range.imp fun hlt => by simp only [widestFrame]; omega
  offsets := by
    intro frame hmem
    obtain ⟨offset, hoffset, rfl⟩ := List.mem_map.mp hmem
    have := List.mem_range.mp hoffset
    simp only [widestFrame, classfileMaxCount] at h ⊢
    omega
  kinds := by
    intro frame hmem
    obtain ⟨offset, -, rfl⟩ := List.mem_map.mp hmem
    refine ⟨by rw [List.length_replicate]; decide, by rw [List.length_replicate]; decide, ?_, ?_⟩
    · rintro type htype
      rw [List.eq_of_mem_replicate htype]
      trivial
    · rintro type htype
      rw [List.eq_of_mem_replicate htype]
      trivial

theorem stackMapTableSize_widest (count : Nat) : stackMapTableSize (widestTable count) = 2 + 393217 * count := by
  rw [stackMapTableSize, widestTable, framesSize_widest, List.length_range]

/-- Eleven thousand of the widest frames are written, and the table is not read back. -/
theorem stack_map_codec_fails : ValidTable (widestTable 11000) ∧
    ¬∃ attr back, stackMapTableWrite (widestTable 11000) 1 = .ok attr ∧ stackMapTableParse attr = .ok back ∧
      back.map StackMapFrame.content = (widestTable 11000).map StackMapFrame.content := by
  have hvalid : ValidTable (widestTable 11000) := validTable_widest (by decide)
  refine ⟨hvalid, fun h => ?_⟩
  have hsize := (hvalid.reads_back_iff 1).mp h
  rw [stackMapTableSize_widest] at hsize
  omega

end Jni2Hook
