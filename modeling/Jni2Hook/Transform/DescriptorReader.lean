import Jni2Hook.Transform.DescriptorSlots

/-!
# Reading descriptors

Descriptors as JVMS 4.3 has them, read back into syntax trees.

* `readFieldType_iff`: a type is read off the front of exactly the texts that begin with it.
* `readMethodDescriptor_iff`: a text is read as a method descriptor exactly when it is the text of one.
-/

namespace Jni2Hook

def BaseType.all : List BaseType := [.byte, .char, .double, .float, .int, .long, .short, .boolean]

def BaseType.ofLetter (letter : UInt8) : Option BaseType := BaseType.all.find? (·.letter = letter)

/-- The characters of a class name in a descriptor, as `ClassNameText` has them. -/
def IsClassName (name : Bytes) : Prop := ∀ c ∈ name, c ≠ 0x3B ∧ c ≠ 0

-- The name is searched once, not for each of the 256 bytes.
instance : DecidablePred IsClassName := fun name => List.decidableBAll (fun c => c ≠ 0x3B ∧ c ≠ 0) name

/-- The field type at the front of a text, and what follows it. -/
def readFieldType : Bytes → Option (FieldType × Bytes)
  | [] => none
  | c :: rest =>
    if c = 0x5B then (readFieldType rest).map fun p => (.array p.1, p.2)
    else if c = 0x4C then
      match rest.dropWhile (· != 0x3B) with
      | [] => none
      | _ :: after =>
        if h : IsClassName (rest.takeWhile (· != 0x3B)) then
          some (.object ⟨rest.takeWhile (· != 0x3B), h⟩, after)
        else none
    else (BaseType.ofLetter c).map fun type => (.base type, rest)

/-- The parameters up to the closing parenthesis, and what follows it. Every round takes a character. -/
def readParameters : Nat → Bytes → Option (List FieldType × Bytes)
  | 0, _ => none
  | fuel + 1, bytes =>
    if bytes.head? = some 0x29 then some ([], bytes.tail)
    else do
      let (type, rest) ← readFieldType bytes
      let (types, after) ← readParameters fuel rest
      return (type :: types, after)

/-- The type that ends a method descriptor. -/
def readResult (bytes : Bytes) : Option (Option FieldType) :=
  if bytes = [0x56] then some none
  else match readFieldType bytes with
    | some (type, []) => some (some type)
    | _ => none

def readMethodDescriptor (bytes : Bytes) : Option MethodDescriptor :=
  if bytes.head? = some 0x28 then do
    let (parameters, after) ← readParameters bytes.length bytes.tail
    return ⟨parameters, ← readResult after⟩
  else none

/-! ## Types -/

theorem ofLetter_iff {letter : UInt8} {type : BaseType} :
    BaseType.ofLetter letter = some type ↔ type.letter = letter := by
  constructor
  · intro h
    simpa using List.find?_some h
  · rintro rfl
    cases type <;> rfl

theorem letter_plain (type : BaseType) : type.letter ≠ 0x5B ∧ type.letter ≠ 0x4C := by
  cases type <;> decide

theorem takeWhile_name (name : ClassNameText) (rest : Bytes) :
    (name.1 ++ 0x3B :: rest).takeWhile (· != 0x3B) = name.1 ∧
      (name.1 ++ 0x3B :: rest).dropWhile (· != 0x3B) = 0x3B :: rest := by
  have hall : ∀ c ∈ name.1, (c != 0x3B) = true := fun c hc => by simpa using (name.2 c hc).1
  constructor
  · rw [List.takeWhile_append_of_pos hall]
    simp
  · rw [List.dropWhile_append_of_pos hall]
    simp

theorem readFieldType_text (type : FieldType) (rest : Bytes) :
    readFieldType (type.text ++ rest) = some (type, rest) := by
  induction type with
  | base type =>
    obtain ⟨harray, hclass⟩ := letter_plain type
    rw [FieldType.text, List.singleton_append, readFieldType, if_neg harray, if_neg hclass, ofLetter_iff.mpr rfl]
    rfl
  | object name =>
    obtain ⟨htake, hdrop⟩ := takeWhile_name name rest
    rw [FieldType.text, List.cons_append, List.append_assoc, List.singleton_append, readFieldType, if_neg (by decide),
      if_pos rfl, hdrop]
    dsimp only
    rw [dif_pos (by rw [htake]; exact name.2)]
    simp only [htake]
  | array component ih =>
    rw [FieldType.text, List.cons_append, readFieldType, if_pos rfl, ih]
    rfl

theorem text_of_readFieldType {bytes rest : Bytes} {type : FieldType} (h : readFieldType bytes = some (type, rest)) :
    bytes = type.text ++ rest := by
  induction bytes generalizing type with
  | nil => cases h
  | cons c bytes ih =>
    rw [readFieldType] at h
    split at h
    · rename_i harray
      obtain ⟨⟨component, after⟩, hread, heq⟩ := Option.map_eq_some_iff.mp h
      cases heq
      rw [FieldType.text, List.cons_append, ← ih hread, harray]
    split at h
    · rename_i hclass
      split at h
      · cases h
      · rename_i semicolon after hdrop
        split at h
        · cases h
          have hsplit := List.takeWhile_append_dropWhile (p := (· != 0x3B)) (l := bytes)
          have hsemicolon : semicolon = 0x3B := by
            have := List.head_dropWhile_not (· != (0x3B : UInt8)) (l := bytes)
              (by rw [hdrop]; exact List.cons_ne_nil _ _)
            simpa [hdrop] using this
          rw [hdrop, hsemicolon] at hsplit
          rw [FieldType.text, hclass, List.cons_append, List.append_assoc, List.singleton_append, hsplit]
        · cases h
    · obtain ⟨base, hletter, heq⟩ := Option.map_eq_some_iff.mp h
      cases heq
      rw [FieldType.text, List.singleton_append, ofLetter_iff.mp hletter]

/-- A type is read off the texts that begin with it. -/
theorem readFieldType_iff {bytes rest : Bytes} {type : FieldType} :
    readFieldType bytes = some (type, rest) ↔ bytes = type.text ++ rest :=
  ⟨text_of_readFieldType, fun h => h ▸ readFieldType_text type rest⟩

/-! ## Method descriptors -/

theorem readParameters_text {after : Bytes} : ∀ {types : List FieldType} {fuel : Nat}, types.length < fuel →
    readParameters fuel (types.flatMap FieldType.text ++ 0x29 :: after) = some (types, after)
  | [], fuel + 1, _ => rfl
  | type :: rest, fuel + 1, h => by
    rw [List.length_cons] at h
    obtain ⟨first, more, htext, -, hend⟩ := head_text type (rest.flatMap FieldType.text ++ 0x29 :: after)
    have hopen : (type.text ++ (rest.flatMap FieldType.text ++ 0x29 :: after)).head? ≠ some 0x29 := by
      rw [htext]
      simpa using hend
    rw [List.flatMap_cons, List.append_assoc, readParameters, if_neg hopen, readFieldType_text, Option.bind_eq_bind,
      Option.bind_some]
    dsimp only
    rw [readParameters_text (by omega)]
    rfl

theorem text_of_readParameters {fuel : Nat} {bytes after : Bytes} {types : List FieldType}
    (h : readParameters fuel bytes = some (types, after)) : bytes = types.flatMap FieldType.text ++ 0x29 :: after := by
  induction fuel generalizing bytes types with
  | zero => cases h
  | succ fuel ih =>
    rw [readParameters] at h
    split at h
    · rename_i hend
      cases h
      rw [List.flatMap_nil, List.nil_append]
      exact (List.cons_head?_tail hend).symm
    · obtain ⟨⟨type, rest⟩, htype, h⟩ := Option.bind_eq_some_iff.mp h
      obtain ⟨⟨more, rest'⟩, hmore, h⟩ := Option.bind_eq_some_iff.mp h
      cases h
      rw [List.flatMap_cons, List.append_assoc, ← ih hmore]
      exact text_of_readFieldType htype

theorem readResult_iff {bytes : Bytes} {result : Option FieldType} :
    readResult bytes = some result ↔ bytes = resultText result := by
  have hvoid (type : FieldType) : type.text ≠ [0x56] := by
    cases type with
    | base type => cases type <;> decide
    | object name => simp [FieldType.text]
    | array component => simp [FieldType.text]
  unfold readResult
  split
  · rename_i h
    subst h
    cases result with
    | none => simp [resultText]
    | some type => simpa [resultText] using (hvoid type).symm
  · rename_i h
    cases result with
    | none =>
      refine ⟨fun hr => ?_, fun hr => absurd hr h⟩
      split at hr <;> cases hr
    | some type =>
      constructor
      · intro hr
        split at hr
        · rename_i read hread
          cases hr
          rw [text_of_readFieldType hread, List.append_nil]
          rfl
        · cases hr
      · intro hr
        have hread : readFieldType bytes = some (type, []) := readFieldType_iff.mpr (by rw [hr, List.append_nil]; rfl)
        rw [hread]

/-- The method descriptors are the texts that are read as one. -/
theorem readMethodDescriptor_iff {bytes : Bytes} {d : MethodDescriptor} :
    readMethodDescriptor bytes = some d ↔ bytes = d.text := by
  constructor
  · intro h
    unfold readMethodDescriptor at h
    split at h
    · rename_i hopen
      obtain ⟨⟨parameters, after⟩, hparameters, h⟩ := Option.bind_eq_some_iff.mp h
      obtain ⟨result, hresult, h⟩ := Option.bind_eq_some_iff.mp h
      cases h
      rw [MethodDescriptor.text, ← readResult_iff.mp hresult, ← text_of_readParameters hparameters]
      exact (List.cons_head?_tail hopen).symm
    · cases h
  · rintro rfl
    have hlen := length_le_flatMap_text d.parameters
    have hfuel : d.parameters.length < d.text.length := by
      rw [MethodDescriptor.text, List.length_cons, List.length_append]
      omega
    rw [readMethodDescriptor, if_pos (show d.text.head? = some 0x28 from rfl),
      show d.text.tail = d.parameters.flatMap FieldType.text ++ 0x29 :: resultText d.result from rfl,
      readParameters_text hfuel, Option.bind_eq_bind, Option.bind_some]
    dsimp only
    rw [readResult_iff.mpr rfl]
    rfl

end Jni2Hook
