import Jni2Hook.Remap.MappedDescriptors
import Jni2Hook.Transform.DescriptorReader

/-!
# Remapping as a substitution

`remap_descriptor` scans text for the letter `L`. On a descriptor it computes a substitution of class names on the tree
the text stands for (`remap_descriptor_substitutes`): all names at once, each by its first mapping.

A text is `Terminated` when the scan finds the end of every class name it meets. Otherwise the scan gives up at an `L`
without a semicolon behind it (`terminated_or_open`), and copies from there.
-/

namespace Jni2Hook

/-! ## Descriptors and their class names -/

/-- A field or a method descriptor. -/
inductive Descriptor where
  | field (type : FieldType)
  | method (d : MethodDescriptor)

def Descriptor.text : Descriptor → Bytes
  | .field type => type.text
  | .method d => d.text

/-- A descriptor is a method's when it begins with a parenthesis. -/
def readDescriptor (bytes : Bytes) : Option Descriptor :=
  if bytes.head? = some 0x28 then (readMethodDescriptor bytes).map .method
  else match readFieldType bytes with
    | some (type, []) => some (.field type)
    | _ => none

theorem readDescriptor_iff {bytes : Bytes} {d : Descriptor} : readDescriptor bytes = some d ↔ bytes = d.text := by
  constructor
  · intro h
    unfold readDescriptor at h
    split at h
    · obtain ⟨method, hmethod, rfl⟩ := Option.map_eq_some_iff.mp h
      exact readMethodDescriptor_iff.mp hmethod
    · split at h
      · rename_i type htype
        cases h
        exact (readFieldType_iff.mp htype).trans (List.append_nil _)
      · cases h
  · rintro rfl
    cases d with
    | field type =>
      obtain ⟨first, rest, htext, hopen, -⟩ := head_text type []
      have hhead : (Descriptor.field type).text.head? ≠ some 0x28 := by
        rw [List.append_nil] at htext
        rw [Descriptor.text, htext]
        simpa using hopen
      have hread : readFieldType (Descriptor.field type).text = some (type, []) :=
        readFieldType_iff.mpr (List.append_nil _).symm
      rw [readDescriptor, if_neg hhead, hread]
    | method d =>
      have hread : readMethodDescriptor d.text = some d := readMethodDescriptor_iff.mpr rfl
      have hhead : d.text.head? = some 0x28 := rfl
      rw [readDescriptor, Descriptor.text, if_pos hhead, hread]
      rfl

/-- The class names of a type. -/
def FieldType.classNames : FieldType → List ClassNameText
  | .base _ => []
  | .object name => [name]
  | .array component => component.classNames

def MethodDescriptor.classNames (d : MethodDescriptor) : List ClassNameText :=
  d.parameters.flatMap FieldType.classNames ++ d.result.toList.flatMap FieldType.classNames

/-- The class names of a descriptor, from left to right. -/
def Descriptor.classNames : Descriptor → List ClassNameText
  | .field type => type.classNames
  | .method d => d.classNames

/-- A type with other class names, every one of them replaced once. -/
def FieldType.rename (f : ClassNameText → ClassNameText) : FieldType → FieldType
  | .base type => .base type
  | .object name => .object (f name)
  | .array component => .array (component.rename f)

def MethodDescriptor.rename (f : ClassNameText → ClassNameText) (d : MethodDescriptor) : MethodDescriptor :=
  ⟨d.parameters.map (FieldType.rename f), d.result.map (FieldType.rename f)⟩

def Descriptor.rename (f : ClassNameText → ClassNameText) : Descriptor → Descriptor
  | .field type => .field (type.rename f)
  | .method d => .method (d.rename f)

section Renaming

variable {f g : ClassNameText → ClassNameText}

theorem FieldType.classNames_rename (type : FieldType) : (type.rename f).classNames = type.classNames.map f := by
  induction type with
  | base type => rfl
  | object name => rfl
  | array component ih => exact ih

theorem FieldType.rename_rename (type : FieldType) : (type.rename f).rename g = type.rename (g ∘ f) := by
  induction type with
  | base type => rfl
  | object name => rfl
  | array component ih => exact congrArg FieldType.array ih

theorem flatMap_classNames_rename (types : List FieldType) :
    (types.map (FieldType.rename f)).flatMap FieldType.classNames = (types.flatMap FieldType.classNames).map f := by
  rw [List.flatMap_map, List.map_flatMap]
  simp only [FieldType.classNames_rename]

/-- The names of a renamed descriptor are the new names of its names, in the same order. -/
theorem Descriptor.classNames_rename (d : Descriptor) : (d.rename f).classNames = d.classNames.map f := by
  cases d with
  | field type => exact FieldType.classNames_rename type
  | method d =>
    have hresult : (d.result.map (FieldType.rename f)).toList = d.result.toList.map (FieldType.rename f) := by
      cases d.result <;> rfl
    change (d.rename f).classNames = d.classNames.map f
    rw [MethodDescriptor.classNames, MethodDescriptor.classNames, MethodDescriptor.rename, hresult,
      flatMap_classNames_rename, flatMap_classNames_rename, List.map_append]

/-- Renaming keeps everything but the names: a second renaming that ignores them gives what it gave before. -/
theorem Descriptor.rename_rename (d : Descriptor) : (d.rename f).rename g = d.rename (g ∘ f) := by
  cases d with
  | field type => exact congrArg Descriptor.field type.rename_rename
  | method d =>
    simp only [Descriptor.rename, MethodDescriptor.rename, List.map_map, Option.map_map]
    have hcomp : FieldType.rename g ∘ FieldType.rename f = FieldType.rename (g ∘ f) :=
      funext FieldType.rename_rename
    rw [hcomp]

end Renaming

/-! ## Mappings -/

/-- A mapping gives this name a new one. With `NULL` on either side it gives none. -/
def ClassMapping.maps (mapping : ClassMapping) (name : Bytes) : Bool := mapping.from_ = some name && mapping.to_.isSome

/-- The new name in the first mapping of a name, or the name itself. -/
def substitute (classes : List ClassMapping) (name : Bytes) : Bytes :=
  ((classes.find? (·.maps name)).bind (·.to_)).getD name

/-- Class mappings whose new names are C strings without a semicolon. -/
abbrev NameMappings : Type :=
  { classes : List ClassMapping // ∀ mapping ∈ classes, ∀ name ∈ mapping.to_, ∀ c ∈ name, c ≠ 0x3B ∧ c ≠ 0 }

theorem lookupClass_eq_find (classes : List ClassMapping) (name : Bytes) :
    lookupClass classes name = (classes.find? (·.maps name)).bind (·.to_) := by
  unfold lookupClass
  induction classes with
  | nil => rfl
  | cons mapping classes ih =>
    obtain ⟨from_, to_⟩ := mapping
    rw [List.findSome?_cons, List.find?_cons, ih]
    cases from_ with
    | none => rfl
    | some from_ =>
      cases to_ with
      | none => simp [ClassMapping.maps]
      | some to_ => by_cases h : from_ = name <;> simp [ClassMapping.maps, h]

theorem mappedName_eq (classes : List ClassMapping) (name : Bytes) :
    mappedName classes name = substitute classes name := by
  rw [mappedName, lookupClass_eq_find, substitute]

theorem lookupClass_isSome (classes : List ClassMapping) (name : Bytes) :
    (lookupClass classes name).isSome = classes.any (·.maps name) := by
  rw [lookupClass_eq_find]
  cases h : classes.find? (·.maps name) with
  | none =>
    have hnone := List.find?_eq_none.mp h
    exact (List.any_eq_false.mpr hnone).symm
  | some mapping =>
    have hmaps := List.find?_some h
    have hany : classes.any (·.maps name) = true :=
      List.any_eq_true.mpr ⟨mapping, List.mem_of_find?_eq_some h, hmaps⟩
    rw [hany]
    simp only [ClassMapping.maps, Bool.and_eq_true] at hmaps
    exact hmaps.2

theorem substitute_plain (classes : NameMappings) (name : ClassNameText) :
    ∀ c ∈ substitute classes.1 name.1, c ≠ 0x3B ∧ c ≠ 0 := by
  unfold substitute
  cases h : classes.1.find? (·.maps name.1) with
  | none => exact name.2
  | some mapping =>
    have hto := classes.2 mapping (List.mem_of_find?_eq_some h)
    cases hname : mapping.to_ with
    | none => simpa [hname] using name.2
    | some to_ => simpa [hname] using hto to_ hname

/-- What the mappings make of a class name. -/
def NameMappings.substitution (classes : NameMappings) (name : ClassNameText) : ClassNameText :=
  ⟨substitute classes.1 name.1, substitute_plain classes name⟩

/-- Some mapping gives this class name a new one. -/
def NameMappings.maps (classes : NameMappings) (name : ClassNameText) : Bool := classes.1.any (·.maps name.1)

/-! ## The scan on a descriptor -/

section Scan

variable (classes : NameMappings)

theorem remapDescriptor_fieldType (type : FieldType) (rest : Bytes) : remapDescriptor classes.1 (type.text ++ rest) =
    ((type.rename classes.substitution).text ++ (remapDescriptor classes.1 rest).1,
      type.classNames.any classes.maps || (remapDescriptor classes.1 rest).2) := by
  induction type with
  | base type =>
    have hletter : type.letter ≠ 0x4C := (letter_plain type).2
    exact remapDescriptor_char hletter rest
  | object name =>
    have hname : 0x3B ∉ name.1 := fun hmem => (name.2 _ hmem).1 rfl
    have htext : (FieldType.object name).text ++ rest = 0x4C :: (name.1 ++ 0x3B :: rest) := by simp [FieldType.text]
    rw [htext, remapDescriptor_object hname, mappedName_eq, lookupClass_isSome]
    simp [FieldType.rename, FieldType.text, FieldType.classNames, NameMappings.substitution, NameMappings.maps]
  | array component ih =>
    have hchar := @remapDescriptor_char classes.1 0x5B (by decide) (component.text ++ rest)
    rw [ih] at hchar
    exact hchar

theorem remapDescriptor_fieldTypes (types : List FieldType) (rest : Bytes) :
    remapDescriptor classes.1 (types.flatMap FieldType.text ++ rest) =
      ((types.map (FieldType.rename classes.substitution)).flatMap FieldType.text ++ (remapDescriptor classes.1 rest).1,
        (types.flatMap FieldType.classNames).any classes.maps || (remapDescriptor classes.1 rest).2) := by
  induction types with
  | nil => rfl
  | cons type types ih =>
    rw [List.flatMap_cons, List.append_assoc, remapDescriptor_fieldType, ih]
    simp only [List.map_cons, List.flatMap_cons, List.any_append, List.append_assoc, Bool.or_assoc]

theorem remapDescriptor_result (result : Option FieldType) : remapDescriptor classes.1 (resultText result) =
    (resultText (result.map (FieldType.rename classes.substitution)),
      (result.toList.flatMap FieldType.classNames).any classes.maps) := by
  cases result with
  | none => rfl
  | some type =>
    have htype := remapDescriptor_fieldType classes type []
    rw [List.append_nil, remapDescriptor_nil, List.append_nil, Bool.or_false] at htype
    rw [resultText, htype]
    simp [resultText]

/-- On the text of a descriptor the scan writes the text of the renamed one. -/
theorem remapDescriptor_text (d : Descriptor) : remapDescriptor classes.1 d.text =
    ((d.rename classes.substitution).text, d.classNames.any classes.maps) := by
  cases d with
  | field type =>
    have htype := remapDescriptor_fieldType classes type []
    rwa [List.append_nil, remapDescriptor_nil, List.append_nil, Bool.or_false] at htype
  | method d =>
    rw [Descriptor.text, MethodDescriptor.text, remapDescriptor_char (by decide), remapDescriptor_fieldTypes,
      remapDescriptor_char (by decide), remapDescriptor_result]
    simp [Descriptor.rename, Descriptor.text, MethodDescriptor.text, MethodDescriptor.rename, Descriptor.classNames,
      MethodDescriptor.classNames]

end Scan

/-! ## Texts that are no descriptors -/

/-- The scan finds the end of every class name. -/
inductive Terminated : Bytes → Prop
  | nil : Terminated []
  | char {c : UInt8} {rest : Bytes} : c ≠ 0x4C → Terminated rest → Terminated (c :: rest)
  | name {name rest : Bytes} : 0x3B ∉ name → Terminated rest → Terminated (0x4C :: (name ++ 0x3B :: rest))

/-- Otherwise it meets an `L` with no semicolon behind it. -/
theorem terminated_or_open (text : Bytes) :
    Terminated text ∨ ∃ before rest, text = before ++ 0x4C :: rest ∧ Terminated before ∧ 0x3B ∉ rest := by
  induction hlength : text.length using Nat.strong_induction_on generalizing text with
  | _ length ih =>
    subst hlength
    cases text with
    | nil => exact .inl .nil
    | cons c text =>
      by_cases hc : c = 0x4C
      · subst hc
        by_cases hsemicolon : 0x3B ∈ text
        · obtain ⟨name, after, rfl, hname⟩ := List.eq_append_cons_of_mem hsemicolon
          rcases ih after.length (by simp; omega) after rfl with h | ⟨before, rest, rfl, hbefore, hrest⟩
          · exact .inl (.name hname h)
          · exact .inr ⟨0x4C :: (name ++ 0x3B :: before), rest, by simp, .name hname hbefore, hrest⟩
        · exact .inr ⟨[], text, rfl, .nil, hsemicolon⟩
      · rcases ih text.length (by simp) text rfl with h | ⟨before, rest, rfl, hbefore, hrest⟩
        · exact .inl (.char hc h)
        · exact .inr ⟨c :: before, rest, rfl, .char hc hbefore, hrest⟩

theorem remapDescriptor_open {classes : List ClassMapping} {rest : Bytes} (h : 0x3B ∉ rest) :
    remapDescriptor classes (0x4C :: rest) = (0x4C :: rest, false) := by
  have hdrop : rest.dropWhile (· != 0x3B) = [] := by
    rw [List.dropWhile_eq_nil_iff]
    intro c hc
    simp only [bne_iff_ne, ne_eq]
    rintro rfl
    exact h hc
  rw [remapDescriptor, List.length_cons, remapDescriptorLoop, if_neg (by decide), hdrop]

/-- Behind the names whose end it finds the scan goes on as on a text of its own. -/
theorem Terminated.remapDescriptor {classes : List ClassMapping} {before : Bytes}
    (h : Terminated before) (rest : Bytes) :
    Jni2Hook.remapDescriptor classes (before ++ rest) =
      ((Jni2Hook.remapDescriptor classes before).1 ++ (Jni2Hook.remapDescriptor classes rest).1,
        (Jni2Hook.remapDescriptor classes before).2 || (Jni2Hook.remapDescriptor classes rest).2) := by
  induction h with
  | nil => simp [remapDescriptor_nil]
  | char hc _ ih => rw [List.cons_append, remapDescriptor_char hc, remapDescriptor_char hc, ih, List.cons_append]
  | @name name after hname _ ih =>
    rw [List.cons_append, List.append_assoc, List.cons_append, remapDescriptor_object hname,
      remapDescriptor_object hname, ih]
    simp [Bool.or_assoc]

/-! ## The substitution -/

/-- A descriptor is remapped by renaming its tree: every class name is replaced, once, by the first mapping for it, and
nothing else of the tree changes. Any other text is copied from the first `L` on whose class name does not end. -/
theorem remap_descriptor_substitutes (classes : NameMappings) :
    (∀ {input : Bytes} {d : Descriptor}, readDescriptor input = some d →
      ∃ d' : Descriptor, d' = d.rename classes.substitution ∧
        remapDescriptor classes.1 input = (d'.text, d.classNames.any classes.maps) ∧
        readDescriptor (remapDescriptor classes.1 input).1 = some d' ∧
        d'.classNames = d.classNames.map classes.substitution ∧
        (∀ name, d'.rename (fun _ => name) = d.rename fun _ => name) ∧
        (d.classNames.any classes.maps = false → (remapDescriptor classes.1 input).1 = input)) ∧
    (∀ {before rest : Bytes}, Terminated before → 0x3B ∉ rest →
      remapDescriptor classes.1 (before ++ 0x4C :: rest) =
        ((remapDescriptor classes.1 before).1 ++ 0x4C :: rest, (remapDescriptor classes.1 before).2)) ∧
    ∀ input : Bytes, Terminated input ∨
      ∃ before rest, input = before ++ 0x4C :: rest ∧ Terminated before ∧ 0x3B ∉ rest := by
  refine ⟨fun {input d} hread => ?_, fun {before rest} hbefore hrest => ?_, terminated_or_open⟩
  · cases readDescriptor_iff.mp hread
    have hremap := remapDescriptor_text classes d
    refine ⟨_, rfl, hremap, ?_, d.classNames_rename, fun name => d.rename_rename, fun hsame => ?_⟩
    · rw [hremap]
      exact readDescriptor_iff.mpr rfl
    · have hunchanged : (remapDescriptor classes.1 d.text).2 = false := by rw [hremap, hsame]
      exact remapDescriptorLoop_unchanged hunchanged
  · rw [hbefore.remapDescriptor, remapDescriptor_open hrest, Bool.or_false]

/-- With `B` mapped to `C` and `C` to `B`, `(LB;[LC;I)LD;` becomes `(LC;[LB;I)LD;`; `LB;LC` becomes `LC;LC`. -/
theorem remap_descriptor_swaps :
    remapDescriptor [⟨some (text "B"), some (text "C")⟩, ⟨some (text "C"), some (text "B")⟩] (text "(LB;[LC;I)LD;") =
        (text "(LC;[LB;I)LD;", true) ∧
      remapDescriptor [⟨some (text "B"), some (text "C")⟩, ⟨some (text "C"), some (text "B")⟩] (text "LB;LC") =
        (text "LC;LC", true) := by
  let classes : NameMappings :=
    ⟨[⟨some (text "B"), some (text "C")⟩, ⟨some (text "C"), some (text "B")⟩], by decide +kernel⟩
  let name (s : String) (h : ∀ c ∈ text s, c ≠ 0x3B ∧ c ≠ 0) : FieldType := .object ⟨text s, h⟩
  obtain ⟨htree, hopen, -⟩ := remap_descriptor_substitutes classes
  constructor
  · have hread : readDescriptor (text "(LB;[LC;I)LD;") = some (.method
        ⟨[name "B" (by decide +kernel), .array (name "C" (by decide +kernel)), .base .int],
          some (name "D" (by decide +kernel))⟩) := readDescriptor_iff.mpr rfl
    obtain ⟨d', rfl, hremap, -⟩ := htree hread
    exact hremap
  · have hname : Terminated (0x4C :: (text "B" ++ 0x3B :: [])) := .name (by decide +kernel) .nil
    have hcut := @hopen _ (text "C") hname (by decide +kernel)
    exact hcut

end Jni2Hook
