import Jni2Hook.ClassFile.Node

/-!
# Bytecode patterns

`bytecode_scan.c`: compiling a textual pattern, looking for it in one byte string, in the methods of a parsed class file
and in the methods of a class the VM has prepared.
-/

namespace Jni2Hook

/-- `jni2hook_status`. -/
inductive Jni2HookStatus
  | ok | notInitialized | noJni | noJvmti | capabilities | jvmti | jni | javaException | classNotCached | classFile
  | transform | alreadyHooked | notHooked | invalidPattern | notFound | outOfMemory
  deriving DecidableEq, Repr

/-- The handles the VM gives out; `NULL` is `none` where the code can see it. -/
abbrev JClass := Nat
abbrev JObject := Nat
abbrev JMethodId := Nat

/-! ## Compiling -/

/-- One position of a `bytecode_pattern`: a zero mask matches every byte. -/
structure PatternByte where
  byte : UInt8
  mask : UInt8
  deriving DecidableEq, Repr

/-- `bytecode_pattern`. A zeroed one has length zero. -/
abbrev BytecodePattern := List PatternByte

def hexValue (value : UInt8) : Option UInt8 :=
  if 0x30 ≤ value ∧ value ≤ 0x39 then some (value - 0x30)
  else if 0x61 ≤ value ∧ value ≤ 0x66 then some (value - 0x61 + 10)
  else if 0x41 ≤ value ∧ value ≤ 0x46 then some (value - 0x41 + 10)
  else none

/-- `isspace` in the C locale. -/
def isSpace (c : UInt8) : Bool := c == 0x20 || (0x09 ≤ c && c ≤ 0x0D)

/-- The runs of non-space characters of a text, in order; `token` is the run read so far. -/
def patternTokens : Bytes → Bytes → List Bytes
  | [], token => if token.isEmpty then [] else [token]
  | c :: cs, token =>
    if isSpace c then (if token.isEmpty then [] else [token]) ++ patternTokens cs []
    else patternTokens cs (token ++ [c])

/-- One token: `?`, `??` or two hex digits. -/
def patternByte : Bytes → Except Jni2HookStatus PatternByte
  | [0x3F] => .ok ⟨0, 0⟩
  | [0x3F, 0x3F] => .ok ⟨0, 0⟩
  | [h, l] =>
    match hexValue h, hexValue l with
    | some high, some low => .ok ⟨(high <<< 4) ||| low, 0xFF⟩
    | _, _ => .error .invalidPattern
  | _ => .error .invalidPattern

/-- The second loop of `bytecode_pattern_compile`. -/
def patternBytes : List Bytes → Except Jni2HookStatus BytecodePattern
  | [] => .ok []
  | token :: rest => do
    let position ← patternByte token
    let positions ← patternBytes rest
    return position :: positions

/-- `bytecode_pattern_compile` on a C string. -/
def bytecodePatternCompile (text : Bytes) : Except Jni2HookStatus BytecodePattern :=
  match patternTokens text [] with
  | [] => .error .invalidPattern
  | tokens => patternBytes tokens

/-! ## Searching -/

/-- The inner loop of `bytecode_pattern_find`. -/
def patternMatches : BytecodePattern → Bytes → Bool
  | [], _ => true
  | p :: ps, b :: bs => (p.mask == 0 || b == p.byte) && patternMatches ps bs
  | _ :: _, [] => false

/-- The first offset at which the pattern matches. -/
def bytecodePatternFind (pattern : BytecodePattern) (bytes : Bytes) : Option Nat :=
  if bytes.length < pattern.length then none
  else (List.range (bytes.length - pattern.length + 1)).find? fun offset => patternMatches pattern (bytes.drop offset)

/-- The code array that `bytecode_pattern_find_in_class_file` looks at: a Code attribute too short for its own length
field is passed over. -/
def completeCode (cf : ClassFile) (method : MemberInfo) : Option Bytes :=
  match attributeListFind method.attributes cf.constantPool (text "Code") with
  | none => none
  | some code =>
    if code.attributeLength.toNat < 8 then none
    else
      let length := joinU4 (code.info.getD 4 0) (code.info.getD 5 0) (code.info.getD 6 0) (code.info.getD 7 0)
      if length.toNat + 8 > code.attributeLength.toNat then none
      else some ((code.info.drop 8).take length.toNat)

/-- The loop of `bytecode_pattern_find_in_class_file`, from the method of that index on. -/
def findInMethods (pattern : BytecodePattern) (cf : ClassFile) : List MemberInfo → Nat → Option (Nat × Nat)
  | [], _ => none
  | method :: rest, index =>
    match completeCode cf method with
    | none => findInMethods pattern cf rest (index + 1)
    | some code =>
      match bytecodePatternFind pattern code with
      | none => findInMethods pattern cf rest (index + 1)
      | some offset => some (index, offset)

/-- `bytecode_pattern_find_in_class_file`: the method's index and the offset in its code. -/
def bytecodePatternFindInClassFile (pattern : BytecodePattern) (cf : ClassFile) : Option (Nat × Nat) :=
  findInMethods pattern cf cf.methods 0

/-- A method as the VM shows it: its id and the answer of `GetBytecodes`, `none` for an error. -/
structure PreparedMethod where
  id : JMethodId
  bytecodes : Option Bytes
  deriving DecidableEq, Repr

/-- `scan_prepared_class` over the methods `GetClassMethods` answered. -/
def scanPreparedClass (pattern : BytecodePattern) : List PreparedMethod → Option (JMethodId × Nat)
  | [] => none
  | method :: rest =>
    match method.bytecodes with
    | none => scanPreparedClass pattern rest
    | some bytecode =>
      if bytecode.isEmpty then scanPreparedClass pattern rest
      else match bytecodePatternFind pattern bytecode with
        | none => scanPreparedClass pattern rest
        | some offset => some (method.id, offset)

/-- The loop of `bytecode_scan_find` over the loaded classes; `none` is a class whose methods are unavailable. -/
def scanLoadedClasses (pattern : BytecodePattern) : List (Option (List PreparedMethod)) → Option (JMethodId × Nat)
  | [] => none
  | none :: rest => scanLoadedClasses pattern rest
  | some methods :: rest =>
    match scanPreparedClass pattern methods with
    | some found => some found
    | none => scanLoadedClasses pattern rest

/-- A class without any complete code contains no pattern. -/
theorem findInMethods_eq_none {pattern : BytecodePattern} {cf : ClassFile} {methods : List MemberInfo}
    (h : ∀ m ∈ methods, completeCode cf m = none) (index : Nat) : findInMethods pattern cf methods index = none := by
  induction methods generalizing index with
  | nil => rfl
  | cons m rest ih =>
    have hm := h m List.mem_cons_self
    have hrest : ∀ m' ∈ rest, completeCode cf m' = none := fun m' hm' => h m' (List.mem_cons_of_mem _ hm')
    simp only [findInMethods, hm]
    exact ih hrest (index + 1)

end Jni2Hook
