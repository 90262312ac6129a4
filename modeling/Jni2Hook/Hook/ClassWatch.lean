import Jni2Hook.ClassFile.Parser
import Jni2Hook.Hook.BytecodeScan
import Jni2Hook.Lib.Machine

/-!
# Method watches

`class_watch.c` as a state machine: watches are created and destroyed through the API while ClassFileLoadHook and
ClassPrepare events walk the one list they share. An event carries what the VM and the allocator answer while it is
handled; a call that is made once for each watch has one answer for each watch.
-/

namespace Jni2Hook

open Lib

abbrev WatchId := Nat

/-- `watch_state`. -/
inductive WatchState
  | waiting | captured | ready | failed | cancelled
  deriving DecidableEq, Repr

/-- `jni2hook_method_watch`; the fields default to what `calloc` leaves. The address of the object is its `id`. -/
structure MethodWatch where
  id : WatchId
  pattern : BytecodePattern := []
  state : WatchState := .waiting
  failure : Jni2HookStatus := .ok
  className : Option Bytes := none
  loader : Option JObject := none
  bootstrapLoader : Bool := false
  methodName : Option Bytes := none
  methodSignature : Option Bytes := none
  methodStatic : Bool := false
  declaringClass : Option JClass := none
  method : Option JMethodId := none
  offset : Nat := 0
  byName : Bool := false
  registered : Bool := false
  deriving DecidableEq, Repr

def releaseCandidate (watch : MethodWatch) : MethodWatch :=
  { watch with loader := none, className := none, methodName := none, methodSignature := none }

def releaseReady (watch : MethodWatch) : MethodWatch := { watch with declaringClass := none, method := none }

def failWatch (watch : MethodWatch) (failure : Jni2HookStatus) : MethodWatch :=
  { releaseReady (releaseCandidate watch) with failure := failure, state := .failed }

/-! ## ClassFileLoadHook -/

/-- The text a C string function sees in a Utf8 constant. -/
def duplicateUtf8 (pool : ConstantPool) (index : UInt16) : Option Bytes :=
  (constantPoolUtf8 pool index).map fun bytes => bytes.takeWhile (· != 0)

def classFileName (cf : ClassFile) : Option Bytes :=
  match constantPoolAt cf.constantPool cf.thisClass with
  | some (.classInfo nameIndex) => duplicateUtf8 cf.constantPool nameIndex
  | _ => none

/-- The failures that the allocator and `NewGlobalRef` show during a load event. -/
structure LoadFaults where
  /-- `classfile_parse` runs out of memory. -/
  parse : Bool := false
  /-- One of the copies for this watch cannot be made. -/
  candidate : WatchId → Bool := fun _ => false

/-- What the second loop of `class_watch_on_class_file_load` does to a waiting watch. -/
def captureCandidate (cf : ClassFile) (loader : Option JObject) (faults : LoadFaults) (watch : MethodWatch) :
    MethodWatch :=
  match bytecodePatternFindInClassFile watch.pattern cf with
  | none => watch
  | some (methodIndex, offset) =>
    match cf.methods[methodIndex]? with
    | none => watch
    | some method =>
      let candidate := { watch with
        className := classFileName cf
        methodName := duplicateUtf8 cf.constantPool method.nameIndex
        methodSignature := duplicateUtf8 cf.constantPool method.descriptorIndex
        methodStatic := memberInfoIsStatic method
        bootstrapLoader := loader.isNone
        loader := loader
        offset := offset }
      if candidate.className.isNone || candidate.methodName.isNone || candidate.methodSignature.isNone ||
          faults.candidate watch.id then failWatch candidate .outOfMemory
      else { candidate with state := .captured }

/-- The test of the first loop: some pattern watch is waiting. -/
def patternWaiting (watches : List MethodWatch) : Bool :=
  watches.any fun watch => !watch.byName && watch.state == .waiting

/-- `class_watch_on_class_file_load` on the list of watches. -/
def classWatchOnClassFileLoad (loader : Option JObject) (classData : Bytes) (faults : LoadFaults)
    (watches : List MethodWatch) : List MethodWatch :=
  if classData.isEmpty then watches
  else if !patternWaiting watches then watches
  else if faults.parse then watches
  else match classfileParse classData with
    | .error _ => watches
    | .ok cf => watches.map fun watch =>
        -- no `by_name` test here, unlike the loop that looks for a waiting watch
        if watch.state = .waiting then captureCandidate cf loader faults watch else watch

/-! ## ClassPrepare -/

/-- What the VM shows of a class. -/
structure PreparedClass where
  signature : Bytes
  loader : Option JObject
  methods : List PreparedMethod
  methodId : Bytes → Bytes → Option JMethodId
  staticMethodId : Bytes → Bytes → Option JMethodId

/-- The name without its `L` and `;`, as `jvm_class_name_of` strips them. -/
def jvmClassNameOf (signature : Bytes) : Bytes :=
  if 2 ≤ signature.length ∧ signature.head? = some 0x4C ∧ signature.getLast? = some 0x3B then
    (signature.drop 1).take (signature.length - 2)
  else signature

/-- The internal name of a class. -/
def PreparedClass.internalName (prepared : PreparedClass) : Bytes := jvmClassNameOf prepared.signature

/-- `GetStaticMethodID` or `GetMethodID`. -/
def PreparedClass.getMethodId (prepared : PreparedClass) (isStatic : Bool) (name signature : Bytes) :
    Option JMethodId :=
  if isStatic then prepared.staticMethodId name signature else prepared.methodId name signature

/-- The failures of the VM and the allocator during a prepare event. -/
structure PrepareFaults where
  /-- `jvm_class_name_of` answers `NULL` when asked for this watch. -/
  name : WatchId → Bool := fun _ => false
  /-- `Get(Static)MethodID` answers `NULL` although the method is there. -/
  methodId : WatchId → Bool := fun _ => false
  /-- `GetClassMethods` fails for this watch's scan. -/
  methods : WatchId → Bool := fun _ => false
  /-- `NewGlobalRef` answers `NULL` for this watch. -/
  globalRef : WatchId → Bool := fun _ => false
  /-- The name or the loader of the class is unavailable to the second half. -/
  classOrLoader : Bool := false

/-- The method id lookup for a watch that holds its names. -/
def resolveMethod (prepared : PreparedClass) (faults : PrepareFaults) (watch : MethodWatch) : Option JMethodId :=
  if faults.methodId watch.id then none
  else match watch.methodName, watch.methodSignature with
    | some name, some signature => prepared.getMethodId watch.methodStatic name signature
    | _, _ => none

/-- What the first loop finds for a waiting watch. -/
def matchPrepared (prepared : PreparedClass) (faults : PrepareFaults) (watch : MethodWatch) :
    Option (JMethodId × Nat) :=
  if watch.byName then
    if !faults.name watch.id && watch.className == some prepared.internalName then
      (resolveMethod prepared faults watch).map fun method => (method, 0)
    else none
  else if faults.methods watch.id then none
  else scanPreparedClass watch.pattern prepared.methods

/-- The first loop of `class_watch_on_class_prepare`. -/
def prepareWaiting (klass : JClass) (prepared : PreparedClass) (faults : PrepareFaults) (watch : MethodWatch) :
    MethodWatch :=
  if watch.state ≠ .waiting then watch
  else match matchPrepared prepared faults watch with
    | none => watch
    | some (method, offset) =>
      if faults.globalRef watch.id then failWatch watch .outOfMemory
      else { watch with declaringClass := some klass, method := some method, offset := offset, state := .ready }

/-- The loader test of the second loop. -/
def loaderMatches (watch : MethodWatch) (prepared : PreparedClass) : Bool :=
  if watch.bootstrapLoader then prepared.loader.isNone
  else prepared.loader.isSome && watch.loader == prepared.loader

/-- The second loop of `class_watch_on_class_prepare`. -/
def prepareCaptured (klass : JClass) (prepared : PreparedClass) (faults : PrepareFaults) (watch : MethodWatch) :
    MethodWatch :=
  if watch.state ≠ .captured ∨ watch.className ≠ some prepared.internalName then watch
  else if !loaderMatches watch prepared then watch
  else match resolveMethod prepared faults watch with
    | none => failWatch watch .jni
    | some method =>
      if faults.globalRef watch.id then failWatch watch .outOfMemory
      else { releaseCandidate watch with declaringClass := some klass, method := some method, state := .ready }

/-- `class_watch_on_class_prepare` on the list of watches. -/
def classWatchOnClassPrepare (klass : JClass) (prepared : PreparedClass) (faults : PrepareFaults)
    (watches : List MethodWatch) : List MethodWatch :=
  let scanned := watches.map (prepareWaiting klass prepared faults)
  if faults.classOrLoader then scanned else scanned.map (prepareCaptured klass prepared faults)

/-! ## The system -/

/-- The registered watches in list order, the watches `class_watch_clear` took off the list, and the watch and the
pattern text of a `JNI2Hook_WatchMethod` call that still scans the loaded classes (it holds the API lock meanwhile). -/
structure WatchSystem where
  watches : List MethodWatch := []
  detached : List MethodWatch := []
  scanning : Option (WatchId × Bytes) := none
  next : WatchId := 0
  deriving DecidableEq, Repr

/-- The failures of the allocator and of `class_cache_set_watch_events` while a watch is created. -/
structure CreateFaults where
  alloc : Bool := false
  events : Bool := false

/-- Puts a watch in front of the list, as both `class_watch_create*` functions do. -/
def registerWatch (s : WatchSystem) (watch : MethodWatch) : WatchSystem :=
  { s with watches := { watch with registered := true } :: s.watches, next := s.next + 1 }

/-- The watch that `class_watch_create_named` sets up. -/
def namedWatch (id : WatchId) (className methodName methodSignature : Bytes) (methodStatic : Bool) : MethodWatch where
  id := id
  byName := true
  className := some className
  methodName := some methodName
  methodSignature := some methodSignature
  methodStatic := methodStatic

/-- `class_watch_create_named`. -/
def classWatchCreateNamed (s : WatchSystem) (className methodName methodSignature : Bytes) (methodStatic : Bool)
    (faults : CreateFaults) : Jni2HookStatus × Option WatchId × WatchSystem :=
  if faults.alloc then (.outOfMemory, none, s)
  -- the registered watch is destroyed again when the events cannot be switched on
  else if faults.events then (.jvmti, none, { s with next := s.next + 1 })
  else (.ok, some s.next, registerWatch s (namedWatch s.next className methodName methodSignature methodStatic))

/-- `class_watch_create`. -/
def classWatchCreate (s : WatchSystem) (pattern : Bytes) (faults : CreateFaults) :
    Jni2HookStatus × Option WatchId × WatchSystem :=
  if faults.alloc then (.outOfMemory, none, s)
  else match bytecodePatternCompile pattern with
    | .error status => (status, none, s)
    | .ok compiled =>
      if faults.events then (.jvmti, none, { s with next := s.next + 1 })
      else (.ok, some s.next, registerWatch s { id := s.next, pattern := compiled })

/-- `class_watch_destroy`, on a registered watch and on a detached one. -/
def classWatchDestroy (s : WatchSystem) (id : WatchId) : WatchSystem :=
  { s with watches := s.watches.filter (·.id != id), detached := s.detached.filter (·.id != id) }

/-- `class_watch_clear`. -/
def classWatchClear (s : WatchSystem) : WatchSystem :=
  { s with
    watches := []
    detached := s.watches.map (fun watch =>
      { releaseReady (releaseCandidate watch) with registered := false, state := .cancelled }) ++ s.detached }

/-- What the scan of the loaded classes answers: the classes, and what `GetMethodDeclaringClass` and `NewGlobalRef` say
about a match. `none` is a failed `GetLoadedClasses`. -/
structure LoadedScan where
  classes : Option (List (Option (List PreparedMethod)))
  declaringClass : JMethodId → Option JClass
  globalRef : Bool

/-- `class_watch_resolve_loaded` on one watch. -/
def resolveLoaded (scan : LoadedScan) (method : JMethodId) (offset : Nat) (watch : MethodWatch) : MethodWatch :=
  if watch.state = .ready then watch
  else match scan.declaringClass method with
    | none => failWatch watch .jvmti
    | some declaring =>
      if !scan.globalRef then failWatch watch .outOfMemory
      else { releaseReady (releaseCandidate watch) with
        declaringClass := some declaring, method := some method, offset := offset, state := .ready }

/-- The second half of `JNI2Hook_WatchMethod`, for the watch its first half registered. -/
def watchMethodScan (s : WatchSystem) (id : WatchId) (text : Bytes) (scan : LoadedScan) : WatchSystem :=
  let done := { s with scanning := none }
  match bytecodePatternCompile text, scan.classes with
  | .ok pattern, some classes =>
    match scanLoadedClasses pattern classes with
    | none => done
    | some (method, offset) =>
      { done with watches := s.watches.map fun watch =>
          if watch.id = id then resolveLoaded scan method offset watch else watch }
  | _, _ => classWatchDestroy done id

/-- What can happen to the watches. The API calls hold one lock, so they wait while a scan is going on. -/
inductive WatchEvent
  | watchMethodByName (className methodName methodSignature : Bytes) (methodStatic : Bool) (faults : CreateFaults)
  | watchMethod (pattern : Bytes) (faults : CreateFaults)
  | scanDone (scan : LoadedScan)
  | destroy (id : WatchId)
  | shutdown
  | load (loader : Option JObject) (classData : Bytes) (faults : LoadFaults)
  | prepare (klass : JClass) (prepared : PreparedClass) (faults : PrepareFaults)

/-- One event. -/
def watchStep (s : WatchSystem) : WatchEvent → WatchSystem
  | .watchMethodByName className methodName methodSignature methodStatic faults =>
    if s.scanning.isSome then s
    else (classWatchCreateNamed s className methodName methodSignature methodStatic faults).2.2
  | .watchMethod pattern faults =>
    if s.scanning.isSome then s
    else
      let created := classWatchCreate s pattern faults
      { created.2.2 with scanning := created.2.1.map fun id => (id, pattern) }
  | .scanDone scan =>
    match s.scanning with
    | none => s
    | some (id, text) => watchMethodScan s id text scan
  | .destroy id => if s.scanning.isSome then s else classWatchDestroy s id
  | .shutdown => if s.scanning.isSome then s else classWatchClear s
  | .load loader classData faults => { s with watches := classWatchOnClassFileLoad loader classData faults s.watches }
  | .prepare klass prepared faults =>
    { s with watches := classWatchOnClassPrepare klass prepared faults s.watches }

/-- All watches that exist. -/
def WatchSystem.handles (s : WatchSystem) : List MethodWatch := s.watches ++ s.detached

end Jni2Hook
