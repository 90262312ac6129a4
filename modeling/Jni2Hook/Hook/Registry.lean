import Jni2Hook.ClassFile.Parser
import Jni2Hook.Hook.BytecodeScan
import Jni2Hook.Lib.Program
import Jni2Hook.Transform.ClassTransform

/-!
# The hook registry

The registry of `jni2hook.c` and the class cache of `class_cache.c`, beside the definitions that are live in the VM. A
call is a program on this state; what the VM and the allocator answer during a call is an argument of it. A call that
throws keeps the state it had reached, as the code does behind `goto done`.

* `rebuild`, `reapply`: the definition of a class under a list of hooks, and its way into the VM.
* `install`, `uninstallMatching`, `jni2hookShutdown`, `jni2hookRedefineClass`: the calls.
* `RegistryEvent`, `registryStep`: the calls as events of one machine.
-/

namespace Jni2Hook

open Lib

/-! ## Hooks and classes -/

/-- `hook_kind`. -/
inductive HookKind
  | makeNative | insertCall
  deriving DecidableEq, Repr

/-- The address of a callback. -/
abbrev NativeFunction := Nat

/-- `hook_entry`, without the trampoline and the copy's method id, which only the caller of `install` reads. -/
structure HookEntry where
  method : JMethodId
  name : Bytes
  signature : Bytes
  addedName : Bytes
  nativeFunction : NativeFunction
  isStatic : Bool
  bytecodeOffset : UInt32
  kind : HookKind
  deriving DecidableEq, Repr

/-- `hooked_class`. -/
structure HookedClass where
  klass : JClass
  hooks : List HookEntry
  deriving DecidableEq, Repr

/-- `cached_class`. -/
structure CachedClass where
  klass : JClass
  bytes : Bytes
  deriving DecidableEq, Repr

/-- The globals of `jni2hook.c` and `class_cache.c`, and the definitions that are live in the VM. -/
structure Registry where
  initialized : Bool
  classes : List HookedClass
  insertSerial : UInt64
  cache : List CachedClass
  vm : JClass → Bytes

/-- The calls of the interface. -/
abbrev Call := EStateM Jni2HookStatus Registry

/-- `find_entry` and `class_cache_get`. -/
def Registry.cachedBytes (s : Registry) (klass : JClass) : Option Bytes :=
  (s.cache.find? (·.klass == klass)).map (·.bytes)

/-- Every hook of every class, in the order of the arrays. -/
def Registry.hooks (s : Registry) : List HookEntry := s.classes.flatMap (·.hooks)

/-- A pointer into `g_classes`: the record and those on both sides of it. -/
structure Target where
  before : List HookedClass
  record : HookedClass
  after : List HookedClass
  deriving Repr

/-- The first record that passes a test. -/
def findTarget (p : HookedClass → Bool) : List HookedClass → Option Target
  | [] => none
  | c :: cs => if p c then some ⟨[], c, cs⟩ else (findTarget p cs).map fun t => { t with before := c :: t.before }

/-- The array with other hooks in the record. -/
def Target.withHooks (t : Target) (hooks : List HookEntry) : List HookedClass :=
  t.before ++ { t.record with hooks := hooks } :: t.after

/-- `drop_class`. -/
def Target.dropped (t : Target) : List HookedClass := t.before ++ t.after

def Registry.findClass (s : Registry) (klass : JClass) : Option Target := findTarget (·.klass == klass) s.classes

def Registry.findClassOfMethod (s : Registry) (method : Option JMethodId) : Option Target :=
  findTarget (fun c => c.hooks.any fun h => some h.method == method) s.classes

def Registry.methodConflicts (s : Registry) (method : JMethodId) (kind : HookKind) : Bool :=
  s.hooks.any fun h => h.method == method && (kind == .makeNative || h.kind == .makeNative)

/-! ## Rebuilding a definition -/

def strcmp : Bytes → Bytes → Ordering
  | [], [] => .eq
  | [], _ :: _ => .lt
  | _ :: _, [] => .gt
  | a :: as, b :: bs => (compare a b).then (strcmp as bs)

/-- `compare_insert_entries`: the larger offset of one method comes first. -/
def compareInsertEntries (left right : HookEntry) : Ordering :=
  ((strcmp left.name right.name).then (strcmp left.signature right.signature)).then
    (compare right.bytecodeOffset left.bytecodeOffset)

/-- The inner loop of the sort: the entry moves left past those that are larger. The sorted part is read backwards. -/
def placeInsert (entry : HookEntry) : List HookEntry → List HookEntry
  | [] => [entry]
  | last :: earlier => if compareInsertEntries entry last = .lt then last :: placeInsert entry earlier
    else entry :: last :: earlier

/-- The sort of the inserts. -/
def sortInserts (inserts : List HookEntry) : List HookEntry :=
  (inserts.foldl (fun sorted entry => placeInsert entry sorted) []).reverse

/-- The ways in which a rebuild fails. -/
inductive RebuildError
  | classFile | transform | outOfMemory
  deriving DecidableEq, Repr

def RebuildError.status : RebuildError → Jni2HookStatus
  | .classFile => .classFile
  | .transform => .transform
  | .outOfMemory => .outOfMemory

/-- `transform_result`. -/
def transformResult : TransformStatus → RebuildError
  | .classfile _ => .classFile
  | _ => .transform

/-- The transform of a hook. -/
def HookEntry.transform (h : HookEntry) : Transform Unit :=
  match h.kind with
  | .makeNative => classTransformMakeNative (some h.name) (some h.signature) (some h.addedName)
  | .insertCall => classTransformInsertCall (some h.name) (some h.signature) h.bytecodeOffset (some h.addedName)

/-- The replacements first, in the order of the array, then the inserts. -/
def applicationOrder (hooks : List HookEntry) : List HookEntry :=
  hooks.filter (·.kind == .makeNative) ++ sortInserts (hooks.filter (·.kind == .insertCall))

/-- The transforms of a list of hooks, one after the other. -/
def transformAll : List HookEntry → Transform Unit
  | [] => return
  | h :: hs => do
    h.transform
    transformAll hs

/-- The definition `reapply` makes of the cached bytes: the bytes themselves without a hook, else the transformed and
serialized tree, of which `RedefineClasses` is told the size as a `jint`. -/
def rebuild (original : Bytes) (hooks : List HookEntry) : Except RebuildError Bytes :=
  if hooks.isEmpty then .ok original
  else
    match classfileParse original with
    | .error _ => .error .classFile
    | .ok cf =>
      match transformAll (applicationOrder hooks) cf with
      | .error e _ => .error (transformResult e)
      | .ok _ cf' =>
        match classfileSerialize cf' with
        | .error _ => .error .classFile
        | .ok bytes => .ok (bytes.take (wrapI4 bytes.length).toNat)

/-! ## Into the VM -/

/-- The environments the thread of a call can have. -/
structure Environment where
  jvmti : Bool
  jni : Bool
  deriving DecidableEq, Repr

/-- What the outside answers during one `reapply`. When an allocation fails in a rebuild with hooks, `rebuilt` is what
the rebuild comes to; a failed allocation of `merge_state` is not reported, so that can be any definition. `bound` says
of a hook that `RegisterNatives`, and the lookup of the copy of a replaced method, succeed. -/
structure ReapplyAnswers where
  rebuilt : Option (Except RebuildError Bytes)
  redefined : Bool
  bound : HookEntry → Bool

/-- The definition that a `reapply` hands to the VM. -/
def ReapplyAnswers.definition (a : ReapplyAnswers) (original : Bytes) (hooks : List HookEntry) :
    Except RebuildError Bytes :=
  if hooks.isEmpty then .ok original else a.rebuilt.getD (rebuild original hooks)

/-- A class with a new live definition. -/
def Registry.redefine (s : Registry) (klass : JClass) (bytes : Bytes) : Registry :=
  { s with vm := fun k => if k = klass then bytes else s.vm k }

/-- `reapply` on the class of a record, with the first `count` of its hooks. -/
def reapply (env : Environment) (klass : JClass) (hooks : List HookEntry) (a : ReapplyAnswers) : Call Unit := do
  if env.jvmti = false then throw .noJvmti
  if env.jni = false then throw .noJni
  match (← get).cachedBytes klass with
  | none => throw .classNotCached
  | some original =>
    match a.definition original hooks with
    | .error e => throw e.status
    | .ok definition =>
      if a.redefined = false then throw .jvmti
      modify (·.redefine klass definition)
      if hooks.all a.bound = false then throw .jni

/-! ## Installing -/

/-- What the VM answers to `class_cache_ensure`: whether the capture can start, whether the load hook is called for the
class and stores its bytes, and what `RetransformClasses` returns. -/
structure CaptureAnswers where
  started : Bool
  stored : Bool
  retransformed : Bool
  deriving DecidableEq, Repr

/-- What the outside answers during one `install`. -/
structure InstallAnswers where
  env : Environment
  declaring : Option JClass
  className : Bool
  methodName : Option (Bytes × Bytes)
  strings : Bool
  addedName : Bool
  modifiers : Option UInt16
  capture : CaptureAnswers
  record : Bool
  hooksArray : Bool
  apply : ReapplyAnswers
  rollback : ReapplyAnswers

/-- `class_cache_ensure`. The load hook is handed the definition that is live. -/
def classCacheEnsure (klass : JClass) (a : CaptureAnswers) : Call Unit := do
  if ((← get).cachedBytes klass).isNone then
    if a.started = false then throw .classNotCached
    if a.stored then modify fun s => { s with cache := s.cache ++ [⟨klass, s.vm klass⟩] }
    if (a.stored && a.retransformed) = false then throw .classNotCached

/-- The name of the copy of a replaced method, or of the native method of an insert. -/
def addedName (kind : HookKind) (name : Bytes) (allocated : Bool) : Call Bytes := do
  if allocated = false then throw .outOfMemory
  match kind with
  | .makeNative => return name ++ text "$jni2hook"
  | .insertCall =>
    let serial := (← get).insertSerial
    modify fun s => { s with insertSerial := s.insertSerial + 1 }
    return text "$jni2hook$" ++ text (toString serial)

/-- The part of `install` before the record: the declaring class, its bytes in the cache, and the new entry. -/
def describeHook (method : JMethodId) (bytecodeOffset : UInt32) (nativeFunction : NativeFunction) (kind : HookKind)
    (a : InstallAnswers) : Call (JClass × HookEntry) := do
  match a.declaring with
  | none => throw .jvmti
  | some declaring =>
    if a.className = false then throw .jvmti
    match a.methodName with
    | none => throw .jvmti
    | some (name, signature) =>
      if a.strings = false then throw .outOfMemory
      let added ← addedName kind name a.addedName
      match a.modifiers with
      | none => throw .jvmti
      | some modifiers =>
        classCacheEnsure declaring a.capture
        return (declaring, ⟨method, name, signature, added, nativeFunction, hasFlag modifiers Acc.static_,
          bytecodeOffset, kind⟩)

/-- The record of a class, which is appended when there is none. -/
def openRecord (klass : JClass) (allocated : Bool) : Call Target := do
  match (← get).findClass klass with
  | some t => return t
  | none =>
    if allocated = false then throw .outOfMemory
    let classes := (← get).classes
    modify fun s => { s with classes := s.classes ++ [⟨klass, []⟩] }
    return ⟨classes, ⟨klass, []⟩, []⟩

/-- The rollback of `install`: the entry is taken out again, and the class is dropped or rebuilt without it. -/
def undoHook (t : Target) (a : InstallAnswers) : Call Unit := do
  if t.record.hooks.isEmpty then modify fun s => { s with classes := t.dropped }
  else
    modify fun s => { s with classes := t.withHooks t.record.hooks }
    tryCatch (reapply a.env t.record.klass t.record.hooks a.rollback) fun _ => return

/-- The end of `install`: the entry is in the array while the class is rebuilt. -/
def applyHook (t : Target) (entry : HookEntry) (a : InstallAnswers) : Call Unit := do
  if a.hooksArray = false then throw .outOfMemory
  let hooks := t.record.hooks ++ [entry]
  modify fun s => { s with classes := t.withHooks hooks }
  tryCatch (reapply a.env t.record.klass hooks a.apply) fun e => do
    undoHook t a
    throw e

def install (method : Option JMethodId) (bytecodeOffset : UInt32) (nativeFunction : Option NativeFunction)
    (kind : HookKind) (a : InstallAnswers) : Call Unit := do
  match method, nativeFunction with
  | some method, some nativeFunction =>
    if (← get).initialized = false then throw .notInitialized
    if a.env.jvmti = false then throw .noJvmti
    if a.env.jni = false then throw .noJni
    if (← get).methodConflicts method kind then throw .alreadyHooked
    let (declaring, entry) ← describeHook method bytecodeOffset nativeFunction kind a
    let target ← openRecord declaring a.record
    applyHook target entry a
  | _, _ => throw .transform

def jni2hookInstall (method : Option JMethodId) (nativeFunction : Option NativeFunction) (a : InstallAnswers) :
    Call Unit :=
  install method 0 nativeFunction .makeNative a

def jni2hookInstallAt (method : Option JMethodId) (bytecodeOffset : UInt32) (nativeFunction : Option NativeFunction)
    (a : InstallAnswers) : Call Unit :=
  install method bytecodeOffset nativeFunction .insertCall a

/-! ## Uninstalling -/

/-- The loop of `uninstall_matching` on `hooks[0..kept)`, `hooks[kept..i)` and `hooks[i..)`: an entry that stays is
swapped with the first of those moved aside. -/
def partitionHooks (matches_ : HookEntry → Bool) :
    List HookEntry → List HookEntry → List HookEntry → List HookEntry × List HookEntry
  | kept, aside, [] => (kept, aside)
  | kept, aside, entry :: rest =>
    if matches_ entry then partitionHooks matches_ kept (aside ++ [entry]) rest
    else
      match aside with
      | [] => partitionHooks matches_ (kept ++ [entry]) [] rest
      | moved :: others => partitionHooks matches_ (kept ++ [entry]) (others ++ [moved]) rest

/-- What the outside answers during one call of `uninstall_matching`. -/
structure UninstallAnswers where
  env : Environment
  apply : ReapplyAnswers

def uninstallMatching (method : Option JMethodId) (matches_ : HookEntry → Bool) (a : UninstallAnswers) :
    Call Unit := do
  if (← get).initialized = false then throw .notInitialized
  match (← get).findClassOfMethod method with
  | none => throw .notHooked
  | some t =>
    let (kept, aside) := partitionHooks matches_ [] [] t.record.hooks
    if kept.length = t.record.hooks.length then throw .notHooked
    tryCatch (reapply a.env t.record.klass kept a.apply) fun e => do
      modify fun s => { s with classes := t.withHooks (kept ++ aside) }
      throw e
    modify fun s => { s with classes := if kept.isEmpty then t.dropped else t.withHooks kept }

def matchesMethod (method : Option JMethodId) (entry : HookEntry) : Bool := some entry.method == method

def matchesInsert (method : JMethodId) (bytecodeOffset : UInt32) (nativeFunction : NativeFunction)
    (entry : HookEntry) : Bool :=
  entry.kind == .insertCall && entry.method == method && entry.bytecodeOffset == bytecodeOffset &&
    entry.nativeFunction == nativeFunction

def jni2hookUninstall (method : Option JMethodId) (a : UninstallAnswers) : Call Unit :=
  uninstallMatching method (matchesMethod method) a

def jni2hookUninstallAt (method : Option JMethodId) (bytecodeOffset : UInt32) (nativeFunction : Option NativeFunction)
    (a : UninstallAnswers) : Call Unit :=
  match method, nativeFunction with
  | some method, some nativeFunction =>
    uninstallMatching (some method) (matchesInsert method bytecodeOffset nativeFunction) a
  | _, _ => throw .notHooked

def jni2hookIsInstalled (s : Registry) (method : Option JMethodId) : Bool :=
  s.initialized && (s.findClassOfMethod method).isSome

/-! ## The other calls -/

/-- What the VM answers to `JNI2Hook_Init`. -/
structure InitAnswers where
  vmBound : Bool
  jni : Bool
  capabilities : Bool
  cacheStarted : Bool
  deriving DecidableEq, Repr

/-- `JNI2Hook_Init`, which leaves the registry alone but for the flag. -/
def jni2hookInit (a : InitAnswers) : Call Unit := do
  if (← get).initialized = false then
    if a.vmBound = false then throw .noJvmti
    if a.jni = false then throw .noJni
    if a.capabilities = false then throw .capabilities
    if a.cacheStarted = false then throw .jvmti
    modify fun s => { s with initialized := true }

/-- The loop of `JNI2Hook_Shutdown`, from the last class to the first; the first failure is kept. -/
def restoreClasses (env : Environment) (answers : JClass → ReapplyAnswers) :
    List HookedClass → Option Jni2HookStatus → Call (Option Jni2HookStatus)
  | [], failure => return failure
  | c :: earlier, failure => do
    let restored ← tryCatch (do reapply env c.klass [] (answers c.klass); return none) fun e => return some e
    modify fun s => { s with classes := earlier.reverse }
    restoreClasses env answers earlier (failure <|> restored)

def jni2hookShutdown (env : Environment) (answers : JClass → ReapplyAnswers) : Call Unit := do
  if (← get).initialized then
    let failure ← restoreClasses env answers (← get).classes.reverse none
    modify fun s => { s with classes := [], insertSerial := 0, cache := [], initialized := false }
    match failure with
    | some status => throw status
    | none => return

/-- `JNI2Hook_RedefineClass`. -/
def jni2hookRedefineClass (klass : Option JClass) (bytes : Option Bytes) (env : Environment) (redefined : Bool) :
    Call Unit := do
  match klass, bytes with
  | some klass, some bytes =>
    if bytes.length = 0 then throw .classFile
    if bytes.length > 0x7FFFFFFF then throw .classFile
    if (← get).initialized = false then throw .notInitialized
    if env.jvmti = false then throw .noJvmti
    if redefined = false then throw .jvmti
    modify (·.redefine klass bytes)
  | _, _ => throw .classFile

/-! ## The machine -/

/-- A call with what the outside answers during it. -/
inductive RegistryEvent
  | init (answers : InitAnswers)
  | install (method : Option JMethodId) (nativeFunction : Option NativeFunction) (answers : InstallAnswers)
  | installAt (method : Option JMethodId) (bytecodeOffset : UInt32) (nativeFunction : Option NativeFunction)
      (answers : InstallAnswers)
  | uninstall (method : Option JMethodId) (answers : UninstallAnswers)
  | uninstallAt (method : Option JMethodId) (bytecodeOffset : UInt32) (nativeFunction : Option NativeFunction)
      (answers : UninstallAnswers)
  | redefineClass (klass : Option JClass) (bytes : Option Bytes) (env : Environment) (redefined : Bool)
  | shutdown (env : Environment) (answers : JClass → ReapplyAnswers)

def RegistryEvent.call : RegistryEvent → Call Unit
  | .init a => jni2hookInit a
  | .install method nativeFunction a => jni2hookInstall method nativeFunction a
  | .installAt method bytecodeOffset nativeFunction a => jni2hookInstallAt method bytecodeOffset nativeFunction a
  | .uninstall method a => jni2hookUninstall method a
  | .uninstallAt method bytecodeOffset nativeFunction a => jni2hookUninstallAt method bytecodeOffset nativeFunction a
  | .redefineClass klass bytes env redefined => jni2hookRedefineClass klass bytes env redefined
  | .shutdown env answers => jni2hookShutdown env answers

/-- The state a call leaves behind, whatever it returns. -/
def registryStep (s : Registry) (e : RegistryEvent) : Registry := endState e.call s

/-- What a call returns. -/
def registryStatus (s : Registry) (e : RegistryEvent) : Jni2HookStatus :=
  match e.call s with
  | .ok _ _ => .ok
  | .error status _ => status

/-- Nothing hooked yet, and the definitions of the classes as they were loaded. -/
def Registry.start (loaded : JClass → Bytes) : Registry := ⟨false, [], 0, [], loaded⟩

end Jni2Hook
