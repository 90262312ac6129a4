import Jni2Hook.Hook.WatchStates

/-!
# Registering a watch

`JNI2Hook_WatchMethod` and `JNI2Hook_WatchMethodByName` from their arguments to their status. They hold the API lock,
but the VM goes on loading and preparing classes on other threads: its events come whenever the lock of the watches is
free.

* `createWatch_eq`, `createNamedWatch_eq`: creating a watch step by step agrees with the calls of the watch system.
* `vmEvents_forall₂`: what events do to each watch of the list.
* `watchMethod_failed_iff`: when a failed `JNI2Hook_WatchMethod` leaves no watch behind.
* `failed_registration_iff`: this for every state that can be reached, and both functions.
-/

namespace Jni2Hook

open Lib

/-! ## Events of the VM -/

/-- An event that the VM sends on another thread. -/
inductive VmEvent
  | load (loader : Option JObject) (classData : Bytes) (faults : LoadFaults)
  | prepare (klass : JClass) (prepared : PreparedClass) (faults : PrepareFaults)

/-- The call into `class_watch.c` that handles it. -/
def VmEvent.call : VmEvent → WatchCall
  | .load loader classData faults => .load loader classData faults
  | .prepare klass prepared faults => .prepare klass prepared faults

def vmStep (s : WatchSystem) (e : VmEvent) : WatchSystem := watchCall s e.call

def vmEvents (s : WatchSystem) (events : List VmEvent) : WatchSystem := runEvents vmStep s events

/-! ## The source -/

/-- `class_watch_create`: the watch is on the list before the events are switched on, and taken off it under the same
lock when they cannot be. -/
def createWatch (s : WatchSystem) (pattern : Bytes) (faults : CreateFaults) :
    Jni2HookStatus × Option WatchId × WatchSystem :=
  if faults.alloc then (.outOfMemory, none, s)
  else match bytecodePatternCompile pattern with
    | .error status => (status, none, s)
    | .ok compiled =>
      let listed := registerWatch s { id := s.next, pattern := compiled }
      if faults.events then (.jvmti, none, { listed with watches := listed.watches.tail })
      else (.ok, some s.next, listed)

/-- `class_watch_create_named`: here the lock is given up before the watch is destroyed, and `window` is what the VM
does in between. -/
def createNamedWatch (s : WatchSystem) (className methodName methodSignature : Bytes) (methodStatic : Bool)
    (faults : CreateFaults) (window : List VmEvent) : Jni2HookStatus × Option WatchId × WatchSystem :=
  if faults.alloc then (.outOfMemory, none, s)
  else
    let listed := registerWatch s (namedWatch s.next className methodName methodSignature methodStatic)
    if faults.events then (.jvmti, none, classWatchDestroy (vmEvents listed window) s.next)
    else (.ok, some s.next, listed)

/-- `bytecode_scan_find`. The pattern is compiled once more, which can run out of memory. -/
def bytecodeScanFind (pattern : Bytes) (compileFault : Bool) (scan : LoadedScan) :
    Except Jni2HookStatus (JMethodId × Nat) :=
  if compileFault then .error .outOfMemory
  else match bytecodePatternCompile pattern with
    | .error status => .error status
    | .ok compiled =>
      match scan.classes with
      | none => .error .jvmti
      | some classes =>
        match scanLoadedClasses compiled classes with
        | none => .error .notFound
        | some found => .ok found

/-- What `class_watch_resolve_loaded` returns. -/
def resolveLoadedStatus (s : WatchSystem) (id : WatchId) (method : JMethodId) (scan : LoadedScan) : Jni2HookStatus :=
  match s.watches.find? (·.id == id) with
  | none => .ok
  | some watch =>
    if watch.state = .ready then .ok
    else match scan.declaringClass method with
      | none => .jvmti
      | some _ => if scan.globalRef then .ok else .outOfMemory

/-- What the API functions look at first. -/
structure ApiContext where
  initialized : Bool := true
  env : Bool := true
  jvmti : Bool := true

/-- What the VM and the allocator answer to one `JNI2Hook_WatchMethod`, and its events during the scan. -/
structure WatchAnswers where
  create : CreateFaults := {}
  during : List VmEvent := []
  compileFault : Bool := false
  scan : LoadedScan

/-- The second half of `JNI2Hook_WatchMethod`, with a watch on the list. -/
def watchMethodFrom (created : WatchSystem) (id : WatchId) (pattern : Bytes) (answers : WatchAnswers) :
    Jni2HookStatus × Option WatchId × WatchSystem :=
  let scanned := vmEvents created answers.during
  match bytecodeScanFind pattern answers.compileFault answers.scan with
  | .ok (method, offset) =>
    let resolved := classWatchResolveLoaded scanned id method offset answers.scan
    match resolveLoadedStatus scanned id method answers.scan with
    | .ok => (.ok, some id, resolved)
    -- the other failures destroy the watch; this one leaves it on the list
    | status => (status, none, resolved)
  | .error .notFound => (.ok, some id, scanned)
  | .error status => (status, none, classWatchDestroy scanned id)

/-- `JNI2Hook_WatchMethod`: the status, the handle that is stored, and the watches. -/
def jni2hookWatchMethod (s : WatchSystem) (context : ApiContext) (pattern : Option Bytes) (outWatch : Bool)
    (answers : WatchAnswers) : Jni2HookStatus × Option WatchId × WatchSystem :=
  match pattern with
  | none => (.invalidPattern, none, s)
  | some pattern =>
    if !outWatch then (.invalidPattern, none, s)
    else if !context.initialized then (.notInitialized, none, s)
    else if !context.env then (.noJni, none, s)
    else if !context.jvmti then (.noJvmti, none, s)
    else match createWatch s pattern answers.create with
      | (.ok, some id, created) => watchMethodFrom created id pattern answers
      | (status, _, failed) => (status, none, failed)

/-- The texts that `JNI2Hook_WatchMethodByName` is given. -/
structure WatchNames where
  className : Option Bytes
  methodName : Option Bytes
  methodSignature : Option Bytes
  methodStatic : Bool

/-- `JNI2Hook_WatchMethodByName`. -/
def jni2hookWatchMethodByName (s : WatchSystem) (context : ApiContext) (names : WatchNames) (outWatch : Bool)
    (faults : CreateFaults) (window : List VmEvent) : Jni2HookStatus × Option WatchId × WatchSystem :=
  match names.className, names.methodName, names.methodSignature with
  | some className, some methodName, some methodSignature =>
    if !outWatch then (.notFound, none, s)
    else if !context.initialized then (.notInitialized, none, s)
    else if !context.env then (.noJni, none, s)
    else createNamedWatch s className methodName methodSignature names.methodStatic faults window
  | _, _, _ => (.notFound, none, s)

/-- What can happen: the calls of the API, each as a whole, and the events of the VM between them. -/
inductive RegistrationEvent
  | watchMethod (context : ApiContext) (pattern : Option Bytes) (outWatch : Bool) (answers : WatchAnswers)
  | watchMethodByName (context : ApiContext) (names : WatchNames) (outWatch : Bool) (faults : CreateFaults)
      (window : List VmEvent)
  | destroy (id : WatchId)
  | shutdown
  | vm (e : VmEvent)

def registrationStep (s : WatchSystem) : RegistrationEvent → WatchSystem
  | .watchMethod context pattern outWatch answers => (jni2hookWatchMethod s context pattern outWatch answers).2.2
  | .watchMethodByName context names outWatch faults window =>
    (jni2hookWatchMethodByName s context names outWatch faults window).2.2
  | .destroy id => classWatchDestroy s id
  | .shutdown => classWatchClear s
  | .vm e => vmStep s e

/-! ## What events do to the list -/

/-- What a watch can be after these events: each of them changes it as the VM can, or leaves it alone. -/
inductive AfterEvents : List VmEvent → MethodWatch → MethodWatch → Prop
  | nil (w : MethodWatch) : AfterEvents [] w w
  | cons {e : VmEvent} {events : List VmEvent} {s : WatchSystem} {w w₁ w₂ : MethodWatch}
      (hfirst : WatchChange s e.call w w₁) (hrest : AfterEvents events w₁ w₂) : AfterEvents (e :: events) w w₂

theorem AfterEvents.id_eq {events : List VmEvent} {w w' : MethodWatch} (h : AfterEvents events w w') :
    w'.id = w.id := by
  induction h with
  | nil => rfl
  | cons hfirst _ ih => rw [ih, hfirst.id_eq]

theorem AfterEvents.map_id {events : List VmEvent} {l l' : List MethodWatch}
    (h : List.Forall₂ (AfterEvents events) l l') :
    l'.map (·.id) = l.map (·.id) := by
  induction h with
  | nil => rfl
  | cons hw _ ih => rw [List.map_cons, List.map_cons, hw.id_eq, ih]

theorem load_forall₂ (s : WatchSystem) (loader : Option JObject) (classData : Bytes) (faults : LoadFaults) :
    List.Forall₂ (WatchChange s (.load loader classData faults)) s.watches
      (classWatchOnClassFileLoad loader classData faults s.watches) := by
  have hkept : List.Forall₂ (WatchChange s (.load loader classData faults)) s.watches s.watches :=
    List.forall₂_same.mpr fun w _ => .kept _ w
  unfold classWatchOnClassFileLoad
  split
  · exact hkept
  split
  · exact hkept
  split
  · exact hkept
  split
  · exact hkept
  · rename_i cf hcf
    rw [List.forall₂_map_right_iff, List.forall₂_same]
    intro w hw
    split
    · exact .load hw hcf ‹_›
    · exact .kept _ w

theorem prepare_forall₂ (s : WatchSystem) (klass : JClass) (prepared : PreparedClass) (faults : PrepareFaults) :
    List.Forall₂ (WatchChange s (.prepare klass prepared faults)) s.watches
      (classWatchOnClassPrepare klass prepared faults s.watches) := by
  unfold classWatchOnClassPrepare
  dsimp only
  split
  · rw [List.forall₂_map_right_iff, List.forall₂_same]
    exact fun w hw => .prepareWaiting hw
  · rw [List.map_map, List.forall₂_map_right_iff, List.forall₂_same]
    exact fun w hw => .prepare hw

/-- An event keeps the list, and changes each watch of it as the VM can. -/
theorem vmStep_forall₂ (s : WatchSystem) (e : VmEvent) :
    List.Forall₂ (WatchChange s e.call) s.watches (vmStep s e).watches := by
  cases e with
  | load loader classData faults => exact load_forall₂ s loader classData faults
  | prepare klass prepared faults => exact prepare_forall₂ s klass prepared faults

theorem AfterEvents.cons_forall₂ {e : VmEvent} {events : List VmEvent} {s : WatchSystem} {l l₁ l₂ : List MethodWatch}
    (h₁ : List.Forall₂ (WatchChange s e.call) l l₁) (h₂ : List.Forall₂ (AfterEvents events) l₁ l₂) :
    List.Forall₂ (AfterEvents (e :: events)) l l₂ := by
  induction h₁ generalizing l₂ with
  | nil =>
    cases h₂
    exact .nil
  | cons hfirst _ ih =>
    cases h₂ with
    | cons hw hrest => exact .cons (.cons hfirst hw) (ih hrest)

/-- So do events one after the other. -/
theorem vmEvents_forall₂ (events : List VmEvent) (s : WatchSystem) :
    List.Forall₂ (AfterEvents events) s.watches (vmEvents s events).watches := by
  induction events generalizing s with
  | nil => exact List.forall₂_same.mpr fun w _ => .nil w
  | cons e events ih => exact AfterEvents.cons_forall₂ (vmStep_forall₂ s e) (ih (vmStep s e))

theorem vmEvents_detached (events : List VmEvent) (s : WatchSystem) : (vmEvents s events).detached = s.detached := by
  induction events generalizing s with
  | nil => rfl
  | cons e events ih =>
    refine (ih (vmStep s e)).trans ?_
    cases e <;> rfl

/-! ## Creating and destroying -/

/-- The same watches as before, in the same order, changed by nothing but these events. -/
structure Restored (events : List VmEvent) (s s' : WatchSystem) : Prop where
  watches : List.Forall₂ (AfterEvents events) s.watches s'.watches
  detached : s'.detached = s.detached

theorem AfterEvents.kept (events : List VmEvent) (w : MethodWatch) : AfterEvents events w w := by
  induction events with
  | nil => exact .nil w
  | cons e events ih => exact .cons (s := {}) (.kept _ w) ih

theorem Restored.of_same (events : List VmEvent) {s s' : WatchSystem} (hwatches : s'.watches = s.watches)
    (hdetached : s'.detached = s.detached) : Restored events s s' := by
  refine ⟨?_, hdetached⟩
  rw [hwatches]
  exact List.forall₂_same.mpr fun w _ => .kept events w

/-- A list with one more watch on it is not the list before. -/
theorem Restored.length_eq {events : List VmEvent} {s s' : WatchSystem} (h : Restored events s s') :
    s'.watches.length = s.watches.length := h.watches.length_eq.symm

/-- Destroying the watch that was registered last restores the list, whatever the VM did in between. -/
theorem destroy_registered {s : WatchSystem} (hs : watchPopulation.Distinct s) {watch : MethodWatch}
    (hid : watch.id = s.next) (events : List VmEvent) :
    Restored events s (classWatchDestroy (vmEvents (registerWatch s watch) events) s.next) := by
  have hall := vmEvents_forall₂ events (registerWatch s watch)
  have hold : ∀ w ∈ s.handles, w.id < s.next := hs.below
  constructor
  · show List.Forall₂ (AfterEvents events) s.watches
      ((vmEvents (registerWatch s watch) events).watches.filter (·.id != s.next))
    generalize (vmEvents (registerWatch s watch) events).watches = after at hall
    cases hall with
    | cons hnew hrest =>
      rename_i new' rest'
      have hgone : new'.id = s.next := hnew.id_eq.trans hid
      have hkeep : rest'.filter (·.id != s.next) = rest' := by
        refine List.filter_eq_self.mpr fun w' hw' => ?_
        have hmem : w'.id ∈ s.watches.map (·.id) := by
          rw [← AfterEvents.map_id hrest]
          exact List.mem_map_of_mem hw'
        obtain ⟨w, hw, hsame⟩ := List.mem_map.mp hmem
        have hbelow := hold w (List.mem_append_left _ hw)
        simp only [bne_iff_ne]
        exact hsame ▸ Nat.ne_of_lt hbelow
      rw [List.filter_cons, hkeep]
      simpa [hgone] using hrest
  · have hdetached := vmEvents_detached events (registerWatch s watch)
    show (vmEvents (registerWatch s watch) events).detached.filter (·.id != s.next) = s.detached
    rw [hdetached]
    refine List.filter_eq_self.mpr fun w hw => ?_
    have hbelow := hold w (List.mem_append_right _ hw)
    simp only [bne_iff_ne]
    exact Nat.ne_of_lt hbelow

/-- Step by step, creating a watch does what the call of the watch system does. -/
theorem createWatch_eq (s : WatchSystem) (pattern : Bytes) (faults : CreateFaults) :
    createWatch s pattern faults = classWatchCreate s pattern faults := rfl

/-- Creating a watch by names is a call of the watch system, and a second one when the events cannot be switched on. -/
theorem createNamedWatch_eq (s : WatchSystem) (className methodName methodSignature : Bytes) (methodStatic : Bool)
    (faults : CreateFaults) (window : List VmEvent) :
    (createNamedWatch s className methodName methodSignature methodStatic faults window).2.2 =
      if faults.alloc = false ∧ faults.events = true then
        watchCall (vmEvents (watchCall s (.createNamed className methodName methodSignature methodStatic {})) window)
          (.destroy s.next)
      else watchCall s (.createNamed className methodName methodSignature methodStatic faults) := by
  obtain ⟨alloc, events⟩ := faults
  cases alloc <;> cases events <;> rfl

/-! ## Addresses -/

/-- A new watch gets an address of its own. -/
theorem distinct_register {s : WatchSystem} (hs : watchPopulation.Distinct s) {watch : MethodWatch}
    (hid : watch.id = s.next) : watchPopulation.Distinct (registerWatch s watch) := by
  have hbelow : ∀ w ∈ s.handles, w.id < s.next := hs.below
  constructor
  · intro w hw
    show w.id < s.next + 1
    rcases List.mem_cons.mp hw with rfl | hw
    · exact Nat.lt_succ_of_le (Nat.le_of_eq hid)
    · exact Nat.lt_succ_of_lt (hbelow w hw)
  · show (watch.id :: s.handles.map (·.id)).Nodup
    rw [hid]
    refine List.nodup_cons.mpr ⟨fun hmem => ?_, hs.nodup⟩
    obtain ⟨w, hw, hsame⟩ := List.mem_map.mp hmem
    exact Nat.ne_of_lt (hbelow w hw) hsame

theorem distinct_vmEvents {s : WatchSystem} (hs : watchPopulation.Distinct s) (events : List VmEvent) :
    watchPopulation.Distinct (vmEvents s events) :=
  invariant_run (I := watchPopulation.Distinct) (fun _ e hs _ => distinct_call hs e.call) hs
    (AllMeet.of_forall (fun _ _ => trivial) _ _)

theorem distinct_watchMethodFrom {created : WatchSystem} (hs : watchPopulation.Distinct created) (id : WatchId)
    (pattern : Bytes) (answers : WatchAnswers) :
    watchPopulation.Distinct (watchMethodFrom created id pattern answers).2.2 := by
  have hscanned := distinct_vmEvents hs answers.during
  unfold watchMethodFrom
  dsimp only
  split
  · split
    · exact distinct_call hscanned (.resolveLoaded _ _ _ _)
    · exact distinct_call hscanned (.resolveLoaded _ _ _ _)
  · exact hscanned
  · exact distinct_call hscanned (.destroy _)

theorem distinct_watchMethod {s : WatchSystem} (hs : watchPopulation.Distinct s) (context : ApiContext)
    (pattern : Option Bytes) (outWatch : Bool) (answers : WatchAnswers) :
    watchPopulation.Distinct (jni2hookWatchMethod s context pattern outWatch answers).2.2 := by
  unfold jni2hookWatchMethod
  split
  · exact hs
  split
  · exact hs
  split
  · exact hs
  split
  · exact hs
  split
  · exact hs
  · rename_i text _ _ _ _
    have hcreated := distinct_call hs (.create text answers.create)
    split
    · rename_i id created hcreate
      rw [watchCall, ← createWatch_eq, hcreate] at hcreated
      exact distinct_watchMethodFrom hcreated id text answers
    · rename_i status _ failed _ hcreate
      rw [watchCall, ← createWatch_eq, hcreate] at hcreated
      exact hcreated

theorem distinct_watchMethodByName {s : WatchSystem} (hs : watchPopulation.Distinct s) (context : ApiContext)
    (names : WatchNames) (outWatch : Bool) (faults : CreateFaults) (window : List VmEvent) :
    watchPopulation.Distinct (jni2hookWatchMethodByName s context names outWatch faults window).2.2 := by
  unfold jni2hookWatchMethodByName
  split
  · split
    · exact hs
    split
    · exact hs
    split
    · exact hs
    · rw [createNamedWatch_eq]
      split
      · exact distinct_call (distinct_vmEvents (distinct_call hs _) window) _
      · exact distinct_call hs _
  · exact hs

/-- Watches never share an address. -/
theorem distinct_registration (events : List RegistrationEvent) :
    watchPopulation.Distinct (runEvents registrationStep {} events) := by
  have hstep : ∀ s e, watchPopulation.Distinct s → True → watchPopulation.Distinct (registrationStep s e) := by
    intro s e hs _
    cases e with
    | watchMethod context pattern outWatch answers => exact distinct_watchMethod hs context pattern outWatch answers
    | watchMethodByName context names outWatch faults window =>
      exact distinct_watchMethodByName hs context names outWatch faults window
    | destroy id => exact distinct_call hs (.destroy id)
    | shutdown => exact distinct_call hs .clear
    | vm e => exact distinct_call hs e.call
  exact invariant_run hstep distinct_start (AllMeet.of_forall (fun _ _ => trivial) _ _)

/-! ## Failed registrations -/

/-- The scan finds a match, but the class of the method cannot be had, and no event made the new watch ready. -/
structure ResolveFails (s : WatchSystem) (context : ApiContext) (pattern : Bytes) (outWatch : Bool)
    (answers : WatchAnswers) (compiled : BytecodePattern) (method : JMethodId) (offset : Nat) : Prop where
  called : outWatch = true ∧ context.initialized = true ∧ context.env = true ∧ context.jvmti = true
  created : answers.create.alloc = false ∧ answers.create.events = false
  compiles : bytecodePatternCompile pattern = .ok compiled
  found : bytecodeScanFind pattern answers.compileFault answers.scan = .ok (method, offset)
  waits : ∀ w ∈ (vmEvents (registerWatch s { id := s.next, pattern := compiled }) answers.during).watches,
    w.id = s.next → w.state ≠ .ready
  unresolved : answers.scan.declaringClass method = none ∨ answers.scan.globalRef = false

/-- The handle that is given out, and the list that is left, when a call fails. -/
def LeavesNothing (events : List VmEvent) (s : WatchSystem) (result : Jni2HookStatus × Option WatchId × WatchSystem) :
    Prop :=
  result.1 ≠ .ok → result.2.1 = none ∧ Restored events s result.2.2

theorem LeavesNothing.unchanged (events : List VmEvent) (s : WatchSystem) (status : Jni2HookStatus) :
    LeavesNothing events s (status, none, s) := fun _ => ⟨rfl, .of_same events rfl rfl⟩

/-- A failed `class_watch_create` takes the watch off the list again. -/
theorem createWatch_cases (s : WatchSystem) (pattern : Bytes) (faults : CreateFaults) :
    (∃ compiled, faults.alloc = false ∧ faults.events = false ∧ bytecodePatternCompile pattern = .ok compiled ∧
      createWatch s pattern faults = (.ok, some s.next, registerWatch s { id := s.next, pattern := compiled })) ∨
    (∃ status s', createWatch s pattern faults = (status, none, s') ∧ s'.watches = s.watches ∧
      s'.detached = s.detached ∧
      ¬(faults.alloc = false ∧ faults.events = false ∧ ∃ compiled, bytecodePatternCompile pattern = .ok compiled)) := by
  unfold createWatch
  cases halloc : faults.alloc with
  | true => exact .inr ⟨.outOfMemory, s, rfl, rfl, rfl, by simp⟩
  | false =>
    cases hcompile : bytecodePatternCompile pattern with
    | error status => exact .inr ⟨status, s, rfl, rfl, rfl, by simp⟩
    | ok compiled =>
      cases hevents : faults.events with
      | true => exact .inr ⟨.jvmti, _, rfl, rfl, rfl, by simp⟩
      | false => exact .inl ⟨compiled, rfl, rfl, rfl, rfl⟩

/-- The watch with that address, as it is after the events. -/
theorem find_registered {s : WatchSystem} (hs : watchPopulation.Distinct s) {watch : MethodWatch}
    (hid : watch.id = s.next)
    (events : List VmEvent) : ∃ w, (vmEvents (registerWatch s watch) events).watches.find? (·.id == s.next) = some w ∧
      ∀ w' ∈ (vmEvents (registerWatch s watch) events).watches, w'.id = s.next → w' = w := by
  have hdistinct := distinct_vmEvents (distinct_register hs hid) events
  have hall := vmEvents_forall₂ events (registerWatch s watch)
  obtain ⟨new, rest, hlist, hnew⟩ : ∃ new rest, (vmEvents (registerWatch s watch) events).watches = new :: rest ∧
      new.id = s.next := by
    generalize (vmEvents (registerWatch s watch) events).watches = after at hall
    cases hall with
    | cons hfirst _ => exact ⟨_, _, rfl, hfirst.id_eq.trans hid⟩
  refine ⟨new, ?_, fun w' hw' hid' => ?_⟩
  · rw [hlist, List.find?_cons_of_pos (by simpa using hnew)]
  · refine hdistinct.eq (List.mem_append_left _ hw') (List.mem_append_left _ ?_) (hid'.trans hnew.symm)
    rw [hlist]
    exact List.mem_cons_self

/-- What `class_watch_resolve_loaded` says about the new watch. -/
theorem resolveLoadedStatus_eq {s : WatchSystem} (hs : watchPopulation.Distinct s) {watch : MethodWatch}
    (hid : watch.id = s.next) (events : List VmEvent) (method : JMethodId) (scan : LoadedScan) :
    resolveLoadedStatus (vmEvents (registerWatch s watch) events) s.next method scan ≠ .ok ↔
      (∀ w ∈ (vmEvents (registerWatch s watch) events).watches, w.id = s.next → w.state ≠ .ready) ∧
        (scan.declaringClass method = none ∨ scan.globalRef = false) := by
  obtain ⟨w, hfind, honly⟩ := find_registered hs hid events
  have hmem := List.mem_of_find?_eq_some hfind
  have hthis : w.id = s.next := by simpa using List.find?_some hfind
  unfold resolveLoadedStatus
  rw [hfind]
  dsimp only
  have hall : (∀ w' ∈ (vmEvents (registerWatch s watch) events).watches, w'.id = s.next → w'.state ≠ .ready) ↔
      w.state ≠ .ready := by
    constructor
    · exact fun h => h w hmem hthis
    · intro h w' hw' hid'
      rw [honly w' hw' hid']
      exact h
  rw [hall]
  split
  · rename_i hready
    simp [hready]
  · rename_i hwaits
    cases scan.declaringClass method with
    | none => simp [hwaits]
    | some klass => cases scan.globalRef <;> simp [hwaits]

/-- With the new watch on the list, the call fails without a trace unless the match cannot be resolved. -/
theorem watchMethodFrom_failed_iff {s : WatchSystem} (hs : watchPopulation.Distinct s) {watch : MethodWatch}
    (hid : watch.id = s.next) (pattern : Bytes) (answers : WatchAnswers) :
    LeavesNothing answers.during s (watchMethodFrom (registerWatch s watch) s.next pattern answers) ↔
      ¬∃ method offset, bytecodeScanFind pattern answers.compileFault answers.scan = .ok (method, offset) ∧
        (∀ w ∈ (vmEvents (registerWatch s watch) answers.during).watches, w.id = s.next → w.state ≠ .ready) ∧
        (answers.scan.declaringClass method = none ∨ answers.scan.globalRef = false) := by
  unfold watchMethodFrom
  dsimp only
  cases hfind : bytecodeScanFind pattern answers.compileFault answers.scan with
  | ok found =>
    obtain ⟨method, offset⟩ := found
    have hstatus := resolveLoadedStatus_eq hs hid answers.during method answers.scan
    have hsame : (∃ m o, (Except.ok (method, offset) : Except Jni2HookStatus _) = .ok (m, o) ∧
        (∀ w ∈ (vmEvents (registerWatch s watch) answers.during).watches, w.id = s.next → w.state ≠ .ready) ∧
        (answers.scan.declaringClass m = none ∨ answers.scan.globalRef = false)) ↔
        resolveLoadedStatus (vmEvents (registerWatch s watch) answers.during) s.next method answers.scan ≠ .ok := by
      rw [hstatus]
      constructor
      · rintro ⟨m, o, heq, h⟩
        cases heq
        exact h
      · exact fun h => ⟨method, offset, rfl, h⟩
    rw [hsame]
    dsimp only
    split
    · rename_i hok
      simp [LeavesNothing, hok]
    · rename_i hno
      constructor
      · intro h
        obtain ⟨-, hrestored⟩ := h hno
        -- the list has the failed watch in front of the older ones
        have hlength := hrestored.length_eq
        have hall := (vmEvents_forall₂ answers.during (registerWatch s watch)).length_eq
        rw [classWatchResolveLoaded, List.length_map, ← hall] at hlength
        exact absurd hlength (Nat.succ_ne_self _)
      · intro h
        exact absurd (not_not.mp h) hno
  | error status =>
    have hnone : ¬∃ m o, (Except.error status : Except Jni2HookStatus (JMethodId × Nat)) = .ok (m, o) ∧
        (∀ w ∈ (vmEvents (registerWatch s watch) answers.during).watches, w.id = s.next → w.state ≠ .ready) ∧
        (answers.scan.declaringClass m = none ∨ answers.scan.globalRef = false) := by
      rintro ⟨_, _, h, -⟩
      cases h
    refine iff_of_true ?_ hnone
    have hdestroyed : LeavesNothing answers.during s
        (status, none, classWatchDestroy (vmEvents (registerWatch s watch) answers.during) s.next) :=
      fun _ => ⟨rfl, destroy_registered hs hid answers.during⟩
    cases status with
    | notFound => exact fun h => absurd rfl h
    | _ => exact hdestroyed

/-- When a failed `JNI2Hook_WatchMethod` leaves no watch behind. -/
theorem watchMethod_failed_iff {s : WatchSystem} (hs : watchPopulation.Distinct s) (context : ApiContext)
    (pattern : Option Bytes) (outWatch : Bool) (answers : WatchAnswers) :
    LeavesNothing answers.during s (jni2hookWatchMethod s context pattern outWatch answers) ↔
      ¬∃ source compiled method offset, pattern = some source ∧
        ResolveFails s context source outWatch answers compiled method offset := by
  unfold jni2hookWatchMethod
  have unchanged (status : Jni2HookStatus) := LeavesNothing.unchanged answers.during s status
  split
  · exact iff_of_true (unchanged _) (by rintro ⟨_, _, _, _, h, -⟩; cases h)
  rename_i source
  split
  · rename_i hout
    exact iff_of_true (unchanged _) (by rintro ⟨_, _, _, _, -, h⟩; simp [h.called] at hout)
  split
  · rename_i hout
    exact iff_of_true (unchanged _) (by rintro ⟨_, _, _, _, -, h⟩; simp [h.called] at hout)
  split
  · rename_i hout
    exact iff_of_true (unchanged _) (by rintro ⟨_, _, _, _, -, h⟩; simp [h.called] at hout)
  split
  · rename_i hout
    exact iff_of_true (unchanged _) (by rintro ⟨_, _, _, _, -, h⟩; simp [h.called] at hout)
  rename_i hout hinitialized henv hjvmti
  obtain ⟨compiled, halloc, hevents, hcompile, hcreate⟩ | ⟨status, s', hcreate, hwatches, hdetached, hno⟩ :=
    createWatch_cases s source answers.create
  · rw [hcreate]
    dsimp only
    rw [watchMethodFrom_failed_iff hs rfl source answers, not_iff_not]
    constructor
    · rintro ⟨method, offset, hfound, hwaits, hunresolved⟩
      exact ⟨source, compiled, method, offset, rfl,
        ⟨⟨by simpa using hout, by simpa using hinitialized, by simpa using henv,
        by simpa using hjvmti⟩, ⟨halloc, hevents⟩, hcompile, hfound, hwaits, hunresolved⟩⟩
    · rintro ⟨_, compiled', method, offset, heq, h⟩
      cases heq
      have hsame := h.compiles
      rw [hcompile] at hsame
      cases hsame
      exact ⟨method, offset, h.found, h.waits, h.unresolved⟩
  · have hfailed : (match createWatch s source answers.create with
        | (.ok, some id, created) => watchMethodFrom created id source answers
        | (status, _, failed) => (status, none, failed)) = (status, none, s') := by
      rw [hcreate]
      cases status <;> rfl
    rw [hfailed]
    refine iff_of_true (fun _ => ⟨rfl, .of_same _ hwatches hdetached⟩) ?_
    rintro ⟨_, compiled, _, _, heq, h⟩
    cases heq
    exact hno ⟨h.created.1, h.created.2, compiled, h.compiles⟩

/-- A failed `JNI2Hook_WatchMethodByName` never does. -/
theorem watchMethodByName_failed {s : WatchSystem} (hs : watchPopulation.Distinct s) (context : ApiContext)
    (names : WatchNames) (outWatch : Bool) (faults : CreateFaults) (window : List VmEvent) :
    LeavesNothing window s (jni2hookWatchMethodByName s context names outWatch faults window) := by
  have unchanged (status : Jni2HookStatus) := LeavesNothing.unchanged window s status
  unfold jni2hookWatchMethodByName
  split
  · split
    · exact unchanged _
    split
    · exact unchanged _
    split
    · exact unchanged _
    · unfold createNamedWatch
      split
      · exact unchanged _
      dsimp only
      split
      · exact fun _ => ⟨rfl, destroy_registered hs rfl window⟩
      · exact fun h => absurd rfl h
  · exact unchanged _

/-- **Failed registrations.** In every state that can be reached, with every answer of the VM and the allocator, and
with every event on other threads: a failed `JNI2Hook_WatchMethodByName` stores no handle and leaves the list of watches
as it was, but for what events did to older watches; so does a failed `JNI2Hook_WatchMethod`, if and only if the scan of
the loaded classes has not found a method whose class cannot be had while the new watch is not ready. -/
theorem failed_registration_iff (events : List RegistrationEvent) (context : ApiContext) (outWatch : Bool) :
    (∀ names faults window, LeavesNothing window (runEvents registrationStep {} events)
      (jni2hookWatchMethodByName (runEvents registrationStep {} events) context names outWatch faults window)) ∧
    ∀ pattern answers, LeavesNothing answers.during (runEvents registrationStep {} events)
        (jni2hookWatchMethod (runEvents registrationStep {} events) context pattern outWatch answers) ↔
      ¬∃ source compiled method offset, pattern = some source ∧
        ResolveFails (runEvents registrationStep {} events) context source outWatch answers compiled method offset := by
  have hs := distinct_registration events
  exact ⟨fun names faults window => watchMethodByName_failed hs context names outWatch faults window,
    fun pattern answers => watchMethod_failed_iff hs context pattern outWatch answers⟩

/-- A watch for `b1` while a loaded class has that byte in a method, and `GetMethodDeclaringClass` fails: the call
answers `JNI2HOOK_ERR_JVMTI`, no handle is stored, and the failed watch stays on the list. -/
theorem failed_registration_leaves_watch :
    let result := jni2hookWatchMethod {} {} (some (text "b1")) true
      { scan := ⟨some [some [⟨9, some [0xB1]⟩]], fun _ => none, true⟩ }
    result.1 = .jvmti ∧ result.2.1 = none ∧ result.2.2.watches.map (·.state) = [.failed] ∧
      ¬LeavesNothing [] {} result := by
  refine ⟨by decide +kernel, by decide +kernel, by decide +kernel, fun h => ?_⟩
  have hno : (jni2hookWatchMethod {} {} (some (text "b1")) true
      { scan := ⟨some [some [⟨9, some [0xB1]⟩]], fun _ => none, true⟩ }).1 ≠ .ok := by decide +kernel
  have hlength := (h hno).2.length_eq
  have hone : (jni2hookWatchMethod {} {} (some (text "b1")) true
      { scan := ⟨some [some [⟨9, some [0xB1]⟩]], fun _ => none, true⟩ }).2.2.watches.length = 1 := by decide +kernel
  rw [hone] at hlength
  cases hlength

end Jni2Hook
