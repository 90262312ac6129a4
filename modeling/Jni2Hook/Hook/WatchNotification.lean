import Jni2Hook.Hook.WatchRegistration
import Mathlib.Data.List.Induction

/-!
# Which events the VM is asked for

`class_cache_set_watch_events` keeps one flag for two notification modes of the VM, ClassFileLoadHook and ClassPrepare;
`class_cache_ensure` switches the first of them for a capture. Creating and destroying watches goes through the flag.

* `setWatchEvents_on`, `setWatchEvents_off`: what the flag says after a call.
* `truthful_step`: the flag stays truthful unless exactly one of the two modes can be switched off.
* `watches_notified_iff`: along which runs every registered watch hears its events.
-/

namespace Jni2Hook

open Lib

/-! ## The source -/

/-- The two modes of the VM, and the flags of `class_cache.c`: whether there is a JVMTI environment, whether the
callbacks are set, whether events are on for watches (`g_watch_events`), and whether a capture is going on
(`g_capture_class`). -/
structure CacheEvents where
  fileLoadHook : Bool
  classPrepare : Bool
  jvmti : Bool := true
  started : Bool := true
  watchEvents : Bool := false
  capturing : Bool := false
  deriving DecidableEq, Repr

/-- `SetEventNotificationMode` for ClassFileLoadHook; a call that fails changes no mode. -/
def setFileLoadHook (c : CacheEvents) (mode answer : Bool) : CacheEvents :=
  if answer then { c with fileLoadHook := mode } else c

/-- The same for ClassPrepare. -/
def setClassPrepare (c : CacheEvents) (mode answer : Bool) : CacheEvents :=
  if answer then { c with classPrepare := mode } else c

/-- Which calls of one `class_cache_set_watch_events` succeed. -/
structure ModeAnswers where
  fileLoadHook : Bool := true
  classPrepare : Bool := true
  /-- ClassFileLoadHook is switched off again when ClassPrepare cannot be switched on. -/
  undo : Bool := true

/-- `class_cache_set_watch_events`. -/
def classCacheSetWatchEvents (c : CacheEvents) (enabled : Bool) (answers : ModeAnswers) : Bool × CacheEvents :=
  if !c.jvmti then (false, c)
  else if !c.started then (false, c)
  else if c.watchEvents == enabled then (true, c)
  else if enabled then
    let hooked := setFileLoadHook c true answers.fileLoadHook
    let both := if answers.fileLoadHook then setClassPrepare hooked true answers.classPrepare else hooked
    if answers.fileLoadHook && answers.classPrepare then (true, { both with watchEvents := true })
    else (false, setFileLoadHook both false answers.undo)
  else
    let unprepared := setClassPrepare c false answers.classPrepare
    -- a capture that is going on needs the hook
    let off := if c.capturing then unprepared else setFileLoadHook unprepared false answers.fileLoadHook
    if answers.classPrepare && (c.capturing || answers.fileLoadHook) then (true, { off with watchEvents := false })
    else (false, off)

/-- What one `class_cache_ensure` is given and is answered. -/
structure EnsureAnswers where
  klass : Bool := true
  env : Bool := true
  cached : Bool := false
  start : Bool := true
  modifiable : Bool := true
  globalRef : Bool := true
  enable : Bool := true
  retransform : Bool := true
  disable : Bool := true
  captured : Bool := true

/-- What `class_cache_ensure` does to the modes and the flags, and what it answers. -/
def classCacheEnsureModes (c : CacheEvents) (answers : EnsureAnswers) : Bool × CacheEvents :=
  if !answers.klass || !answers.env || !c.jvmti then (false, c)
  else if answers.cached then (true, c)
  else if !c.started && !answers.start then (false, c)
  else
    let started := { c with started := true }
    if !answers.modifiable || !answers.globalRef then (false, started)
    else
      let capturing := { started with capturing := true }
      if !answers.enable then (false, { capturing with capturing := false })
      else
        let hooked := setFileLoadHook capturing true true
        let ended := if hooked.watchEvents then hooked else setFileLoadHook hooked false answers.disable
        (answers.retransform && answers.captured, { ended with capturing := false })

/-- The watches and the events they live on. -/
structure NotificationSystem where
  system : WatchSystem := {}
  cache : CacheEvents

/-- `class_watch_create`, with the events that it switches on. -/
def createNotified (n : NotificationSystem) (pattern : Bytes) (alloc : Bool) (answers : ModeAnswers) :
    Jni2HookStatus × NotificationSystem :=
  match alloc, bytecodePatternCompile pattern with
  | false, .ok _ =>
    let switched := classCacheSetWatchEvents n.cache true answers
    let created := createWatch n.system pattern ⟨false, !switched.1⟩
    (created.1, ⟨created.2.2, switched.2⟩)
  -- nothing was registered yet
  | _, _ =>
    let created := createWatch n.system pattern ⟨alloc, false⟩
    (created.1, ⟨created.2.2, n.cache⟩)

/-- `class_watch_destroy`: with the last watch the events are switched off. -/
def destroyNotified (n : NotificationSystem) (id : WatchId) (answers : ModeAnswers) : NotificationSystem :=
  let system := classWatchDestroy n.system id
  ⟨system, if system.watches.isEmpty then (classCacheSetWatchEvents n.cache false answers).2 else n.cache⟩

/-- `class_watch_create_named`; the watch is destroyed again when the events cannot be switched on. -/
def createNamedNotified (n : NotificationSystem) (className methodName methodSignature : Bytes)
    (methodStatic alloc : Bool)
    (answers undo : ModeAnswers) : Jni2HookStatus × NotificationSystem :=
  if alloc then (.outOfMemory, n)
  else
    let listed := registerWatch n.system (namedWatch n.system.next className methodName methodSignature methodStatic)
    let switched := classCacheSetWatchEvents n.cache true answers
    if switched.1 then (.ok, ⟨listed, switched.2⟩)
    else (.jvmti, destroyNotified ⟨listed, switched.2⟩ n.system.next undo)

/-- What happens between the initialisation and the shutdown. -/
inductive NotificationStep
  | create (pattern : Bytes) (alloc : Bool) (answers : ModeAnswers)
  | createNamed (className methodName methodSignature : Bytes) (methodStatic alloc : Bool) (answers undo : ModeAnswers)
  | destroy (id : WatchId) (answers : ModeAnswers)
  | ensure (answers : EnsureAnswers)
  | vm (e : VmEvent)

/-- The steps that create a watch. -/
def NotificationStep.creates : NotificationStep → Bool
  | .create .. | .createNamed .. => true
  | _ => false

def notificationStep (n : NotificationSystem) : NotificationStep → NotificationSystem
  | .create pattern alloc answers => (createNotified n pattern alloc answers).2
  | .createNamed className methodName methodSignature methodStatic alloc answers undo =>
    (createNamedNotified n className methodName methodSignature methodStatic alloc answers undo).2
  | .destroy id answers => destroyNotified n id answers
  | .ensure answers => { n with cache := (classCacheEnsureModes n.cache answers).2 }
  | .vm e => { n with system := vmStep n.system e }

/-! ## The flag -/

/-- The flag is right about the two modes, and no capture is going on. -/
structure CacheEvents.Truthful (c : CacheEvents) : Prop where
  modes : c.watchEvents = true → c.fileLoadHook = true ∧ c.classPrepare = true
  running : c.watchEvents = true → c.jvmti = true ∧ c.started = true
  capturing : c.capturing = false

theorem CacheEvents.Truthful.of_clear {c : CacheEvents} (hclear : c.watchEvents = false)
    (hcapturing : c.capturing = false) :
    c.Truthful := by
  have hno : c.watchEvents ≠ true := by simp [hclear]
  exact ⟨fun h => absurd h hno, fun h => absurd h hno, hcapturing⟩

/-- Switching on sets the flag; when it fails, the flag was clear and stays so. -/
theorem setWatchEvents_on {c : CacheEvents} (h : c.Truthful) (answers : ModeAnswers) :
    (classCacheSetWatchEvents c true answers).2.Truthful ∧
      (classCacheSetWatchEvents c true answers).2.watchEvents = (classCacheSetWatchEvents c true answers).1 ∧
      ((classCacheSetWatchEvents c true answers).1 = false → c.watchEvents = false) := by
  cases hset : c.watchEvents with
  | true =>
    obtain ⟨hjvmti, hstarted⟩ := h.running hset
    have heq : classCacheSetWatchEvents c true answers = (true, c) := by
      simp [classCacheSetWatchEvents, hjvmti, hstarted, hset]
    rw [heq]
    exact ⟨h, hset, fun hno => by cases hno⟩
  | false =>
    unfold classCacheSetWatchEvents
    split
    · exact ⟨h, hset, fun _ => rfl⟩
    split
    · exact ⟨h, hset, fun _ => rfl⟩
    rename_i hjvmti hstarted
    rw [if_neg (by simp [hset]), if_pos rfl]
    dsimp only
    split
    · rename_i hboth
      rw [Bool.and_eq_true] at hboth
      refine ⟨⟨fun _ => ?_, fun _ => ?_, ?_⟩, rfl, fun hno => by cases hno⟩
      · simp [setFileLoadHook, setClassPrepare, hboth]
      · simpa [setFileLoadHook, setClassPrepare, hboth] using And.intro hjvmti hstarted
      · simpa [setFileLoadHook, setClassPrepare, hboth] using h.capturing
    · -- the hook may stay on, which does no harm
      refine ⟨.of_clear ?_ ?_, ?_, fun _ => rfl⟩ <;>
        cases answers.fileLoadHook <;> cases answers.classPrepare <;> cases answers.undo <;>
        simp [setFileLoadHook, setClassPrepare, hset, h.capturing]

/-- Switching off does nothing while the flag is clear. -/
theorem setWatchEvents_off_clear {c : CacheEvents} (hclear : c.watchEvents = false) (answers : ModeAnswers) :
    (classCacheSetWatchEvents c false answers).2 = c := by
  unfold classCacheSetWatchEvents
  split
  · rfl
  split
  · rfl
  · rw [if_pos (by simp [hclear])]

/-- What switching off does while it is set. -/
theorem setWatchEvents_off_set {c : CacheEvents} (h : c.Truthful) (hset : c.watchEvents = true)
    (answers : ModeAnswers) :
    (classCacheSetWatchEvents c false answers).2 =
      { c with
        classPrepare := !answers.classPrepare
        fileLoadHook := !answers.fileLoadHook
        watchEvents := !(answers.classPrepare && answers.fileLoadHook) } := by
  obtain ⟨hjvmti, hstarted⟩ := h.running hset
  obtain ⟨hhook, hprepare⟩ := h.modes hset
  have hcapturing := h.capturing
  obtain ⟨fileLoadHook, classPrepare, jvmti, started, watchEvents, capturing⟩ := c
  dsimp only at hjvmti hstarted hhook hprepare hcapturing hset
  subst hjvmti hstarted hhook hprepare hcapturing hset
  obtain ⟨hook, prepare, undo⟩ := answers
  cases hook <;> cases prepare <;> rfl

/-- The flag stays right when the modes are switched off together. -/
theorem setWatchEvents_off {c : CacheEvents} (h : c.Truthful) (answers : ModeAnswers)
    (htogether : c.watchEvents = true → answers.fileLoadHook = answers.classPrepare) :
    (classCacheSetWatchEvents c false answers).2.Truthful := by
  cases hset : c.watchEvents with
  | false =>
    rw [setWatchEvents_off_clear hset]
    exact h
  | true =>
    rw [setWatchEvents_off_set h hset, htogether hset]
    refine ⟨fun hstill => ?_, fun _ => h.running hset, h.capturing⟩
    simpa using hstill

/-- A capture leaves the hook on for watches. -/
theorem truthful_ensure {c : CacheEvents} (h : c.Truthful) (answers : EnsureAnswers) :
    (classCacheEnsureModes c answers).2.Truthful ∧ (classCacheEnsureModes c answers).2.watchEvents = c.watchEvents := by
  unfold classCacheEnsureModes
  split
  · exact ⟨h, rfl⟩
  split
  · exact ⟨h, rfl⟩
  split
  · exact ⟨h, rfl⟩
  have hstarted : ({ c with started := true } : CacheEvents).Truthful :=
    ⟨h.modes, fun hset => ⟨(h.running hset).1, rfl⟩, h.capturing⟩
  dsimp only
  split
  · exact ⟨hstarted, rfl⟩
  split
  · exact ⟨⟨hstarted.modes, hstarted.running, rfl⟩, rfl⟩
  · cases hset : c.watchEvents with
    | true =>
      obtain ⟨-, hprepare⟩ := h.modes hset
      simp only [setFileLoadHook, if_true]
      exact ⟨⟨fun _ => ⟨rfl, hprepare⟩, fun _ => ⟨(h.running hset).1, rfl⟩, rfl⟩, trivial⟩
    | false =>
      cases answers.disable <;> simp only [setFileLoadHook, if_true, Bool.false_eq_true, if_false] <;>
        exact ⟨.of_clear rfl rfl, trivial⟩

/-! ## Steps -/

/-- Both modes are on while a watch is registered. -/
def Notified (n : NotificationSystem) : Prop :=
  n.system.watches ≠ [] → n.cache.fileLoadHook = true ∧ n.cache.classPrepare = true

/-- The flag is right, and set while a watch is registered. -/
structure Truthful (n : NotificationSystem) : Prop where
  cache : n.cache.Truthful
  watches : n.system.watches ≠ [] → n.cache.watchEvents = true

theorem Truthful.notified {n : NotificationSystem} (h : Truthful n) : Notified n :=
  fun hne => h.cache.modes (h.watches hne)

/-- With the flag clear there is no watch. -/
theorem Truthful.watches_eq_nil {n : NotificationSystem} (h : Truthful n) (hclear : n.cache.watchEvents = false) :
    n.system.watches = [] := by
  by_contra hne
  have := h.watches hne
  rw [hclear] at this
  cases this

/-- When a destroyed watch was the last one, both modes can be switched off, or none of them. -/
def SwitchedTogether (n : NotificationSystem) : NotificationStep → Prop
  | .destroy id answers => (classWatchDestroy n.system id).watches = [] → n.cache.watchEvents = true →
      answers.fileLoadHook = answers.classPrepare
  | _ => True

theorem truthful_vm {n : NotificationSystem} (h : Truthful n) (e : VmEvent) :
    Truthful { n with system := vmStep n.system e } := by
  refine ⟨h.cache, fun hne => h.watches fun hnil => hne ?_⟩
  have hlength := (vmStep_forall₂ n.system e).length_eq
  rw [hnil] at hlength
  exact List.length_eq_zero_iff.mp hlength.symm

theorem truthful_destroy {n : NotificationSystem} (h : Truthful n) (id : WatchId) (answers : ModeAnswers)
    (htogether : SwitchedTogether n (.destroy id answers)) : Truthful (destroyNotified n id answers) := by
  unfold destroyNotified
  dsimp only
  split
  · rename_i hempty
    have hempty := List.isEmpty_iff.mp hempty
    exact ⟨setWatchEvents_off h.cache answers (htogether hempty), fun hne => absurd hempty hne⟩
  · refine ⟨h.cache, fun hne => h.watches fun hnil => hne ?_⟩
    show n.system.watches.filter _ = []
    rw [hnil]
    rfl

theorem truthful_create {n : NotificationSystem} (h : Truthful n) (pattern : Bytes) (alloc : Bool)
    (answers : ModeAnswers) : Truthful (createNotified n pattern alloc answers).2 := by
  unfold createNotified
  dsimp only
  split
  · rename_i compiled hcompile
    obtain ⟨hcache, hflag, hclear⟩ := setWatchEvents_on h.cache answers
    refine ⟨hcache, fun hne => ?_⟩
    refine hflag.trans ?_
    by_contra hno
    have hno : (classCacheSetWatchEvents n.cache true answers).1 = false := by simpa using hno
    -- a failed creation leaves the empty list it found
    have hnil := h.watches_eq_nil (hclear hno)
    simp [createWatch, hcompile, hno, registerWatch, hnil] at hne
  · rename_i alloc _ _ hnone
    refine ⟨h.cache, fun hne => h.watches ?_⟩
    dsimp only at hne
    obtain ⟨compiled, halloc, -, hcompile, -⟩ | ⟨_, _, hcreate, hwatches, -⟩ :=
      createWatch_cases n.system pattern ⟨alloc, false⟩
    · exact (hnone compiled halloc hcompile).elim
    · rw [hcreate] at hne
      rwa [← hwatches]

theorem truthful_createNamed {n : NotificationSystem} (h : Truthful n) (className methodName methodSignature : Bytes)
    (methodStatic alloc : Bool) (answers undo : ModeAnswers) :
    Truthful (createNamedNotified n className methodName methodSignature methodStatic alloc answers undo).2 := by
  unfold createNamedNotified
  split
  · exact h
  dsimp only
  obtain ⟨hcache, hflag, hclear⟩ := setWatchEvents_on h.cache answers
  split
  · rename_i hok
    exact ⟨hcache, fun _ => hflag.trans hok⟩
  · rename_i hno
    have hno : (classCacheSetWatchEvents n.cache true answers).1 = false := by simpa using hno
    have hnil := h.watches_eq_nil (hclear hno)
    -- the new watch was the only one, and the flag is clear
    have hempty : (classWatchDestroy (registerWatch n.system (namedWatch n.system.next className methodName
        methodSignature methodStatic)) n.system.next).watches = [] := by
      simp [classWatchDestroy, registerWatch, namedWatch, hnil]
    unfold destroyNotified
    dsimp only
    rw [hempty]
    refine ⟨setWatchEvents_off hcache undo fun hset => ?_, fun hne => absurd hempty hne⟩
    rw [hflag, hno] at hset
    cases hset

/-- A step keeps the flag right unless it switches off just one mode. -/
theorem truthful_step (n : NotificationSystem) (step : NotificationStep) (h : Truthful n)
    (htogether : SwitchedTogether n step) : Truthful (notificationStep n step) := by
  cases step with
  | create pattern alloc answers => exact truthful_create h pattern alloc answers
  | createNamed className methodName methodSignature methodStatic alloc answers undo =>
    exact truthful_createNamed h className methodName methodSignature methodStatic alloc answers undo
  | destroy id answers => exact truthful_destroy h id answers htogether
  | ensure answers =>
    obtain ⟨hcache, hflag⟩ := truthful_ensure h.cache answers
    exact ⟨hcache, fun hne => hflag.trans (h.watches hne)⟩
  | vm e => exact truthful_vm h e

/-! ## Runs -/

/-- The state after the initialisation; what mode the VM was left in does not matter. -/
def initialNotification (fileLoadHook classPrepare : Bool) : NotificationSystem := ⟨{}, { fileLoadHook, classPrepare }⟩

theorem truthful_initial (fileLoadHook classPrepare : Bool) :
    Truthful (initialNotification fileLoadHook classPrepare) :=
  ⟨.of_clear rfl rfl, fun hne => absurd rfl hne⟩

/-- The flag stays right along runs that switch the modes off together. -/
theorem truthful_run {n : NotificationSystem} (h : Truthful n) {steps : List NotificationStep}
    (htogether : AllMeet notificationStep SwitchedTogether n steps) : Truthful (runEvents notificationStep n steps) :=
  invariant_run (I := Truthful) (fun n step => truthful_step n step) h htogether

/-- When one mode was switched off and the other could not be, the flag is still set: the next watch is accepted, and
one mode is off. -/
theorem create_after_split {n : NotificationSystem} (h : Truthful n) {id : WatchId} {answers : ModeAnswers}
    (hsplit : ¬SwitchedTogether n (.destroy id answers)) {pattern : Bytes} {compiled : BytecodePattern}
    (hcompile : bytecodePatternCompile pattern = .ok compiled) (answers' : ModeAnswers) :
    (createNotified (destroyNotified n id answers) pattern false answers').1 = .ok ∧
      ¬Notified (createNotified (destroyNotified n id answers) pattern false answers').2 := by
  simp only [SwitchedTogether, Classical.not_imp] at hsplit
  obtain ⟨hempty, hset, hne⟩ := hsplit
  have hflag : (answers.classPrepare && answers.fileLoadHook) = false := by
    cases hp : answers.classPrepare <;> cases hf : answers.fileLoadHook <;> simp_all
  have hcache : (destroyNotified n id answers).cache =
      { n.cache with
        classPrepare := !answers.classPrepare
        fileLoadHook := !answers.fileLoadHook
        watchEvents := true } := by
    have hoff := setWatchEvents_off_set h.cache hset answers
    rw [hflag] at hoff
    simpa [destroyNotified, hempty] using hoff
  obtain ⟨hjvmti, hstarted⟩ := h.cache.running hset
  have hswitch : classCacheSetWatchEvents (destroyNotified n id answers).cache true answers' =
      (true, (destroyNotified n id answers).cache) := by
    rw [hcache]
    simp [classCacheSetWatchEvents, hjvmti, hstarted]
  unfold createNotified
  rw [hcompile]
  dsimp only
  rw [hswitch]
  refine ⟨by simp [createWatch, hcompile], fun hnotified => ?_⟩
  obtain ⟨hook, prepare⟩ := hnotified (by simp [createWatch, hcompile, registerWatch])
  rw [hcache] at hook prepare
  -- the two answers differ, so one of the modes is off
  refine hne ?_
  simp only [Bool.not_eq_true'] at hook prepare
  rw [hook, prepare]

/-- **Watches and their events.** For every run of creations, destructions, captures and events of the VM between the
initialisation and the shutdown, with any calls of `SetEventNotificationMode` failing: both modes are on whenever a
watch is registered, at every point of the run and behind every creation that could come next, if and only if no
destruction of the last watch switches off one mode while the other one cannot be. -/
theorem watches_notified_iff (fileLoadHook classPrepare : Bool) (steps : List NotificationStep) :
    AllMeet notificationStep SwitchedTogether (initialNotification fileLoadHook classPrepare) steps ↔
      ∀ before after, steps = before ++ after →
        Notified (runEvents notificationStep (initialNotification fileLoadHook classPrepare) before) ∧
        ∀ next : NotificationStep, next.creates = true → Notified (notificationStep
          (runEvents notificationStep (initialNotification fileLoadHook classPrepare) before) next) := by
  have hstart := truthful_initial fileLoadHook classPrepare
  constructor
  · rintro h before after rfl
    have hbefore := truthful_run hstart h.split.1
    refine ⟨hbefore.notified, fun next hcreates => (truthful_step _ next hbefore ?_).notified⟩
    cases next with
    | destroy id answers => cases hcreates
    | _ => trivial
  · induction steps using List.reverseRecOn with
    | nil => exact fun _ => trivial
    | append_singleton steps step ih =>
      intro h
      have hsteps := ih fun before after heq => h before (after ++ [step]) (by rw [heq, List.append_assoc])
      refine hsteps.append ⟨?_, trivial⟩
      by_contra hsplit
      cases step with
      | destroy id answers =>
        have hcompile : bytecodePatternCompile (text "??") = .ok [⟨0, 0⟩] := by decide +kernel
        have hdeaf := (create_after_split (truthful_run hstart hsteps) hsplit hcompile {}).2
        have hnext := (h (steps ++ [.destroy id answers]) [] (List.append_nil _).symm).2
          (.create (text "??") false {}) rfl
        rw [runEvents_append] at hnext
        exact hdeaf hnext
      | _ => exact hsplit trivial

/-- A watch is created and destroyed again, with ClassFileLoadHook staying on; the next watch is accepted and never
hears of a prepared class. -/
theorem accepted_without_prepare :
    let n := runEvents notificationStep (initialNotification false false)
      [.create (text "b1") false {}, .destroy 0 { fileLoadHook := false }]
    let created := createNotified n (text "b1") false {}
    created.1 = .ok ∧ created.2.system.watches.map (·.id) = [1] ∧ created.2.cache.fileLoadHook = true ∧
      created.2.cache.classPrepare = false ∧ ¬Notified created.2 := by
  refine ⟨by decide +kernel, by decide +kernel, by decide +kernel, by decide +kernel, fun h => ?_⟩
  have hprepare := (h (by decide +kernel)).2
  exact absurd hprepare (by decide +kernel)

end Jni2Hook
