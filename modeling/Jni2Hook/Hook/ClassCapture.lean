import Jni2Hook.Hook.Registry
import Jni2Hook.Lib.Machine
import Mathlib.Data.List.Induction

/-!
# Capturing definitions

The class cache of `class_cache.c`, load event by load event. While a class is retransformed the VM may also load and
retransform others, and it names the class that is being redefined in events that are not about it.

* `ClassCache.ensure`, `ClassCache.onClassFileLoad`: a capture and the events it lives on.
* `cache_holds_captures`: what is in the cache after a run of calls and events.
* `capture_refines`: the registry's cache is a view of this one.
-/

namespace Jni2Hook

open Lib

/-! ## The source -/

/-- `cached_class`, with its name. -/
structure CapturedClass where
  klass : JClass
  className : Bytes
  bytes : Bytes
  deriving DecidableEq, Repr

/-- The globals of `class_cache.c`; the flag for the watches is in a module of its own. -/
structure ClassCache where
  entries : List CapturedClass
  captureClass : Option JClass
  captureName : Option Bytes
  captured : Bool
  started : Bool
  deriving DecidableEq, Repr

/-- A ClassFileLoadHook event, and whether every allocation of a `store` for it succeeds. -/
structure FileLoad where
  env : Bool
  redefined : Option JClass
  name : Option Bytes
  data : Option Bytes
  allocated : Bool
  deriving DecidableEq, Repr

namespace ClassCache

def findEntry (c : ClassCache) (klass : JClass) : Option CapturedClass := c.entries.find? (·.klass == klass)

/-- `store`: the first definition of a class is kept. -/
def store (c : ClassCache) (klass : JClass) (className bytes : Bytes) (allocated : Bool) : Bool × ClassCache :=
  if (c.findEntry klass).isSome then (true, c)
  else if allocated = false then (false, c)
  else (true, { c with entries := c.entries ++ [⟨klass, className, bytes⟩] })

/-- `on_class_file_load`; a class that is not being redefined goes to the watches. -/
def onClassFileLoad (c : ClassCache) (load : FileLoad) : ClassCache :=
  match load.env, load.data, load.redefined, load.name with
  | true, some data, some klass, some name =>
    if c.captureClass = some klass ∧ c.captureName = some name then
      let stored := c.store klass name data load.allocated
      if stored.1 then { stored.2 with captured := true } else stored.2
    else c
  | _, _, _, _ => c

/-- `class_cache_start`; `callbacks` is whether the VM takes them. -/
def start (c : ClassCache) (jvmti callbacks : Bool) : Bool × ClassCache :=
  if jvmti = false then (false, c)
  else if c.started then (true, c)
  else if callbacks = false then (false, c)
  else (true, { c with started := true })

/-- `class_cache_stop`. -/
def stop (c : ClassCache) : ClassCache := { c with started := false, captured := false }

end ClassCache

/-- What one `class_cache_ensure` is answered, and the load events that come while the class is retransformed. -/
structure CaptureCalls where
  env : Bool
  jvmti : Bool
  callbacks : Bool
  modifiable : Bool
  globalRef : Bool
  enabled : Bool
  loads : List FileLoad
  retransformed : Bool
  deriving DecidableEq, Repr

namespace ClassCache

/-- `class_cache_ensure`. -/
def ensure (c : ClassCache) (klass : Option JClass) (className : Option Bytes) (a : CaptureCalls) : Bool × ClassCache :=
  match klass with
  | none => (false, c)
  | some klass =>
    if a.env = false ∨ a.jvmti = false then (false, c)
    else if (c.findEntry klass).isSome then (true, c)
    else
      let started := c.start a.jvmti a.callbacks
      if started.1 = false then (false, started.2)
      else if a.modifiable = false then (false, started.2)
      else if a.globalRef = false then
        (false, { started.2 with captureClass := none, captureName := className, captured := false })
      else
        let opened := { started.2 with captureClass := some klass, captureName := className, captured := false }
        let loaded := if a.enabled then a.loads.foldl onClassFileLoad opened else opened
        let closed := { loaded with captureClass := none, captureName := none }
        if a.enabled && a.retransformed then (closed.captured && (closed.findEntry klass).isSome, closed)
        else (false, closed)

/-- `class_cache_get`. -/
def get (c : ClassCache) (klass : JClass) : Option Bytes := (c.findEntry klass).map (·.bytes)

/-- `class_cache_forget`. -/
def forget (c : ClassCache) (klass : JClass) : ClassCache :=
  { c with entries := c.entries.eraseP (·.klass == klass) }

/-- `class_cache_clear`. -/
def clear (c : ClassCache) : ClassCache := { c with entries := [], captured := false }

end ClassCache

/-- The calls of the cache, and the load events that come between them. -/
inductive CacheCall
  | start (jvmti callbacks : Bool)
  | stop
  | ensure (klass : Option JClass) (className : Option Bytes) (calls : CaptureCalls)
  | load (load : FileLoad)
  | forget (klass : JClass)
  | clear

def cacheStep (c : ClassCache) : CacheCall → ClassCache
  | .start jvmti callbacks => (c.start jvmti callbacks).2
  | .stop => c.stop
  | .ensure klass className calls => (c.ensure klass className calls).2
  | .load load => c.onClassFileLoad load
  | .forget klass => c.forget klass
  | .clear => c.clear

/-- The cache before anything has happened. -/
def ClassCache.empty : ClassCache := ⟨[], none, none, false, false⟩

/-! ## One capture -/

/-- The entry that an event leads to, when it is the one a capture waits for and its `store` works. -/
def FileLoad.delivers (klass : JClass) (className : Option Bytes) (load : FileLoad) : Option CapturedClass :=
  match load.data, load.name with
  | some data, some name =>
    if load.env && load.redefined == some klass && className == some name &&
      load.allocated then some ⟨klass, name, data⟩
    else none
  | _, _ => none

/-- The entry that a capture leads to: the first that is delivered. -/
def CaptureCalls.delivered (a : CaptureCalls) (klass : JClass) (className : Option Bytes) : Option CapturedClass :=
  a.loads.findSome? (FileLoad.delivers klass className)

/-- The VM lets the capture of a class begin. -/
def CaptureCalls.ready (a : CaptureCalls) (c : ClassCache) : Bool :=
  (c.started || a.callbacks) && a.modifiable && a.globalRef && a.enabled

section Capture

variable {c : ClassCache} {klass : JClass} {className : Option Bytes} {load : FileLoad} {entry : CapturedClass}
  {a : CaptureCalls}

theorem delivers_eq_some (h : load.delivers klass className = some entry) : load.env = true ∧
    load.redefined = some klass ∧ load.name = some entry.className ∧ className = some entry.className ∧
      load.data = some entry.bytes ∧ entry.klass = klass := by
  unfold FileLoad.delivers at h
  split at h
  · rename_i data name hdata hname
    split at h
    · rename_i hall
      simp only [Bool.and_eq_true, beq_iff_eq] at hall
      cases h
      exact ⟨hall.1.1.1, hall.1.1.2, hname, hall.1.2, hdata, rfl⟩
    · cases h
  · cases h

/-- Without a capture nothing is stored. -/
theorem onClassFileLoad_idle (h : c.captureClass = none) : c.onClassFileLoad load = c := by
  unfold ClassCache.onClassFileLoad
  split
  · rw [if_neg (by rw [h]; simp)]
  · rfl

/-- A capture stores what is delivered, as long as it has nothing. -/
theorem onClassFileLoad_new (h : c.captureClass = some klass) (hnone : c.findEntry klass = none) :
    c.onClassFileLoad load = match load.delivers klass c.captureName with
      | none => c
      | some entry => { c with entries := c.entries ++ [entry], captured := true } := by
  unfold ClassCache.onClassFileLoad FileLoad.delivers
  cases load.env with
  | false => cases load.data <;> cases load.name <;> rfl
  | true =>
    cases load.data with
    | none => rfl
    | some data =>
      cases load.redefined with
      | none => cases load.name <;> rfl
      | some k =>
        cases load.name with
        | none => rfl
        | some name =>
          simp only [h, Bool.true_and]
          by_cases hk : k = klass
          · subst hk
            by_cases hname : c.captureName = some name
            · cases load.allocated <;> simp [h, hname, ClassCache.store, hnone]
            · simp [hname]
          · simp [hk, Ne.symm hk]

/-- What is there stays. -/
theorem onClassFileLoad_found (h : c.captureClass = some klass) (hfound : (c.findEntry klass).isSome = true)
    (hcaptured : c.captured = true) : c.onClassFileLoad load = c := by
  have hsame : { c with captured := true } = c := by
    cases c
    cases hcaptured
    rfl
  unfold ClassCache.onClassFileLoad
  split
  · split
    · rename_i hwaits
      rw [h, Option.some.injEq] at hwaits
      rw [← hwaits.1, ClassCache.store, if_pos hfound]
      exact hsame
    · rfl
  · rfl

theorem findEntry_append (hnone : c.findEntry klass = none) (hentry : entry.klass = klass) :
    (c.entries ++ [entry]).find? (·.klass == klass) = some entry := by
  rw [ClassCache.findEntry] at hnone
  rw [List.find?_append, hnone]
  simp [hentry]

/-- The events of a capture. -/
theorem foldl_onClassFileLoad (loads : List FileLoad) (h : c.captureClass = some klass)
    (hnone : c.findEntry klass = none) :
    loads.foldl ClassCache.onClassFileLoad c = match loads.findSome? (FileLoad.delivers klass c.captureName) with
      | none => c
      | some entry => { c with entries := c.entries ++ [entry], captured := true } := by
  have hkept : ∀ (d : ClassCache) (loads : List FileLoad), d.captureClass = some klass →
      (d.findEntry klass).isSome = true → d.captured = true → loads.foldl ClassCache.onClassFileLoad d = d := by
    intro d loads hklass hfound hcaptured
    induction loads with
    | nil => rfl
    | cons load loads ih => rw [List.foldl_cons, onClassFileLoad_found hklass hfound hcaptured, ih]
  induction loads with
  | nil => rfl
  | cons load loads ih =>
    rw [List.foldl_cons, onClassFileLoad_new h hnone, List.findSome?_cons]
    cases hdelivers : load.delivers klass c.captureName with
    | none => exact ih
    | some entry =>
      refine hkept _ loads h ?_ rfl
      have hentry := (delivers_eq_some hdelivers).2.2.2.2.2
      exact Option.isSome_iff_exists.mpr ⟨entry, findEntry_append hnone hentry⟩

theorem start_eq (c : ClassCache) (callbacks : Bool) :
    c.start true callbacks = (c.started || callbacks, { c with started := c.started || callbacks }) := by
  obtain ⟨entries, captureClass, captureName, captured, started⟩ := c
  cases started <;> cases callbacks <;> rfl

/-- A capture of a class that is not there. -/
theorem ensure_new (h : c.captureClass = none) (henv : a.env = true) (hjvmti : a.jvmti = true)
    (hnone : c.findEntry klass = none) :
    (c.ensure (some klass) className a).1 = (a.ready c && (a.delivered klass className).isSome && a.retransformed) ∧
      (c.ensure (some klass) className a).2.captureClass = none ∧
      (c.ensure (some klass) className a).2.entries =
        c.entries ++ if a.ready c then (a.delivered klass className).toList else [] := by
  unfold ClassCache.ensure
  simp only [henv, hjvmti, hnone, start_eq, CaptureCalls.ready, Bool.true_eq_false, or_self, if_false,
    Option.isSome_none, Bool.false_eq_true]
  by_cases hstarted : (c.started || a.callbacks) = true
  swap
  · simp [hstarted, h]
  simp only [hstarted, Bool.true_eq_false, if_false, Bool.true_and]
  cases hmodifiable : a.modifiable
  · simp [h]
  cases hglobalRef : a.globalRef
  · simp
  cases henabled : a.enabled
  · simp
  -- the events find the capture open, and the class not there
  let opened : ClassCache :=
    { c with started := true, captureClass := some klass, captureName := className, captured := false }
  have hloads := @foldl_onClassFileLoad opened klass a.loads rfl hnone
  simp only [Bool.true_and, if_true, Bool.true_eq_false, if_false]
  rw [show a.loads.foldl ClassCache.onClassFileLoad
    { entries := c.entries, captureClass := some klass, captureName := className, captured := false,
      started := true } = _
    from hloads]
  cases hdelivered : a.delivered klass className with
  | none =>
    rw [show a.loads.findSome? (FileLoad.delivers klass opened.captureName) = none from hdelivered]
    cases a.retransformed <;> simp [opened]
  | some entry =>
    rw [show a.loads.findSome? (FileLoad.delivers klass opened.captureName) = some entry from hdelivered]
    obtain ⟨load, -, hdelivers⟩ := List.exists_of_findSome?_eq_some hdelivered
    have hentry := (delivers_eq_some hdelivers).2.2.2.2.2
    have hfound : ClassCache.findEntry ⟨c.entries ++ [entry], none, none, true, true⟩ klass = some entry :=
      findEntry_append hnone hentry
    cases a.retransformed
    · simp [opened]
    · simp [opened, hfound]

/-- A class that is there, or a call without an environment. -/
theorem ensure_old (h : a.env = false ∨ a.jvmti = false ∨ (c.findEntry klass).isSome = true) :
    (c.ensure (some klass) className a).2 = c := by
  unfold ClassCache.ensure
  by_cases hno : a.env = false ∨ a.jvmti = false
  · simp [hno]
  · have hfound : (c.findEntry klass).isSome = true := by tauto
    simp [hno, hfound]

end Capture

/-! ## Whole runs -/

/-- The calls that take a class out of the cache. -/
def CacheCall.Drops (klass : JClass) : CacheCall → Prop
  | .forget k => k = klass
  | .clear => True
  | _ => False

/-- An entry was the first that a capture of its class, under its name, was delivered, and nobody has dropped it
since. -/
def CapturedIn (past : List CacheCall) (entry : CapturedClass) : Prop :=
  ∃ before calls after, past = before ++ .ensure (some entry.klass) (some entry.className) calls :: after ∧
    calls.delivered entry.klass (some entry.className) = some entry ∧ ∀ e ∈ after, ¬e.Drops entry.klass

/-- The invariant of the runs. -/
structure Held (past : List CacheCall) (c : ClassCache) : Prop where
  idle : c.captureClass = none
  nodup : (c.entries.map (·.klass)).Nodup
  captured : ∀ entry ∈ c.entries, CapturedIn past entry

section Runs

variable {past : List CacheCall} {c c' : ClassCache} {entry : CapturedClass} {e : CacheCall}

theorem CapturedIn.append (h : CapturedIn past entry) (hkeeps : ¬e.Drops entry.klass) :
    CapturedIn (past ++ [e]) entry := by
  obtain ⟨before, calls, after, rfl, hdelivered, hafter⟩ := h
  refine ⟨before, calls, after ++ [e], by simp, hdelivered, fun e' he' => ?_⟩
  rcases List.mem_append.mp he' with he' | he'
  · exact hafter e' he'
  · rw [List.mem_singleton.mp he']
    exact hkeeps

/-- The entry that is forgotten was the only one of its class. -/
theorem klass_of_mem_eraseP {entries : List CapturedClass} {klass : JClass} (hnodup : (entries.map (·.klass)).Nodup)
    (hmem : entry ∈ entries.eraseP (·.klass == klass)) : entry.klass ≠ klass := by
  induction entries with
  | nil => cases hmem
  | cons first rest ih =>
    rw [List.map_cons, List.nodup_cons] at hnodup
    by_cases hfirst : first.klass = klass
    · rw [List.eraseP_cons_of_pos (by simpa using hfirst)] at hmem
      rintro rfl
      exact hnodup.1 (hfirst ▸ List.mem_map_of_mem hmem)
    · rw [List.eraseP_cons_of_neg (by simpa using hfirst)] at hmem
      rcases List.mem_cons.mp hmem with rfl | hmem
      · exact hfirst
      · exact ih hnodup.2 hmem

/-- No capture outlives its call. -/
theorem captureClass_step (h : c.captureClass = none) (e : CacheCall) : (cacheStep c e).captureClass = none := by
  cases e with
  | start jvmti callbacks =>
    refine Eq.trans ?_ h
    show (c.start jvmti callbacks).2.captureClass = c.captureClass
    unfold ClassCache.start
    cases jvmti <;> cases c.started <;> cases callbacks <;> rfl
  | ensure klass className a =>
    rcases klass with _ | klass
    · exact h
    show (c.ensure (some klass) className a).2.captureClass = none
    by_cases hold : a.env = false ∨ a.jvmti = false ∨ (c.findEntry klass).isSome = true
    · rw [ensure_old hold, h]
    simp only [not_or, Bool.not_eq_false, Bool.not_eq_true, Option.isSome_eq_false_iff,
      Option.isNone_iff_eq_none] at hold
    exact (ensure_new h hold.1 hold.2.1 hold.2.2).2.1
  | load load =>
    show (c.onClassFileLoad load).captureClass = none
    rw [onClassFileLoad_idle h, h]
  | stop => exact h
  | forget klass => exact h
  | clear => exact h

/-- A call that leaves the entries alone. -/
theorem Held.unchanged (h : Held past c) (hentries : (cacheStep c e).entries = c.entries)
    (hkeeps : ∀ klass, ¬e.Drops klass) : Held (past ++ [e]) (cacheStep c e) :=
  ⟨captureClass_step h.idle e, hentries ▸ h.nodup,
    fun entry hentry => (h.captured entry (hentries ▸ hentry)).append (hkeeps _)⟩

theorem Held.ensure (h : Held past c) (klass : Option JClass) (className : Option Bytes) (a : CaptureCalls) :
    Held (past ++ [.ensure klass className a]) (cacheStep c (.ensure klass className a)) := by
  rcases klass with _ | klass
  · exact h.unchanged rfl fun _ => id
  by_cases hold : a.env = false ∨ a.jvmti = false ∨ (c.findEntry klass).isSome = true
  · exact h.unchanged (congrArg ClassCache.entries (ensure_old hold)) fun _ => id
  simp only [not_or, Bool.not_eq_false, Bool.not_eq_true, Option.isSome_eq_false_iff, Option.isNone_iff_eq_none] at hold
  obtain ⟨henv, hjvmti, hnone⟩ := hold
  obtain ⟨-, hidle, hentries⟩ := @ensure_new c klass className a h.idle henv hjvmti hnone
  cases hready : a.ready c with
  | false =>
    rw [hready] at hentries
    exact h.unchanged (hentries.trans (List.append_nil _)) fun _ => id
  | true =>
    cases hdelivered : a.delivered klass className with
    | none =>
      rw [hready, hdelivered] at hentries
      exact h.unchanged (hentries.trans (List.append_nil _)) fun _ => id
    | some entry =>
      rw [hready, hdelivered, if_pos rfl, Option.toList_some] at hentries
      obtain ⟨load, -, hdelivers⟩ := List.exists_of_findSome?_eq_some hdelivered
      obtain ⟨-, -, -, rfl, -, rfl⟩ := delivers_eq_some hdelivers
      have hnew : ∀ x ∈ c.entries, x.klass ≠ entry.klass := by
        intro x hx
        simpa using List.find?_eq_none.mp hnone x hx
      refine ⟨hidle, ?_, fun x hx => ?_⟩
      · show ((c.ensure _ _ a).2.entries.map (·.klass)).Nodup
        rw [hentries, List.map_append, List.map_singleton]
        refine List.nodup_append.mpr ⟨h.nodup, List.nodup_singleton _, fun k hk k' hk' => ?_⟩
        obtain ⟨x, hx, rfl⟩ := List.mem_map.mp hk
        rw [List.mem_singleton.mp hk']
        exact hnew x hx
      · change x ∈ (c.ensure _ _ a).2.entries at hx
        rw [hentries] at hx
        rcases List.mem_append.mp hx with hx | hx
        · exact (h.captured x hx).append id
        · rw [List.mem_singleton.mp hx]
          exact ⟨past, a, [], rfl, hdelivered, fun _ hmem => (nomatch hmem)⟩

theorem Held.step (h : Held past c) (e : CacheCall) : Held (past ++ [e]) (cacheStep c e) := by
  cases e with
  | start jvmti callbacks =>
    have hsame : (c.start jvmti callbacks).2.entries = c.entries := by
      unfold ClassCache.start
      cases jvmti <;> cases c.started <;> cases callbacks <;> rfl
    exact h.unchanged hsame fun _ => id
  | stop => exact h.unchanged rfl fun _ => id
  | ensure klass className calls => exact h.ensure klass className calls
  | load load => exact h.unchanged (congrArg ClassCache.entries (onClassFileLoad_idle h.idle)) fun _ => id
  | forget klass =>
    refine ⟨h.idle, h.nodup.sublist (List.eraseP_sublist.map _), fun entry hentry => ?_⟩
    refine (h.captured entry (List.mem_of_mem_eraseP hentry)).append fun heq => ?_
    exact klass_of_mem_eraseP h.nodup hentry heq.symm
  | clear => exact ⟨h.idle, List.nodup_nil, fun _ hmem => (nomatch hmem)⟩

end Runs

/-- **The cache holds what was captured.** After every run of calls and load events, in any order: no capture is
pending, each class is there at most once, and what is there for it was, of the definitions that the VM handed over for
this very class and name while it was captured, the first that could be stored, and has not been dropped or replaced
since. -/
theorem cache_holds_captures (events : List CacheCall) :
    (runEvents cacheStep ClassCache.empty events).captureClass = none ∧
      ((runEvents cacheStep ClassCache.empty events).entries.map (·.klass)).Nodup ∧
      ∀ entry ∈ (runEvents cacheStep ClassCache.empty events).entries, CapturedIn events entry := by
  have hstart : Held [] ClassCache.empty := ⟨rfl, List.nodup_nil, fun _ hmem => (nomatch hmem)⟩
  have hstep : ∀ past c e, Held past c → True → Held (past ++ [e]) (cacheStep c e) := fun _ _ e h _ => h.step e
  have hrun := history_run hstep [] hstart (AllMeet.of_forall (fun _ _ => trivial) ClassCache.empty events)
  exact ⟨hrun.idle, hrun.nodup, hrun.captured⟩

/-! ## The cache of the registry -/

/-- What the registry has of a cache. -/
def ClassCache.view (s : Registry) (c : ClassCache) : Registry :=
  { s with cache := c.entries.map fun entry => ⟨entry.klass, entry.bytes⟩ }

/-- The answers that the registry is given for a call. -/
def captureAnswers (c : ClassCache) : CacheCall → CaptureAnswers
  | .ensure (some klass) className a => ⟨a.ready c, (a.delivered klass className).isSome, a.retransformed⟩
  | _ => ⟨false, false, false⟩

/-- The calls as the registry makes them. -/
def viewStep (s : Registry) : CacheCall × CaptureAnswers → Registry
  | (.ensure (some klass) _ _, answers) => endState (classCacheEnsure klass answers) s
  | (.clear, _) => { s with cache := [] }
  | _ => s

/-- The calls that the registry makes: there is an environment, nothing is forgotten, and the VM hands over the
definition that is live when it retransforms a class under its name. -/
def MadeByRegistry (s : Registry) (_ : ClassCache) : CacheCall → Prop
  | .ensure (some klass) className a => a.env = true ∧ a.jvmti = true ∧ ∀ load ∈ a.loads, load.redefined = some klass →
      load.name = className → ∀ bytes, load.data = some bytes → bytes = s.vm klass
  | .ensure none _ _ | .forget _ => False
  | _ => True

section Refines

variable {s : Registry} {c : ClassCache} {klass : JClass} {className : Option Bytes} {a : CaptureCalls}

theorem cachedBytes_view : (c.view s).cachedBytes klass = c.get klass := by
  unfold Registry.cachedBytes ClassCache.view ClassCache.get ClassCache.findEntry
  rw [List.find?_map, Option.map_map]
  rfl

theorem classCacheEnsure_old (answers : CaptureAnswers) (hfound : (s.cachedBytes klass).isSome = true) :
    classCacheEnsure klass answers s = .ok () s := by
  obtain ⟨bytes, hbytes⟩ := Option.isSome_iff_exists.mp hfound
  simp [classCacheEnsure, run_bind, hbytes]

theorem classCacheEnsure_new (answers : CaptureAnswers) (hnone : s.cachedBytes klass = none) :
    classCacheEnsure klass answers s = if answers.started && answers.stored && answers.retransformed then
        .ok () { s with cache := s.cache ++ [⟨klass, s.vm klass⟩] }
      else .error .classNotCached { s with cache := s.cache ++
        if answers.started && answers.stored then [⟨klass, s.vm klass⟩] else [] } := by
  obtain ⟨started, stored, retransformed⟩ := answers
  cases started <;> cases stored <;> cases retransformed <;> simp [classCacheEnsure, run_bind, hnone]

/-- One capture, in the cache and in its view. -/
theorem classCacheEnsure_view (h : c.captureClass = none)
    (hmade : MadeByRegistry s c (.ensure (some klass) className a)) :
    classCacheEnsure klass (captureAnswers c (.ensure (some klass) className a)) (c.view s) =
      if (c.ensure (some klass) className a).1 then .ok () ((c.ensure (some klass) className a).2.view s)
      else .error .classNotCached ((c.ensure (some klass) className a).2.view s) := by
  obtain ⟨henv, hjvmti, hlive⟩ := hmade
  cases hentry : c.findEntry klass with
  | some entry =>
    have hsame : c.ensure (some klass) className a = (true, c) := by
      simp [ClassCache.ensure, henv, hjvmti, hentry]
    rw [hsame, classCacheEnsure_old _ (by rw [cachedBytes_view, ClassCache.get, hentry]; rfl)]
    rfl
  | none =>
    obtain ⟨hresult, -, hentries⟩ := @ensure_new c klass className a h henv hjvmti hentry
    -- what is delivered is the definition that is live
    have hdelivers : ∀ entry, a.delivered klass className = some entry → entry.klass = klass ∧
      entry.bytes = s.vm klass := by
      intro entry hdelivered
      obtain ⟨load, hmem, hdelivers⟩ := List.exists_of_findSome?_eq_some hdelivered
      obtain ⟨-, hredefined, hname, hclassName, hdata, hklass⟩ := delivers_eq_some hdelivers
      exact ⟨hklass, hlive load hmem hredefined (hname.trans hclassName.symm) _ hdata⟩
    have hview : (c.ensure (some klass) className a).2.view s = { s with
        cache := (c.view s).cache ++
          (if (a.ready c && (a.delivered klass className).isSome) = true then [⟨klass, s.vm klass⟩] else []) } := by
      rw [ClassCache.view, hentries, List.map_append]
      cases hready : a.ready c with
      | false => rfl
      | true =>
        cases hdelivered : a.delivered klass className with
        | none => rfl
        | some entry =>
          obtain ⟨hklass, hbytes⟩ := hdelivers entry hdelivered
          simp [ClassCache.view, hklass, hbytes]
    rw [classCacheEnsure_new _ (by rw [cachedBytes_view, ClassCache.get, hentry]; rfl), hresult, hview]
    simp only [captureAnswers]
    by_cases hall : (a.ready c && (a.delivered klass className).isSome && a.retransformed) = true
    · simp only [(Bool.and_eq_true_iff.mp hall).1, if_true]
      rfl
    · simp only [hall]
      rfl

/-- One call, in the cache and in its view. -/
theorem view_step (h : c.captureClass = none) (e : CacheCall) (hmade : MadeByRegistry s c e) :
    (cacheStep c e).view s = viewStep (c.view s) (e, captureAnswers c e) := by
  cases e with
  | start jvmti callbacks =>
    show (c.start jvmti callbacks).2.view s = c.view s
    unfold ClassCache.start
    cases jvmti <;> cases c.started <;> cases callbacks <;> rfl
  | stop => rfl
  | ensure klass className a =>
    rcases klass with _ | klass
    · cases hmade
    show (c.ensure (some klass) className a).2.view s = endState (classCacheEnsure klass _) (c.view s)
    rw [endState, classCacheEnsure_view h hmade]
    cases (c.ensure (some klass) className a).1 <;> rfl
  | load load =>
    show (c.onClassFileLoad load).view s = c.view s
    rw [onClassFileLoad_idle h]
  | forget klass => cases hmade
  | clear => rfl

end Refines

/-- **The registry's cache is a view of the real one.** In every run of the calls that the registry makes while the live
definitions stay the same, and of load events between them and inside a capture, the cache moves as the registry's own
account of it does when it is told whether a capture could begin, was delivered anything, and came to its end; and each
capture answers as this account says. -/
theorem capture_refines {s : Registry} {events : List CacheCall}
    (hmade : AllMeet cacheStep (MadeByRegistry s) ClassCache.empty events) :
    (runEvents cacheStep ClassCache.empty events).view s =
        runEvents viewStep { s with cache := [] } (loggedEvents cacheStep captureAnswers ClassCache.empty events) ∧
      ∀ c klass className a, c = runEvents cacheStep ClassCache.empty events →
        MadeByRegistry s c (.ensure (some klass) className a) →
        classCacheEnsure klass (captureAnswers c (.ensure (some klass) className a)) (c.view s) =
          if (c.ensure (some klass) className a).1 then .ok () ((c.ensure (some klass) className a).2.view s)
          else .error .classNotCached ((c.ensure (some klass) className a).2.view s) := by
  have hidle : ∀ c e, c.captureClass = none → MadeByRegistry s c e → (cacheStep c e).captureClass = none :=
    fun _ e h _ => captureClass_step h e
  have hempty : ClassCache.empty.captureClass = none := rfl
  have hstep : ∀ c e, c.captureClass = none → MadeByRegistry s c e →
      (cacheStep c e).view s = viewStep (c.view s) (e, captureAnswers c e) := fun _ e h hok => view_step h e hok
  refine ⟨refines_run hidle hstep hempty hmade, fun c klass className a hc hnext => ?_⟩
  rw [hc] at hnext ⊢
  exact classCacheEnsure_view (invariant_run hidle hempty hmade) hnext

/-- While class 1 is captured the VM loads another class under its name, and a class with another name for it. -/
def nestedLoads : CaptureCalls where
  env := true
  jvmti := true
  callbacks := true
  modifiable := true
  globalRef := true
  enabled := true
  loads := [⟨true, some 2, some (text "A"), some [2], true⟩, ⟨true, some 1, some (text "B"), some [3], true⟩,
    ⟨true, some 1, some (text "A"), some [1], true⟩]
  retransformed := true

theorem capture_refines_nested :
    (runEvents cacheStep ClassCache.empty [.ensure (some 1) (some (text "A")) nestedLoads]).entries =
        [⟨1, text "A", [1]⟩] ∧
      (runEvents cacheStep ClassCache.empty [.ensure (some 1) (some (text "A")) nestedLoads]).view
          (Registry.start fun _ => [1]) =
        runEvents viewStep { Registry.start fun _ => [1] with cache := [] } (loggedEvents cacheStep captureAnswers
          ClassCache.empty [.ensure (some 1) (some (text "A")) nestedLoads]) := by
  have hmade : AllMeet cacheStep (MadeByRegistry (Registry.start fun _ => [1])) ClassCache.empty
      [.ensure (some 1) (some (text "A")) nestedLoads] := by
    refine ⟨⟨rfl, rfl, fun load hload hredefined hname bytes hdata => ?_⟩, trivial⟩
    simp only [nestedLoads, List.mem_cons, List.not_mem_nil, or_false] at hload
    rcases hload with rfl | rfl | rfl
    · cases hredefined
    · exact absurd hname (by decide)
    · cases hdata
      rfl
  exact ⟨by decide, (capture_refines hmade).1⟩

end Jni2Hook
