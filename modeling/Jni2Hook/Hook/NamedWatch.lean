import Jni2Hook.Hook.WatchStates

/-!
# By-name watches

- a load event walks every waiting watch, by-name ones included, with their empty pattern: `LoadsApart` rules out the
  events where that matters, those of a class with code while a pattern watch and a by-name watch both wait;
- `NamedWatch` is what a by-name watch keeps along such runs (`mem_load`, `mem_prepare`, `named_step`);
- a ready by-name watch holds the method looked up for its name on a class of its class name (`named_watch_ready`), and
  without the condition it may hold any method of any class (`named_watch_ready_other_class`).
-/

namespace Jni2Hook

open Lib

/-! ## By-name watches -/

/-- Some by-name watch is waiting. -/
def namedWaiting (watches : List MethodWatch) : Bool :=
  watches.any fun watch => watch.byName && watch.state == .waiting

/-- The class file can be read and some method of it has a complete Code attribute. -/
def classHasCode (classData : Bytes) : Bool :=
  match classfileParse classData with
  | .ok cf => cf.methods.any fun method => (completeCode cf method).isSome
  | .error _ => false

/-- No load event of a class with code comes while a pattern watch and a by-name watch both wait. -/
def LoadsApart (s : WatchSystem) : WatchEvent → Prop
  | .load _ classData _ =>
    ¬(patternWaiting s.watches = true ∧ namedWaiting s.watches = true ∧ classHasCode classData = true)
  | _ => True

section Named

variable (className methodName methodSignature : Bytes) (methodStatic : Bool)

/-- Among the events a class of that name was prepared, and the lookup of the method on it answered `method`. -/
def Answered (events : List WatchEvent) (method : Option JMethodId) : Prop :=
  ∃ klass prepared faults, .prepare klass prepared faults ∈ events ∧ prepared.internalName = className ∧
    method.isSome ∧ prepared.getMethodId methodStatic methodName methodSignature = method

/-- What every watch created for that name keeps. -/
structure NamedWatch (events : List WatchEvent) (watch : MethodWatch) : Prop where
  byName : watch.byName = true
  notCaptured : watch.state ≠ .captured
  names : watch.state = .waiting → watch.className = some className ∧ watch.methodName = some methodName ∧
    watch.methodSignature = some methodSignature ∧ watch.methodStatic = methodStatic
  answered : watch.state = .ready →
    Answered className methodName methodSignature methodStatic events watch.method

variable {className methodName methodSignature methodStatic} {events : List WatchEvent} {watch : MethodWatch}

theorem Answered.later {method : Option JMethodId} (e : WatchEvent)
    (h : Answered className methodName methodSignature methodStatic events method) :
    Answered className methodName methodSignature methodStatic (events ++ [e]) method := by
  obtain ⟨klass, prepared, faults, hmem, hrest⟩ := h
  exact ⟨klass, prepared, faults, List.mem_append_left _ hmem, hrest⟩

theorem NamedWatch.later (e : WatchEvent)
    (h : NamedWatch className methodName methodSignature methodStatic events watch) :
    NamedWatch className methodName methodSignature methodStatic (events ++ [e]) watch :=
  ⟨h.byName, h.notCaptured, h.names, fun hr => (h.answered hr).later e⟩

/-- A watch that has failed or was cancelled promises nothing more. -/
theorem NamedWatch.ended (hn : watch.byName = true) (hs : watch.state = .failed ∨ watch.state = .cancelled) :
    NamedWatch className methodName methodSignature methodStatic events watch := by
  rcases hs with hs | hs <;> constructor <;> simp [hn, hs]

/-- A class without code leaves every watch as it is. -/
theorem captureCandidate_of_no_code {cf : ClassFile} {loader : Option JObject} {faults : LoadFaults}
    (h : ∀ m ∈ cf.methods, completeCode cf m = none) : captureCandidate cf loader faults watch = watch := by
  have hfind : bytecodePatternFindInClassFile watch.pattern cf = none := findInMethods_eq_none h 0
  simp only [captureCandidate, hfind]

/-- A load event leaves a by-name watch as it is when the two kinds of watch do not both wait for code. -/
theorem mem_load {s : WatchSystem} {loader : Option JObject} {classData : Bytes} {faults : LoadFaults}
    (hok : LoadsApart s (.load loader classData faults))
    (h : watch ∈ classWatchOnClassFileLoad loader classData faults s.watches) :
    ∃ old ∈ s.watches, old.id = watch.id ∧ (old.byName = true → watch = old) := by
  unfold classWatchOnClassFileLoad at h
  split at h
  · exact ⟨watch, h, rfl, fun _ => rfl⟩
  split at h
  · exact ⟨watch, h, rfl, fun _ => rfl⟩
  split at h
  · exact ⟨watch, h, rfl, fun _ => rfl⟩
  rename_i hpattern _
  split at h
  · exact ⟨watch, h, rfl, fun _ => rfl⟩
  · rename_i cf hcf
    obtain ⟨old, hold, rfl⟩ := List.mem_map.mp h
    refine ⟨old, hold, ?_, fun hn => ?_⟩
    · split
      · exact (captureCandidate_id _ _ _ _).symm
      · rfl
    · by_cases hw : old.state = .waiting
      · -- both kinds wait, so the class has no code and no pattern is found in it
        have hnamed : namedWaiting s.watches = true := List.any_eq_true.mpr ⟨old, hold, by simp [hn, hw]⟩
        have hcode : classHasCode classData = false := by
          by_contra hc
          exact hok ⟨by simpa using hpattern, hnamed, by simpa using hc⟩
        simp only [classHasCode, hcf, List.any_eq_false, Bool.not_eq_true, Option.isSome_eq_false_iff,
          Option.isNone_iff_eq_none] at hcode
        rw [if_pos hw, captureCandidate_of_no_code hcode]
      · rw [if_neg hw]

/-- A by-name watch becomes ready through the lookup of its own name on a class of its own class name. -/
theorem NamedWatch.prepareWaiting {klass : JClass} {prepared : PreparedClass} {faults : PrepareFaults}
    (h : NamedWatch className methodName methodSignature methodStatic events watch)
    (hmem : .prepare klass prepared faults ∈ events) :
    NamedWatch className methodName methodSignature methodStatic events
      (Jni2Hook.prepareWaiting klass prepared faults watch) := by
  unfold Jni2Hook.prepareWaiting
  by_cases hw : watch.state = .waiting
  · obtain ⟨hc, hm, hs, hst⟩ := h.names hw
    rw [if_neg (by simpa using hw)]
    cases hmatch : matchPrepared prepared faults watch with
    | none => exact h
    | some found =>
      obtain ⟨method, offset⟩ := found
      simp only [matchPrepared, resolveMethod, h.byName, hc, hm, hs, hst, if_true] at hmatch
      dsimp only
      split
      · exact NamedWatch.ended h.byName (Or.inl rfl)
      · refine ⟨h.byName, by simp, by simp, fun _ => ⟨klass, prepared, faults, hmem, ?_⟩⟩
        split at hmatch
        · rename_i hname
          split at hmatch
          · simp at hmatch
          · obtain ⟨m, hget, heq⟩ := Option.map_eq_some_iff.mp hmatch
            cases heq
            simp only [Bool.and_eq_true, beq_iff_eq, Option.some.injEq] at hname
            exact ⟨hname.2.symm, rfl, hget⟩
        · simp at hmatch
  · rw [if_pos hw]
    exact h

theorem prepareCaptured_of_not_captured {klass : JClass} {prepared : PreparedClass} {faults : PrepareFaults}
    (h : watch.state ≠ .captured) : prepareCaptured klass prepared faults watch = watch := by
  unfold prepareCaptured
  rw [if_pos (Or.inl h)]

theorem mem_prepare {klass : JClass} {prepared : PreparedClass} {faults : PrepareFaults} {watches : List MethodWatch}
    (hmem : .prepare klass prepared faults ∈ events)
    (h : watch ∈ classWatchOnClassPrepare klass prepared faults watches) :
    ∃ old ∈ watches, old.id = watch.id ∧
      (NamedWatch className methodName methodSignature methodStatic events old →
        NamedWatch className methodName methodSignature methodStatic events watch) := by
  unfold classWatchOnClassPrepare at h
  dsimp only at h
  split at h
  · obtain ⟨old, hold, rfl⟩ := List.mem_map.mp h
    exact ⟨old, hold, (prepareWaiting_id _ _ _ _).symm, fun hw => hw.prepareWaiting hmem⟩
  · simp only [List.map_map, List.mem_map, Function.comp] at h
    obtain ⟨old, hold, rfl⟩ := h
    refine ⟨old, hold, by rw [prepareCaptured_id, prepareWaiting_id], fun hw => ?_⟩
    have hp := hw.prepareWaiting hmem
    rw [prepareCaptured_of_not_captured hp.notCaptured]
    exact hp

/-! ## Whole runs -/

/-- Every watch at the address `id` keeps what a by-name watch keeps, and no scan will write to it. -/
structure NamedInvariant (id : WatchId) (className methodName methodSignature : Bytes) (methodStatic : Bool)
    (events : List WatchEvent) (s : WatchSystem) : Prop where
  old : id < s.next
  scan : ∀ scan, s.scanning = some scan → scan.1 ≠ id
  watch : ∀ w ∈ s.handles, w.id = id → NamedWatch className methodName methodSignature methodStatic events w

theorem NamedInvariant.later {id : WatchId} {s : WatchSystem} (e : WatchEvent)
    (h : NamedInvariant id className methodName methodSignature methodStatic events s) :
    NamedInvariant id className methodName methodSignature methodStatic (events ++ [e]) s :=
  ⟨h.old, h.scan, fun w hw hid => (h.watch w hw hid).later e⟩

/-- Registering another watch. -/
theorem NamedInvariant.register {id : WatchId} {s : WatchSystem} {new : MethodWatch} (hnew : new.id = s.next)
    (h : NamedInvariant id className methodName methodSignature methodStatic events s) :
    NamedInvariant id className methodName methodSignature methodStatic events (registerWatch s new) := by
  have hold := h.old
  refine ⟨Nat.lt_succ_of_lt hold, h.scan, fun w hw hid => ?_⟩
  simp only [WatchSystem.handles, registerWatch, List.cons_append, List.mem_cons] at hw
  rcases hw with rfl | hw
  · exact absurd (hid.symm.trans hnew) (Nat.ne_of_lt hold)
  · exact h.watch w hw hid

theorem NamedInvariant.destroy {id : WatchId} {s : WatchSystem} (gone : WatchId)
    (h : NamedInvariant id className methodName methodSignature methodStatic events s) :
    NamedInvariant id className methodName methodSignature methodStatic events (classWatchDestroy s gone) := by
  refine ⟨h.old, h.scan, fun w hw hid => h.watch w ?_ hid⟩
  simp only [WatchSystem.handles, classWatchDestroy, List.mem_append, List.mem_filter] at hw ⊢
  exact hw.imp And.left And.left

theorem NamedInvariant.clear {id : WatchId} {s : WatchSystem}
    (h : NamedInvariant id className methodName methodSignature methodStatic events s) :
    NamedInvariant id className methodName methodSignature methodStatic events (classWatchClear s) := by
  refine ⟨h.old, h.scan, fun w hw hid => ?_⟩
  simp only [WatchSystem.handles, classWatchClear, List.nil_append, List.mem_append, List.mem_map] at hw
  rcases hw with ⟨old, hold, rfl⟩ | hw
  · have hn := h.watch old (List.mem_append_left _ hold) hid
    exact NamedWatch.ended hn.byName (Or.inr rfl)
  · exact h.watch w (List.mem_append_right _ hw) hid

/-- A scan that is done writes to its own watch only. -/
theorem NamedInvariant.scanDone {id other : WatchId} {s : WatchSystem} {text : Bytes} (scan : LoadedScan)
    (hother : other ≠ id) (h : NamedInvariant id className methodName methodSignature methodStatic events s) :
    NamedInvariant id className methodName methodSignature methodStatic events
      (watchMethodScan s other text scan) := by
  have hdone : NamedInvariant id className methodName methodSignature methodStatic events
      { s with scanning := none } := ⟨h.old, by simp, h.watch⟩
  unfold watchMethodScan
  dsimp only
  split
  · split
    · exact hdone
    · refine ⟨h.old, by simp, fun w hw hid => ?_⟩
      simp only [WatchSystem.handles, List.mem_append, List.mem_map] at hw
      rcases hw with ⟨old, hold, rfl⟩ | hw
      · have hne : old.id ≠ other := by
          intro he
          rw [if_pos he, resolveLoaded_id] at hid
          exact hother (he.symm.trans hid)
        rw [if_neg hne] at hid ⊢
        exact h.watch old (List.mem_append_left _ hold) hid
      · exact h.watch w (List.mem_append_right _ hw) hid
  · exact hdone.destroy other

/-- One event keeps the invariant. -/
theorem named_step {id : WatchId} (past : List WatchEvent) (s : WatchSystem) (e : WatchEvent)
    (h : NamedInvariant id className methodName methodSignature methodStatic past s) (hok : LoadsApart s e) :
    NamedInvariant id className methodName methodSignature methodStatic (past ++ [e]) (watchStep s e) := by
  have hl := h.later e
  have hold := h.old
  cases e with
  | watchMethodByName c m sig st faults =>
    simp only [watchStep, classWatchCreateNamed]
    split
    · exact hl
    split
    · exact hl
    split
    · exact ⟨Nat.lt_succ_of_lt hold, hl.scan, hl.watch⟩
    · exact hl.register rfl
  | watchMethod pattern faults =>
    simp only [watchStep, classWatchCreate]
    split
    · exact hl
    split
    · exact ⟨hold, by simp, hl.watch⟩
    split
    · exact ⟨hold, by simp, hl.watch⟩
    rename_i compiled _
    split
    · exact ⟨Nat.lt_succ_of_lt hold, by simp, hl.watch⟩
    · have hr : NamedInvariant id className methodName methodSignature methodStatic _
          (registerWatch s { id := s.next, pattern := compiled }) := hl.register rfl
      refine ⟨hr.old, fun scan hscan => ?_, hr.watch⟩
      simp only [Option.map_some, Option.some.injEq] at hscan
      subst hscan
      exact (Nat.ne_of_lt hold).symm
  | scanDone scan =>
    cases hs : s.scanning with
    | none => simpa only [watchStep, hs] using hl
    | some running => simpa only [watchStep, hs] using hl.scanDone scan (h.scan running hs)
  | destroy gone =>
    simp only [watchStep]
    split
    · exact hl
    · exact hl.destroy gone
  | shutdown =>
    simp only [watchStep]
    split
    · exact hl
    · exact hl.clear
  | load loader classData faults =>
    refine ⟨hold, hl.scan, fun w hw hid => ?_⟩
    rcases List.mem_append.mp hw with hw | hw
    · obtain ⟨old, hmem, hsame, heq⟩ := mem_load hok hw
      have hn := hl.watch old (List.mem_append_left _ hmem) (hsame.trans hid)
      rw [heq hn.byName]
      exact hn
    · exact hl.watch w (List.mem_append_right _ hw) hid
  | prepare klass prepared faults =>
    refine ⟨hold, hl.scan, fun w hw hid => ?_⟩
    rcases List.mem_append.mp hw with hw | hw
    · obtain ⟨old, hmem, hsame, hkeep⟩ := mem_prepare (List.mem_append_right past List.mem_cons_self) hw
      exact hkeep (hl.watch old (List.mem_append_left _ hmem) (hsame.trans hid))
    · exact hl.watch w (List.mem_append_right _ hw) hid

end Named

/-! ## A ready by-name watch -/

/-- A by-name watch that is ready holds the method its names were looked up to on a prepared class of its class name,
in every run in which no class with code is loaded while it and a pattern watch wait. -/
theorem named_watch_ready {earlier later : List WatchEvent} {className methodName methodSignature : Bytes}
    {methodStatic : Bool} {faults : CreateFaults} {id : WatchId} {s : WatchSystem}
    (hlock : (runEvents watchStep {} earlier).scanning = none)
    (hnew : classWatchCreateNamed (runEvents watchStep {} earlier) className methodName methodSignature methodStatic
      faults = (.ok, some id, s))
    (hmeet : AllMeet watchStep LoadsApart s later) :
    ∀ w ∈ (runEvents watchStep s later).handles, w.id = id → w.state = .ready →
      Answered className methodName methodSignature methodStatic later w.method := by
  have hbelow := (distinct_events earlier).below
  generalize runEvents watchStep {} earlier = s₀ at hlock hnew hbelow
  unfold classWatchCreateNamed at hnew
  split at hnew
  · simp at hnew
  split at hnew
  · simp at hnew
  simp only [Prod.mk.injEq, Option.some.injEq, true_and] at hnew
  obtain ⟨rfl, rfl⟩ := hnew
  have hstart : NamedInvariant s₀.next className methodName methodSignature methodStatic []
      (registerWatch s₀ (namedWatch s₀.next className methodName methodSignature methodStatic)) := by
    refine ⟨Nat.lt_succ_self _, by simp [registerWatch, hlock], fun w hw hid => ?_⟩
    simp only [WatchSystem.handles, registerWatch, List.cons_append, List.mem_cons] at hw
    rcases hw with rfl | hw
    · exact ⟨rfl, by simp [namedWatch], by simp [namedWatch], by simp [namedWatch]⟩
    · exact absurd hid (Nat.ne_of_lt (hbelow w hw))
  have hrun := history_run named_step [] hstart hmeet
  intro w hw hid hready
  exact (hrun.watch w hw hid).answered hready

/-- A pattern watch is registered and its scan finds nothing, so it waits. -/
def patternWatchWaits : List WatchEvent :=
  [.watchMethod (text "2a") {}, .scanDone ⟨some [], fun _ => none, true⟩]

/-- The class `x/Y` as the VM shows it. -/
def otherClass : PreparedClass := ⟨text "Lx/Y;", none, [], fun _ _ => some 7, fun _ _ => none⟩

/-- The class `a/B` as the VM shows it. -/
def namedClass : PreparedClass := ⟨text "La/B;", none, [], fun _ _ => some 9, fun _ _ => none⟩

/-- With a pattern watch waiting, a watch for `a/B.m()V` becomes ready with a method of `x/Y`, although no class `a/B`
was ever prepared. -/
theorem named_watch_ready_other_class :
    ∃ s, classWatchCreateNamed (runEvents watchStep {} patternWatchWaits) (text "a/B") (text "m") (text "()V") false {}
        = (.ok, some 1, s) ∧
      ∃ w ∈ (runEvents watchStep s [.load none otherClassBytes {}, .prepare 5 otherClass {}]).handles,
        w.id = 1 ∧ w.state = .ready ∧ w.method = some 7 ∧
        ¬Answered (text "a/B") (text "m") (text "()V") false
          [.load none otherClassBytes {}, .prepare 5 otherClass {}] w.method := by
  refine ⟨_, rfl, ?_⟩
  have hready : ∃ w ∈ (runEvents watchStep (registerWatch (runEvents watchStep {} patternWatchWaits)
      (namedWatch 1 (text "a/B") (text "m") (text "()V") false))
      [.load none otherClassBytes {}, .prepare 5 otherClass {}]).handles,
      w.id = 1 ∧ w.state = .ready ∧ w.method = some 7 := by decide +kernel
  obtain ⟨w, hw, hid, hs, hm⟩ := hready
  refine ⟨w, hw, hid, hs, hm, ?_⟩
  rintro ⟨klass, prepared, faults, hmem, hname, -⟩
  simp only [List.mem_cons, reduceCtorEq, WatchEvent.prepare.injEq, false_or, List.not_mem_nil, or_false] at hmem
  obtain ⟨-, rfl, -⟩ := hmem
  exact absurd hname (by decide)

/-- The by-name watch alone: the load of `x/Y` does not touch it and the class `a/B` answers it. -/
theorem named_watch_ready_own_class :
    ∃ w ∈ (runEvents watchStep (registerWatch {} (namedWatch 0 (text "a/B") (text "m") (text "()V") false))
        [.load none otherClassBytes {}, .prepare 5 namedClass {}]).handles,
      w.id = 0 ∧ w.state = .ready ∧
      Answered (text "a/B") (text "m") (text "()V") false
        [.load none otherClassBytes {}, .prepare 5 namedClass {}] w.method := by
  have hready : ∃ w ∈ (runEvents watchStep (registerWatch {} (namedWatch 0 (text "a/B") (text "m") (text "()V") false))
      [.load none otherClassBytes {}, .prepare 5 namedClass {}]).handles, w.id = 0 ∧ w.state = .ready := by
    decide +kernel
  obtain ⟨w, hw, hid, hs⟩ := hready
  have hmeet : AllMeet watchStep LoadsApart
      (registerWatch {} (namedWatch 0 (text "a/B") (text "m") (text "()V") false))
      [.load none otherClassBytes {}, .prepare 5 namedClass {}] :=
    ⟨by simp only [LoadsApart]; decide, trivial, trivial⟩
  have hnew : classWatchCreateNamed (runEvents watchStep {} []) (text "a/B") (text "m") (text "()V") false {} =
      (.ok, some 0, registerWatch {} (namedWatch 0 (text "a/B") (text "m") (text "()V") false)) := rfl
  exact ⟨w, hw, hid, hs, named_watch_ready rfl hnew hmeet w hw hid hs⟩

end Jni2Hook
