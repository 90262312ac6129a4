import Jni2Hook.Hook.ClassWatch

/-!
# The states of a watch

- the calls into `class_watch.c` one by one (`watchCall`); every event of the system is at most one of them
  (`watchStep_call`);
- what a call can do to a watch (`WatchChange`, `evolves_call`), and that watches never share an address
  (`distinct_call`);
- the documented states (`DocumentedStates`): they are kept exactly in the runs where no failed watch is resolved from
  the loaded classes (`documented_states_iff`).
-/

namespace Jni2Hook

open Lib

/-! ## Calls -/

/-- A call into `class_watch.c`. -/
inductive WatchCall
  | create (pattern : Bytes) (faults : CreateFaults)
  | createNamed (className methodName methodSignature : Bytes) (methodStatic : Bool) (faults : CreateFaults)
  | resolveLoaded (id : WatchId) (method : JMethodId) (offset : Nat) (scan : LoadedScan)
  | get (id : WatchId)
  | destroy (id : WatchId)
  | clear
  | load (loader : Option JObject) (classData : Bytes) (faults : LoadFaults)
  | prepare (klass : JClass) (prepared : PreparedClass) (faults : PrepareFaults)

/-- `class_watch_resolve_loaded`: a watch that is not registered stays as it is. -/
def classWatchResolveLoaded (s : WatchSystem) (id : WatchId) (method : JMethodId) (offset : Nat) (scan : LoadedScan) :
    WatchSystem :=
  { s with watches := s.watches.map fun watch =>
      if watch.id = id then resolveLoaded scan method offset watch else watch }

/-- `class_watch_get`: the method and the offset of a ready watch, or why there are none. -/
def classWatchGet (watch : MethodWatch) : Except Jni2HookStatus (Option JMethodId × Nat) :=
  match watch.state with
  | .ready => .ok (watch.method, watch.offset)
  | .failed => .error watch.failure
  | .cancelled => .error .notInitialized
  | _ => .error .notFound

/-- One call. Reading a watch leaves every watch as it is. -/
def watchCall (s : WatchSystem) : WatchCall → WatchSystem
  | .create pattern faults => (classWatchCreate s pattern faults).2.2
  | .createNamed className methodName methodSignature methodStatic faults =>
    (classWatchCreateNamed s className methodName methodSignature methodStatic faults).2.2
  | .resolveLoaded id method offset scan => classWatchResolveLoaded s id method offset scan
  | .get _ => s
  | .destroy id => classWatchDestroy s id
  | .clear => classWatchClear s
  | .load loader classData faults => { s with watches := classWatchOnClassFileLoad loader classData faults s.watches }
  | .prepare klass prepared faults =>
    { s with watches := classWatchOnClassPrepare klass prepared faults s.watches }

/-- The call at the end of a scan of the loaded classes. -/
def scanCall (id : WatchId) (text : Bytes) (scan : LoadedScan) : Option WatchCall :=
  match bytecodePatternCompile text, scan.classes with
  | .ok pattern, some classes =>
    (scanLoadedClasses pattern classes).map fun found => .resolveLoaded id found.1 found.2 scan
  | _, _ => some (.destroy id)

/-- The call that an event of the system makes; while a scan holds the API lock, the other API functions wait. -/
def callOf (s : WatchSystem) : WatchEvent → Option WatchCall
  | .watchMethodByName className methodName methodSignature methodStatic faults =>
    if s.scanning.isSome then none
    else some (.createNamed className methodName methodSignature methodStatic faults)
  | .watchMethod pattern faults => if s.scanning.isSome then none else some (.create pattern faults)
  | .scanDone scan => s.scanning.bind fun running => scanCall running.1 running.2 scan
  | .destroy id => if s.scanning.isSome then none else some (.destroy id)
  | .shutdown => if s.scanning.isSome then none else some .clear
  | .load loader classData faults => some (.load loader classData faults)
  | .prepare klass prepared faults => some (.prepare klass prepared faults)

/-- A call that may not happen. -/
def callIfAny (s : WatchSystem) : Option WatchCall → WatchSystem
  | none => s
  | some call => watchCall s call

theorem watchMethodScan_call (s : WatchSystem) (id : WatchId) (text : Bytes) (scan : LoadedScan) :
    watchMethodScan s id text scan = { callIfAny s (scanCall id text scan) with scanning := none } := by
  unfold watchMethodScan scanCall
  cases hc : bytecodePatternCompile text with
  | error status => rfl
  | ok pattern =>
    cases hs : scan.classes with
    | none => rfl
    | some classes =>
      cases hf : scanLoadedClasses pattern classes with
      | none => simp only [hf]; rfl
      | some found => simp only [hf]; rfl

/-- Every event of the system is one call, or none, apart from who scans. -/
theorem watchStep_call (s : WatchSystem) (e : WatchEvent) :
    watchStep s e = { callIfAny s (callOf s e) with scanning := (watchStep s e).scanning } := by
  cases e with
  | watchMethodByName c m sig st faults =>
    simp only [watchStep, callOf]
    split <;> rfl
  | watchMethod pattern faults =>
    simp only [watchStep, callOf]
    split <;> rfl
  | scanDone scan =>
    cases hs : s.scanning with
    | none =>
      have hcall : callOf s (.scanDone scan) = none := by rw [callOf, hs]; rfl
      have hstep : watchStep s (.scanDone scan) = s := by simp only [watchStep, hs]
      rw [hcall, hstep]
      rfl
    | some running =>
      simp only [watchStep, callOf, hs, watchMethodScan_call]
      rfl
  | destroy id =>
    simp only [watchStep, callOf]
    split <;> rfl
  | shutdown =>
    simp only [watchStep, callOf]
    split <;> rfl
  | load loader classData faults => rfl
  | prepare klass prepared faults => rfl

/-! ## What a call does to a watch -/

/-- `class_watch_clear` on one watch. -/
def cancelWatch (watch : MethodWatch) : MethodWatch :=
  { releaseReady (releaseCandidate watch) with registered := false, state := .cancelled }

/-- What a call can do to a watch; only a registered one changes. -/
inductive WatchChange (s : WatchSystem) : WatchCall → MethodWatch → MethodWatch → Prop
  | kept (call : WatchCall) (w : MethodWatch) : WatchChange s call w w
  | load {loader : Option JObject} {classData : Bytes} {faults : LoadFaults} {cf : ClassFile} {w : MethodWatch}
      (hmem : w ∈ s.watches) (hcf : classfileParse classData = .ok cf) (hw : w.state = .waiting) :
      WatchChange s (.load loader classData faults) w (captureCandidate cf loader faults w)
  | prepareWaiting {klass : JClass} {prepared : PreparedClass} {faults : PrepareFaults} {w : MethodWatch}
      (hmem : w ∈ s.watches) :
      WatchChange s (.prepare klass prepared faults) w (prepareWaiting klass prepared faults w)
  | prepare {klass : JClass} {prepared : PreparedClass} {faults : PrepareFaults} {w : MethodWatch}
      (hmem : w ∈ s.watches) : WatchChange s (.prepare klass prepared faults) w
        (prepareCaptured klass prepared faults (prepareWaiting klass prepared faults w))
  | resolveLoaded {method : JMethodId} {offset : Nat} {scan : LoadedScan} {w : MethodWatch} (hmem : w ∈ s.watches) :
      WatchChange s (.resolveLoaded w.id method offset scan) w (resolveLoaded scan method offset w)
  | clear {w : MethodWatch} (hmem : w ∈ s.watches) : WatchChange s .clear w (cancelWatch w)

/-- What is fixed when a watch is created: its address, its pattern, and whether it goes by names. -/
def MethodWatch.made (w : MethodWatch) : WatchId × BytecodePattern × Bool := (w.id, w.pattern, w.byName)

theorem captureCandidate_made (cf : ClassFile) (loader : Option JObject) (faults : LoadFaults) (watch : MethodWatch) :
    (captureCandidate cf loader faults watch).made = watch.made := by
  unfold captureCandidate
  split
  · rfl
  · split
    · rfl
    · dsimp only
      split <;> rfl

theorem resolveLoaded_made (scan : LoadedScan) (method : JMethodId) (offset : Nat) (watch : MethodWatch) :
    (resolveLoaded scan method offset watch).made = watch.made := by
  unfold resolveLoaded
  split
  · rfl
  split
  · rfl
  · split <;> rfl

theorem prepareWaiting_made (klass : JClass) (prepared : PreparedClass) (faults : PrepareFaults) (watch : MethodWatch) :
    (prepareWaiting klass prepared faults watch).made = watch.made := by
  unfold prepareWaiting
  split
  · rfl
  · split
    · rfl
    · split <;> rfl

theorem prepareCaptured_made (klass : JClass) (prepared : PreparedClass) (faults : PrepareFaults)
    (watch : MethodWatch) : (prepareCaptured klass prepared faults watch).made = watch.made := by
  unfold prepareCaptured
  split
  · rfl
  split
  · rfl
  split
  · rfl
  · split <;> rfl

theorem captureCandidate_id (cf : ClassFile) (loader : Option JObject) (faults : LoadFaults) (watch : MethodWatch) :
    (captureCandidate cf loader faults watch).id = watch.id :=
  congrArg Prod.fst (captureCandidate_made cf loader faults watch)

theorem resolveLoaded_id (scan : LoadedScan) (method : JMethodId) (offset : Nat) (watch : MethodWatch) :
    (resolveLoaded scan method offset watch).id = watch.id :=
  congrArg Prod.fst (resolveLoaded_made scan method offset watch)

theorem prepareWaiting_id (klass : JClass) (prepared : PreparedClass) (faults : PrepareFaults) (watch : MethodWatch) :
    (prepareWaiting klass prepared faults watch).id = watch.id :=
  congrArg Prod.fst (prepareWaiting_made klass prepared faults watch)

theorem prepareCaptured_id (klass : JClass) (prepared : PreparedClass) (faults : PrepareFaults)
    (watch : MethodWatch) : (prepareCaptured klass prepared faults watch).id = watch.id :=
  congrArg Prod.fst (prepareCaptured_made klass prepared faults watch)

theorem WatchChange.made_eq {s : WatchSystem} {call : WatchCall} {w w' : MethodWatch} (h : WatchChange s call w w') :
    w'.made = w.made := by
  cases h with
  | kept => rfl
  | load => exact captureCandidate_made _ _ _ _
  | prepareWaiting => exact prepareWaiting_made _ _ _ _
  | prepare => rw [prepareCaptured_made, prepareWaiting_made]
  | resolveLoaded => exact resolveLoaded_made _ _ _ _
  | clear => rfl

theorem WatchChange.id_eq {s : WatchSystem} {call : WatchCall} {w w' : MethodWatch} (h : WatchChange s call w w') :
    w'.id = w.id := congrArg Prod.fst h.made_eq

theorem WatchChange.pattern_eq {s : WatchSystem} {call : WatchCall} {w w' : MethodWatch}
    (h : WatchChange s call w w') : w'.pattern = w.pattern := congrArg (·.2.1) h.made_eq

theorem WatchChange.byName_eq {s : WatchSystem} {call : WatchCall} {w w' : MethodWatch} (h : WatchChange s call w w') :
    w'.byName = w.byName := congrArg (·.2.2) h.made_eq

theorem mem_load_change {s : WatchSystem} {loader : Option JObject} {classData : Bytes} {faults : LoadFaults}
    {w' : MethodWatch} (h : w' ∈ classWatchOnClassFileLoad loader classData faults s.watches) :
    ∃ w ∈ s.watches, WatchChange s (.load loader classData faults) w w' := by
  unfold classWatchOnClassFileLoad at h
  split at h
  · exact ⟨w', h, .kept _ _⟩
  split at h
  · exact ⟨w', h, .kept _ _⟩
  split at h
  · exact ⟨w', h, .kept _ _⟩
  split at h
  · exact ⟨w', h, .kept _ _⟩
  · rename_i cf hcf
    obtain ⟨w, hw, rfl⟩ := List.mem_map.mp h
    refine ⟨w, hw, ?_⟩
    split
    · exact .load hw hcf ‹_›
    · exact .kept _ _

theorem mem_prepare_change {s : WatchSystem} {klass : JClass} {prepared : PreparedClass} {faults : PrepareFaults}
    {w' : MethodWatch} (h : w' ∈ classWatchOnClassPrepare klass prepared faults s.watches) :
    ∃ w ∈ s.watches, WatchChange s (.prepare klass prepared faults) w w' := by
  unfold classWatchOnClassPrepare at h
  dsimp only at h
  split at h
  · obtain ⟨w, hw, rfl⟩ := List.mem_map.mp h
    exact ⟨w, hw, .prepareWaiting hw⟩
  · simp only [List.map_map, List.mem_map, Function.comp] at h
    obtain ⟨w, hw, rfl⟩ := h
    exact ⟨w, hw, .prepare hw⟩

/-- A watch that was just created: it waits under the next address, for names or for a pattern that was compiled. -/
structure NewWatch (s : WatchSystem) (w : MethodWatch) : Prop where
  id : w.id = s.next
  state : w.state = .waiting
  compiled : w.byName = false → ∃ text, bytecodePatternCompile text = .ok w.pattern

/-- Every registered watch after a call was registered before, or is new. -/
theorem mem_watches_call {s : WatchSystem} {call : WatchCall} {w' : MethodWatch} (h : w' ∈ (watchCall s call).watches) :
    (∃ w ∈ s.watches, WatchChange s call w w' ∧ call ≠ .clear) ∨ NewWatch s w' := by
  cases call with
  | create pattern faults =>
    simp only [watchCall, classWatchCreate] at h
    split at h
    · exact .inl ⟨w', h, .kept _ _, by simp⟩
    split at h
    · exact .inl ⟨w', h, .kept _ _, by simp⟩
    rename_i compiled hcompiled
    split at h
    · exact .inl ⟨w', h, .kept _ _, by simp⟩
    · rcases List.mem_cons.mp h with rfl | h
      · exact .inr ⟨rfl, rfl, fun _ => ⟨pattern, hcompiled⟩⟩
      · exact .inl ⟨w', h, .kept _ _, by simp⟩
  | createNamed c m sig st faults =>
    simp only [watchCall, classWatchCreateNamed] at h
    split at h
    · exact .inl ⟨w', h, .kept _ _, by simp⟩
    split at h
    · exact .inl ⟨w', h, .kept _ _, by simp⟩
    · rcases List.mem_cons.mp h with rfl | h
      · exact .inr ⟨rfl, rfl, fun hn => by cases hn⟩
      · exact .inl ⟨w', h, .kept _ _, by simp⟩
  | resolveLoaded id method offset scan =>
    obtain ⟨w, hw, rfl⟩ := List.mem_map.mp h
    refine .inl ⟨w, hw, ?_, by simp⟩
    split
    · rename_i hid
      subst hid
      exact .resolveLoaded hw
    · exact .kept _ _
  | get id => exact .inl ⟨w', h, .kept _ _, by simp⟩
  | destroy id => exact .inl ⟨w', (List.mem_filter.mp h).1, .kept _ _, by simp⟩
  | clear => exact absurd h List.not_mem_nil
  | load loader classData faults =>
    obtain ⟨w, hw, hc⟩ := mem_load_change h
    exact .inl ⟨w, hw, hc, by simp⟩
  | prepare klass prepared faults =>
    obtain ⟨w, hw, hc⟩ := mem_prepare_change h
    exact .inl ⟨w, hw, hc, by simp⟩

/-- A call detaches watches only by clearing them. -/
theorem mem_detached_call {s : WatchSystem} {call : WatchCall} {w' : MethodWatch}
    (h : w' ∈ (watchCall s call).detached) : ∃ w ∈ s.handles, WatchChange s call w w' := by
  have kept (hk : w' ∈ s.detached) : ∃ w ∈ s.handles, WatchChange s call w w' :=
    ⟨w', List.mem_append_right _ hk, .kept _ _⟩
  cases call with
  | create pattern faults =>
    simp only [watchCall, classWatchCreate] at h
    split at h
    · exact kept h
    split at h
    · exact kept h
    split at h
    · exact kept h
    · exact kept h
  | createNamed c m sig st faults =>
    simp only [watchCall, classWatchCreateNamed] at h
    split at h
    · exact kept h
    split at h
    · exact kept h
    · exact kept h
  | destroy id => exact kept (List.mem_filter.mp h).1
  | clear =>
    rcases List.mem_append.mp h with h | h
    · obtain ⟨w, hw, rfl⟩ := List.mem_map.mp h
      exact ⟨w, List.mem_append_left _ hw, .clear hw⟩
    · exact kept h
  | _ => exact kept h

/-- Every watch after a call was there before, or is new. -/
theorem mem_call {s : WatchSystem} {call : WatchCall} {w' : MethodWatch} (h : w' ∈ (watchCall s call).handles) :
    (∃ w ∈ s.handles, WatchChange s call w w') ∨ NewWatch s w' := by
  rcases List.mem_append.mp h with h | h
  · obtain ⟨w, hw, hc, -⟩ | hnew := mem_watches_call h
    · exact .inl ⟨w, List.mem_append_left _ hw, hc⟩
    · exact .inr hnew
  · exact .inl (mem_detached_call h)

/-- An event of the system on the registered watches. -/
theorem mem_watches_step {s : WatchSystem} {e : WatchEvent} {w' : MethodWatch} (h : w' ∈ (watchStep s e).watches) :
    w' ∈ s.watches ∨ (∃ call, callOf s e = some call ∧ ∃ w ∈ s.watches, WatchChange s call w w') ∨ NewWatch s w' := by
  rw [watchStep_call] at h
  cases hcall : callOf s e with
  | none =>
    rw [hcall] at h
    exact .inl h
  | some call =>
    rw [hcall] at h
    obtain ⟨w, hw, hc, -⟩ | hnew := mem_watches_call h
    · exact .inr (.inl ⟨call, rfl, w, hw, hc⟩)
    · exact .inr (.inr hnew)

/-- An event of the system on all watches. -/
theorem mem_step {s : WatchSystem} {e : WatchEvent} {w' : MethodWatch} (h : w' ∈ (watchStep s e).handles) :
    w' ∈ s.handles ∨ (∃ call, callOf s e = some call ∧ ∃ w ∈ s.handles, WatchChange s call w w') ∨ NewWatch s w' := by
  rw [watchStep_call] at h
  cases hcall : callOf s e with
  | none =>
    rw [hcall] at h
    exact .inl h
  | some call =>
    rw [hcall] at h
    obtain ⟨w, hw, hc⟩ | hnew := mem_call h
    · exact .inr (.inl ⟨call, rfl, w, hw, hc⟩)
    · exact .inr (.inr hnew)

/-! ## Addresses -/

/-- The watches that exist, told apart by their addresses. -/
def watchPopulation : Population WatchSystem MethodWatch := ⟨WatchSystem.handles, MethodWatch.id, WatchSystem.next⟩

theorem map_id_load (loader : Option JObject) (classData : Bytes) (faults : LoadFaults) (watches : List MethodWatch) :
    (classWatchOnClassFileLoad loader classData faults watches).map (·.id) = watches.map (·.id) := by
  unfold classWatchOnClassFileLoad
  split
  · rfl
  split
  · rfl
  split
  · rfl
  split
  · rfl
  · rw [List.map_map]
    refine List.map_congr_left fun w _ => ?_
    by_cases hw : w.state = .waiting
    · simp [hw, captureCandidate_id]
    · simp [hw]

theorem map_id_prepare (klass : JClass) (prepared : PreparedClass) (faults : PrepareFaults)
    (watches : List MethodWatch) :
    (classWatchOnClassPrepare klass prepared faults watches).map (·.id) = watches.map (·.id) := by
  unfold classWatchOnClassPrepare
  dsimp only
  split
  · rw [List.map_map]
    exact List.map_congr_left fun w _ => prepareWaiting_id _ _ _ w
  · rw [List.map_map, List.map_map]
    refine List.map_congr_left fun w _ => ?_
    simp only [Function.comp_apply, prepareCaptured_id, prepareWaiting_id]

/-- A call keeps the addresses, drops some of them, or adds the next one. -/
theorem addresses_call (s : WatchSystem) (call : WatchCall) :
    (((watchCall s call).handles.map (·.id)).Sublist (s.handles.map (·.id)) ∧ s.next ≤ (watchCall s call).next) ∨
      ((watchCall s call).handles.map (·.id) = s.next :: s.handles.map (·.id) ∧
        (watchCall s call).next = s.next + 1) := by
  cases call with
  | create pattern faults =>
    simp only [watchCall, classWatchCreate]
    split
    · exact .inl ⟨.refl _, Nat.le_refl _⟩
    split
    · exact .inl ⟨.refl _, Nat.le_refl _⟩
    split
    · exact .inl ⟨.refl _, Nat.le_succ _⟩
    · exact .inr ⟨rfl, rfl⟩
  | createNamed c m sig st faults =>
    simp only [watchCall, classWatchCreateNamed]
    split
    · exact .inl ⟨.refl _, Nat.le_refl _⟩
    split
    · exact .inl ⟨.refl _, Nat.le_succ _⟩
    · exact .inr ⟨rfl, rfl⟩
  | resolveLoaded id method offset scan =>
    refine .inl ⟨?_, Nat.le_refl _⟩
    have same : (s.watches.map fun w => if w.id = id then resolveLoaded scan method offset w else w).map (·.id) =
        s.watches.map (·.id) := by
      rw [List.map_map]
      refine List.map_congr_left fun w _ => ?_
      simp only [Function.comp_apply]
      split
      · exact resolveLoaded_id _ _ _ _
      · rfl
    simp only [watchCall, classWatchResolveLoaded, WatchSystem.handles, List.map_append, same]
    exact .refl _
  | get id => exact .inl ⟨.refl _, Nat.le_refl _⟩
  | destroy id =>
    exact .inl ⟨(List.filter_sublist.append List.filter_sublist).map _, Nat.le_refl _⟩
  | clear =>
    refine .inl ⟨?_, Nat.le_refl _⟩
    simp only [watchCall, classWatchClear, WatchSystem.handles, List.nil_append, List.map_append, List.map_map,
      Function.comp_def, releaseReady, releaseCandidate]
    exact .refl _
  | load loader classData faults =>
    refine .inl ⟨?_, Nat.le_refl _⟩
    simp only [watchCall, WatchSystem.handles, List.map_append, map_id_load]
    exact .refl _
  | prepare klass prepared faults =>
    refine .inl ⟨?_, Nat.le_refl _⟩
    simp only [watchCall, WatchSystem.handles, List.map_append, map_id_prepare]
    exact .refl _

theorem next_call (s : WatchSystem) (call : WatchCall) : s.next ≤ (watchCall s call).next := by
  obtain ⟨-, hnext⟩ | ⟨-, hnext⟩ := addresses_call s call
  · exact hnext
  · rw [hnext]
    exact Nat.le_succ _

theorem next_step (s : WatchSystem) (e : WatchEvent) : s.next ≤ (watchStep s e).next := by
  rw [watchStep_call]
  cases callOf s e with
  | none => exact Nat.le_refl _
  | some call => exact next_call s call

theorem distinct_start : watchPopulation.Distinct {} :=
  ⟨fun _ hw => absurd hw List.not_mem_nil, List.nodup_nil⟩

/-- Watches never share an address. -/
theorem distinct_call {s : WatchSystem} (h : watchPopulation.Distinct s) (call : WatchCall) :
    watchPopulation.Distinct (watchCall s call) := by
  have below : ∀ i ∈ s.handles.map (·.id), i < s.next := by
    intro i hi
    obtain ⟨w, hw, rfl⟩ := List.mem_map.mp hi
    exact h.below w hw
  obtain ⟨hsub, hnext⟩ | ⟨heq, hnext⟩ := addresses_call s call
  · refine ⟨fun w hw => ?_, h.nodup.sublist hsub⟩
    exact Nat.lt_of_lt_of_le (below _ (hsub.subset (List.mem_map_of_mem hw))) hnext
  · constructor
    · intro w hw
      show w.id < (watchCall s call).next
      have hid : w.id ∈ (watchCall s call).handles.map (·.id) := List.mem_map_of_mem hw
      rw [heq] at hid
      rw [hnext]
      rcases List.mem_cons.mp hid with hid | hid
      · exact Nat.lt_succ_of_le (Nat.le_of_eq hid)
      · exact Nat.lt_succ_of_lt (below _ hid)
    · show ((watchCall s call).handles.map (·.id)).Nodup
      rw [heq]
      exact List.nodup_cons.mpr ⟨fun hmem => Nat.lt_irrefl _ (below _ hmem), h.nodup⟩

theorem distinct_run {s : WatchSystem} (h : watchPopulation.Distinct s) (calls : List WatchCall) :
    watchPopulation.Distinct (runEvents watchCall s calls) :=
  invariant_run (I := watchPopulation.Distinct) (fun _ call hs _ => distinct_call hs call) h
    (AllMeet.of_forall (fun _ _ => trivial) _ _)

theorem distinct_step {s : WatchSystem} (h : watchPopulation.Distinct s) (e : WatchEvent) :
    watchPopulation.Distinct (watchStep s e) := by
  have hcall : watchPopulation.Distinct (callIfAny s (callOf s e)) := by
    cases callOf s e with
    | none => exact h
    | some call => exact distinct_call h call
  rw [watchStep_call]
  exact ⟨hcall.below, hcall.nodup⟩

theorem distinct_events (events : List WatchEvent) : watchPopulation.Distinct (runEvents watchStep {} events) :=
  invariant_run (I := watchPopulation.Distinct) (fun _ e hs _ => distinct_step hs e) distinct_start
    (AllMeet.of_forall (fun _ _ => trivial) _ _)

/-- A relation that every change of a call keeps relates the watches before and after it. -/
theorem evolves_call {s : WatchSystem} {call : WatchCall} {R : MethodWatch → MethodWatch → Prop}
    (hR : ∀ w w', WatchChange s call w w' → R w w') : watchPopulation.Evolves R s (watchCall s call) := by
  constructor
  · exact next_call s call
  · intro w' hw'
    obtain ⟨w, hw, hc⟩ | hnew := mem_call hw'
    · exact .inl ⟨w, hw, hc.id_eq.symm, hR w w' hc⟩
    · exact .inr (Nat.le_of_eq hnew.id.symm)

/-- The same for an event of the system. -/
theorem evolves_step {s : WatchSystem} {e : WatchEvent} {R : MethodWatch → MethodWatch → Prop} (hrefl : ∀ w, R w w)
    (hR : ∀ call w w', WatchChange s call w w' → R w w') : watchPopulation.Evolves R s (watchStep s e) := by
  refine ⟨next_step s e, fun w' hw' => ?_⟩
  obtain hold | ⟨call, -, w, hw, hc⟩ | hnew := mem_step hw'
  · exact .inl ⟨w', hold, rfl, hrefl w'⟩
  · exact .inl ⟨w, hw, hc.id_eq.symm, hR call w w' hc⟩
  · exact .inr (Nat.le_of_eq hnew.id.symm)

/-! ## The documented states -/

/-- The documented moves: only `class_watch_clear` cancels. -/
def MayMove (call : WatchCall) (old new : WatchState) : Prop :=
  old = new ∨ (old = .waiting ∧ (new = .captured ∨ new = .ready ∨ new = .failed)) ∨
    (old = .captured ∧ (new = .ready ∨ new = .failed)) ∨ (call = .clear ∧ new = .cancelled)

/-- What may have become of a watch: a ready one keeps its method and offset until it is cancelled, and a failed or
cancelled one stays so, but for the cancelling. -/
structure Lasting (w w' : MethodWatch) : Prop where
  ready : w.state = .ready →
    w'.state = .cancelled ∨ (w'.state = .ready ∧ w'.method = w.method ∧ w'.offset = w.offset)
  failed : w.state = .failed → w'.state = .failed ∨ w'.state = .cancelled
  cancelled : w.state = .cancelled → w'.state = .cancelled

theorem Lasting.refl (w : MethodWatch) : Lasting w w := ⟨fun h => .inr ⟨h, rfl, rfl⟩, .inl, id⟩

theorem Lasting.trans (a b c : MethodWatch) (h₁ : Lasting a b) (h₂ : Lasting b c) : Lasting a c := by
  constructor
  · intro ha
    obtain hb | ⟨hb, hm, ho⟩ := h₁.ready ha
    · exact .inl (h₂.cancelled hb)
    · obtain hc | ⟨hc, hm', ho'⟩ := h₂.ready hb
      · exact .inl hc
      · exact .inr ⟨hc, hm'.trans hm, ho'.trans ho⟩
  · intro ha
    obtain hb | hb := h₁.failed ha
    · exact h₂.failed hb
    · exact .inr (h₂.cancelled hb)
  · intro ha
    exact h₂.cancelled (h₁.cancelled ha)

/-- A ready watch is read as the same until it is cancelled. -/
theorem Lasting.get {w w' : MethodWatch} (h : Lasting w w') (hw : w.state = .ready) (hw' : w'.state ≠ .cancelled) :
    classWatchGet w' = classWatchGet w := by
  obtain hc | ⟨hs, hm, ho⟩ := h.ready hw
  · exact absurd hc hw'
  · simp only [classWatchGet, hs, hw, hm, ho]

/-- The call does not resolve a watch from the loaded classes that has failed. -/
def NoRevival (s : WatchSystem) : WatchCall → Prop
  | .resolveLoaded id method _ scan => ∀ w ∈ s.watches, w.id = id → w.state = .failed →
    scan.declaringClass method = none ∨ scan.globalRef = false
  | _ => True

theorem captureCandidate_cases (cf : ClassFile) (loader : Option JObject) (faults : LoadFaults) (w : MethodWatch) :
    captureCandidate cf loader faults w = w ∨ (captureCandidate cf loader faults w).state = .captured ∨
      (captureCandidate cf loader faults w).state = .failed := by
  unfold captureCandidate
  split
  · exact .inl rfl
  · split
    · exact .inl rfl
    · dsimp only
      split
      · exact .inr (.inr rfl)
      · exact .inr (.inl rfl)

theorem prepareWaiting_cases (klass : JClass) (prepared : PreparedClass) (faults : PrepareFaults) (w : MethodWatch) :
    prepareWaiting klass prepared faults w = w ∨ w.state = .waiting ∧
      ((prepareWaiting klass prepared faults w).state = .ready ∨
        (prepareWaiting klass prepared faults w).state = .failed) := by
  unfold prepareWaiting
  split
  · exact .inl rfl
  · rename_i hw
    split
    · exact .inl rfl
    · refine .inr ⟨Classical.not_not.mp hw, ?_⟩
      split
      · exact .inr rfl
      · exact .inl rfl

theorem prepareCaptured_cases (klass : JClass) (prepared : PreparedClass) (faults : PrepareFaults) (w : MethodWatch) :
    prepareCaptured klass prepared faults w = w ∨ w.state = .captured ∧
      ((prepareCaptured klass prepared faults w).state = .ready ∨
        (prepareCaptured klass prepared faults w).state = .failed) := by
  unfold prepareCaptured
  split
  · exact .inl rfl
  · rename_i hw
    have hcaptured : w.state = .captured := Classical.not_not.mp fun h => hw (.inl h)
    split
    · exact .inl rfl
    split
    · exact .inr ⟨hcaptured, .inr rfl⟩
    · split
      · exact .inr ⟨hcaptured, .inr rfl⟩
      · exact .inr ⟨hcaptured, .inl rfl⟩

/-- A prepare event as a whole, on one watch: it stays as it is, or it waited or was captured and is now decided. -/
theorem prepareBoth_cases (klass : JClass) (prepared : PreparedClass) (faults : PrepareFaults) (w : MethodWatch) :
    prepareCaptured klass prepared faults (prepareWaiting klass prepared faults w) = w ∨
      (w.state = .waiting ∨ w.state = .captured) ∧
      ((prepareCaptured klass prepared faults (prepareWaiting klass prepared faults w)).state = .ready ∨
        (prepareCaptured klass prepared faults (prepareWaiting klass prepared faults w)).state = .failed) := by
  obtain hw | ⟨hw, hdecided⟩ := prepareWaiting_cases klass prepared faults w
  · rw [hw]
    obtain hc | ⟨hc, hdecided⟩ := prepareCaptured_cases klass prepared faults w
    · exact .inl hc
    · exact .inr ⟨.inr hc, hdecided⟩
  · obtain hc | ⟨hc, -⟩ := prepareCaptured_cases klass prepared faults (prepareWaiting klass prepared faults w)
    · rw [hc]
      exact .inr ⟨.inl hw, hdecided⟩
    · rw [hc] at hdecided
      simp at hdecided

/-- The states that `class_watch_resolve_loaded` leaves behind. -/
theorem resolveLoaded_cases (scan : LoadedScan) (method : JMethodId) (offset : Nat) (w : MethodWatch) :
    (w.state = .ready ∧ resolveLoaded scan method offset w = w) ∨
      (w.state ≠ .ready ∧ (resolveLoaded scan method offset w).state = .failed ∧
        (scan.declaringClass method = none ∨ scan.globalRef = false)) ∨
      (w.state ≠ .ready ∧ (resolveLoaded scan method offset w).state = .ready ∧
        ¬(scan.declaringClass method = none ∨ scan.globalRef = false)) := by
  unfold resolveLoaded
  split
  · exact .inl ⟨‹_›, rfl⟩
  rename_i hready
  split
  · exact .inr (.inl ⟨hready, rfl, .inl ‹_›⟩)
  · rename_i declaring hd
    split
    · rename_i hr
      exact .inr (.inl ⟨hready, rfl, .inr (by simpa using hr)⟩)
    · rename_i hr
      exact .inr (.inr ⟨hready, rfl, by simpa [hd] using hr⟩)

/-- Registered watches are never cancelled. -/
def NoneCancelled (s : WatchSystem) : Prop := ∀ w ∈ s.watches, w.state ≠ .cancelled

/-- A watch that a call changes, in a run that revives none. -/
theorem WatchChange.documented {s : WatchSystem} {call : WatchCall} {w w' : MethodWatch} (h : WatchChange s call w w')
    (hc : NoneCancelled s) (hok : NoRevival s call) :
    w' = w ∨ (w.state = .waiting ∧ (w'.state = .captured ∨ w'.state = .ready ∨ w'.state = .failed)) ∨
      (w.state = .captured ∧ (w'.state = .ready ∨ w'.state = .failed)) ∨
      (w.state = .failed ∧ w'.state = .failed) ∨ (call = .clear ∧ w'.state = .cancelled) := by
  cases h with
  | kept => exact .inl rfl
  | load _ _ hw =>
    obtain h | h | h := captureCandidate_cases _ _ _ w
    · exact .inl h
    · exact .inr (.inl ⟨hw, .inl h⟩)
    · exact .inr (.inl ⟨hw, .inr (.inr h)⟩)
  | prepareWaiting _ =>
    obtain h | ⟨hw, h⟩ := prepareWaiting_cases _ _ _ w
    · exact .inl h
    · exact .inr (.inl ⟨hw, .inr h⟩)
  | prepare _ =>
    obtain h | ⟨hw | hw, h⟩ := prepareBoth_cases _ _ _ w
    · exact .inl h
    · exact .inr (.inl ⟨hw, .inr h⟩)
    · exact .inr (.inr (.inl ⟨hw, h⟩))
  | @resolveLoaded method offset scan _ hmem =>
    have hcancelled := hc w hmem
    have hrevived := hok w hmem rfl
    obtain ⟨-, h⟩ | ⟨hready, h, -⟩ | ⟨hready, h, hanswers⟩ := resolveLoaded_cases scan method offset w
    · exact .inl h
    · cases hstate : w.state with
      | waiting => exact .inr (.inl ⟨rfl, .inr (.inr h)⟩)
      | captured => exact .inr (.inr (.inl ⟨rfl, .inr h⟩))
      | ready => exact absurd hstate hready
      | failed => exact .inr (.inr (.inr (.inl ⟨rfl, h⟩)))
      | cancelled => exact absurd hstate hcancelled
    · cases hstate : w.state with
      | waiting => exact .inr (.inl ⟨rfl, .inr (.inl h)⟩)
      | captured => exact .inr (.inr (.inl ⟨rfl, .inl h⟩))
      | ready => exact absurd hstate hready
      | failed => exact absurd (hrevived hstate) hanswers
      | cancelled => exact absurd hstate hcancelled
  | clear => exact .inr (.inr (.inr (.inr ⟨rfl, rfl⟩)))

theorem WatchChange.mayMove {s : WatchSystem} {call : WatchCall} {w w' : MethodWatch} (h : WatchChange s call w w')
    (hc : NoneCancelled s) (hok : NoRevival s call) : MayMove call w.state w'.state := by
  obtain rfl | h | h | ⟨h₁, h₂⟩ | h := h.documented hc hok
  · exact .inl rfl
  · exact .inr (.inl h)
  · exact .inr (.inr (.inl h))
  · exact .inl (h₁.trans h₂.symm)
  · exact .inr (.inr (.inr h))

theorem WatchChange.lasting {s : WatchSystem} {call : WatchCall} {w w' : MethodWatch} (h : WatchChange s call w w')
    (hc : NoneCancelled s) (hok : NoRevival s call) : Lasting w w' := by
  obtain rfl | ⟨h₁, -⟩ | ⟨h₁, -⟩ | ⟨h₁, h₂⟩ | ⟨-, h₂⟩ := h.documented hc hok
  · exact Lasting.refl _
  · exact ⟨by simp [h₁], by simp [h₁], by simp [h₁]⟩
  · exact ⟨by simp [h₁], by simp [h₁], by simp [h₁]⟩
  · exact ⟨by simp [h₁], fun _ => .inl h₂, by simp [h₁]⟩
  · exact ⟨fun _ => .inl h₂, fun _ => .inr h₂, fun _ => h₂⟩

/-- A watch that was changed is captured or decided, or was cleared. -/
theorem WatchChange.state_cases {s : WatchSystem} {call : WatchCall} {w w' : MethodWatch}
    (h : WatchChange s call w w') :
    w' = w ∨ w'.state = .captured ∨ w'.state = .ready ∨ w'.state = .failed ∨ call = .clear := by
  cases h with
  | kept => exact .inl rfl
  | load _ _ _ =>
    obtain h | h | h := captureCandidate_cases _ _ _ w
    · exact .inl h
    · exact .inr (.inl h)
    · exact .inr (.inr (.inr (.inl h)))
  | prepareWaiting _ =>
    obtain h | ⟨-, h | h⟩ := prepareWaiting_cases _ _ _ w
    · exact .inl h
    · exact .inr (.inr (.inl h))
    · exact .inr (.inr (.inr (.inl h)))
  | prepare _ =>
    obtain h | ⟨-, h | h⟩ := prepareBoth_cases _ _ _ w
    · exact .inl h
    · exact .inr (.inr (.inl h))
    · exact .inr (.inr (.inr (.inl h)))
  | resolveLoaded _ =>
    obtain ⟨-, h⟩ | ⟨-, h, -⟩ | ⟨-, h, -⟩ := resolveLoaded_cases _ _ _ w
    · exact .inl h
    · exact .inr (.inr (.inr (.inl h)))
    · exact .inr (.inr (.inl h))
  | clear => exact .inr (.inr (.inr (.inr rfl)))

theorem noneCancelled_call {s : WatchSystem} (h : NoneCancelled s) (call : WatchCall) :
    NoneCancelled (watchCall s call) := by
  intro w' hw'
  obtain ⟨w, hw, hchange, hclear⟩ | hnew := mem_watches_call hw'
  · obtain rfl | hs | hs | hs | hs := hchange.state_cases
    · exact h _ hw
    · simp [hs]
    · simp [hs]
    · simp [hs]
    · exact absurd hs hclear
  · simp [hnew.state]

theorem noneCancelled_step {s : WatchSystem} (h : NoneCancelled s) (e : WatchEvent) :
    NoneCancelled (watchStep s e) := by
  rw [watchStep_call]
  cases callOf s e with
  | none => exact h
  | some call => exact noneCancelled_call h call

theorem noneCancelled_run (calls : List WatchCall) : NoneCancelled (runEvents watchCall {} calls) :=
  invariant_run (I := NoneCancelled) (fun _ call hs _ => noneCancelled_call hs call)
    (fun _ hw => absurd hw List.not_mem_nil) (AllMeet.of_forall (fun _ _ => trivial) _ _)

/-- The documented state machine along a run: every single move, and what lasts. -/
structure DocumentedStates (calls : List WatchCall) : Prop where
  moves : ∀ before call after, calls = before ++ call :: after → ∀ w ∈ (runEvents watchCall {} before).handles,
    ∀ w' ∈ (runEvents watchCall {} (before ++ [call])).handles, w'.id = w.id → MayMove call w.state w'.state
  lasts : ∀ before during after, calls = before ++ (during ++ after) →
    ∀ w ∈ (runEvents watchCall {} before).handles, ∀ w' ∈ (runEvents watchCall {} (before ++ during)).handles,
      w'.id = w.id → Lasting w w'

/-- The states a run goes through have no registered watch that is cancelled. -/
theorem lasting_run {calls : List WatchCall} {s : WatchSystem} (hs : NoneCancelled s)
    (h : AllMeet watchCall NoRevival s calls) : watchPopulation.Evolves Lasting s (runEvents watchCall s calls) := by
  have both : AllMeet watchCall (fun s call => NoneCancelled s ∧ NoRevival s call) s calls := by
    induction calls generalizing s with
    | nil => trivial
    | cons call calls ih => exact ⟨⟨hs, h.1⟩, ih (noneCancelled_call hs call) h.2⟩
  exact Population.evolves_run Lasting.refl Lasting.trans
    (fun s call hok => evolves_call fun w w' hc => hc.lasting hok.1 hok.2) both

/-- **The state machine of a watch.** The documented states are kept exactly in the runs that never resolve a failed
watch from the loaded classes. -/
theorem documented_states_iff (calls : List WatchCall) :
    DocumentedStates calls ↔ AllMeet watchCall NoRevival {} calls := by
  constructor
  · intro h
    refine allMeet_iff.mpr fun before call after hcalls => ?_
    cases call with
    | resolveLoaded id method offset scan =>
      intro w hw hid hfailed
      by_contra hanswers
      obtain ⟨hready, -⟩ | ⟨-, -, hno⟩ | ⟨-, hrevived, -⟩ := resolveLoaded_cases scan method offset w
      · simp [hfailed] at hready
      · exact hanswers hno
      · have hmem : resolveLoaded scan method offset w ∈
            (runEvents watchCall {} (before ++ [.resolveLoaded id method offset scan])).handles := by
          rw [runEvents_append]
          refine List.mem_append_left _ (List.mem_map.mpr ⟨w, hw, ?_⟩)
          rw [if_pos hid]
        have := h.moves before _ after hcalls w (List.mem_append_left _ hw) _ hmem (resolveLoaded_id _ _ _ _)
        simp [MayMove, hfailed, hrevived] at this
    | _ => trivial
  · intro h
    constructor
    · intro before call after hcalls w hw w' hw' hid
      subst hcalls
      obtain ⟨-, hok, -⟩ := h.split
      rw [runEvents_append] at hw'
      have hev := evolves_call (R := fun w w' => MayMove call w.state w'.state)
        fun w w' hc => hc.mayMove (noneCancelled_run before) hok
      exact hev.related (distinct_run distinct_start before) hw hw' hid.symm
    · intro before during after hcalls w hw w' hw' hid
      subst hcalls
      obtain ⟨-, hok⟩ := h.split
      rw [runEvents_append] at hw'
      exact (lasting_run (noneCancelled_run before) hok.split.1).related (distinct_run distinct_start before) hw hw'
        hid.symm

/-- The class `x/Y` with one method `f()V` whose code is a single `return`. -/
def otherClassBytes : Bytes :=
  [0xCA, 0xFE, 0xBA, 0xBE, 0, 0, 0, 52, 0, 7,
    1, 0, 3] ++ text "x/Y" ++ [7, 0, 1, 1, 0, 1] ++ text "f" ++ [1, 0, 3] ++ text "()V" ++ [1, 0, 4] ++ text "Code" ++
  [7, 0, 1, 0, 33, 0, 2, 0, 0, 0, 0, 0, 0, 0, 1, 0, 1, 0, 3, 0, 4, 0, 1,
    0, 5, 0, 0, 0, 13, 0, 0, 0, 1, 0, 0, 0, 1, 0xB1, 0, 0, 0, 0, 0, 0]

/-- A watch for `b1` is registered, its names cannot be copied when `x/Y` is loaded, and the scan of the loaded classes
then finds a method. -/
def failedThenFound : List WatchEvent :=
  [.watchMethod (text "b1") {}, .load none otherClassBytes { candidate := fun _ => true },
    .scanDone ⟨some [some [⟨9, some [0xB1]⟩]], fun _ => some 5, true⟩]

/-- The calls of these events. -/
def failedThenResolved : List WatchCall :=
  [.create (text "b1") {}, .load none otherClassBytes { candidate := fun _ => true },
    .resolveLoaded 0 9 0 ⟨some [some [⟨9, some [0xB1]⟩]], fun _ => some 5, true⟩]

/-- A failed watch becomes ready, against what is documented. -/
theorem failed_watch_revived :
    (runEvents watchStep {} failedThenFound).watches = (runEvents watchCall {} failedThenResolved).watches ∧
    ((runEvents watchStep {} (failedThenFound.take 2)).watches.map (·.state)) = [.failed] ∧
    ((runEvents watchStep {} failedThenFound).watches.map (·.state)) = [.ready] ∧
    ¬DocumentedStates failedThenResolved := by
  refine ⟨by decide +kernel, by decide +kernel, by decide +kernel, fun h => ?_⟩
  have hfailed : ∃ w ∈ (runEvents watchCall {} (failedThenResolved.take 2)).handles, w.id = 0 ∧ w.state = .failed := by
    decide +kernel
  have hready : ∃ w ∈ (runEvents watchCall {} failedThenResolved).handles, w.id = 0 ∧ w.state = .ready := by
    decide +kernel
  obtain ⟨w, hw, hid, hs⟩ := hfailed
  obtain ⟨w', hw', hid', hs'⟩ := hready
  have := (h.lasts (failedThenResolved.take 2) (failedThenResolved.drop 2) [] rfl w hw w' hw'
    (hid'.trans hid.symm)).failed hs
  simp [hs'] at this

end Jni2Hook
