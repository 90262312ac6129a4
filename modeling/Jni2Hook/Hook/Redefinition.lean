import Jni2Hook.Hook.FailedCalls
import Mathlib.Data.List.Nodup

/-!
# Explicit redefinitions

The base definition of a class is what was last given to `JNI2Hook_RedefineClass`, or the loaded bytes. The cache takes
the base definition once, so hooks follow it only while no class with a hook is redefined, and no class is hooked whose
cached bytes are no longer live.

* `baseDefinition`: the base definitions after a run.
* `redefinition_kept`: the live definitions are the base definitions with the recorded hooks.
-/

namespace Jni2Hook

open Lib

/-- The base definitions after one more successful call. -/
def baseAfter (base : JClass → Bytes) : RegistryEvent → JClass → Bytes
  | .redefineClass (some klass) (some bytes) _ _ => fun k => if k = klass then bytes else base k
  | _ => base

/-- The base definitions after a run of successful calls. -/
def baseDefinition (loaded : JClass → Bytes) (events : List RegistryEvent) : JClass → Bytes :=
  events.foldl baseAfter loaded

theorem baseDefinition_append (loaded : JClass → Bytes) (past : List RegistryEvent) (e : RegistryEvent) :
    baseDefinition loaded (past ++ [e]) = baseAfter (baseDefinition loaded past) e := by
  simp [baseDefinition]

/-- The hooks recorded for a class. -/
def Registry.hooksOf (s : Registry) (klass : JClass) : List HookEntry :=
  match s.classes.find? (·.klass == klass) with
  | none => []
  | some c => c.hooks

/-- A call comes to its end without an error. -/
def returnsOk (s : Registry) (e : RegistryEvent) : Bool :=
  match e.call s with
  | .ok _ _ => true
  | .error _ _ => false

/-- A call that returns OK and keeps to the base definitions: a class with a record is not redefined, and a class
without one is not hooked while other bytes than its live definition are cached. -/
def KeepsBase (s : Registry) (e : RegistryEvent) : Prop :=
  returnsOk s e = true ∧
    match e with
    | .init _ => True
    | .install _ _ a | .installAt _ _ _ a => a.apply.Sound ∧
      ∀ k, a.declaring = some k → s.New k → ∀ original, s.cachedBytes k = some original → original = s.vm k
    | .uninstall _ a | .uninstallAt _ _ _ a => a.apply.Sound
    | .redefineClass klass _ _ _ => ∀ k, klass = some k → s.New k
    | .shutdown _ _ => False

/-- The live definition is the rebuild of the hooks in their order. -/
def Rebuilt (original : Bytes) (hooks : List HookEntry) (live : Bytes) : Prop := rebuild original hooks = .ok live

/-- The invariant of the runs. -/
structure Follows (base : JClass → Bytes) (s : Registry) : Prop where
  recorded : Recorded Rebuilt s
  cached : ∀ c ∈ s.classes, s.cachedBytes c.klass = some (base c.klass)
  unrecorded : ∀ k, s.New k → s.vm k = base k

section Follows

variable {base : JClass → Bytes} {s s' : Registry}

theorem call_ok {e : RegistryEvent} (hok : returnsOk s e = true) : e.call s = .ok () (registryStep s e) := by
  unfold returnsOk at hok
  unfold registryStep endState
  cases hr : e.call s with
  | ok u s' => rfl
  | error status s' => simp [hr] at hok

/-- A record gets other hooks, and its live definition is their rebuild. -/
theorem Follows.put {t : Target} (h : Follows base s) (ht : s.Opens t) {hooks : List HookEntry} {d : Bytes}
    (hcached : s.cachedBytes t.record.klass = some (base t.record.klass))
    (hrebuilt : rebuild (base t.record.klass) hooks = .ok d) :
    Follows base ({ s with classes := t.withHooks hooks }.redefine t.record.klass d) := by
  have hvm : ∀ k, k ≠ t.record.klass → (s.redefine t.record.klass d).vm k = s.vm k :=
    fun k hk => redefine_vm_of_ne s d hk
  refine ⟨h.recorded.put ht rfl rfl hvm hcached ?_, fun c hc => ?_, fun k hk => ?_⟩
  · unfold Rebuilt
    rw [redefine_vm_self]
    exact hrebuilt
  · rcases mem_withHooks hc with rfl | hc
    · exact hcached
    · exact h.cached c (ht.others h.recorded.nodup c hc).1
  · have hne : k ≠ t.record.klass := by
      rintro rfl
      exact hk { t.record with hooks := hooks } (by simp [Target.withHooks]) rfl
    rw [redefine_vm_of_ne _ d hne]
    refine h.unrecorded k (ht.new_of_others (fun c hc => hk c ?_) hne)
    simp only [redefine_classes, Target.withHooks]
    rcases List.mem_append.mp hc with hc | hc <;> simp [hc]

/-- A record is dropped, and its class is at its base definition. -/
theorem Follows.drop {t : Target} (h : Follows base s) (ht : s.Opens t) :
    Follows base ({ s with classes := t.dropped }.redefine t.record.klass (base t.record.klass)) := by
  have hvm : ∀ k, k ≠ t.record.klass → (s.redefine t.record.klass (base t.record.klass)).vm k = s.vm k :=
    fun k hk => redefine_vm_of_ne s _ hk
  refine ⟨h.recorded.drop ht rfl rfl hvm, fun c hc => ?_, fun k hk => ?_⟩
  · exact h.cached c (ht.others h.recorded.nodup c hc).1
  · by_cases hself : k = t.record.klass
    · rw [hself, redefine_vm_self]
    · rw [redefine_vm_of_ne _ _ hself]
      exact h.unrecorded k (ht.new_of_others hk hself)

theorem Follows.captures (h : Follows base s) (hcap : Captures s s') : Follows base s' := by
  refine ⟨h.recorded.captures hcap, fun c hc => ?_, fun k hk => ?_⟩
  · rw [hcap.classes] at hc
    exact hcap.cachedBytes (h.cached c hc)
  · rw [hcap.vm]
    apply h.unrecorded k
    unfold Registry.New at hk ⊢
    rw [← hcap.classes]
    exact hk

theorem Follows.install (h : Follows base s) {method : Option JMethodId} {bytecodeOffset : UInt32}
    {nativeFunction : Option NativeFunction} {kind : HookKind} {a : InstallAnswers} (happly : a.apply.Sound)
    (hfresh : ∀ k, a.declaring = some k → s.New k → ∀ original, s.cachedBytes k = some original → original = s.vm k)
    (hrun : install method bytecodeOffset nativeFunction kind a s = .ok () s') : Follows base s' := by
  have hout := install_outcome method bytecodeOffset nativeFunction kind a s
  rw [hrun] at hout
  cases hout with
  | @installed s₁ t entry d hstage haccept =>
    have h₁ := h.captures hstage.captures
    -- The bytes behind a new record were cached while they were live.
    have hcached : s₁.cachedBytes t.record.klass = some (base t.record.klass) := by
      rcases hstage.opens with hclasses | ⟨hnew, -⟩
      · exact h₁.cached t.record (by simp [hclasses])
      · rw [hstage.captures.classes] at hnew
        obtain ⟨original, ho⟩ := Option.isSome_iff_exists.mp hstage.cached
        have hlive : original = s.vm t.record.klass := by
          rcases hstage.captures.cachedBytes_cases ho with hold | ⟨-, hlive⟩
          · exact hfresh _ hstage.declaring hnew original hold
          · exact hlive
        rw [ho, hlive, h.unrecorded _ hnew]
    exact h₁.put hstage.opens hcached (haccept.rebuild_eq happly hcached)

theorem Follows.uninstall (h : Follows base s) {method : Option JMethodId} {matches_ : HookEntry → Bool}
    {a : UninstallAnswers} (happly : a.apply.Sound) (hrun : uninstallMatching method matches_ a s = .ok () s') :
    Follows base s' := by
  have hout := uninstall_outcome method matches_ a s
  rw [hrun] at hout
  cases hout with
  | @uninstalled t kept aside d hmatch haccept =>
    have hcached := h.cached t.record hmatch.record_mem
    have hrebuilt := haccept.rebuild_eq happly hcached
    by_cases hempty : kept = []
    · subst hempty
      have hd : base t.record.klass = d := by simpa [rebuild] using hrebuilt
      subst hd
      exact h.drop (.inl hmatch.classes)
    · have hclasses : (if kept.isEmpty then t.dropped else t.withHooks kept) = t.withHooks kept := by simp [hempty]
      rw [hclasses]
      exact h.put (.inl hmatch.classes) hcached hrebuilt

/-- A redefinition that goes through changes the live definition of its class and nothing else. -/
theorem redefineClass_run {klass : Option JClass} {bytes : Option Bytes} {env : Environment} {redefined : Bool}
    (hrun : jni2hookRedefineClass klass bytes env redefined s = .ok () s') :
    ∃ k b, klass = some k ∧ bytes = some b ∧ s' = s.redefine k b := by
  cases klass with
  | none => cases hrun
  | some k =>
    cases bytes with
    | none => cases hrun
    | some b =>
      refine ⟨k, b, rfl, rfl, ?_⟩
      have hafter : After (jni2hookRedefineClass (some k) (some b) env redefined) s
          (fun _ t => t = s.redefine k b) (fun _ _ => True) := by
        unfold jni2hookRedefineClass
        simp [after_ite]
      exact hafter.of_ok hrun

/-- The redefinition of a class without a record becomes the base definition of the class. -/
theorem Follows.redefine (h : Follows base s) {klass : JClass} (bytes : Bytes) (hnew : s.New klass) :
    Follows (fun k => if k = klass then bytes else base k) (s.redefine klass bytes) := by
  refine ⟨⟨h.recorded.nodup, fun c hc => ?_⟩, fun c hc => ?_, fun k hk => ?_⟩
  · obtain ⟨original, ho, hlive⟩ := h.recorded.records c hc
    refine ⟨original, ho, ?_⟩
    rw [redefine_vm_of_ne s bytes (hnew c hc)]
    exact hlive
  · rw [if_neg (hnew c hc)]
    exact h.cached c hc
  · by_cases hself : k = klass
    · simp [hself]
    · rw [redefine_vm_of_ne s bytes hself, if_neg hself]
      exact h.unrecorded k hk

theorem Follows.step (h : Follows base s) (e : RegistryEvent) (hcall : KeepsBase s e) :
    Follows (baseAfter base e) (registryStep s e) := by
  obtain ⟨hok, hcond⟩ := hcall
  have hrun := call_ok hok
  cases e with
  | init a =>
    unfold registryStep RegistryEvent.call
    rcases endState_init a s with hend | hend <;> rw [hend]
    · exact h
    · exact ⟨⟨h.recorded.nodup, h.recorded.records⟩, h.cached, h.unrecorded⟩
  | install method nativeFunction a => exact h.install hcond.1 hcond.2 hrun
  | installAt method bytecodeOffset nativeFunction a => exact h.install hcond.1 hcond.2 hrun
  | uninstall method a => exact h.uninstall hcond hrun
  | uninstallAt method bytecodeOffset nativeFunction a =>
    cases method with
    | none => cases hrun
    | some method =>
      cases nativeFunction with
      | none => cases hrun
      | some nativeFunction => exact h.uninstall hcond hrun
  | redefineClass klass bytes env redefined =>
    obtain ⟨k, b, rfl, rfl, hs'⟩ := redefineClass_run hrun
    rw [hs']
    exact h.redefine b (hcond k rfl)
  | shutdown env answers => cases hcond

theorem follows_start (loaded : JClass → Bytes) : Follows loaded (Registry.start loaded) :=
  ⟨recorded_start loaded, (fun _ hc => nomatch hc), fun _ _ => rfl⟩

/-- Recorded or not, the live definition is the base definition with the hooks of the class. -/
theorem Follows.rebuild_eq (h : Follows base s) (k : JClass) : rebuild (base k) (s.hooksOf k) = .ok (s.vm k) := by
  unfold Registry.hooksOf
  cases hf : s.classes.find? (·.klass == k) with
  | none =>
    have hnew : s.New k := by
      intro c hc
      simpa using List.find?_eq_none.mp hf c hc
    rw [h.unrecorded k hnew]
    rfl
  | some c =>
    have hk : c.klass = k := by simpa using List.find?_some hf
    have hmem := List.mem_of_find?_eq_some hf
    obtain ⟨original, ho, hlive⟩ := h.recorded.records c hmem
    rw [h.cached c hmem, hk, Option.some.injEq] at ho
    rw [ho, ← hk]
    exact hlive

/-- A hook of a record is among the hooks of its class. -/
theorem Recorded.hooksOf_eq {R : Bytes → List HookEntry → Bytes → Prop} (h : Recorded R s) {c : HookedClass}
    (hc : c ∈ s.classes) : s.hooksOf c.klass = c.hooks := by
  unfold Registry.hooksOf
  cases hf : s.classes.find? (·.klass == c.klass) with
  | none =>
    have := List.find?_eq_none.mp hf c hc
    simp at this
  | some c' =>
    have hk : c'.klass = c.klass := by simpa using List.find?_some hf
    have heq := List.inj_on_of_nodup_map h.nodup (List.mem_of_find?_eq_some hf) hc hk
    simp [heq]

/-- A method that is reported as installed has a hook in the live definition of its class. -/
theorem Follows.installed_present (h : Follows base s) {method : JMethodId}
    (hinst : jni2hookIsInstalled s (some method) = true) :
    ∃ k, ∃ entry ∈ s.hooksOf k, entry.method = method ∧ Present s k entry := by
  unfold jni2hookIsInstalled at hinst
  obtain ⟨-, hsome⟩ := Bool.and_eq_true_iff.mp hinst
  obtain ⟨t, ht⟩ := Option.isSome_iff_exists.mp hsome
  obtain ⟨hclasses, hany⟩ := findTarget_some ht
  obtain ⟨entry, hentry, hmethod⟩ := List.any_eq_true.mp hany
  have hmem : t.record ∈ s.classes := by simp [hclasses]
  obtain ⟨original, ho, hlive⟩ := h.recorded.records t.record hmem
  refine ⟨t.record.klass, entry, ?_, by simpa using hmethod, original, t.record.hooks, ho, hentry, hlive⟩
  rw [h.recorded.hooksOf_eq hmem]
  exact hentry

end Follows

/-- After every run of calls that return OK and keep to the base definitions: the live definitions are the base
definitions with the recorded hooks, no method without a live hook is reported as installed, and a class without a hook
is at its base definition. -/
theorem redefinition_kept {loaded : JClass → Bytes} {events : List RegistryEvent} {s : Registry}
    (hs : s = runEvents registryStep (Registry.start loaded) events)
    (hcalls : AllMeet registryStep KeepsBase (Registry.start loaded) events) :
    (∀ k, rebuild (baseDefinition loaded events k) (s.hooksOf k) = .ok (s.vm k)) ∧
      (∀ method, jni2hookIsInstalled s (some method) = true →
        ∃ k, ∃ entry ∈ s.hooksOf k, entry.method = method ∧ Present s k entry) ∧
      (∀ k, s.hooksOf k = [] → s.vm k = baseDefinition loaded events k) := by
  have hstep : ∀ past s e, Follows (baseDefinition loaded past) s → KeepsBase s e →
      Follows (baseDefinition loaded (past ++ [e])) (registryStep s e) := by
    intro past s e h hcall
    rw [baseDefinition_append]
    exact h.step e hcall
  have hrun := history_run hstep [] (follows_start loaded) hcalls
  rw [← hs] at hrun
  refine ⟨hrun.rebuild_eq, fun method hinst => hrun.installed_present hinst, fun k hk => ?_⟩
  have hlive := hrun.rebuild_eq k
  rw [hk] at hlive
  simpa [rebuild] using hlive.symm

/-- A callback on method 7, and the class redefined with the bytes it was loaded with. -/
def insertThenRedefine : List RegistryEvent :=
  [.init ⟨true, true, true, true⟩, firstInsert (plainReapply true),
    .redefineClass (some 1) (some plainClassBytes) ⟨true, true⟩ true]

/-- All calls return OK and the hook is gone from the live definition, while its method is reported as installed. -/
theorem redefinition_drops_hook :
    ∃ s, s = runEvents registryStep (Registry.start fun _ => plainClassBytes) insertThenRedefine ∧
      AllMeet registryStep (fun s e => returnsOk s e = true) (Registry.start fun _ => plainClassBytes)
        insertThenRedefine ∧
      jni2hookIsInstalled s (some 7) = true ∧
      s.vm 1 = baseDefinition (fun _ => plainClassBytes) insertThenRedefine 1 ∧
      rebuild (baseDefinition (fun _ => plainClassBytes) insertThenRedefine 1) (s.hooksOf 1) ≠ .ok (s.vm 1) := by
  refine ⟨_, rfl, ⟨by decide +kernel, by decide +kernel, by decide +kernel, trivial⟩, by decide +kernel,
    by decide +kernel, ?_⟩
  intro heq
  have hne : (rebuild (baseDefinition (fun _ => plainClassBytes) insertThenRedefine 1)
      ((runEvents registryStep (Registry.start fun _ => plainClassBytes) insertThenRedefine).hooksOf 1)).toOption ≠
      some ((runEvents registryStep (Registry.start fun _ => plainClassBytes) insertThenRedefine).vm 1) := by
    decide +kernel
  rw [heq] at hne
  exact hne rfl

/-- The class redefined before its first hook: the hook is applied to the new definition. -/
theorem redefinition_then_insert :
    ∃ s events, s = runEvents registryStep (Registry.start fun _ => [0]) events ∧
      events = [.init ⟨true, true, true, true⟩, .redefineClass (some 1) (some plainClassBytes) ⟨true, true⟩ true,
        firstInsert (plainReapply true)] ∧
      (s.hooksOf 1).length = 1 ∧ baseDefinition (fun _ => [0]) events 1 = plainClassBytes ∧
      rebuild (baseDefinition (fun _ => [0]) events 1) (s.hooksOf 1) = .ok (s.vm 1) := by
  have hcalls : AllMeet registryStep KeepsBase (Registry.start fun _ => [0])
      [.init ⟨true, true, true, true⟩, .redefineClass (some 1) (some plainClassBytes) ⟨true, true⟩ true,
        firstInsert (plainReapply true)] := by
    refine ⟨⟨by decide +kernel, trivial⟩, ⟨by decide +kernel, fun k _ c hc => ?_⟩,
      ⟨by decide +kernel, plainReapply_sound true, fun k _ _ original ho => ?_⟩, trivial⟩
    · cases hc
    · cases ho
  exact ⟨_, _, rfl, rfl, by decide +kernel, rfl, (redefinition_kept rfl hcalls).1 1⟩

end Jni2Hook
