import Jni2Hook.Hook.RegistryAgreement

/-!
# Calls that fail

When a failed install or uninstall leaves the registry and the VM as they were. A rebuild with the recorded hooks brings
the live definition back only while the live definition is that rebuild, so both results are about whole runs.

* `UninstallSafe`: the uninstalls that change nothing when they fail.
* `failed_install_leaves_no_trace`, `failed_uninstall_changes_nothing`.
-/

namespace Jni2Hook

open Lib

/-! ## Uninstalls -/

/-- The matches are the last hooks of the list. -/
def MatchesLast (matches_ : HookEntry → Bool) (hooks : List HookEntry) : Prop :=
  ∃ stay go, hooks = stay ++ go ∧ (∀ h ∈ stay, matches_ h = false) ∧ ∀ h ∈ go, matches_ h = true

/-- An uninstall of no hook, one whose definition the VM takes and whose remaining hooks bind, or one whose definition
the VM does not take and whose matches are the last hooks of the class. -/
def UninstallSafe (s : Registry) (method : Option JMethodId) (matches_ : HookEntry → Bool) (a : UninstallAnswers) :
    Prop :=
  a.apply.Sound ∧ ∀ t, s.findClassOfMethod method = some t →
    let kept := t.record.hooks.filter fun h => !matches_ h
    kept = t.record.hooks ∨
      (∃ d, Accepts a.env s t.record.klass kept a.apply d) ∧ kept.all a.apply.bound = true ∨
      (∀ d, ¬Accepts a.env s t.record.klass kept a.apply d) ∧ MatchesLast matches_ t.record.hooks

section Uninstall

variable {s : Registry} {method : Option JMethodId} {matches_ : HookEntry → Bool} {a : UninstallAnswers} {t : Target}
  {kept aside : List HookEntry}

theorem MatchesLast.restored (h : MatchesLast matches_ t.record.hooks)
    (hmatch : Matched s method matches_ t kept aside) :
    t.withHooks (kept ++ aside) = s.classes := by
  obtain ⟨stay, go, hsplit, hstay, hgo⟩ := h
  have hparts := partitionHooks_suffix matches_ hstay hgo [] [] (.inr rfl)
  rw [← hsplit, hmatch.parts] at hparts
  simp only [List.nil_append, Prod.mk.injEq] at hparts
  rw [hparts.1, hparts.2, ← hsplit, hmatch.classes]
  rfl

/-- A safe uninstall that fails changes nothing. -/
theorem uninstall_safe_cases (hsafe : UninstallSafe s method matches_ a) :
    (∃ e, uninstallMatching method matches_ a s = .error e s) ∨
    ∃ t kept aside d, Matched s method matches_ t kept aside ∧ Accepts a.env s t.record.klass kept a.apply d ∧
      uninstallMatching method matches_ a s = .ok () ({ s with
        classes := if kept.isEmpty then t.dropped else t.withHooks kept }.redefine t.record.klass d) := by
  have hout := uninstall_outcome method matches_ a s
  generalize uninstallMatching method matches_ a s = r at hout
  cases hout with
  | refused => exact .inl ⟨_, rfl⟩
  | @rejected e t kept aside hmatch hnot =>
    left
    rw [hmatch.kept_eq] at hnot
    rcases hsafe.2 t hmatch.found with hall | ⟨⟨d, haccept⟩, -⟩ | ⟨-, hlast⟩
    · exact absurd (by rw [hmatch.kept_eq, hall]) hmatch.some_
    · exact absurd haccept (hnot d)
    · refine ⟨e, ?_⟩
      rw [hlast.restored hmatch]
  | @unbound e t kept aside d hmatch haccept hunbound =>
    rw [hmatch.kept_eq] at haccept hunbound
    rcases hsafe.2 t hmatch.found with hall | ⟨-, hbound⟩ | ⟨hnot, -⟩
    · exact absurd (by rw [hmatch.kept_eq, hall]) hmatch.some_
    · rw [hbound] at hunbound
      cases hunbound
    · exact absurd haccept (hnot d)
  | @uninstalled t kept aside d hmatch haccept => exact .inr ⟨t, kept, aside, d, hmatch, haccept, rfl⟩

end Uninstall

/-! ## Redefinitions and shutdowns -/

section Recorded

variable {R : Bytes → List HookEntry → Bytes → Prop} {s : Registry}

/-- A redefinition that the VM refuses, or of a class without a record, does not concern the records. -/
theorem Recorded.redefineClass (h : Recorded R s) (klass : Option JClass) (bytes : Option Bytes) (env : Environment)
    {redefined : Bool} (hnew : redefined = true → ∀ k, klass = some k → s.New k) :
    Recorded R (endState (jni2hookRedefineClass klass bytes env redefined) s) := by
  apply After.endState
  unfold jni2hookRedefineClass
  cases klass with
  | none => simpa using h
  | some k =>
    cases bytes with
    | none => simpa using h
    | some bytes =>
      cases redefined with
      | false =>
        simp only [after_bind, after_get, after_ite, after_throw, after_modify]
        simp [h]
      | true =>
        have hredefined : Recorded R (s.redefine k bytes) := by
          refine ⟨h.nodup, fun c hc => ?_⟩
          obtain ⟨original, ho, hR⟩ := h.records c hc
          refine ⟨original, ho, ?_⟩
          rw [redefine_vm_of_ne s bytes (hnew rfl k rfl c hc)]
          exact hR
        simp only [after_bind, after_get, after_ite, after_throw, after_modify]
        simp [h, hredefined]

/-- After a shutdown there is no record. -/
theorem Recorded.shutdown (h : Recorded R s) (env : Environment) (answers : JClass → ReapplyAnswers) :
    Recorded R (endState (jni2hookShutdown env answers) s) := by
  apply After.endState
  unfold jni2hookShutdown
  simp only [after_bind, after_get, after_ite, after_pure]
  refine ⟨fun _ => ?_, fun _ => h⟩
  refine (restoreClasses_spec env answers s.classes.reverse none s).mono ?_ (fun _ _ hfalse => hfalse.elim)
  intro failure s₁ _
  have hempty : Recorded R { s₁ with classes := [], insertSerial := 0, cache := [], initialized := false } :=
    ⟨List.nodup_nil, fun _ hc => absurd hc List.not_mem_nil⟩
  cases failure <;> simpa using hempty

theorem Recorded.init (h : Recorded R s) (a : InitAnswers) : Recorded R (endState (jni2hookInit a) s) := by
  rcases endState_init a s with hend | hend <;> rw [hend]
  · exact h
  · exact ⟨h.nodup, h.records⟩

theorem recorded_start (loaded : JClass → Bytes) : Recorded R (Registry.start loaded) :=
  ⟨List.nodup_nil, fun _ hc => nomatch hc⟩

end Recorded

/-- The uninstalls of a run are safe, and it redefines no class with a record. -/
def SafeCall (s : Registry) : RegistryEvent → Prop
  | .uninstall method a => UninstallSafe s method (matchesMethod method) a
  | .uninstallAt (some method) bytecodeOffset (some nativeFunction) a =>
    UninstallSafe s (some method) (matchesInsert method bytecodeOffset nativeFunction) a
  | .redefineClass klass _ _ redefined => redefined = true → ∀ k, klass = some k → s.New k
  | _ => True

/-- The calls that remove hooks. -/
def RegistryEvent.isUninstall : RegistryEvent → Bool
  | .uninstall _ _ | .uninstallAt _ _ _ _ => true
  | _ => false

/-- The answers to a call that adds a hook. -/
def RegistryEvent.installAnswers : RegistryEvent → Option InstallAnswers
  | .install _ _ a | .installAt _ _ _ a => some a
  | _ => none

/-- The state after an uninstall that went through. -/
def UninstalledFrom (s s' : Registry) : Prop :=
  ∃ (method : Option JMethodId) (matches_ : HookEntry → Bool) (a : UninstallAnswers) (t : Target)
    (kept aside : List HookEntry) (d : Bytes), a.apply.Sound ∧ Matched s method matches_ t kept aside ∧
      Accepts a.env s t.record.klass kept a.apply d ∧
      s' = { s with classes := if kept.isEmpty then t.dropped else t.withHooks kept }.redefine t.record.klass d

/-- A safe uninstall goes through or changes nothing. -/
theorem uninstall_step_cases {s : Registry} {e : RegistryEvent} (he : e.isUninstall = true) (hsafe : SafeCall s e) :
    (∃ status, e.call s = .error status s) ∨ ∃ s', UninstalledFrom s s' ∧ e.call s = .ok () s' := by
  have hcases : ∀ {method matches_ a}, UninstallSafe s method matches_ a →
      e.call = uninstallMatching method matches_ a → (∃ status, e.call s = .error status s) ∨ ∃ s',
        UninstalledFrom s s' ∧ e.call s = .ok () s' := by
    intro method matches_ a hsafe hcall
    rw [hcall]
    rcases uninstall_safe_cases hsafe with herr | ⟨t, kept, aside, d, hmatch, haccept, hrun⟩
    · exact .inl herr
    · exact .inr ⟨_, ⟨method, matches_, a, t, kept, aside, d, hsafe.1, hmatch, haccept, rfl⟩, hrun⟩
  cases e with
  | uninstall method a => exact hcases hsafe rfl
  | uninstallAt method bytecodeOffset nativeFunction a =>
    cases method with
    | none => exact .inl ⟨_, rfl⟩
    | some method =>
      cases nativeFunction with
      | none => exact .inl ⟨_, rfl⟩
      | some nativeFunction => exact hcases hsafe rfl
  | _ => simp [RegistryEvent.isUninstall] at he

/-- Safe uninstalls keep a relation that every rebuild of recorded hooks has. -/
theorem Recorded.uninstall {R : Bytes → List HookEntry → Bytes → Prop} {s : Registry} {e : RegistryEvent}
    (hR : ∀ {original hooks live}, hooks ≠ [] → rebuild original hooks = .ok live → R original hooks live)
    (h : Recorded R s) (he : e.isUninstall = true) (hsafe : SafeCall s e) : Recorded R (registryStep s e) := by
  unfold registryStep endState
  rcases uninstall_step_cases he hsafe with ⟨status, hrun⟩ |
    ⟨s', ⟨_, _, a, t, kept, aside, d, hsound, hmatch, haccept, rfl⟩, hrun⟩
  · rw [hrun]
    exact h
  · rw [hrun]
    have hvm : ∀ k, k ≠ t.record.klass → (s.redefine t.record.klass d).vm k = s.vm k :=
      fun k hk => redefine_vm_of_ne s d hk
    by_cases hempty : kept = []
    · exact h.drop (.inl hmatch.classes) (by simp [hempty]) rfl hvm
    · obtain ⟨original, ho, -⟩ := h.records t.record hmatch.record_mem
      refine h.put (.inl hmatch.classes) (by simp [hempty]) rfl hvm ho (hR hempty ?_)
      rw [redefine_vm_self]
      exact haccept.rebuild_eq hsound ho

/-! ## Failed installs -/

/-- The live definition is the rebuild of the hooks in their order, and there is one. -/
def InOrder (original : Bytes) (hooks : List HookEntry) (live : Bytes) : Prop :=
  hooks ≠ [] ∧ rebuild original hooks = .ok live

/-- What an install needs to be undone. The VM takes the definition of every rollback. -/
structure InstallUndoable (s : Registry) (a : InstallAnswers) : Prop where
  applySound : a.apply.Sound
  rollbackSound : a.rollback.Sound
  rollbackRedefined : a.rollback.redefined = true
  /-- The hooks of a new record can be allocated. -/
  firstArray : ∀ k, a.declaring = some k → s.New k → a.hooksArray = true
  /-- Once the VM has taken the first hook of a class, it can be bound. -/
  firstBinds : ∀ k, a.declaring = some k → s.New k → a.apply.redefined = true → ∀ h, a.apply.bound h = true
  /-- The rollback of a hook that the VM has taken does not run out of memory. -/
  rollbackRebuilds : a.apply.redefined = true → (∃ h, a.apply.bound h = false) → a.rollback.rebuilt = none

section Install

variable {s s' : Registry} {method : Option JMethodId} {bytecodeOffset : UInt32}
  {nativeFunction : Option NativeFunction} {kind : HookKind} {a : InstallAnswers} {e : Jni2HookStatus}

/-- A record without hooks is not there, so a class with no hook yet is new. -/
theorem Staged.new_of_first {s₁ : Registry} {t : Target} {entry : HookEntry} (hstage : Staged s s₁ kind a t entry)
    (h : Recorded InOrder s) (hfirst : t.record.hooks = []) : s.New t.record.klass ∧ t.dropped = s.classes := by
  rcases hstage.opens with hclasses | ⟨hnew, hbefore, hafter, -⟩
  · have hmem : t.record ∈ s.classes := by simp [← hstage.captures.classes, hclasses]
    obtain ⟨original, -, hne, -⟩ := h.records t.record hmem
    exact absurd hfirst hne
  · rw [hstage.captures.classes] at hnew hbefore
    exact ⟨hnew, by simp [Target.dropped, hbefore, hafter]⟩

/-- The rollback hands the VM the definition that was live before, whatever the VM has been given since. -/
theorem rollback_captures {s₁ s₂ : Registry} {t : Target} {entry : HookEntry} (h : Recorded InOrder s)
    (hundo : InstallUndoable s a) (hstage : Staged s s₁ kind a t entry) (hmore : t.record.hooks ≠ [])
    (hbefore : BeforeRollback s₁ a t entry s₂) :
    Captures s (endState (reapply a.env t.record.klass t.record.hooks a.rollback) s₂) := by
  have hcap := hstage.captures
  have hclasses := hstage.opens.classes_eq hmore
  have hsame : t.withHooks t.record.hooks = s.classes := hclasses.symm.trans hcap.classes
  obtain ⟨original, ho, -, hlive⟩ := (h.captures hcap).records t.record (by simp [hclasses])
  have hback : ∀ d, Accepts a.env s₁ t.record.klass t.record.hooks a.rollback d → d = s.vm t.record.klass := by
    intro d haccept
    have hd := haccept.rebuild_eq hundo.rollbackSound ho
    rw [hlive] at hd
    cases hd
    rw [hcap.vm]
  have hrestored : ∀ vm : JClass → Bytes, (∀ k, k ≠ t.record.klass → vm k = s.vm k) →
      (fun k => if k = t.record.klass then s.vm t.record.klass else vm k) = s.vm := by
    intro vm hvm
    funext k
    by_cases hk : k = t.record.klass
    · simp [hk]
    · simp [hk, hvm k hk]
  cases hbefore with
  | refused hnot =>
    rcases endState_reapply a.env { s₁ with classes := t.withHooks t.record.hooks } t.record.klass t.record.hooks
      a.rollback with ⟨d, haccept, hend⟩ | ⟨-, hend⟩
    · rw [hend, hback d haccept]
      exact ⟨hcap.initialized, hsame, hrestored _ fun k _ => congrFun hcap.vm k, hcap.cache⟩
    · rw [hend]
      exact ⟨hcap.initialized, hsame, hcap.vm, hcap.cache⟩
  | @unbound d haccept hunbound =>
    have hredefined : a.apply.redefined = true := haccept.2.2.1
    have hsome : ∃ h, a.apply.bound h = false := by
      obtain ⟨h, -, hb⟩ := List.all_eq_false.mp hunbound
      exact ⟨h, by simpa using hb⟩
    have htaken : Accepts a.env s₁ t.record.klass t.record.hooks a.rollback (s₁.vm t.record.klass) := by
      refine ⟨hstage.jvmti, hstage.jni, hundo.rollbackRedefined, original, ho, ?_⟩
      unfold ReapplyAnswers.definition
      rw [hundo.rollbackRebuilds hredefined hsome]
      simpa [hmore] using hlive
    rcases endState_reapply a.env ({ s₁ with classes := t.withHooks t.record.hooks }.redefine t.record.klass d)
      t.record.klass t.record.hooks a.rollback with ⟨d', haccept', hend⟩ | ⟨hnot, -⟩
    · rw [hend, hback d' haccept']
      exact ⟨hcap.initialized, hsame, hrestored _ fun k hk =>
        (redefine_vm_of_ne s₁ d hk).trans (congrFun hcap.vm k), hcap.cache⟩
    · exact absurd htaken (hnot _)

/-- A failed install touches nothing but the cache and the serial. -/
theorem install_error_captures (h : Recorded InOrder s) (hundo : InstallUndoable s a)
    (herr : install method bytecodeOffset nativeFunction kind a s = .error e s') : Captures s s' := by
  have hout := install_outcome method bytecodeOffset nativeFunction kind a s
  rw [herr] at hout
  cases hout with
  | refused hcap => exact hcap
  | @emptyRecord s₁ klass hcap hinit hdecl hnewClass hcached harray =>
    unfold Registry.New at hnewClass
    rw [hcap.classes] at hnewClass
    rw [hundo.firstArray klass hdecl hnewClass] at harray
    cases harray
  | @refusedFirst s₁ t entry e hstage hfirst =>
    exact ⟨hstage.captures.initialized, (hstage.new_of_first h hfirst).2, hstage.captures.vm, hstage.captures.cache⟩
  | @unboundFirst s₁ t entry e d hstage hfirst haccept hunbound =>
    obtain ⟨-, -, hredefined, -⟩ := haccept
    rw [hundo.firstBinds _ hstage.declaring (hstage.new_of_first h hfirst).1 hredefined] at hunbound
    cases hunbound
  | @rolledBack s₁ s₂ t entry e hstage hmore hbefore => exact rollback_captures h hundo hstage hmore hbefore

/-- Undoable installs keep the live definitions in step with the records. -/
theorem Recorded.install_undoable (h : Recorded InOrder s) (hundo : InstallUndoable s a) :
    Recorded InOrder (endState (install method bytecodeOffset nativeFunction kind a) s) := by
  unfold endState
  cases hr : install method bytecodeOffset nativeFunction kind a s with
  | error e s' => exact h.captures (install_error_captures h hundo hr)
  | ok u s' =>
    have hout := install_outcome method bytecodeOffset nativeFunction kind a s
    rw [hr] at hout
    cases hout with
    | @installed s₁ t entry d hstage haccept =>
      obtain ⟨original, ho⟩ := Option.isSome_iff_exists.mp hstage.cached
      refine (h.captures hstage.captures).put hstage.opens rfl rfl (fun k hk => redefine_vm_of_ne _ d hk) ho
        ⟨by simp, ?_⟩
      rw [redefine_vm_self]
      exact haccept.rebuild_eq hundo.applySound ho

end Install

/-- The calls of a run after which installs can be undone. -/
def UndoableCall (s : Registry) (e : RegistryEvent) : Prop :=
  SafeCall s e ∧ ∀ a, e.installAnswers = some a → InstallUndoable s a

theorem Recorded.undoable_step {s : Registry} (h : Recorded InOrder s) (e : RegistryEvent) (hundo : UndoableCall s e) :
    Recorded InOrder (registryStep s e) := by
  have hR : ∀ {original hooks live}, hooks ≠ [] → rebuild original hooks = .ok live → InOrder original hooks live :=
    fun hne hlive => ⟨hne, hlive⟩
  cases e with
  | init a => exact h.init a
  | install method nativeFunction a => exact h.install_undoable (hundo.2 a rfl)
  | installAt method bytecodeOffset nativeFunction a => exact h.install_undoable (hundo.2 a rfl)
  | uninstall method a => exact h.uninstall hR rfl hundo.1
  | uninstallAt method bytecodeOffset nativeFunction a => exact h.uninstall hR rfl hundo.1
  | redefineClass klass bytes env redefined => exact h.redefineClass klass bytes env hundo.1
  | shutdown env answers => exact h.shutdown env answers

/-- A call that reports an error ended with it. -/
theorem call_error {s : Registry} {e : RegistryEvent} (herr : registryStatus s e ≠ .ok) :
    e.call s = .error (registryStatus s e) (registryStep s e) := by
  unfold registryStatus registryStep endState at *
  cases hr : e.call s with
  | ok u s' => simp [hr] at herr
  | error status s' => rfl

/-- In a run whose calls are all undoable, a failed install leaves every record and every live definition as it was. -/
theorem failed_install_leaves_no_trace {loaded : JClass → Bytes} {earlier : List RegistryEvent} {e : RegistryEvent}
    {a : InstallAnswers} {s : Registry} (hs : s = runEvents registryStep (Registry.start loaded) earlier)
    (hundo : AllMeet registryStep UndoableCall (Registry.start loaded) (earlier ++ [e]))
    (he : e.installAnswers = some a) (herr : registryStatus s e ≠ .ok) :
    (registryStep s e).classes = s.classes ∧ ∀ k, (registryStep s e).vm k = s.vm k := by
  obtain ⟨hearlier, hlast⟩ := hundo.split
  rw [← hs] at hlast
  have hrecorded : Recorded InOrder s := by
    rw [hs]
    exact invariant_run (fun _ e h hok => h.undoable_step e hok) (recorded_start loaded) hearlier
  have hcap : Captures s (registryStep s e) := by
    have hrun := call_error herr
    have hundoable := hlast.1.2 a he
    cases e with
    | install method nativeFunction a' =>
      cases he
      exact install_error_captures hrecorded hundoable hrun
    | installAt method bytecodeOffset nativeFunction a' =>
      cases he
      exact install_error_captures hrecorded hundoable hrun
    | _ => simp [RegistryEvent.installAnswers] at he
  exact ⟨hcap.classes, fun k => by rw [hcap.vm]⟩

/-- The install of a callback at the first instruction of method 7. -/
def firstInsert (apply : ReapplyAnswers) : RegistryEvent := .installAt (some 7) 0 (some 100) (plainInstall apply)

/-- The VM takes the first hook of a class and its native method cannot be bound: no record is left, and the class stays
redefined. -/
theorem failed_install_leaves_definition :
    ∃ s, s = runEvents registryStep (Registry.start fun _ => plainClassBytes) [.init ⟨true, true, true, true⟩] ∧
      registryStatus s (firstInsert ⟨none, true, fun _ => false⟩) = .jni ∧
      (registryStep s (firstInsert ⟨none, true, fun _ => false⟩)).classes = s.classes ∧
      (registryStep s (firstInsert ⟨none, true, fun _ => false⟩)).vm 1 ≠ s.vm 1 := by
  exact ⟨_, rfl, by decide +kernel, by decide +kernel, by decide +kernel⟩

/-- One callback is there and a second one is taken by the VM and not bound: the rollback brings the first one back. -/
theorem failed_install_second_insert :
    ∃ s e, s = runEvents registryStep (Registry.start fun _ => plainClassBytes)
        [.init ⟨true, true, true, true⟩, firstInsert (plainReapply true)] ∧
      e = .installAt (some 7) 0 (some 101) (plainInstall ⟨none, true, fun h => h.nativeFunction == 100⟩) ∧
      s.hooks.length = 1 ∧ registryStatus s e = .jni ∧ (registryStep s e).classes = s.classes ∧
      ∀ k, (registryStep s e).vm k = s.vm k := by
  refine ⟨_, _, rfl, rfl, by decide +kernel, by decide +kernel, ?_⟩
  have hundo : ∀ s apply, apply.Sound → (apply.redefined = true → ∀ h, apply.bound h = true) ∨ ¬s.New 1 →
      InstallUndoable s (plainInstall apply) := by
    intro s apply hsound hbind
    refine ⟨hsound, plainReapply_sound true, rfl, fun _ _ _ => rfl, ?_, fun _ _ => rfl⟩
    intro k hk hnew
    cases hk
    rcases hbind with hbind | hbind
    · exact hbind
    · exact absurd hnew hbind
  refine failed_install_leaves_no_trace rfl ⟨⟨trivial, fun _ ha => nomatch ha⟩, ⟨trivial, ?_⟩,
    ⟨trivial, ?_⟩, trivial⟩ rfl
    (by decide +kernel)
  · rintro a ⟨⟩
    exact hundo _ _ (plainReapply_sound true) (.inl fun _ _ => rfl)
  · rintro a ⟨⟩
    refine hundo _ _ ?_ (.inr (by decide +kernel))
    simp [ReapplyAnswers.Sound]

/-! ## Failed uninstalls -/

/-- A hook is among those whose rebuild is live. -/
def Present (s : Registry) (klass : JClass) (h : HookEntry) : Prop :=
  ∃ original hs, s.cachedBytes klass = some original ∧ h ∈ hs ∧ rebuild original hs = .ok (s.vm klass)

/-- The hooks of a record are among those whose rebuild is live. -/
def Covered (original : Bytes) (hooks : List HookEntry) (live : Bytes) : Prop :=
  hooks ≠ [] → ∃ hs, hooks ⊆ hs ∧ rebuild original hs = .ok live

theorem Covered.of_rebuild {original live : Bytes} {hooks : List HookEntry} (h : rebuild original hooks = .ok live) :
    Covered original hooks live := fun _ => ⟨hooks, List.Subset.refl hooks, h⟩

/-- Whatever fails in an install, no recorded hook goes out of its live definition. -/
theorem Recorded.install_covered {s : Registry} (h : Recorded Covered s) (method : Option JMethodId)
    (bytecodeOffset : UInt32) (nativeFunction : Option NativeFunction) (kind : HookKind) {a : InstallAnswers}
    (happly : a.apply.Sound) (hrollback : a.rollback.Sound) :
    Recorded Covered (endState (install method bytecodeOffset nativeFunction kind a) s) := by
  unfold endState
  have hout := install_outcome method bytecodeOffset nativeFunction kind a s
  generalize install method bytecodeOffset nativeFunction kind a s = r at hout
  cases hout with
  | refused hcap => exact h.captures hcap
  | @emptyRecord s₁ klass hcap hinit hdecl hnew hcached harray =>
    have ht : s₁.Opens ⟨s₁.classes, ⟨klass, []⟩, []⟩ := .inr ⟨hnew, rfl, rfl, rfl⟩
    obtain ⟨original, ho⟩ := Option.isSome_iff_exists.mp hcached
    exact (h.captures hcap).put ht rfl rfl (fun _ _ => rfl) ho (fun hne => absurd rfl hne)
  | @installed s₁ t entry d hstage haccept =>
    obtain ⟨original, ho⟩ := Option.isSome_iff_exists.mp hstage.cached
    refine (h.captures hstage.captures).put hstage.opens rfl rfl (fun k hk => redefine_vm_of_ne _ d hk) ho
      (Covered.of_rebuild ?_)
    rw [redefine_vm_self]
    exact haccept.rebuild_eq happly ho
  | refusedFirst hstage hfirst => exact (h.captures hstage.captures).drop hstage.opens rfl rfl (fun _ _ => rfl)
  | @unboundFirst s₁ t entry e d hstage hfirst haccept hunbound =>
    exact (h.captures hstage.captures).drop hstage.opens rfl rfl (fun k hk => redefine_vm_of_ne _ d hk)
  | @rolledBack s₁ s₂ t entry e hstage hmore hbefore =>
    have h₁ := h.captures hstage.captures
    have hclasses := hstage.opens.classes_eq hmore
    obtain ⟨original, ho, hlive⟩ := h₁.records t.record (by simp [hclasses])
    -- Before the rollback, the live definition has the recorded hooks and perhaps the new one.
    have hbefore₂ : s₂.classes = t.withHooks t.record.hooks ∧ s₂.cache = s₁.cache ∧
        (∀ k, k ≠ t.record.klass → s₂.vm k = s₁.vm k) ∧ Covered original t.record.hooks (s₂.vm t.record.klass) := by
      cases hbefore with
      | refused hnot => exact ⟨rfl, rfl, fun _ _ => rfl, hlive⟩
      | @unbound d haccept hunbound =>
        refine ⟨rfl, rfl, fun k hk => redefine_vm_of_ne _ d hk, fun _ => ?_⟩
        refine ⟨t.record.hooks ++ [entry], List.subset_append_left _ _, ?_⟩
        rw [redefine_vm_self]
        exact haccept.rebuild_eq happly ho
    obtain ⟨hclasses₂, hcache₂, hvm₂, hlive₂⟩ := hbefore₂
    have ho₂ : s₂.cachedBytes t.record.klass = some original := by
      unfold Registry.cachedBytes at ho ⊢
      rw [hcache₂]
      exact ho
    rcases endState_reapply a.env s₂ t.record.klass t.record.hooks a.rollback with ⟨d, haccept, hend⟩ | ⟨-, hend⟩
    · simp only [hend]
      refine h₁.put hstage.opens hclasses₂ hcache₂ (fun k hk => ?_) ho (Covered.of_rebuild ?_)
      · rw [redefine_vm_of_ne s₂ d hk]
        exact hvm₂ k hk
      · rw [redefine_vm_self]
        exact haccept.rebuild_eq hrollback ho₂
    · simp only [hend]
      exact h₁.put hstage.opens hclasses₂ hcache₂ hvm₂ ho hlive₂

/-- The calls of a run after which uninstalls that fail change nothing. -/
def SafeSoundCall (s : Registry) (e : RegistryEvent) : Prop :=
  SafeCall s e ∧ ∀ a, e.installAnswers = some a → a.apply.Sound ∧ a.rollback.Sound

theorem Recorded.safe_step {s : Registry} (h : Recorded Covered s) (e : RegistryEvent) (hsafe : SafeSoundCall s e) :
    Recorded Covered (registryStep s e) := by
  cases e with
  | init a => exact h.init a
  | install method nativeFunction a =>
    obtain ⟨happly, hrollback⟩ := hsafe.2 a rfl
    exact h.install_covered method 0 nativeFunction .makeNative happly hrollback
  | installAt method bytecodeOffset nativeFunction a =>
    obtain ⟨happly, hrollback⟩ := hsafe.2 a rfl
    exact h.install_covered method bytecodeOffset nativeFunction .insertCall happly hrollback
  | uninstall method a => exact h.uninstall (fun _ => Covered.of_rebuild) rfl hsafe.1
  | uninstallAt method bytecodeOffset nativeFunction a => exact h.uninstall (fun _ => Covered.of_rebuild) rfl hsafe.1
  | redefineClass klass bytes env redefined => exact h.redefineClass klass bytes env hsafe.1
  | shutdown env answers => exact h.shutdown env answers

/-- In a run whose calls are all safe, a failed uninstall leaves the records and their order as they were, and every
recorded hook is in the live definition of its class. -/
theorem failed_uninstall_changes_nothing {loaded : JClass → Bytes} {earlier : List RegistryEvent} {e : RegistryEvent}
    {s : Registry} (hs : s = runEvents registryStep (Registry.start loaded) earlier)
    (hsafe : AllMeet registryStep SafeSoundCall (Registry.start loaded) (earlier ++ [e]))
    (he : e.isUninstall = true) (herr : registryStatus s e ≠ .ok) :
    (registryStep s e).classes = s.classes ∧
      ∀ c ∈ (registryStep s e).classes, ∀ h ∈ c.hooks, Present (registryStep s e) c.klass h := by
  obtain ⟨hearlier, hlast⟩ := hsafe.split
  rw [← hs] at hlast
  have hrecorded : Recorded Covered s := by
    rw [hs]
    exact invariant_run (fun _ e h hok => h.safe_step e hok) (recorded_start loaded) hearlier
  have hsame : registryStep s e = s := by
    have hrun := call_error herr
    rcases uninstall_step_cases he hlast.1.1 with ⟨status, hkeep⟩ | ⟨s', -, hok⟩
    · rw [hkeep] at hrun
      exact (EStateM.Result.error.inj hrun).2.symm
    · rw [hok] at hrun
      cases hrun
  rw [hsame]
  refine ⟨rfl, fun c hc h hh => ?_⟩
  obtain ⟨original, ho, hcovered⟩ := hrecorded.records c hc
  obtain ⟨hs, hsub, hlive⟩ := hcovered (List.ne_nil_of_mem hh)
  exact ⟨original, hs, ho, hsub hh, hlive⟩

/-- The VM refuses the definition without the first of two callbacks: the call fails and the callbacks change places. -/
theorem failed_uninstall_changes_order :
    ∃ s e, s = runEvents registryStep (Registry.start fun _ => plainClassBytes) twoInserts ∧
      e = .uninstallAt (some 7) 0 (some 100) (plainUninstall (plainReapply false)) ∧ registryStatus s e = .jvmti ∧
      s.hooks.map (·.nativeFunction) = [100, 101] ∧ (registryStep s e).hooks.map (·.nativeFunction) = [101, 100] := by
  exact ⟨_, _, rfl, rfl, by decide +kernel, by decide +kernel, by decide +kernel⟩

/-- The VM refuses the definition without the second of two callbacks: both stay where they are. -/
theorem failed_uninstall_last_insert :
    ∃ s e, s = runEvents registryStep (Registry.start fun _ => plainClassBytes) twoInserts ∧
      e = .uninstallAt (some 7) 0 (some 101) (plainUninstall (plainReapply false)) ∧ registryStatus s e = .jvmti ∧
      s.hooks.length = 2 ∧ (registryStep s e).classes = s.classes ∧
      ∀ c ∈ (registryStep s e).classes, ∀ h ∈ c.hooks, Present (registryStep s e) c.klass h := by
  refine ⟨_, _, rfl, rfl, by decide +kernel, by decide +kernel, ?_⟩
  have hinstalls : ∀ a, some (plainInstall (plainReapply true)) = some a → a.apply.Sound ∧ a.rollback.Sound := by
    rintro a ⟨⟩
    exact ⟨plainReapply_sound true, plainReapply_sound true⟩
  have hearlier : AllMeet registryStep SafeSoundCall (Registry.start fun _ => plainClassBytes) twoInserts :=
    ⟨⟨trivial, fun _ ha => nomatch ha⟩, ⟨trivial, hinstalls⟩, ⟨trivial, hinstalls⟩, trivial⟩
  refine failed_uninstall_changes_nothing rfl (hearlier.append ⟨⟨⟨plainReapply_sound false, fun t ht => ?_⟩,
    fun _ ha => nomatch ha⟩, trivial⟩) rfl (by decide +kernel)
  have hlast : ∀ u ∈ (runEvents registryStep (Registry.start fun _ => plainClassBytes) twoInserts).findClassOfMethod
      (some 7), u.record.hooks = (u.record.hooks.filter fun h => !matchesInsert 7 0 101 h) ++
        u.record.hooks.filter (matchesInsert 7 0 101) := by decide +kernel
  refine .inr (.inr ⟨?_, _, _, hlast t ht, fun h hh => ?_, fun h hh => (List.mem_filter.mp hh).2⟩)
  · rintro d ⟨-, -, hredefined, -⟩
    cases hredefined
  · simpa using (List.mem_filter.mp hh).2

end Jni2Hook
