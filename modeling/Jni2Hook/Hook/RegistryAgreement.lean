import Jni2Hook.Hook.RegistryCalls
import Jni2Hook.Lib.Machine
import Mathlib.Data.List.Perm.Subperm

/-!
# The registry and the VM agree

Nobody else redefines a class, natives bind and no rebuild runs out of memory; everything else may fail at any point.

* `Agrees`: the invariant of the runs, one step lemma for each call.
* `registry_agrees`: what it says of every reachable state and of a shutdown in it.
-/

namespace Jni2Hook

open Lib

/-! ## Definitions without a record -/

/-- The cache holds base definitions, and a class without a record is at its base definition. -/
structure Based (base : JClass → Bytes) (s : Registry) : Prop where
  cached : ∀ k original, s.cachedBytes k = some original → original = base k
  unrecorded : ∀ k, s.New k → s.vm k = base k

section Based

variable {base : JClass → Bytes} {R : Bytes → List HookEntry → Bytes → Prop} {s s' : Registry} {t : Target}

theorem Based.captures (h : Based base s) (hrec : Recorded R s) (hcap : Captures s s') : Based base s' := by
  constructor
  · intro k original hcached
    rcases hcap.cachedBytes_cases hcached with hold | ⟨hnone, rfl⟩
    · exact h.cached k original hold
    · exact h.unrecorded k (hrec.new_of_not_cached hnone)
  · intro k hk
    rw [hcap.vm]
    apply h.unrecorded k
    unfold Registry.New at hk ⊢
    rw [← hcap.classes]
    exact hk

/-- A class without a record among the others had none before, but for the class of the pointer. -/
theorem Registry.Opens.new_of_others (ht : s.Opens t) {k : JClass} (hk : ∀ c ∈ t.others, c.klass ≠ k)
    (hne : k ≠ t.record.klass) : s.New k := by
  intro c hc
  rcases ht with hclasses | ⟨-, hbefore, hafter, -⟩
  · rw [hclasses] at hc
    rcases List.mem_append.mp hc with hc | hc
    · exact hk c (List.mem_append_left _ hc)
    · rcases List.mem_cons.mp hc with rfl | hc
      · exact hne.symm
      · exact hk c (List.mem_append_right _ hc)
  · rw [← hbefore] at hc
    exact hk c (List.mem_append_left _ hc)

theorem Based.put (h : Based base s) (ht : s.Opens t) {hooks : List HookEntry}
    (hclasses : s'.classes = t.withHooks hooks) (hcache : s'.cache = s.cache)
    (hvm : ∀ k, k ≠ t.record.klass → s'.vm k = s.vm k) : Based base s' := by
  constructor
  · intro k original hcached
    unfold Registry.cachedBytes at hcached
    rw [hcache] at hcached
    exact h.cached k original hcached
  · intro k hk
    have hne : k ≠ t.record.klass := by
      rintro rfl
      exact hk { t.record with hooks := hooks } (by simp [hclasses, Target.withHooks]) rfl
    rw [hvm k hne]
    apply h.unrecorded k
    refine ht.new_of_others (fun c hc => hk c ?_) hne
    rw [hclasses]
    unfold Target.withHooks
    rcases List.mem_append.mp hc with hc | hc <;> simp [hc]

theorem Based.drop (h : Based base s) (ht : s.Opens t) (hclasses : s'.classes = t.dropped)
    (hcache : s'.cache = s.cache) (hvm : ∀ k, k ≠ t.record.klass → s'.vm k = s.vm k)
    (hself : s'.vm t.record.klass = base t.record.klass) : Based base s' := by
  constructor
  · intro k original hcached
    unfold Registry.cachedBytes at hcached
    rw [hcache] at hcached
    exact h.cached k original hcached
  · intro k hk
    by_cases hne : k = t.record.klass
    · rw [hne, hself]
    · rw [hvm k hne]
      apply h.unrecorded k
      refine ht.new_of_others (fun c hc => hk c ?_) hne
      rw [hclasses]
      exact hc

end Based

/-! ## Replaced methods -/

/-- Two hooks can be recorded together. -/
def Compatible (h h' : HookEntry) : Prop :=
  h.method = h'.method → h.kind = .insertCall ∧ h'.kind = .insertCall

/-- A method with a replacement has no other hook. -/
def Exclusive (s : Registry) : Prop := s.hooks.Pairwise Compatible

theorem Compatible.symm {h h' : HookEntry} (hc : Compatible h h') : Compatible h' h := fun heq => (hc heq.symm).symm

theorem compatible_of_no_conflict {s : Registry} {entry : HookEntry}
    (h : s.methodConflicts entry.method entry.kind = false) : ∀ h' ∈ s.hooks, Compatible h' entry := by
  intro h' hmem hmethod
  unfold Registry.methodConflicts at h
  have hno := List.any_eq_false.mp h h' hmem
  simp only [hmethod, beq_self_eq_true, Bool.true_and, Bool.or_eq_true, beq_iff_eq, not_or] at hno
  cases hk : h'.kind <;> cases hk' : entry.kind <;> simp_all

section Exclusive

variable {s s' : Registry} {t : Target}

theorem hooks_withHooks_perm (t : Target) (hooks : List HookEntry) :
    ((t.withHooks hooks).flatMap (·.hooks)).Perm (hooks ++ t.others.flatMap (·.hooks)) := by
  unfold Target.withHooks Target.others
  simp only [List.flatMap_append, List.flatMap_cons]
  rw [← List.append_assoc, ← List.append_assoc]
  exact List.Perm.append_right _ List.perm_append_comm

theorem Registry.Opens.hooks_perm (ht : s.Opens t) :
    s.hooks.Perm (t.record.hooks ++ t.others.flatMap (·.hooks)) := by
  unfold Registry.hooks
  rcases ht with hclasses | ⟨-, hbefore, hafter, hempty⟩
  · rw [hclasses]
    exact hooks_withHooks_perm t t.record.hooks
  · simp [hempty, Target.others, hbefore, hafter]

/-- Hooks may be reordered and taken away. -/
theorem Exclusive.put (h : Exclusive s) (ht : s.Opens t) {hooks : List HookEntry}
    (hsub : hooks.Subperm t.record.hooks) (hclasses : s'.classes = t.withHooks hooks) : Exclusive s' := by
  unfold Exclusive at h ⊢
  have hall := (ht.hooks_perm.pairwise_iff Compatible.symm).mp h
  unfold Registry.hooks
  rw [hclasses, (hooks_withHooks_perm t hooks).pairwise_iff Compatible.symm]
  obtain ⟨l, hperm, hl⟩ := hsub
  rw [← (hperm.append_right _).pairwise_iff Compatible.symm]
  exact hall.sublist (hl.append_right _)

theorem Exclusive.append (h : Exclusive s) (ht : s.Opens t) {entry : HookEntry}
    (hno : ∀ h' ∈ s.hooks, Compatible h' entry) (hclasses : s'.classes = t.withHooks (t.record.hooks ++ [entry])) :
    Exclusive s' := by
  unfold Exclusive at h ⊢
  unfold Registry.hooks
  rw [hclasses, (hooks_withHooks_perm t _).pairwise_iff Compatible.symm, List.append_assoc, List.singleton_append,
    List.perm_middle.pairwise_iff Compatible.symm]
  refine List.pairwise_cons.mpr ⟨fun h' hmem => ?_, (ht.hooks_perm.pairwise_iff Compatible.symm).mp h⟩
  exact (hno h' (ht.hooks_perm.mem_iff.mpr hmem)).symm

theorem Exclusive.drop (h : Exclusive s) (ht : s.Opens t) (hclasses : s'.classes = t.dropped) : Exclusive s' := by
  unfold Exclusive at h ⊢
  have hall := (ht.hooks_perm.pairwise_iff Compatible.symm).mp h
  unfold Registry.hooks
  rw [hclasses]
  exact hall.sublist (List.sublist_append_right _ _)

end Exclusive

/-! ## The invariant -/

/-- No shortage of memory goes unreported and every native binds. -/
def ReapplyAnswers.Steady (a : ReapplyAnswers) : Prop := a.Sound ∧ ∀ h, a.bound h = true

/-- The calls of a run, and what is assumed of the outside during them. -/
def SteadyCall (_ : Registry) : RegistryEvent → Prop
  | .init _ => True
  | .install _ _ a | .installAt _ _ _ a => a.apply.Steady ∧ a.rollback.Steady
  | .uninstall _ a | .uninstallAt _ _ _ a => a.apply.Steady
  | .redefineClass _ _ _ _ | .shutdown _ _ => False

/-- The live definition is the rebuild of the hooks in some order. -/
def Permuted (original : Bytes) (hooks : List HookEntry) (live : Bytes) : Prop :=
  ∃ hs, hs.Perm hooks ∧ rebuild original hs = .ok live

/-- The invariant of the runs. -/
structure Agrees (loaded : JClass → Bytes) (s : Registry) : Prop where
  recorded : Recorded Permuted s
  based : Based loaded s
  exclusive : Exclusive s
  idle : s.initialized = false → s.classes = []

section Agrees

variable {loaded : JClass → Bytes} {s s' : Registry} {t : Target}

theorem Agrees.captures (h : Agrees loaded s) (hcap : Captures s s') : Agrees loaded s' := by
  refine ⟨h.recorded.captures hcap, h.based.captures h.recorded hcap, ?_, ?_⟩
  · unfold Exclusive Registry.hooks
    rw [hcap.classes]
    exact h.exclusive
  · rw [hcap.initialized, hcap.classes]
    exact h.idle

theorem permuted_nil {original live : Bytes} (h : Permuted original [] live) : live = original := by
  obtain ⟨hs, hperm, hrebuild⟩ := h
  rw [hperm.eq_nil] at hrebuild
  simpa [rebuild] using hrebuild.symm

/-- A class whose record has no hook, or is new, is at its loaded bytes. -/
theorem Agrees.vm_of_no_hooks (h : Agrees loaded s) (ht : s.Opens t) (hempty : t.record.hooks = []) :
    s.vm t.record.klass = loaded t.record.klass := by
  rcases ht with hclasses | ⟨hnew, -⟩
  · have hmem : t.record ∈ s.classes := by simp [hclasses]
    obtain ⟨original, hcached, hlive⟩ := h.recorded.records t.record hmem
    rw [hempty] at hlive
    rw [permuted_nil hlive]
    exact h.based.cached _ _ hcached
  · exact h.based.unrecorded _ hnew

/-- The hooks of a record are reordered or some of them taken away. -/
theorem Agrees.put (h : Agrees loaded s) (ht : s.Opens t) {hooks : List HookEntry}
    (hsub : hooks.Subperm t.record.hooks) (hclasses : s'.classes = t.withHooks hooks) (hcache : s'.cache = s.cache)
    (hvm : ∀ k, k ≠ t.record.klass → s'.vm k = s.vm k) (hinit : s'.initialized = true) {original : Bytes}
    (hcached : s.cachedBytes t.record.klass = some original)
    (hlive : Permuted original hooks (s'.vm t.record.klass)) : Agrees loaded s' := by
  refine ⟨h.recorded.put ht hclasses hcache hvm hcached hlive, h.based.put ht hclasses hcache hvm,
    h.exclusive.put ht hsub hclasses, ?_⟩
  intro hidle
  simp [hinit] at hidle

/-- A record is dropped from a class that is at its loaded bytes again. -/
theorem Agrees.drop (h : Agrees loaded s) (ht : s.Opens t) (hclasses : s'.classes = t.dropped)
    (hcache : s'.cache = s.cache) (hvm : ∀ k, k ≠ t.record.klass → s'.vm k = s.vm k) (hinit : s'.initialized = true)
    (hself : s'.vm t.record.klass = loaded t.record.klass) : Agrees loaded s' := by
  refine ⟨h.recorded.drop ht hclasses hcache hvm, h.based.drop ht hclasses hcache hvm hself,
    h.exclusive.drop ht hclasses, ?_⟩
  intro hidle
  simp [hinit] at hidle

theorem Staged.initialized₁ {kind : HookKind} {a : InstallAnswers} {entry : HookEntry}
    (h : Staged s s' kind a t entry) :
    s'.initialized = true := by
  rw [h.captures.initialized]
  exact h.initialized

theorem Agrees.install (h : Agrees loaded s) (method : Option JMethodId) (bytecodeOffset : UInt32)
    (nativeFunction : Option NativeFunction) (kind : HookKind) {a : InstallAnswers} (happly : a.apply.Steady)
    (hrollback : a.rollback.Steady) :
    Agrees loaded (endState (install method bytecodeOffset nativeFunction kind a) s) := by
  unfold endState
  have hout := install_outcome method bytecodeOffset nativeFunction kind a s
  generalize Jni2Hook.install method bytecodeOffset nativeFunction kind a s = r at hout
  cases hout with
  | refused hcap => exact h.captures hcap
  | @emptyRecord s₁ klass hcap hinit hdecl hnew hcached harray =>
    have h₁ := h.captures hcap
    have ht : s₁.Opens ⟨s₁.classes, ⟨klass, []⟩, []⟩ := .inr ⟨hnew, rfl, rfl, rfl⟩
    obtain ⟨original, ho⟩ := Option.isSome_iff_exists.mp hcached
    have hlive : Permuted original [] (s₁.vm klass) := by
      refine ⟨[], List.Perm.refl _, ?_⟩
      rw [h₁.based.unrecorded klass hnew, ← h₁.based.cached klass original ho]
      rfl
    exact h₁.put ht (List.Subperm.refl _) rfl rfl (fun _ _ => rfl) (hcap.initialized.trans hinit) ho hlive
  | @installed s₁ t entry d hstage haccept =>
    have h₁ := h.captures hstage.captures
    obtain ⟨original, ho⟩ := Option.isSome_iff_exists.mp hstage.cached
    have hvm : ∀ k, k ≠ t.record.klass → (s₁.redefine t.record.klass d).vm k = s₁.vm k :=
      fun k hk => redefine_vm_of_ne s₁ d hk
    have hno : ∀ h' ∈ s₁.hooks, Compatible h' entry := by
      have hsame : s₁.hooks = s.hooks := by unfold Registry.hooks; rw [hstage.captures.classes]
      rw [hsame]
      exact compatible_of_no_conflict (hstage.entryKind ▸ hstage.noConflict)
    refine ⟨h₁.recorded.put hstage.opens rfl rfl hvm ho ⟨_, List.Perm.refl _, ?_⟩,
      h₁.based.put hstage.opens rfl rfl hvm, h₁.exclusive.append hstage.opens hno rfl, fun hidle => ?_⟩
    · rw [redefine_vm_self]
      exact haccept.rebuild_eq happly.1 ho
    · have := hstage.initialized₁.symm.trans hidle
      cases this
  | @refusedFirst s₁ t entry e hstage hfirst =>
    have h₁ := h.captures hstage.captures
    exact h₁.drop hstage.opens rfl rfl (fun _ _ => rfl) hstage.initialized₁ (h₁.vm_of_no_hooks hstage.opens hfirst)
  | unboundFirst hstage hfirst haccept hunbound =>
    rw [happly.2] at hunbound
    cases hunbound
  | @rolledBack s₁ s₂ t entry e hstage hmore hbefore =>
    have h₁ := h.captures hstage.captures
    obtain ⟨original, ho⟩ := Option.isSome_iff_exists.mp hstage.cached
    cases hbefore with
    | unbound haccept hunbound => simp [happly.2] at hunbound
    | refused hnot =>
      rcases endState_reapply a.env { s₁ with classes := t.withHooks t.record.hooks } t.record.klass t.record.hooks
        a.rollback with ⟨d, haccept, hend⟩ | ⟨-, hend⟩
      · have hlive : Permuted original t.record.hooks d := ⟨_, List.Perm.refl _, haccept.rebuild_eq hrollback.1 ho⟩
        simp only [hend]
        exact h₁.put hstage.opens (List.Subperm.refl _) rfl rfl (fun k hk => redefine_vm_of_ne _ d hk)
          hstage.initialized₁ ho (by simpa using hlive)
      · simp only [hend]
        have hmem : t.record ∈ s₁.classes := by simp [hstage.opens.classes_eq hmore]
        obtain ⟨o, ho', hlive⟩ := h₁.recorded.records t.record hmem
        exact h₁.put hstage.opens (List.Subperm.refl _) rfl rfl (fun _ _ => rfl) hstage.initialized₁ ho' hlive

theorem Agrees.uninstall (h : Agrees loaded s) (method : Option JMethodId) (matches_ : HookEntry → Bool)
    {a : UninstallAnswers} (happly : a.apply.Steady) :
    Agrees loaded (endState (uninstallMatching method matches_ a) s) := by
  unfold endState
  have hout := uninstall_outcome method matches_ a s
  generalize uninstallMatching method matches_ a s = r at hout
  -- A registry with a record is initialized, and the record has its bytes in the cache.
  have hrecord : ∀ {t kept aside}, Matched s method matches_ t kept aside → s.initialized = true ∧
      ∃ original, s.cachedBytes t.record.klass = some original ∧
        Permuted original t.record.hooks (s.vm t.record.klass) := by
    intro t kept aside hmatch
    constructor
    · by_contra hidle
      have hnil := h.idle (by simpa using hidle)
      have hmem := hmatch.record_mem
      simp [hnil] at hmem
    · exact h.recorded.records t.record hmatch.record_mem
  cases hout with
  | refused => exact h
  | @rejected e t kept aside hmatch hnot =>
    obtain ⟨hinit, original, ho, hs, hperm, hlive⟩ := hrecord hmatch
    exact h.put (.inl hmatch.classes) hmatch.perm.subperm rfl rfl (fun _ _ => rfl) hinit ho
      ⟨hs, hperm.trans hmatch.perm.symm, hlive⟩
  | unbound hmatch haccept hunbound => simp [happly.2] at hunbound
  | @uninstalled t kept aside d hmatch haccept =>
    obtain ⟨hinit, original, ho, -⟩ := hrecord hmatch
    have hvm : ∀ k, k ≠ t.record.klass → (s.redefine t.record.klass d).vm k = s.vm k :=
      fun k hk => redefine_vm_of_ne s d hk
    have hrebuilt := haccept.rebuild_eq happly.1 ho
    by_cases hempty : kept = []
    · subst hempty
      have hd : d = original := by simpa [rebuild] using hrebuilt.symm
      refine h.drop (.inl hmatch.classes) (by simp) rfl hvm hinit ?_
      rw [redefine_vm_self, hd]
      exact h.based.cached _ _ ho
    · have hkept : kept.Subperm t.record.hooks := by
        rw [hmatch.kept_eq]
        exact List.filter_sublist.subperm
      refine h.put (.inl hmatch.classes) hkept (by simp [hempty]) rfl hvm hinit ho ⟨kept, List.Perm.refl _, ?_⟩
      rw [redefine_vm_self]
      exact hrebuilt

theorem Agrees.init (h : Agrees loaded s) (a : InitAnswers) : Agrees loaded (endState (jni2hookInit a) s) := by
  have hready : Agrees loaded { s with initialized := true } :=
    ⟨⟨h.recorded.nodup, h.recorded.records⟩, ⟨h.based.cached, h.based.unrecorded⟩, h.exclusive, fun hf => by cases hf⟩
  rcases endState_init a s with hend | hend <;> rw [hend]
  · exact h
  · exact hready

theorem Agrees.step (h : Agrees loaded s) (e : RegistryEvent) (hsteady : SteadyCall s e) :
    Agrees loaded (registryStep s e) := by
  unfold registryStep
  cases e with
  | init a => exact h.init a
  | install method nativeFunction a => exact h.install method 0 nativeFunction .makeNative hsteady.1 hsteady.2
  | installAt method bytecodeOffset nativeFunction a =>
    exact h.install method bytecodeOffset nativeFunction .insertCall hsteady.1 hsteady.2
  | uninstall method a => exact h.uninstall method _ hsteady
  | uninstallAt method bytecodeOffset nativeFunction a =>
    cases method with
    | none => exact h
    | some method =>
      cases nativeFunction with
      | none => exact h
      | some nativeFunction => exact h.uninstall (some method) _ hsteady
  | redefineClass klass bytes env redefined => cases hsteady
  | shutdown env answers => cases hsteady

theorem agrees_start (loaded : JClass → Bytes) : Agrees loaded (Registry.start loaded) := by
  constructor
  · exact ⟨List.nodup_nil, fun c hc => by cases hc⟩
  · exact ⟨fun k original hc => by simp [Registry.start, Registry.cachedBytes] at hc, fun k _ => rfl⟩
  · exact List.Pairwise.nil
  · exact fun _ => rfl

/-- Cached bytes stay cached. -/
theorem cachedBytes_step {klass : JClass} {bytes : Bytes} (e : RegistryEvent) (hc : s.cachedBytes klass = some bytes)
    (hsteady : SteadyCall s e) : (registryStep s e).cachedBytes klass = some bytes := by
  unfold registryStep
  cases e with
  | init a =>
    unfold RegistryEvent.call
    rcases endState_init a s with hend | hend <;> rw [hend]
    · exact hc
    · exact hc
  | install method nativeFunction a => exact install_cachedBytes method 0 nativeFunction .makeNative a hc
  | installAt method bytecodeOffset nativeFunction a =>
    exact install_cachedBytes method bytecodeOffset nativeFunction .insertCall a hc
  | uninstall method a => exact (uninstall_cachedBytes method _ a s klass).trans hc
  | uninstallAt method bytecodeOffset nativeFunction a =>
    cases method with
    | none => exact hc
    | some method =>
      cases nativeFunction with
      | none => exact hc
      | some nativeFunction => exact (uninstall_cachedBytes (some method) _ a s klass).trans hc
  | redefineClass klass bytes env redefined => cases hsteady
  | shutdown env answers => cases hsteady

/-- A shutdown without a failure brings every class back. -/
theorem Agrees.shutdown (h : Agrees loaded s) {env : Environment} {answers : JClass → ReapplyAnswers}
    (hok : jni2hookShutdown env answers s = .ok () s') : ∀ k, s'.vm k = loaded k := by
  have hafter : After (jni2hookShutdown env answers) s (fun _ s' => ∀ k, s'.vm k = loaded k) (fun _ _ => True) := by
    unfold jni2hookShutdown
    simp only [after_bind, after_get, after_ite]
    constructor
    · intro hinit
      refine (restoreClasses_spec env answers s.classes.reverse none s).mono ?_ (fun _ _ hfalse => hfalse.elim)
      rintro failure s₁ ⟨-, hvm, hnone⟩
      simp only [after_modify]
      cases failure with
      | some status => simp
      | none =>
        simp only [after_pure]
        intro k
        by_cases hk : s.New k
        · rw [hvm k (fun c hc => hk c (List.mem_reverse.mp hc))]
          exact h.based.unrecorded k hk
        · obtain ⟨c, hc, rfl⟩ : ∃ c ∈ s.classes, c.klass = k := by
            simpa [Registry.New] using hk
          exact h.based.cached _ _ ((hnone rfl).2 c (List.mem_reverse.mpr hc))
    · intro hidle k
      have hnil := h.idle (by simpa using hidle)
      exact h.based.unrecorded k (by simp [Registry.New, hnil])
  exact hafter.of_ok hok

end Agrees

/-! ## The runs -/

/-- In every run of installs and uninstalls that bind their natives, whatever else fails: one record for a class, no
hook beside a replacement, cached bytes that stay, live definitions that are the rebuild of the recorded hooks or the
loaded bytes, and a shutdown that brings back the loaded bytes when it returns OK. -/
theorem registry_agrees {loaded : JClass → Bytes} {earlier later : List RegistryEvent} {s t : Registry}
    (hs : s = runEvents registryStep (Registry.start loaded) earlier) (ht : t = runEvents registryStep s later)
    (hsteady : AllMeet registryStep SteadyCall (Registry.start loaded) (earlier ++ later)) :
    (t.classes.map (·.klass)).Nodup ∧ Exclusive t ∧
      (∀ k original, s.cachedBytes k = some original → t.cachedBytes k = some original) ∧
      (∀ c ∈ t.classes, ∃ original, t.cachedBytes c.klass = some original ∧ original = loaded c.klass ∧
        ∃ hs, hs.Perm c.hooks ∧ rebuild original hs = .ok (t.vm c.klass)) ∧
      (∀ k, (∀ c ∈ t.classes, c.klass ≠ k) → t.vm k = loaded k) ∧
      (∀ env answers t', jni2hookShutdown env answers t = .ok () t' → ∀ k, t'.vm k = loaded k) := by
  obtain ⟨hearlier, hlater⟩ := hsteady.split
  rw [← hs] at hlater
  have hsAgrees : Agrees loaded s := by
    rw [hs]
    exact invariant_run (fun _ e h hok => h.step e hok) (agrees_start loaded) hearlier
  have htAgrees : Agrees loaded t := by
    rw [ht]
    exact invariant_run (fun _ e h hok => h.step e hok) hsAgrees hlater
  refine ⟨htAgrees.recorded.nodup, htAgrees.exclusive, ?_, ?_, htAgrees.based.unrecorded, ?_⟩
  · intro k original hc
    rw [ht]
    have hkeep : ∀ s' e, s'.cachedBytes k = some original → SteadyCall s' e →
        (registryStep s' e).cachedBytes k = some original := fun s' e => cachedBytes_step e
    exact invariant_run hkeep hc hlater
  · intro c hc
    obtain ⟨original, ho, hlive⟩ := htAgrees.recorded.records c hc
    exact ⟨original, ho, htAgrees.based.cached _ _ ho, hlive⟩
  · intro env answers t' hok
    exact htAgrees.shutdown hok

/-- A VM that takes every definition, or refuses it, and binds every native. -/
def plainReapply (redefined : Bool) : ReapplyAnswers := ⟨none, redefined, fun _ => true⟩

theorem plainReapply_sound (redefined : Bool) : (plainReapply redefined).Sound := by
  simp [ReapplyAnswers.Sound, plainReapply]

/-- An install on the method `f()V` of class 1 during which only `apply` may fail. -/
def plainInstall (apply : ReapplyAnswers) : InstallAnswers where
  env := ⟨true, true⟩
  declaring := some 1
  className := true
  methodName := some (text "f", text "()V")
  strings := true
  addedName := true
  modifiers := some 1
  capture := ⟨true, true, true⟩
  record := true
  hooksArray := true
  apply := apply
  rollback := plainReapply true

/-- An uninstall during which only `apply` may fail. -/
def plainUninstall (apply : ReapplyAnswers) : UninstallAnswers := ⟨⟨true, true⟩, apply⟩

/-- A start, and two callbacks at the first instruction of method 7. -/
def twoInserts : List RegistryEvent :=
  [.init ⟨true, true, true, true⟩, .installAt (some 7) 0 (some 100) (plainInstall (plainReapply true)),
    .installAt (some 7) 0 (some 101) (plainInstall (plainReapply true))]

/-- Two callbacks are installed and the removal of the first is refused: both stay recorded, now in the other order. -/
theorem registry_agrees_two_inserts :
    ∃ t, t = runEvents registryStep (runEvents registryStep (Registry.start fun _ => plainClassBytes) twoInserts)
        [.uninstallAt (some 7) 0 (some 100) (plainUninstall (plainReapply false))] ∧
      t.hooks.map (·.nativeFunction) = [101, 100] ∧
      ∀ c ∈ t.classes, ∃ original, t.cachedBytes c.klass = some original ∧ original = plainClassBytes ∧
        ∃ hs, hs.Perm c.hooks ∧ rebuild original hs = .ok (t.vm c.klass) := by
  have hsteady : AllMeet registryStep SteadyCall (Registry.start fun _ => plainClassBytes)
      (twoInserts ++ [.uninstallAt (some 7) 0 (some 100) (plainUninstall (plainReapply false))]) := by
    have hok : ∀ redefined, (plainReapply redefined).Steady := by
      intro redefined
      exact ⟨plainReapply_sound redefined, fun _ => rfl⟩
    exact ⟨trivial, ⟨hok true, hok true⟩, ⟨hok true, hok true⟩, hok false, trivial⟩
  exact ⟨_, rfl, by decide +kernel, (registry_agrees rfl rfl hsteady).2.2.2.1⟩

end Jni2Hook

