import Jni2Hook.Hook.Registry

/-!
# What the calls on the registry do

* `reapply_cases`: a rebuild is accepted by the VM or changes nothing.
* `install_outcome`, `uninstall_outcome`: every way in which the two kinds of call can end.
* `Recorded`: each class has one record, and a relation holds between the cached bytes, the hooks of the record and the
  live definition; the lemmas under it say how the calls move a record.
-/

namespace Jni2Hook

open Lib

/-! ## Records and their pointers -/

theorem findTarget_some {p : HookedClass → Bool} {cs : List HookedClass} {t : Target} (h : findTarget p cs = some t) :
    cs = t.before ++ t.record :: t.after ∧ p t.record = true := by
  induction cs generalizing t with
  | nil => simp [findTarget] at h
  | cons c cs ih =>
    unfold findTarget at h
    split at h
    · rename_i hp
      cases h
      exact ⟨rfl, hp⟩
    · cases ht : findTarget p cs with
      | none => simp [ht] at h
      | some t' =>
        simp only [ht, Option.map_some, Option.some.injEq] at h
        obtain ⟨hcs, hp⟩ := ih ht
        subst h
        exact ⟨by simp [← hcs], hp⟩

theorem findTarget_none {p : HookedClass → Bool} {cs : List HookedClass} (h : findTarget p cs = none) :
    ∀ c ∈ cs, p c = false := by
  induction cs with
  | nil => simp
  | cons c cs ih =>
    unfold findTarget at h
    split at h
    · simp at h
    · rename_i hp
      have hrest : findTarget p cs = none := by simpa using h
      intro c' hc'
      rcases List.mem_cons.mp hc' with rfl | hc'
      · simpa using hp
      · exact ih hrest c' hc'

/-- A pointer to the record of a class: one that is there, or the new one behind the last. -/
def Registry.Opens (s : Registry) (t : Target) : Prop :=
  s.classes = t.before ++ t.record :: t.after ∨
    (∀ c ∈ s.classes, c.klass ≠ t.record.klass) ∧ t.before = s.classes ∧ t.after = [] ∧ t.record.hooks = []

/-- A record with hooks was there before. -/
theorem Registry.Opens.classes_eq {s : Registry} {t : Target} (h : s.Opens t) (hmore : t.record.hooks ≠ []) :
    s.classes = t.before ++ t.record :: t.after := by
  rcases h with hclasses | ⟨-, -, -, hempty⟩
  · exact hclasses
  · exact absurd hempty hmore

/-- The class of the pointer has no record yet. -/
def Registry.New (s : Registry) (klass : JClass) : Prop := ∀ c ∈ s.classes, c.klass ≠ klass

instance (s : Registry) (klass : JClass) : Decidable (s.New klass) := by unfold Registry.New; infer_instance

/-! ## Moving matches aside -/

section Partition

variable (matches_ : HookEntry → Bool)

/-- The entries that stay keep their order. -/
theorem partitionHooks_kept (hooks kept aside : List HookEntry) :
    (partitionHooks matches_ kept aside hooks).1 = kept ++ hooks.filter (fun h => !matches_ h) := by
  induction hooks generalizing kept aside with
  | nil => simp [partitionHooks]
  | cons h hs ih =>
    unfold partitionHooks
    by_cases hm : matches_ h = true
    · simp [hm, ih]
    · cases aside <;> simp [hm, ih]

/-- No entry is lost. -/
theorem partitionHooks_perm (hooks kept aside : List HookEntry) :
    ((partitionHooks matches_ kept aside hooks).1 ++ (partitionHooks matches_ kept aside hooks).2).Perm
      (kept ++ aside ++ hooks) := by
  induction hooks generalizing kept aside with
  | nil => simp [partitionHooks]
  | cons h hs ih =>
    unfold partitionHooks
    by_cases hm : matches_ h = true
    · simp only [hm, if_true]
      have hrest := ih kept (aside ++ [h])
      simpa using hrest
    · cases aside with
      | nil =>
        simp only [hm, Bool.false_eq_true, if_false]
        have hrest := ih (kept ++ [h]) []
        simpa using hrest
      | cons moved others =>
        simp only [hm, Bool.false_eq_true, if_false]
        have hrest := ih (kept ++ [h]) (others ++ [moved])
        refine hrest.trans ?_
        simp only [List.append_assoc, List.cons_append, List.nil_append]
        refine List.Perm.append_left kept ?_
        have hswap : (h :: (others ++ moved :: hs)).Perm (h :: moved :: (others ++ hs)) :=
          List.perm_middle.cons h
        have hback : (moved :: (others ++ h :: hs)).Perm (moved :: h :: (others ++ hs)) :=
          List.perm_middle.cons moved
        exact hswap.trans ((List.Perm.swap moved h _).trans hback.symm)

/-- When the matches are the end of the list, nothing moves. -/
theorem partitionHooks_suffix {stay go : List HookEntry} (hstay : ∀ h ∈ stay, matches_ h = false)
    (hgo : ∀ h ∈ go, matches_ h = true) (kept aside : List HookEntry) (haside : stay = [] ∨ aside = []) :
    partitionHooks matches_ kept aside (stay ++ go) = (kept ++ stay, aside ++ go) := by
  induction stay generalizing kept with
  | nil =>
    clear haside hstay
    induction go generalizing aside with
    | nil => simp [partitionHooks]
    | cons g gs ih =>
      have hg : matches_ g = true := hgo g List.mem_cons_self
      have hrest := ih (fun h hh => hgo h (List.mem_cons_of_mem g hh)) (aside ++ [g])
      simp only [List.nil_append, List.append_nil] at hrest ⊢
      unfold partitionHooks
      simp [hg, hrest]
  | cons h hs ih =>
    have hh : matches_ h = false := hstay h List.mem_cons_self
    have hnil : aside = [] := by simpa using haside
    subst hnil
    have hrest := ih (fun x hx => hstay x (List.mem_cons_of_mem h hx)) (kept ++ [h]) (Or.inr rfl)
    simp only [List.cons_append]
    unfold partitionHooks
    simp [hh, hrest]

end Partition

/-! ## Into the VM -/

@[simp] theorem redefine_classes (s : Registry) (klass : JClass) (bytes : Bytes) :
    (s.redefine klass bytes).classes = s.classes := rfl

@[simp] theorem redefine_cachedBytes (s : Registry) (klass k : JClass) (bytes : Bytes) :
    (s.redefine klass bytes).cachedBytes k = s.cachedBytes k := rfl

@[simp] theorem redefine_vm_self (s : Registry) (klass : JClass) (bytes : Bytes) :
    (s.redefine klass bytes).vm klass = bytes := by simp [Registry.redefine]

theorem redefine_vm_of_ne (s : Registry) {klass k : JClass} (bytes : Bytes) (h : k ≠ klass) :
    (s.redefine klass bytes).vm k = s.vm k := by simp [Registry.redefine, h]

/-- A rebuild that runs out of memory says so. -/
def ReapplyAnswers.Sound (a : ReapplyAnswers) : Prop := ∀ bytes, a.rebuilt ≠ some (.ok bytes)

/-- The VM takes the definition that a `reapply` makes. -/
def Accepts (env : Environment) (s : Registry) (klass : JClass) (hooks : List HookEntry) (a : ReapplyAnswers)
    (definition : Bytes) : Prop :=
  env.jvmti = true ∧ env.jni = true ∧ a.redefined = true ∧
    ∃ original, s.cachedBytes klass = some original ∧ a.definition original hooks = .ok definition

/-- What the VM takes is the rebuild of the cached bytes. -/
theorem Accepts.rebuild_eq {env : Environment} {s : Registry} {klass : JClass} {hooks : List HookEntry}
    {a : ReapplyAnswers} {d original : Bytes} (h : Accepts env s klass hooks a d) (ha : a.Sound)
    (hcached : s.cachedBytes klass = some original) : rebuild original hooks = .ok d := by
  obtain ⟨-, -, -, o, ho, hd⟩ := h
  rw [ho] at hcached
  cases hcached
  unfold ReapplyAnswers.definition at hd
  by_cases hnil : hooks = []
  · subst hnil
    simpa [rebuild] using hd
  · cases hr : a.rebuilt with
    | none => simpa [hnil, hr] using hd
    | some r =>
      have hok : r = .ok d := by simpa [hnil, hr] using hd
      rw [hok] at hr
      exact absurd hr (ha d)

/-- A `reapply` is accepted, and then bound or not, or it fails and changes nothing. -/
theorem reapply_cases (env : Environment) (s : Registry) (klass : JClass) (hooks : List HookEntry)
    (a : ReapplyAnswers) :
    (∃ definition, Accepts env s klass hooks a definition ∧
      reapply env klass hooks a s = if hooks.all a.bound then .ok () (s.redefine klass definition)
        else .error .jni (s.redefine klass definition)) ∨
    ((∀ definition, ¬Accepts env s klass hooks a definition) ∧ ∃ e, reapply env klass hooks a s = .error e s) := by
  unfold reapply Accepts
  cases env.jvmti
  · exact .inr ⟨by simp, _, rfl⟩
  cases env.jni
  · exact .inr ⟨by simp, _, rfl⟩
  cases hc : s.cachedBytes klass with
  | none => exact .inr ⟨by simp, .classNotCached, by simp [run_bind, hc]⟩
  | some original =>
    cases hd : a.definition original hooks with
    | error e => exact .inr ⟨by simp [hd], e.status, by simp [run_bind, hc, hd]⟩
    | ok definition =>
      cases a.redefined with
      | false => exact .inr ⟨by simp, .jvmti, by simp [run_bind, hc, hd]⟩
      | true =>
        refine .inl ⟨definition, ⟨rfl, rfl, rfl, original, rfl, hd⟩, ?_⟩
        cases hooks.all a.bound <;> simp [run_bind, hc, hd]

/-- The state a `reapply` leaves behind, however it ends. -/
theorem endState_reapply (env : Environment) (s : Registry) (klass : JClass) (hooks : List HookEntry)
    (a : ReapplyAnswers) :
    (∃ d, Accepts env s klass hooks a d ∧ endState (reapply env klass hooks a) s = s.redefine klass d) ∨
    ((∀ d, ¬Accepts env s klass hooks a d) ∧ endState (reapply env klass hooks a) s = s) := by
  unfold endState
  rcases reapply_cases env s klass hooks a with ⟨d, haccept, hrun⟩ | ⟨hnot, e, hrun⟩
  · left
    refine ⟨d, haccept, ?_⟩
    rw [hrun]
    cases hooks.all a.bound <;> rfl
  · right
    refine ⟨hnot, ?_⟩
    rw [hrun]

/-! ## Installing -/

/-- The part of an install before the record: at most the bytes of one class are captured. -/
structure Captures (s s₁ : Registry) : Prop where
  initialized : s₁.initialized = s.initialized
  classes : s₁.classes = s.classes
  vm : s₁.vm = s.vm
  cache : s₁.cache = s.cache ∨ ∃ klass, s.cachedBytes klass = none ∧ s₁.cache = s.cache ++ [⟨klass, s.vm klass⟩]

theorem Captures.refl (s : Registry) : Captures s s := ⟨rfl, rfl, rfl, .inl rfl⟩

/-- What is cached stays as it is. -/
theorem Captures.cachedBytes {s s₁ : Registry} (h : Captures s s₁) {klass : JClass} {bytes : Bytes}
    (hc : s.cachedBytes klass = some bytes) : s₁.cachedBytes klass = some bytes := by
  unfold Registry.cachedBytes at hc ⊢
  rcases h.cache with hcache | ⟨k, -, hcache⟩
  · rw [hcache, hc]
  · rw [hcache, List.find?_append]
    cases hf : s.cache.find? (·.klass == klass) with
    | none => simp [hf] at hc
    | some c => simpa [hf] using hc

/-- What is cached was cached before or is the live definition. -/
theorem Captures.cachedBytes_cases {s s₁ : Registry} (h : Captures s s₁) {klass : JClass} {bytes : Bytes}
    (hc : s₁.cachedBytes klass = some bytes) :
    s.cachedBytes klass = some bytes ∨ s.cachedBytes klass = none ∧ bytes = s.vm klass := by
  rcases h.cache with hcache | ⟨k, hnone, hcache⟩
  · left
    unfold Registry.cachedBytes at hc ⊢
    rw [← hcache, hc]
  · cases hf : s.cachedBytes klass with
    | some old =>
      left
      rw [h.cachedBytes hf] at hc
      exact hc
    | none =>
      right
      unfold Registry.cachedBytes at hc hf
      rw [hcache, List.find?_append] at hc
      simp only [Option.map_eq_none_iff] at hf
      simp only [hf, Option.none_or, List.find?_cons, List.find?_nil] at hc
      split at hc
      · rename_i hk
        simp only [beq_iff_eq] at hk
        simp only [Option.map_some, Option.some.injEq] at hc
        exact ⟨rfl, by rw [← hc, ← hk]⟩
      · simp at hc

theorem classCacheEnsure_spec (klass : JClass) (a : CaptureAnswers) (s : Registry) :
    After (classCacheEnsure klass a) s (fun _ s₁ => Captures s s₁ ∧ (s₁.cachedBytes klass).isSome = true)
      (fun _ s₁ => Captures s s₁) := by
  unfold classCacheEnsure
  simp only [after_bind, after_get]
  cases hc : s.cachedBytes klass with
  | some bytes => simpa [hc] using Captures.refl s
  | none =>
    have hstored : Captures s { s with cache := s.cache ++ [⟨klass, s.vm klass⟩] } :=
      ⟨rfl, rfl, rfl, .inr ⟨klass, hc, rfl⟩⟩
    have hfound : (({ s with cache := s.cache ++ [⟨klass, s.vm klass⟩] } : Registry).cachedBytes klass).isSome
        = true := by
      unfold Registry.cachedBytes
      simp [List.find?_append]
    cases a.started
    · simpa using Captures.refl s
    cases a.stored
    · simpa using Captures.refl s
    cases a.retransformed
    · simpa using hstored
    · simpa using ⟨hstored, hfound⟩

theorem addedName_spec (kind : HookKind) (name : Bytes) (allocated : Bool) (s : Registry) :
    After (addedName kind name allocated) s (fun _ s₁ => Captures s s₁ ∧ s₁.cache = s.cache)
      (fun _ s₁ => s₁ = s) := by
  unfold addedName
  cases allocated
  · simp
  cases kind
  · simpa using Captures.refl s
  · exact ⟨⟨rfl, rfl, rfl, .inl rfl⟩, rfl⟩

theorem Captures.trans_of_cache {s s₁ s₂ : Registry} (h₁ : Captures s s₁) (hcache : s₁.cache = s.cache)
    (h₂ : Captures s₁ s₂) : Captures s s₂ := by
  have hbytes : ∀ k, s₁.cachedBytes k = s.cachedBytes k := by
    intro k
    unfold Registry.cachedBytes
    rw [hcache]
  refine ⟨h₂.initialized.trans h₁.initialized, h₂.classes.trans h₁.classes, h₂.vm.trans h₁.vm, ?_⟩
  rcases h₂.cache with hsame | ⟨k, hnone, hnew⟩
  · exact .inl (hsame.trans hcache)
  · refine .inr ⟨k, ?_, ?_⟩
    · rw [← hbytes k]
      exact hnone
    · rw [hnew, hcache, h₁.vm]

/-- What an install knows of its class and its entry before the record. -/
structure Described (s s₁ : Registry) (method : JMethodId) (kind : HookKind) (a : InstallAnswers) (klass : JClass)
    (entry : HookEntry) : Prop where
  captures : Captures s s₁
  declaring : a.declaring = some klass
  cached : (s₁.cachedBytes klass).isSome = true
  entryMethod : entry.method = method
  entryKind : entry.kind = kind

theorem describeHook_spec (method : JMethodId) (bytecodeOffset : UInt32) (nativeFunction : NativeFunction)
    (kind : HookKind) (a : InstallAnswers) (s : Registry) :
    After (describeHook method bytecodeOffset nativeFunction kind a) s
      (fun r s₁ => Described s s₁ method kind a r.1 r.2) (fun _ s₁ => Captures s s₁) := by
  unfold describeHook
  cases hd : a.declaring with
  | none => simpa using Captures.refl s
  | some declaring =>
    cases a.className
    · simpa using Captures.refl s
    cases a.methodName with
    | none => simpa using Captures.refl s
    | some described =>
      obtain ⟨name, signature⟩ := described
      cases a.strings
      · simpa using Captures.refl s
      simp only [after_bind, Bool.true_eq_false, if_false]
      refine (addedName_spec kind name a.addedName s).mono ?_ ?_
      · rintro added s₁ ⟨hcap, hcache⟩
        cases a.modifiers with
        | none => simpa using hcap
        | some modifiers =>
          simp only [after_bind, after_pure]
          refine (classCacheEnsure_spec declaring a.capture s₁).mono ?_ ?_
          · rintro _ s₂ ⟨hcap₂, hfound⟩
            exact ⟨hcap.trans_of_cache hcache hcap₂, hd, hfound, rfl, rfl⟩
          · intro _ s₂ hcap₂
            exact hcap.trans_of_cache hcache hcap₂
      · rintro _ s₁ rfl
        exact Captures.refl _

/-- The state of an install that has its record: `t` points to it and `entry` is about to be appended. -/
structure Staged (s s₁ : Registry) (kind : HookKind) (a : InstallAnswers) (t : Target) (entry : HookEntry) : Prop where
  captures : Captures s s₁
  initialized : s.initialized = true
  declaring : a.declaring = some t.record.klass
  cached : (s₁.cachedBytes t.record.klass).isSome = true
  entryKind : entry.kind = kind
  opens : s₁.Opens t
  noConflict : s.methodConflicts entry.method kind = false
  jvmti : a.env.jvmti = true
  jni : a.env.jni = true

/-- The state in which the rollback of an install starts: the VM has refused the new hooks, or has taken them and one
of them could not be bound. -/
inductive BeforeRollback (s₁ : Registry) (a : InstallAnswers) (t : Target) (entry : HookEntry) : Registry → Prop
  | refused (hnot : ∀ d, ¬Accepts a.env s₁ t.record.klass (t.record.hooks ++ [entry]) a.apply d) :
      BeforeRollback s₁ a t entry { s₁ with classes := t.withHooks t.record.hooks }
  | unbound {d : Bytes} (haccept : Accepts a.env s₁ t.record.klass (t.record.hooks ++ [entry]) a.apply d)
      (hunbound : (t.record.hooks ++ [entry]).all a.apply.bound = false) :
      BeforeRollback s₁ a t entry ({ s₁ with classes := t.withHooks t.record.hooks }.redefine t.record.klass d)

/-- The ways in which an install ends. -/
inductive InstallOutcome (s : Registry) (kind : HookKind) (a : InstallAnswers) :
    EStateM.Result Jni2HookStatus Registry Unit → Prop
  /-- No record was touched. -/
  | refused {s₁ : Registry} {e : Jni2HookStatus} (hcap : Captures s s₁) : InstallOutcome s kind a (.error e s₁)
  /-- The record was appended and its hooks could not be allocated. -/
  | emptyRecord {s₁ : Registry} {klass : JClass} (hcap : Captures s s₁) (hinit : s.initialized = true)
      (hdecl : a.declaring = some klass) (hnew : s₁.New klass) (hcached : (s₁.cachedBytes klass).isSome = true)
      (harray : a.hooksArray = false) :
      InstallOutcome s kind a (.error .outOfMemory { s₁ with classes := s₁.classes ++ [⟨klass, []⟩] })
  | installed {s₁ : Registry} {t : Target} {entry : HookEntry} {d : Bytes} (hstage : Staged s s₁ kind a t entry)
      (haccept : Accepts a.env s₁ t.record.klass (t.record.hooks ++ [entry]) a.apply d) :
      InstallOutcome s kind a
        (.ok () ({ s₁ with classes := t.withHooks (t.record.hooks ++ [entry]) }.redefine t.record.klass d))
  /-- The first hook of a class was refused. -/
  | refusedFirst {s₁ : Registry} {t : Target} {entry : HookEntry} {e : Jni2HookStatus}
      (hstage : Staged s s₁ kind a t entry) (hfirst : t.record.hooks = []) :
      InstallOutcome s kind a (.error e { s₁ with classes := t.dropped })
  /-- The first hook of a class was taken by the VM and could not be bound. -/
  | unboundFirst {s₁ : Registry} {t : Target} {entry : HookEntry} {e : Jni2HookStatus} {d : Bytes}
      (hstage : Staged s s₁ kind a t entry) (hfirst : t.record.hooks = [])
      (haccept : Accepts a.env s₁ t.record.klass [entry] a.apply d) (hunbound : a.apply.bound entry = false) :
      InstallOutcome s kind a (.error e ({ s₁ with classes := t.dropped }.redefine t.record.klass d))
  | rolledBack {s₁ s₂ : Registry} {t : Target} {entry : HookEntry} {e : Jni2HookStatus}
      (hstage : Staged s s₁ kind a t entry) (hmore : t.record.hooks ≠ []) (hbefore : BeforeRollback s₁ a t entry s₂) :
      InstallOutcome s kind a (.error e (endState (reapply a.env t.record.klass t.record.hooks a.rollback) s₂))

/-- The rollback always comes to an end; its own failure is not reported. -/
theorem undoHook_run (t : Target) (a : InstallAnswers) (s : Registry) :
    undoHook t a s = .ok () (if t.record.hooks = [] then { s with classes := t.dropped }
      else endState (reapply a.env t.record.klass t.record.hooks a.rollback)
        { s with classes := t.withHooks t.record.hooks }) := by
  unfold undoHook
  by_cases hfirst : t.record.hooks = []
  · simp [hfirst]
  · simp only [List.isEmpty_iff, hfirst, if_false, run_bind, run_modify, run_tryCatch]
    unfold endState
    split <;> simp_all

theorem applyHook_outcome {s s₁ : Registry} {kind : HookKind} {a : InstallAnswers} {t : Target} {entry : HookEntry}
    (hstage : Staged s s₁ kind a t entry) (harray : a.hooksArray = true) (classes : List HookedClass) :
    InstallOutcome s kind a (applyHook t entry a { s₁ with classes := classes }) := by
  unfold applyHook
  simp only [harray, Bool.true_eq_false, if_false, run_bind, run_modify, run_tryCatch]
  -- `reapply` reads the cache only, so the records in the state do not matter to what it accepts.
  have happly := reapply_cases a.env { s₁ with classes := t.withHooks (t.record.hooks ++ [entry]) } t.record.klass
    (t.record.hooks ++ [entry]) a.apply
  rcases happly with ⟨d, haccept, hrun⟩ | ⟨hnot, e, hrun⟩
  · by_cases hbound : (t.record.hooks ++ [entry]).all a.apply.bound = true
    · rw [hrun, if_pos hbound]
      exact .installed hstage haccept
    · simp only [hrun, if_neg hbound, undoHook_run, run_throw]
      by_cases hfirst : t.record.hooks = []
      · rw [if_pos hfirst]
        rw [hfirst] at haccept hbound
        have hout : InstallOutcome s kind a (.error .jni
          ({ s₁ with classes := t.dropped }.redefine t.record.klass d)) :=
          .unboundFirst hstage hfirst haccept (by simpa using hbound)
        exact hout
      · rw [if_neg hfirst]
        exact .rolledBack hstage hfirst (.unbound haccept (by simpa using hbound))
  · simp only [hrun, undoHook_run, run_throw]
    by_cases hfirst : t.record.hooks = []
    · rw [if_pos hfirst]
      exact .refusedFirst hstage hfirst
    · rw [if_neg hfirst]
      exact .rolledBack hstage hfirst (.refused hnot)

theorem openRecord_run (klass : JClass) (allocated : Bool) (s : Registry) :
    (∃ t, t.record.klass = klass ∧ s.classes = t.before ++ t.record :: t.after ∧
      openRecord klass allocated s = .ok t s) ∨
    s.New klass ∧ openRecord klass allocated s =
      if allocated then .ok ⟨s.classes, ⟨klass, []⟩, []⟩ { s with classes := s.classes ++ [⟨klass, []⟩] }
      else .error .outOfMemory s := by
  unfold openRecord
  cases hf : s.findClass klass with
  | some t =>
    obtain ⟨hclasses, hklass⟩ := findTarget_some hf
    exact .inl ⟨t, by simpa using hklass, hclasses, by simp [run_bind, hf]⟩
  | none =>
    have hnew : s.New klass := by
      intro c hc
      simpa using findTarget_none hf c hc
    refine .inr ⟨hnew, ?_⟩
    cases allocated
    · simp [run_bind, hf]
    · simp only [run_bind, run_get, hf, Bool.true_eq_false, if_false, if_true, run_modify, run_pure]

theorem install_outcome (method : Option JMethodId) (bytecodeOffset : UInt32)
    (nativeFunction : Option NativeFunction) (kind : HookKind) (a : InstallAnswers) (s : Registry) :
    InstallOutcome s kind a (install method bytecodeOffset nativeFunction kind a s) := by
  unfold install
  rcases method with _ | method
  · exact .refused (Captures.refl s)
  rcases nativeFunction with _ | nativeFunction
  · exact .refused (Captures.refl s)
  simp only [run_bind, run_get]
  cases hinit : s.initialized
  · exact .refused (Captures.refl s)
  cases hjvmti : a.env.jvmti
  · exact .refused (Captures.refl s)
  cases hjni : a.env.jni
  · exact .refused (Captures.refl s)
  simp only [Bool.true_eq_false, if_false, run_bind, run_get]
  by_cases hconflict : s.methodConflicts method kind = true
  · simp only [hconflict, if_true]
    exact .refused (Captures.refl s)
  simp only [if_neg hconflict, run_bind]
  have hdescribe := describeHook_spec method bytecodeOffset nativeFunction kind a s
  cases hd : describeHook method bytecodeOffset nativeFunction kind a s with
  | error e s₁ => exact .refused (hdescribe.of_error hd)
  | ok r s₁ =>
    obtain ⟨klass, entry⟩ := r
    have hdesc : Described s s₁ method kind a klass entry := hdescribe.of_ok hd
    have hnoConflict : s.methodConflicts entry.method kind = false := by
      rw [hdesc.entryMethod]
      simpa using hconflict
    have hstaged : ∀ t, t.record.klass = klass → s₁.Opens t → Staged s s₁ kind a t entry := by
      rintro t rfl hopens
      exact ⟨hdesc.captures, hinit, hdesc.declaring, hdesc.cached, hdesc.entryKind, hopens, hnoConflict, hjvmti, hjni⟩
    have hthrow : a.hooksArray = false → ∀ t u, applyHook t entry a u = .error .outOfMemory u := by
      intro harray t u
      simp [applyHook, harray, run_bind]
    simp only []
    rcases openRecord_run klass a.record s₁ with ⟨t, hklass, hclasses, hopen⟩ | ⟨hnew, hopen⟩
    · simp only [hopen]
      cases harray : a.hooksArray with
      | true => exact applyHook_outcome (hstaged t hklass (.inl hclasses)) harray s₁.classes
      | false =>
        rw [hthrow harray]
        exact .refused hdesc.captures
    · simp only [hopen]
      cases a.record with
      | false => exact .refused hdesc.captures
      | true =>
        simp only [if_true]
        cases harray : a.hooksArray with
        | true => exact applyHook_outcome (hstaged ⟨s₁.classes, ⟨klass, []⟩, []⟩ rfl
            (.inr ⟨hnew, rfl, rfl, rfl⟩)) harray _
        | false =>
          rw [hthrow harray]
          exact .emptyRecord hdesc.captures hinit hdesc.declaring hnew hdesc.cached harray

/-- An install only adds to the cache. -/
theorem install_cachedBytes (method : Option JMethodId) (bytecodeOffset : UInt32)
    (nativeFunction : Option NativeFunction) (kind : HookKind) (a : InstallAnswers) {s : Registry} {klass : JClass}
    {bytes : Bytes} (hc : s.cachedBytes klass = some bytes) :
    (endState (install method bytecodeOffset nativeFunction kind a) s).cachedBytes klass = some bytes := by
  unfold endState
  have hout := install_outcome method bytecodeOffset nativeFunction kind a s
  generalize install method bytecodeOffset nativeFunction kind a s = r at hout
  cases hout with
  | refused hcap => exact hcap.cachedBytes hc
  | emptyRecord hcap => exact hcap.cachedBytes hc
  | installed hstage => exact hstage.captures.cachedBytes hc
  | refusedFirst hstage => exact hstage.captures.cachedBytes hc
  | unboundFirst hstage => exact hstage.captures.cachedBytes hc
  | @rolledBack s₁ s₂ t entry e hstage hmore hbefore =>
    have hc₂ : s₂.cachedBytes klass = some bytes := by
      cases hbefore <;> exact hstage.captures.cachedBytes hc
    rcases endState_reapply a.env s₂ t.record.klass t.record.hooks a.rollback with ⟨d, -, hend⟩ | ⟨-, hend⟩
    · simpa [hend] using hc₂
    · simpa [hend] using hc₂

/-! ## Uninstalling -/

/-- A class with a hook of the method of an uninstall, some of whose hooks match. -/
structure Matched (s : Registry) (method : Option JMethodId) (matches_ : HookEntry → Bool) (t : Target)
    (kept aside : List HookEntry) : Prop where
  found : s.findClassOfMethod method = some t
  parts : partitionHooks matches_ [] [] t.record.hooks = (kept, aside)
  some_ : kept.length ≠ t.record.hooks.length

/-- The ways in which an uninstall ends. -/
inductive UninstallOutcome (s : Registry) (method : Option JMethodId) (matches_ : HookEntry → Bool)
    (a : UninstallAnswers) : EStateM.Result Jni2HookStatus Registry Unit → Prop
  | refused {e : Jni2HookStatus} : UninstallOutcome s method matches_ a (.error e s)
  /-- The VM did not take the definition without the matches. -/
  | rejected {e : Jni2HookStatus} {t : Target} {kept aside : List HookEntry}
      (hmatch : Matched s method matches_ t kept aside)
      (hnot : ∀ d, ¬Accepts a.env s t.record.klass kept a.apply d) :
      UninstallOutcome s method matches_ a (.error e { s with classes := t.withHooks (kept ++ aside) })
  /-- The VM took the definition without the matches, and a hook that stays could not be bound. -/
  | unbound {e : Jni2HookStatus} {t : Target} {kept aside : List HookEntry} {d : Bytes}
      (hmatch : Matched s method matches_ t kept aside)
      (haccept : Accepts a.env s t.record.klass kept a.apply d) (hunbound : kept.all a.apply.bound = false) :
      UninstallOutcome s method matches_ a
        (.error e ({ s with classes := t.withHooks (kept ++ aside) }.redefine t.record.klass d))
  | uninstalled {t : Target} {kept aside : List HookEntry} {d : Bytes}
      (hmatch : Matched s method matches_ t kept aside)
      (haccept : Accepts a.env s t.record.klass kept a.apply d) :
      UninstallOutcome s method matches_ a (.ok () ({ s with
        classes := if kept.isEmpty then t.dropped else t.withHooks kept }.redefine t.record.klass d))

section Matched

variable {s : Registry} {method : Option JMethodId} {matches_ : HookEntry → Bool} {t : Target}
  {kept aside : List HookEntry}

theorem Matched.classes (h : Matched s method matches_ t kept aside) :
    s.classes = t.before ++ t.record :: t.after := (findTarget_some h.found).1

theorem Matched.record_mem (h : Matched s method matches_ t kept aside) : t.record ∈ s.classes := by
  simp [h.classes]

theorem Matched.kept_eq (h : Matched s method matches_ t kept aside) :
    kept = t.record.hooks.filter (fun entry => !matches_ entry) := by
  have hfirst := partitionHooks_kept matches_ t.record.hooks [] []
  rw [h.parts] at hfirst
  exact hfirst

theorem Matched.perm (h : Matched s method matches_ t kept aside) : (kept ++ aside).Perm t.record.hooks := by
  have hall := partitionHooks_perm matches_ t.record.hooks [] []
  rw [h.parts] at hall
  exact hall

end Matched

theorem uninstall_outcome (method : Option JMethodId) (matches_ : HookEntry → Bool) (a : UninstallAnswers)
    (s : Registry) : UninstallOutcome s method matches_ a (uninstallMatching method matches_ a s) := by
  unfold uninstallMatching
  simp only [run_bind, run_get]
  cases s.initialized
  · exact .refused
  simp only [Bool.true_eq_false, if_false, run_bind, run_get]
  cases hf : s.findClassOfMethod method with
  | none => exact .refused
  | some t =>
    cases hparts : partitionHooks matches_ [] [] t.record.hooks with
    | mk kept aside =>
      simp only [hparts]
      by_cases hlength : kept.length = t.record.hooks.length
      · rw [if_pos hlength]
        exact .refused
      simp only [if_neg hlength, run_bind, run_tryCatch]
      have hmatch : Matched s method matches_ t kept aside := ⟨hf, hparts, hlength⟩
      rcases reapply_cases a.env s t.record.klass kept a.apply with ⟨d, haccept, hrun⟩ | ⟨hnot, e, hrun⟩
      · by_cases hbound : kept.all a.apply.bound = true
        · simp only [hrun, if_pos hbound]
          exact .uninstalled hmatch haccept
        · simp only [hrun, if_neg hbound]
          exact .unbound hmatch haccept (by simpa using hbound)
      · simp only [hrun]
        exact .rejected hmatch hnot

/-- An uninstall leaves the cache alone. -/
theorem uninstall_cachedBytes (method : Option JMethodId) (matches_ : HookEntry → Bool) (a : UninstallAnswers)
    (s : Registry) (klass : JClass) :
    (endState (uninstallMatching method matches_ a) s).cachedBytes klass = s.cachedBytes klass := by
  unfold endState
  have hout := uninstall_outcome method matches_ a s
  generalize uninstallMatching method matches_ a s = r at hout
  cases hout <;> rfl

/-! ## One record for each class -/

/-- The records on both sides of a pointer. -/
def Target.others (t : Target) : List HookedClass := t.before ++ t.after

theorem Registry.Opens.others {s : Registry} {t : Target} (h : s.Opens t) (hnodup : (s.classes.map (·.klass)).Nodup) :
    ∀ c ∈ t.others, c ∈ s.classes ∧ c.klass ≠ t.record.klass := by
  unfold Target.others
  intro c hc
  rcases h with hclasses | ⟨hnew, hbefore, hafter, -⟩
  · rw [hclasses] at hnodup ⊢
    have hrest : c ∈ t.before ++ t.record :: t.after := by
      rcases List.mem_append.mp hc with hc | hc <;> simp [hc]
    have hne : t.record.klass ∉ (t.before ++ t.after).map (·.klass) := by
      have hperm : ((t.before ++ t.record :: t.after).map (·.klass)).Perm
          (t.record.klass :: (t.before ++ t.after).map (·.klass)) := by
        simp
      exact (List.nodup_cons.mp (hperm.nodup_iff.mp hnodup)).1
    refine ⟨hrest, fun heq => hne ?_⟩
    rw [← heq]
    exact List.mem_map_of_mem hc
  · rw [hbefore, hafter, List.append_nil] at hc
    exact ⟨hc, hnew c hc⟩

theorem Registry.Opens.nodup {s : Registry} {t : Target} (h : s.Opens t) (hnodup : (s.classes.map (·.klass)).Nodup) :
    (t.record.klass :: t.others.map (·.klass)).Nodup := by
  rcases h with hclasses | ⟨hnew, hbefore, hafter, -⟩
  · rw [hclasses] at hnodup
    have hperm : ((t.before ++ t.record :: t.after).map (·.klass)).Perm
        (t.record.klass :: t.others.map (·.klass)) := by
      simp [Target.others]
    exact hperm.nodup_iff.mp hnodup
  · refine List.nodup_cons.mpr ⟨?_, ?_⟩
    · simpa [Target.others, hbefore, hafter] using hnew
    · simpa [Target.others, hbefore, hafter] using hnodup

theorem mem_withHooks {t : Target} {hooks : List HookEntry} {c : HookedClass} (h : c ∈ t.withHooks hooks) :
    c = { t.record with hooks := hooks } ∨ c ∈ t.others := by
  unfold Target.withHooks at h
  unfold Target.others
  rcases List.mem_append.mp h with hc | hc
  · exact .inr (List.mem_append_left _ hc)
  · rcases List.mem_cons.mp hc with hc | hc
    · exact .inl hc
    · exact .inr (List.mem_append_right _ hc)

theorem nodup_withHooks {t : Target} (hooks : List HookEntry) (h : (t.record.klass :: t.others.map (·.klass)).Nodup) :
    ((t.withHooks hooks).map (·.klass)).Nodup := by
  have hperm : ((t.withHooks hooks).map (·.klass)).Perm (t.record.klass :: t.others.map (·.klass)) := by
    simp [Target.withHooks, Target.others]
  exact hperm.nodup_iff.mpr h

/-- Each class has one record, its bytes are cached, and `R` holds of these bytes, the recorded hooks and the live
definition. -/
structure Recorded (R : Bytes → List HookEntry → Bytes → Prop) (s : Registry) : Prop where
  nodup : (s.classes.map (·.klass)).Nodup
  records : ∀ c ∈ s.classes, ∃ original, s.cachedBytes c.klass = some original ∧ R original c.hooks (s.vm c.klass)

section Recorded

variable {R : Bytes → List HookEntry → Bytes → Prop} {s s' : Registry} {t : Target}

theorem Recorded.captures (h : Recorded R s) (hcap : Captures s s') : Recorded R s' := by
  refine ⟨by simpa only [hcap.classes] using h.nodup, fun c hc => ?_⟩
  rw [hcap.classes] at hc
  obtain ⟨original, hcached, hR⟩ := h.records c hc
  exact ⟨original, hcap.cachedBytes hcached, by rw [hcap.vm]; exact hR⟩

/-- A class without cached bytes has no record. -/
theorem Recorded.new_of_not_cached (h : Recorded R s) {klass : JClass} (hnone : s.cachedBytes klass = none) :
    s.New klass := by
  rintro c hc rfl
  obtain ⟨original, hcached, -⟩ := h.records c hc
  rw [hnone] at hcached
  cases hcached

/-- The other records are as they were. -/
theorem Recorded.others (h : Recorded R s) (ht : s.Opens t) (hcache : s'.cache = s.cache)
    (hvm : ∀ k, k ≠ t.record.klass → s'.vm k = s.vm k) {c : HookedClass} (hc : c ∈ t.others) :
    ∃ original, s'.cachedBytes c.klass = some original ∧ R original c.hooks (s'.vm c.klass) := by
  obtain ⟨hmem, hne⟩ := ht.others h.nodup c hc
  obtain ⟨original, hcached, hR⟩ := h.records c hmem
  refine ⟨original, ?_, ?_⟩
  · unfold Registry.cachedBytes at hcached ⊢
    rw [hcache]
    exact hcached
  · rw [hvm c.klass hne]
    exact hR

theorem Recorded.put (h : Recorded R s) (ht : s.Opens t) {hooks : List HookEntry}
    (hclasses : s'.classes = t.withHooks hooks) (hcache : s'.cache = s.cache)
    (hvm : ∀ k, k ≠ t.record.klass → s'.vm k = s.vm k) {original : Bytes}
    (hcached : s.cachedBytes t.record.klass = some original) (hR : R original hooks (s'.vm t.record.klass)) :
    Recorded R s' := by
  refine ⟨?_, fun c hc => ?_⟩
  · rw [hclasses]
    exact nodup_withHooks hooks (ht.nodup h.nodup)
  · rw [hclasses] at hc
    rcases mem_withHooks hc with rfl | hc
    · refine ⟨original, ?_, hR⟩
      unfold Registry.cachedBytes at hcached ⊢
      rw [hcache]
      exact hcached
    · exact h.others ht hcache hvm hc

theorem Recorded.drop (h : Recorded R s) (ht : s.Opens t) (hclasses : s'.classes = t.dropped)
    (hcache : s'.cache = s.cache) (hvm : ∀ k, k ≠ t.record.klass → s'.vm k = s.vm k) : Recorded R s' := by
  refine ⟨?_, fun c hc => ?_⟩
  · rw [hclasses]
    exact (List.nodup_cons.mp (ht.nodup h.nodup)).2
  · rw [hclasses] at hc
    exact h.others ht hcache hvm hc

end Recorded

/-! ## Starting up and shutting down -/

/-- A start leaves everything but the flag alone. -/
theorem endState_init (a : InitAnswers) (s : Registry) :
    endState (jni2hookInit a) s = s ∨ endState (jni2hookInit a) s = { s with initialized := true } := by
  have hafter : ∀ P : Registry → Prop, P s → P { s with initialized := true } → P (endState (jni2hookInit a) s) := by
    intro P hs hready
    apply After.endState
    unfold jni2hookInit
    simp only [after_bind, after_get, after_ite, after_throw, after_pure, after_modify]
    simp [hs, hready]
  exact hafter (fun s' => s' = s ∨ s' = { s with initialized := true }) (.inl rfl) (.inr rfl)

/-- The loop over the records always comes to an end. It touches no other class, and when it reports no failure every
class of it is back at its cached bytes. -/
theorem restoreClasses_spec (env : Environment) (answers : JClass → ReapplyAnswers) (cs : List HookedClass)
    (failure : Option Jni2HookStatus) (s : Registry) :
    After (restoreClasses env answers cs failure) s
      (fun r s' => s'.cache = s.cache ∧ (∀ k, (∀ c ∈ cs, c.klass ≠ k) → s'.vm k = s.vm k) ∧
        (r = none → failure = none ∧ ∀ c ∈ cs, s.cachedBytes c.klass = some (s'.vm c.klass)))
      (fun _ _ => False) := by
  induction cs generalizing failure s with
  | nil => simp [restoreClasses]
  | cons c cs ih =>
    unfold restoreClasses
    simp only [after_bind, after_tryCatch, after_modify, after_pure]
    -- Whatever comes of the head, the loop goes on from a state with the same cache.
    have hrest : ∀ s₁ : Registry, ∀ restored : Option Jni2HookStatus, s₁.cache = s.cache →
        (∀ k, k ≠ c.klass → s₁.vm k = s.vm k) →
        (restored = none → s.cachedBytes c.klass = some (s₁.vm c.klass)) →
        After (restoreClasses env answers cs (failure <|> restored)) { s₁ with classes := cs.reverse }
          (fun r s' => s'.cache = s.cache ∧ (∀ k, (∀ c' ∈ c :: cs, c'.klass ≠ k) → s'.vm k = s.vm k) ∧
            (r = none → failure = none ∧ ∀ c' ∈ c :: cs, s.cachedBytes c'.klass = some (s'.vm c'.klass)))
          (fun _ _ => False) := by
      intro s₁ restored hcache hvm hhead
      refine (ih (failure <|> restored) { s₁ with classes := cs.reverse }).mono ?_ (fun _ _ h => h)
      rintro r s' ⟨hcache', hvm', hnone⟩
      have hbytes : ∀ k, ({ s₁ with classes := cs.reverse } : Registry).cachedBytes k = s.cachedBytes k := by
        intro k
        unfold Registry.cachedBytes
        rw [hcache]
      refine ⟨hcache'.trans hcache, fun k hk => ?_, fun hr => ?_⟩
      · rw [hvm' k (fun c' hc' => hk c' (List.mem_cons_of_mem c hc'))]
        exact hvm k (hk c List.mem_cons_self).symm
      · obtain ⟨hfailure, htail⟩ := hnone hr
        have hparts : failure = none ∧ restored = none := by
          cases failure <;> simp_all
        refine ⟨hparts.1, fun c' hc' => ?_⟩
        by_cases hin : ∃ c'' ∈ cs, c''.klass = c'.klass
        · obtain ⟨c'', hc'', heq⟩ := hin
          have := htail c'' hc''
          rw [heq, hbytes] at this
          exact this
        · have hne : c' = c := by
            rcases List.mem_cons.mp hc' with rfl | hc'
            · rfl
            · exact absurd ⟨c', hc', rfl⟩ hin
          subst hne
          rw [hvm' c'.klass (fun c'' hc'' heq => hin ⟨c'', hc'', heq⟩)]
          exact hhead hparts.2
    unfold After
    rcases reapply_cases env s c.klass [] (answers c.klass) with ⟨d, haccept, hrun⟩ | ⟨-, e, hrun⟩
    · rw [hrun]
      obtain ⟨-, -, -, original, hcached, hd⟩ := haccept
      have hdef : original = d := by simpa [ReapplyAnswers.definition] using hd
      subst hdef
      exact hrest (s.redefine c.klass original) none rfl (fun k hk => redefine_vm_of_ne s original hk)
        (fun _ => by simpa using hcached)
    · rw [hrun]
      exact hrest s (some e) rfl (fun _ _ => rfl) (fun h => by cases h)

end Jni2Hook
