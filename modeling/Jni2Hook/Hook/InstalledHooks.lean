import Jni2Hook.Hook.RebuiltExecution
import Jni2Hook.Hook.Redefinition
import Mathlib.Data.Multiset.Filter

/-!
# The hooks that are in place

What the interface promises: a table of the hooks that were asked for and not taken out again. Only what the calls
return moves it.

* `HookTable`: the table, its steps, and the calls it turns down.
* `registry_refines_table`: the registry keeps this table, whatever the VM and the allocator answer.
* `live_methods_run`: the methods that are live run with the hooks of the table.
-/

namespace Jni2Hook

open Lib

/-! ## The table -/

/-- What a call asks for, and by what `JNI2Hook_UninstallAt` finds it again. -/
structure HookRequest where
  method : JMethodId
  bytecodeOffset : UInt32
  nativeFunction : NativeFunction
  kind : HookKind
  deriving DecidableEq, Repr

def HookEntry.request (h : HookEntry) : HookRequest := ⟨h.method, h.bytecodeOffset, h.nativeFunction, h.kind⟩

/-- The hooks in place, which have no order. -/
structure HookTable where
  initialized : Bool
  requests : Multiset HookRequest

/-- The hook a call puts in place. -/
def RegistryEvent.adds : RegistryEvent → Option HookRequest
  | .install (some method) (some nativeFunction) _ => some ⟨method, 0, nativeFunction, .makeNative⟩
  | .installAt (some method) bytecodeOffset (some nativeFunction) _ =>
    some ⟨method, bytecodeOffset, nativeFunction, .insertCall⟩
  | _ => none

/-- The hooks a call takes out. -/
def RegistryEvent.removes : RegistryEvent → HookRequest → Bool
  | .uninstall method _, r => some r.method == method
  | .uninstallAt (some method) bytecodeOffset (some nativeFunction) _, r =>
    r == ⟨method, bytecodeOffset, nativeFunction, .insertCall⟩
  | _, _ => false

/-- A call and whether it returned OK. A shutdown forgets every hook even when it reports a failure. -/
def HookTable.step (T : HookTable) : RegistryEvent × Bool → HookTable
  | (.shutdown _ _, _) => ⟨false, 0⟩
  | (_, false) => T
  | (.init _, true) => { T with initialized := true }
  | (e, true) => { T with requests := Multiset.ofList e.adds.toList + T.requests.filter (e.removes · = false) }

/-- A replacement stands alone. -/
def HookTable.Conflicts (T : HookTable) (r : HookRequest) : Prop :=
  ∃ r' ∈ T.requests, r'.method = r.method ∧ (r.kind = .makeNative ∨ r'.kind = .makeNative)

/-- The environment a call finds. -/
def RegistryEvent.environment : RegistryEvent → Environment
  | .init _ => ⟨true, true⟩
  | .install _ _ a | .installAt _ _ _ a => a.env
  | .uninstall _ a | .uninstallAt _ _ _ a => a.env
  | .redefineClass _ _ env _ | .shutdown env _ => env

/-- The calls that the table turns down, with what they return. -/
inductive HookTable.Refuses (T : HookTable) : RegistryEvent → Jni2HookStatus → Prop
  | idle {e : RegistryEvent} {r : HookRequest} (hidle : T.initialized = false)
      (he : e.adds = some r ∨ e.removes r = true) :
      T.Refuses e .notInitialized
  | conflict {e : RegistryEvent} {r : HookRequest} (hready : T.initialized = true) (henv : e.environment = ⟨true, true⟩)
      (he : e.adds = some r) (hconflict : T.Conflicts r) : T.Refuses e .alreadyHooked
  | missing {e : RegistryEvent} (hready : T.initialized = true) (he : e.isUninstall = true)
      (hmissing : ∀ r ∈ T.requests, e.removes r = false) : T.Refuses e .notHooked

section HookTable

variable {T : HookTable} {e : RegistryEvent}

theorem HookTable.step_failed (he : ∀ env answers, e ≠ .shutdown env answers) : T.step (e, false) = T := by
  cases e with
  | shutdown env answers => exact absurd rfl (he env answers)
  | _ => rfl

theorem HookTable.step_adds {r : HookRequest} (he : e.adds = some r) :
    T.step (e, true) = { T with requests := r ::ₘ T.requests } := by
  have hkeeps : ∀ r', e.removes r' = false := by
    cases e with
    | uninstall method a => cases he
    | uninstallAt method bytecodeOffset nativeFunction a => cases he
    | _ => exact fun _ => rfl
  have hstep : T.step (e, true) =
      { T with requests := Multiset.ofList e.adds.toList + T.requests.filter (e.removes · = false) } := by
    cases e with
    | init a => cases he
    | shutdown env answers => cases he
    | _ => rfl
  rw [hstep, he, Multiset.filter_eq_self.mpr fun r' _ => hkeeps r']
  exact congrArg (HookTable.mk T.initialized) (Multiset.singleton_add r T.requests)

theorem HookTable.step_removes (he : e.isUninstall = true) :
    T.step (e, true) = { T with requests := T.requests.filter (e.removes · = false) } := by
  have hstep : T.step (e, true) =
      { T with requests := Multiset.ofList e.adds.toList + T.requests.filter (e.removes · = false) } := by
    cases e with
    | init a => cases he
    | shutdown env answers => cases he
    | _ => rfl
  have hadds : e.adds = none := by
    cases e with
    | install method nativeFunction a => cases he
    | installAt method bytecodeOffset nativeFunction a => cases he
    | _ => rfl
  rw [hstep, hadds]
  exact congrArg (HookTable.mk T.initialized) (Multiset.zero_add _)

end HookTable

/-- The table that the registry keeps. -/
def Registry.table (s : Registry) : HookTable := ⟨s.initialized, Multiset.ofList (s.hooks.map HookEntry.request)⟩

/-! ## The registry -/

/-- The VM always names the same class as the one that declares a method. -/
def DeclaresIn (declaringOf : JMethodId → JClass) (_ : Registry) : RegistryEvent → Prop
  | .install (some method) _ a | .installAt (some method) _ _ a => ∀ klass, a.declaring = some klass →
      klass = declaringOf method
  | _ => True

/-- Every hook stands in the one record of the class that declares its method. -/
structure Placed (declaringOf : JMethodId → JClass) (s : Registry) : Prop where
  nodup : (s.classes.map (·.klass)).Nodup
  declared : ∀ c ∈ s.classes, ∀ h ∈ c.hooks, declaringOf h.method = c.klass ∧ h.NamedByInstall
  idle : s.initialized = false → s.classes = []

section Placed

variable {declaringOf : JMethodId → JClass} {s s' : Registry} {t : Target} {hooks : List HookEntry}

/-- A call has touched no record. -/
structure Unchanged (s s' : Registry) : Prop where
  classes : s'.classes = s.classes
  initialized : s'.initialized = s.initialized

theorem Captures.unchanged (h : Captures s s') : Unchanged s s' := ⟨h.classes, h.initialized⟩

/-- A call has put other hooks into the record of one class; a record without a hook may be dropped. -/
structure Puts (s s' : Registry) (t : Target) (hooks : List HookEntry) : Prop where
  opens : s.Opens t
  ready : s.initialized = true
  initialized : s'.initialized = s.initialized
  classes : s'.classes = t.withHooks hooks ∨ hooks = [] ∧ s'.classes = t.dropped

theorem Unchanged.table_eq (h : Unchanged s s') : s'.table = s.table := by
  unfold Registry.table Registry.hooks
  rw [h.classes, h.initialized]

theorem Placed.unchanged (h : Placed declaringOf s) (hsame : Unchanged s s') : Placed declaringOf s' := by
  obtain ⟨hclasses, hinit⟩ := hsame
  refine ⟨?_, ?_, ?_⟩
  · rw [hclasses]
    exact h.nodup
  · rw [hclasses]
    exact h.declared
  · rw [hclasses, hinit]
    exact h.idle

theorem Puts.hooks_perm (h : Puts s s' t hooks) : s'.hooks.Perm (hooks ++ t.others.flatMap (·.hooks)) := by
  unfold Registry.hooks
  rcases h.classes with hclasses | ⟨hnil, hclasses⟩
  · rw [hclasses]
    exact hooks_withHooks_perm t hooks
  · rw [hclasses, hnil]
    exact List.Perm.refl _

theorem Puts.table_eq (h : Puts s s' t hooks) : s'.table =
    ⟨true, Multiset.ofList (hooks.map HookEntry.request) +
      Multiset.ofList ((t.others.flatMap (·.hooks)).map HookEntry.request)⟩ := by
  rw [Registry.table, h.initialized, h.ready, Multiset.coe_add, ← List.map_append,
    Multiset.coe_eq_coe.mpr (h.hooks_perm.map HookEntry.request)]

theorem Registry.Opens.table_eq (h : s.Opens t) (hready : s.initialized = true) : s.table =
    ⟨true, Multiset.ofList (t.record.hooks.map HookEntry.request) +
      Multiset.ofList ((t.others.flatMap (·.hooks)).map HookEntry.request)⟩ := by
  rw [Registry.table, hready, Multiset.coe_add, ← List.map_append,
    Multiset.coe_eq_coe.mpr (h.hooks_perm.map HookEntry.request)]

/-- A call that puts back the hooks that were there, in any order. -/
theorem Puts.table_same (h : Puts s s' t hooks) (hperm : hooks.Perm t.record.hooks) : s'.table = s.table := by
  rw [h.table_eq, h.opens.table_eq h.ready, Multiset.coe_eq_coe.mpr (hperm.map HookEntry.request)]

theorem Placed.record (h : Placed declaringOf s) (ht : s.Opens t) :
    ∀ x ∈ t.record.hooks, declaringOf x.method = t.record.klass ∧ x.NamedByInstall := by
  rcases ht with hclasses | ⟨-, -, -, hempty⟩
  · exact h.declared t.record (by simp [hclasses])
  · simp [hempty]

theorem Placed.puts (h : Placed declaringOf s) (hput : Puts s s' t hooks)
    (hhooks : ∀ x ∈ hooks, declaringOf x.method = t.record.klass ∧ x.NamedByInstall) : Placed declaringOf s' := by
  have hothers : ∀ c ∈ t.others, ∀ x ∈ c.hooks, declaringOf x.method = c.klass ∧ x.NamedByInstall := fun c hc =>
    h.declared c (hput.opens.others h.nodup c hc).1
  refine ⟨?_, fun c hc => ?_, fun hidle => ?_⟩
  · rcases hput.classes with hclasses | ⟨-, hclasses⟩ <;> rw [hclasses]
    · exact nodup_withHooks hooks (hput.opens.nodup h.nodup)
    · exact (List.nodup_cons.mp (hput.opens.nodup h.nodup)).2
  · rcases hput.classes with hclasses | ⟨-, hclasses⟩ <;> rw [hclasses] at hc
    · rcases mem_withHooks hc with rfl | hc
      · exact hhooks
      · exact hothers c hc
    · exact hothers c hc
  · rw [hput.initialized, hput.ready] at hidle
    cases hidle

/-- The hooks of one class are those that are put into its record. -/
theorem Placed.not_method (h : Placed declaringOf s) (ht : s.Opens t) {method : JMethodId}
    (hmethod : declaringOf method = t.record.klass) : ∀ x ∈ t.others.flatMap (·.hooks), x.method ≠ method := by
  rintro x hx rfl
  obtain ⟨c, hc, hmem⟩ := List.mem_flatMap.mp hx
  obtain ⟨hin, hne⟩ := ht.others h.nodup c hc
  exact hne ((h.declared c hin x hmem).1.symm.trans hmethod)

end Placed

/-! ## Installing -/

section Install

variable {declaringOf : JMethodId → JClass} {s s' : Registry} {method : JMethodId} {bytecodeOffset : UInt32}
  {nativeFunction : NativeFunction} {kind : HookKind} {a : InstallAnswers} {e : Jni2HookStatus}

theorem describeHook_request (method : JMethodId) (bytecodeOffset : UInt32) (nativeFunction : NativeFunction)
    (kind : HookKind) (a : InstallAnswers) (s : Registry) :
    After (describeHook method bytecodeOffset nativeFunction kind a) s
      (fun r _ => r.2.request = ⟨method, bytecodeOffset, nativeFunction, kind⟩) (fun _ _ => True) := by
  unfold describeHook
  cases a.declaring with
  | none => simp
  | some declaring =>
    cases a.className
    · simp
    cases a.methodName with
    | none => simp
    | some described =>
      cases a.strings
      · simp
      simp only [after_bind, Bool.true_eq_false, if_false]
      refine (addedName_spec kind _ a.addedName s).mono (fun added s₁ _ => ?_) fun _ _ _ => trivial
      cases a.modifiers with
      | none => simp
      | some modifiers =>
        simp only [after_bind, after_pure]
        exact (classCacheEnsure_spec declaring a.capture s₁).mono (fun _ _ _ => rfl) fun _ _ _ => trivial

/-- An install that fails leaves the hooks of every class. -/
theorem install_error_puts {method : Option JMethodId} {nativeFunction : Option NativeFunction}
    (h : install method bytecodeOffset nativeFunction kind a s = .error e s') :
    Unchanged s s' ∨ ∃ t, Puts s s' t t.record.hooks := by
  have hout := install_outcome method bytecodeOffset nativeFunction kind a s
  rw [h] at hout
  have hopens : ∀ {s₁ t}, Captures s s₁ → s₁.Opens t → s.Opens t := by
    intro s₁ t hcap ht
    unfold Registry.Opens at ht ⊢
    rw [← hcap.classes]
    exact ht
  cases hout with
  | refused hcap => exact .inl hcap.unchanged
  | @emptyRecord s₁ klass hcap hinit hdecl hnew hcached harray =>
    have hat : s₁.Opens ⟨s₁.classes, ⟨klass, []⟩, []⟩ := .inr ⟨hnew, rfl, rfl, rfl⟩
    exact .inr ⟨_, hopens hcap hat, hinit, hcap.initialized, .inl rfl⟩
  | @refusedFirst s₁ t entry _ hstage hfirst =>
    exact .inr ⟨t, hopens hstage.captures hstage.opens, hstage.initialized, hstage.captures.initialized,
      .inr ⟨hfirst, rfl⟩⟩
  | @unboundFirst s₁ t entry _ d hstage hfirst haccept hunbound =>
    exact .inr ⟨t, hopens hstage.captures hstage.opens, hstage.initialized, hstage.captures.initialized,
      .inr ⟨hfirst, rfl⟩⟩
  | @rolledBack s₁ s₂ t entry _ hstage hmore hbefore =>
    have hclasses : s₂.classes = t.withHooks t.record.hooks ∧ s₂.initialized = s.initialized := by
      cases hbefore <;> exact ⟨rfl, hstage.captures.initialized⟩
    refine .inr ⟨t, hopens hstage.captures hstage.opens, hstage.initialized, ?_, .inl ?_⟩
    · rcases endState_reapply a.env s₂ t.record.klass t.record.hooks a.rollback with ⟨d, -, hend⟩ | ⟨-, hend⟩ <;>
        rw [hend] <;> exact hclasses.2
    · rcases endState_reapply a.env s₂ t.record.klass t.record.hooks a.rollback with ⟨d, -, hend⟩ | ⟨-, hend⟩ <;>
        rw [hend] <;> exact hclasses.1

theorem applyHook_ok {t : Target} {entry : HookEntry} (h : applyHook t entry a s = .ok () s') :
    s'.classes = t.withHooks (t.record.hooks ++ [entry]) ∧ s'.initialized = s.initialized := by
  unfold applyHook at h
  cases harray : a.hooksArray with
  | false => simp [harray, run_bind] at h
  | true =>
    simp only [harray, Bool.true_eq_false, if_false, run_bind, run_modify, run_tryCatch] at h
    rcases reapply_cases a.env { s with classes := t.withHooks (t.record.hooks ++ [entry]) } t.record.klass
      (t.record.hooks ++ [entry]) a.apply with ⟨d, -, hrun⟩ | ⟨-, e, hrun⟩
    · by_cases hbound : (t.record.hooks ++ [entry]).all a.apply.bound = true
      · rw [hrun, if_pos hbound] at h
        cases h
        exact ⟨rfl, rfl⟩
      · simp only [hrun, if_neg hbound, undoHook_run, run_throw] at h
        cases h
    · simp only [hrun, undoHook_run, run_throw] at h
      cases h

/-- An install that returns OK appends the hook to the record of its class. -/
theorem install_ok_puts (h : install (some method) bytecodeOffset (some nativeFunction) kind a s = .ok () s') :
    ∃ t entry, Puts s s' t (t.record.hooks ++ [entry]) ∧ a.declaring = some t.record.klass ∧
      entry.request = ⟨method, bytecodeOffset, nativeFunction, kind⟩ ∧ entry.NamedByInstall := by
  unfold install at h
  simp only [run_bind, run_get] at h
  cases hinit : s.initialized
  · rw [hinit] at h
    cases h
  cases hjvmti : a.env.jvmti
  · rw [hinit, hjvmti] at h
    cases h
  cases hjni : a.env.jni
  · rw [hinit, hjvmti, hjni] at h
    cases h
  simp only [hinit, hjvmti, hjni, Bool.true_eq_false, if_false, run_bind, run_get] at h
  by_cases hconflict : s.methodConflicts method kind = true
  · rw [if_pos hconflict] at h
    cases h
  simp only [if_neg hconflict, run_bind] at h
  cases hd : describeHook method bytecodeOffset nativeFunction kind a s with
  | error e s₁ =>
    rw [hd] at h
    cases h
  | ok r s₁ =>
    obtain ⟨klass, entry⟩ := r
    rw [hd] at h
    have hdesc : Described s s₁ method kind a klass entry :=
      (describeHook_spec method bytecodeOffset _ kind a s).of_ok hd
    have hrequest := (describeHook_request method bytecodeOffset nativeFunction kind a s).of_ok hd
    have hnamed := (describeHook_named method bytecodeOffset nativeFunction kind a s).of_ok hd
    -- the record was there or is new, and the hook goes behind the others of it
    have hopened : ∃ t s₂, openRecord klass a.record s₁ = .ok t s₂ ∧ t.record.klass = klass ∧ s.Opens t ∧
        s₂.initialized = s.initialized := by
      rcases openRecord_run klass a.record s₁ with ⟨t, hklass, hclasses, hopen⟩ | ⟨hnew, hopen⟩
      · refine ⟨t, s₁, hopen, hklass, .inl ?_, hdesc.captures.initialized⟩
        rw [← hdesc.captures.classes]
        exact hclasses
      · cases hrecord : a.record with
        | false =>
          rw [hrecord] at hopen
          simp [hrecord, hopen] at h
        | true =>
          rw [hrecord] at hopen
          refine ⟨_, _, hopen, rfl, .inr ⟨?_, hdesc.captures.classes, rfl, rfl⟩, hdesc.captures.initialized⟩
          rw [← hdesc.captures.classes]
          exact hnew
    obtain ⟨t, s₂, hopen, rfl, hat, hready⟩ := hopened
    simp only [hopen] at h
    obtain ⟨hclasses, hsame⟩ := applyHook_ok h
    exact ⟨t, entry, ⟨hat, hinit, hsame.trans hready, .inl hclasses⟩, hdesc.declaring, hrequest, hnamed⟩

end Install

/-! ## Uninstalling -/

section Uninstall

variable {declaringOf : JMethodId → JClass} {s s' : Registry} {method : Option JMethodId} {matches_ : HookEntry → Bool}
  {a : UninstallAnswers} {e : Jni2HookStatus} {t : Target} {kept aside : List HookEntry}

theorem Matched.opens (h : Matched s method matches_ t kept aside) : s.Opens t := .inl h.classes

/-- A registry with a record is initialized. -/
theorem Matched.ready (h : Matched s method matches_ t kept aside) (hplaced : Placed declaringOf s) :
    s.initialized = true := by
  by_contra hidle
  have hmem := h.record_mem
  rw [hplaced.idle (by simpa using hidle)] at hmem
  cases hmem

theorem uninstall_error_puts (hplaced : Placed declaringOf s)
    (h : uninstallMatching method matches_ a s = .error e s') :
    Unchanged s s' ∨ ∃ t hooks, Puts s s' t hooks ∧ hooks.Perm t.record.hooks := by
  have hout := uninstall_outcome method matches_ a s
  rw [h] at hout
  cases hout with
  | refused => exact .inl ⟨rfl, rfl⟩
  | rejected hmatch hnot => exact .inr ⟨_, _, ⟨hmatch.opens, hmatch.ready hplaced, rfl, .inl rfl⟩, hmatch.perm⟩
  | unbound hmatch haccept hunbound => exact .inr ⟨_, _,
      ⟨hmatch.opens, hmatch.ready hplaced, rfl, .inl rfl⟩, hmatch.perm⟩

theorem uninstall_ok_puts (hplaced : Placed declaringOf s) (h : uninstallMatching method matches_ a s = .ok () s') :
    ∃ t, s.findClassOfMethod method = some t ∧ Puts s s' t (t.record.hooks.filter fun x => !matches_ x) := by
  have hout := uninstall_outcome method matches_ a s
  rw [h] at hout
  cases hout with
  | @uninstalled t kept aside d hmatch haccept =>
    refine ⟨t, hmatch.found, hmatch.opens, hmatch.ready hplaced, rfl, ?_⟩
    rw [← hmatch.kept_eq]
    by_cases hempty : kept = []
    · exact .inr ⟨hempty, by simp [hempty]⟩
    · exact .inl (by simp [hempty])

/-- The matches of an uninstall are all in the record it finds. -/
theorem Placed.others_not_matched (h : Placed declaringOf s) (hfound : s.findClassOfMethod method = some t)
    (hmethod : ∀ x, matches_ x = true → some x.method = method) :
    ∀ x ∈ t.others.flatMap (·.hooks), matches_ x = false := by
  obtain ⟨hclasses, hany⟩ := findTarget_some hfound
  obtain ⟨entry, hentry, heq⟩ := List.any_eq_true.mp hany
  have hopens : s.Opens t := .inl hclasses
  intro x hx
  by_contra hmatch
  have hsame := hmethod x (by simpa using hmatch)
  rw [← beq_iff_eq.mp heq, Option.some.injEq] at hsame
  exact h.not_method hopens (h.record hopens entry hentry).1 x hx hsame

theorem Puts.table_removed {removes : HookRequest → Bool}
    (hput : Puts s s' t (t.record.hooks.filter fun x => !matches_ x)) (hmatches : ∀ x, matches_ x = removes x.request)
    (hothers : ∀ x ∈ t.others.flatMap (·.hooks), matches_ x = false) :
    s'.table = { s.table with requests := s.table.requests.filter (removes · = false) } := by
  have hrecord : (t.record.hooks.filter fun x => !matches_ x).map HookEntry.request =
      (t.record.hooks.map HookEntry.request).filter (removes · = false) := by
    rw [List.filter_map]
    congr 1
    refine List.filter_congr fun x _ => ?_
    rw [Function.comp, ← hmatches x]
    cases matches_ x <;> rfl
  have hrest : ((t.others.flatMap (·.hooks)).map HookEntry.request).filter (removes · = false) =
      (t.others.flatMap (·.hooks)).map HookEntry.request := by
    refine List.filter_eq_self.mpr fun r hr => ?_
    obtain ⟨x, hx, rfl⟩ := List.mem_map.mp hr
    rw [← hmatches x, hothers x hx]
    rfl
  rw [hput.table_eq, hput.opens.table_eq hput.ready]
  simp only [Multiset.filter_add, Multiset.filter_coe, hrecord, hrest]

end Uninstall

/-! ## One call -/

section Step

variable {declaringOf : JMethodId → JClass} {s s' : Registry} {e : RegistryEvent} {status : Jni2HookStatus}

theorem step_of_ok (h : e.call s = .ok () s') : registryStep s e = s' ∧ returnsOk s e = true := by
  constructor
  · rw [registryStep, endState, h]
  · rw [returnsOk, h]

theorem step_of_error (h : e.call s = .error status s') : registryStep s e = s' ∧ returnsOk s e = false := by
  constructor
  · rw [registryStep, endState, h]
  · rw [returnsOk, h]

/-- What a step has to show: the records stay in their places, and the table has moved. -/
def StepsTable (declaringOf : JMethodId → JClass) (s : Registry) (e : RegistryEvent) : Prop :=
  Placed declaringOf (registryStep s e) ∧ (registryStep s e).table = s.table.step (e, returnsOk s e)

theorem stepsTable_failed (h : Placed declaringOf s) (he : ∀ env answers, e ≠ .shutdown env answers)
    (hrun : e.call s = .error status s')
    (hputs : Unchanged s s' ∨ ∃ t hooks, Puts s s' t hooks ∧ hooks.Perm t.record.hooks) :
    StepsTable declaringOf s e := by
  obtain ⟨hstep, hok⟩ := step_of_error hrun
  rw [StepsTable, hstep, hok, HookTable.step_failed he]
  rcases hputs with hsame | ⟨t, hooks, hput, hperm⟩
  · exact ⟨h.unchanged hsame, hsame.table_eq⟩
  · exact ⟨h.puts hput fun x hx => h.record hput.opens x (hperm.mem_iff.mp hx), hput.table_same hperm⟩

theorem stepsTable_null (h : Placed declaringOf s) (he : ∀ env answers, e ≠ .shutdown env answers)
    (hrun : e.call s = .error status s) : StepsTable declaringOf s e := stepsTable_failed h he hrun (.inl ⟨rfl, rfl⟩)

/-- An install, of either kind. -/
theorem stepsTable_install (h : Placed declaringOf s) {method : JMethodId} {bytecodeOffset : UInt32}
    {nativeFunction : NativeFunction} {kind : HookKind} {a : InstallAnswers}
    (hcall : e.call = install (some method) bytecodeOffset (some nativeFunction) kind a)
    (hadds : e.adds = some ⟨method, bytecodeOffset, nativeFunction, kind⟩)
    (he : ∀ env answers, e ≠ .shutdown env answers)
    (hdeclares : ∀ klass, a.declaring = some klass → klass = declaringOf method) :
    StepsTable declaringOf s e := by
  cases hrun : e.call s with
  | error status s' =>
    refine stepsTable_failed h he hrun ?_
    rw [hcall] at hrun
    exact (install_error_puts hrun).imp id fun ⟨t, hput⟩ => ⟨t, _, hput, List.Perm.refl _⟩
  | ok u s' =>
    obtain ⟨hstep, hok⟩ := step_of_ok hrun
    rw [hcall] at hrun
    obtain ⟨t, entry, hput, hdecl, hrequest, hnamed⟩ := install_ok_puts hrun
    rw [StepsTable, hstep, hok, HookTable.step_adds hadds]
    constructor
    · refine h.puts hput fun x hx => ?_
      rcases List.mem_append.mp hx with hx | hx
      · exact h.record hput.opens x hx
      · obtain rfl := List.mem_singleton.mp hx
        have hmethod : x.method = method := congrArg HookRequest.method hrequest
        rw [hmethod]
        exact ⟨(hdeclares _ hdecl).symm, hnamed⟩
    · rw [hput.table_eq, hput.opens.table_eq hput.ready, ← hrequest, List.map_append, ← Multiset.coe_add,
        add_right_comm, add_comm, ← Multiset.singleton_add]
      rfl

/-- An uninstall, of either kind. -/
theorem stepsTable_uninstall (h : Placed declaringOf s) {method : Option JMethodId} {matches_ : HookEntry → Bool}
    {a : UninstallAnswers} (hcall : e.call = uninstallMatching method matches_ a)
    (huninstall : e.isUninstall = true)
    (he : ∀ env answers, e ≠ .shutdown env answers) (hmatches : ∀ x, matches_ x = e.removes x.request)
    (hmethod : ∀ x, matches_ x = true → some x.method = method) : StepsTable declaringOf s e := by
  cases hrun : e.call s with
  | error status s' =>
    refine stepsTable_failed h he hrun ?_
    rw [hcall] at hrun
    exact uninstall_error_puts h hrun
  | ok u s' =>
    obtain ⟨hstep, hok⟩ := step_of_ok hrun
    rw [hcall] at hrun
    obtain ⟨t, hfound, hput⟩ := uninstall_ok_puts h hrun
    rw [StepsTable, hstep, hok, HookTable.step_removes huninstall]
    exact ⟨h.puts hput fun x hx => h.record hput.opens x (List.mem_of_mem_filter hx),
      hput.table_removed hmatches (h.others_not_matched hfound hmethod)⟩

theorem matchesMethod_request (method : Option JMethodId) (a : UninstallAnswers) (x : HookEntry) :
    matchesMethod method x = (RegistryEvent.uninstall method a).removes x.request := rfl

theorem matchesInsert_request (method : JMethodId) (bytecodeOffset : UInt32) (nativeFunction : NativeFunction)
    (a : UninstallAnswers) (x : HookEntry) : matchesInsert method bytecodeOffset nativeFunction x =
      (RegistryEvent.uninstallAt (some method) bytecodeOffset (some nativeFunction) a).removes x.request := by
  rw [Bool.eq_iff_iff]
  simp only [matchesInsert, RegistryEvent.removes, HookEntry.request, Bool.and_eq_true, beq_iff_eq,
    HookRequest.mk.injEq]
  tauto

theorem unchanged_redefineClass (klass : Option JClass) (bytes : Option Bytes) (env : Environment) (redefined : Bool)
    (s : Registry) : Unchanged s (endState (jni2hookRedefineClass klass bytes env redefined) s) := by
  apply After.endState
  unfold jni2hookRedefineClass
  have hsame : Unchanged s s := ⟨rfl, rfl⟩
  cases klass with
  | none => simpa using hsame
  | some k =>
    cases bytes with
    | none => simpa using hsame
    | some bytes =>
      have hredefined : Unchanged s (s.redefine k bytes) := ⟨rfl, rfl⟩
      simp only [after_bind, after_get, after_ite, after_throw, after_modify]
      simp [hsame, hredefined]

theorem jni2hookInit_after (a : InitAnswers) (s : Registry) :
    After (jni2hookInit a) s (fun _ s' => s' = { s with initialized := true }) (fun _ s' => s' = s) := by
  unfold jni2hookInit
  simp only [after_bind, after_get, after_ite, after_throw, after_pure, after_modify]
  cases hinit : s.initialized with
  | false => simp
  | true =>
    have hsame : s = { s with initialized := true } := by
      cases s
      cases hinit
      rfl
    simpa using hsame

theorem jni2hookShutdown_after (env : Environment) (answers : JClass → ReapplyAnswers) (s : Registry) :
    After (jni2hookShutdown env answers) s
      (fun _ s' => s.initialized = false ∧ s' = s ∨ s'.classes = [] ∧ s'.initialized = false)
      (fun _ s' => s'.classes = [] ∧ s'.initialized = false) := by
  unfold jni2hookShutdown
  simp only [after_bind, after_get, after_ite, after_pure]
  refine ⟨fun _ => ?_, fun hidle => .inl (by simpa using hidle)⟩
  refine (restoreClasses_spec env answers s.classes.reverse none s).mono ?_ (fun _ _ hfalse => hfalse.elim)
  intro failure s₁ _
  cases failure <;> simp

/-- **One call moves the records as it moves the table.** -/
theorem stepsTable (h : Placed declaringOf s) (e : RegistryEvent) (hdeclares : DeclaresIn declaringOf s e) :
    StepsTable declaringOf s e := by
  cases e with
  | init a =>
    have hafter := jni2hookInit_after a s
    cases hrun : (RegistryEvent.init a).call s with
    | error status s' =>
      obtain rfl := hafter.of_error hrun
      exact stepsTable_failed h (fun _ _ => nofun) hrun (.inl ⟨rfl, rfl⟩)
    | ok u s' =>
      obtain rfl := hafter.of_ok hrun
      obtain ⟨hstep, hok⟩ := step_of_ok hrun
      rw [StepsTable, hstep, hok]
      exact ⟨⟨h.nodup, h.declared, fun hidle => nomatch hidle⟩, rfl⟩
  | install method nativeFunction a =>
    rcases method with _ | method
    · exact stepsTable_null h (fun _ _ => nofun) rfl
    rcases nativeFunction with _ | nativeFunction
    · exact stepsTable_null h (fun _ _ => nofun) rfl
    exact stepsTable_install h rfl rfl (fun _ _ => nofun) hdeclares
  | installAt method bytecodeOffset nativeFunction a =>
    rcases method with _ | method
    · exact stepsTable_null h (fun _ _ => nofun) rfl
    rcases nativeFunction with _ | nativeFunction
    · exact stepsTable_null h (fun _ _ => nofun) rfl
    exact stepsTable_install h rfl rfl (fun _ _ => nofun) hdeclares
  | uninstall method a =>
    exact stepsTable_uninstall h rfl rfl (fun _ _ => nofun)
      (matchesMethod_request method a) fun x hx => beq_iff_eq.mp hx
  | uninstallAt method bytecodeOffset nativeFunction a =>
    rcases method with _ | method
    · exact stepsTable_null h (fun _ _ => nofun) rfl
    rcases nativeFunction with _ | nativeFunction
    · exact stepsTable_null h (fun _ _ => nofun) rfl
    refine stepsTable_uninstall h rfl rfl (fun _ _ => nofun)
      (matchesInsert_request method bytecodeOffset nativeFunction a) fun x hx => ?_
    simp only [matchesInsert, Bool.and_eq_true, beq_iff_eq] at hx
    rw [hx.1.1.2]
  | redefineClass klass bytes env redefined =>
    have hsame : Unchanged s (registryStep s (.redefineClass klass bytes env redefined)) :=
      unchanged_redefineClass klass bytes env redefined s
    have hstep : ∀ T : HookTable, ∀ ok, T.step (.redefineClass klass bytes env redefined, ok) = T := by
      intro T ok
      cases ok with
      | false => rfl
      | true =>
        refine congrArg (HookTable.mk T.initialized) ?_
        exact (Multiset.zero_add _).trans (Multiset.filter_eq_self.mpr fun _ _ => rfl)
    rw [StepsTable, hstep]
    exact ⟨h.unchanged hsame, hsame.table_eq⟩
  | shutdown env answers =>
    have hafter := jni2hookShutdown_after env answers s
    have hend : (registryStep s (.shutdown env answers)).classes = [] ∧
        (registryStep s (.shutdown env answers)).initialized = false := by
      refine (hafter.mono (fun _ s' hs' => ?_) fun _ s' hs' => hs').endState
      rcases hs' with ⟨hidle, rfl⟩ | hs'
      · exact ⟨h.idle hidle, hidle⟩
      · exact hs'
    refine ⟨⟨by simp [hend.1], by simp [hend.1], fun _ => hend.1⟩, ?_⟩
    simp only [Registry.table, Registry.hooks, hend.1, hend.2]
    rfl

end Step

/-! ## Calls that are turned down -/

section Refused

variable {declaringOf : JMethodId → JClass} {s : Registry} {e : RegistryEvent} {status : Jni2HookStatus}

theorem mem_table {r : HookRequest} : r ∈ s.table.requests ↔ ∃ x ∈ s.hooks, x.request = r := by
  rw [Registry.table, Multiset.mem_coe, List.mem_map]

theorem methodConflicts_of_table {r : HookRequest} (h : s.table.Conflicts r) :
    s.methodConflicts r.method r.kind = true := by
  obtain ⟨r', hmem, hmethod, hkind⟩ := h
  obtain ⟨x, hx, rfl⟩ := mem_table.mp hmem
  refine List.any_eq_true.mpr ⟨x, hx, ?_⟩
  have hsame : x.method = r.method := hmethod
  rcases hkind with hkind | hkind
  · simp [hsame, hkind]
  · have hreplaces : x.kind = .makeNative := hkind
    simp [hsame, hreplaces]

theorem install_idle (method : JMethodId) (bytecodeOffset : UInt32) (nativeFunction : NativeFunction) (kind : HookKind)
    (a : InstallAnswers) (hidle : s.initialized = false) :
    install (some method) bytecodeOffset (some nativeFunction) kind a s = .error .notInitialized s := by
  simp [install, run_bind, hidle]

theorem install_conflict (method : JMethodId) (bytecodeOffset : UInt32)
    (nativeFunction : NativeFunction) (kind : HookKind)
    {a : InstallAnswers} (hready : s.initialized = true) (henv : a.env = ⟨true, true⟩)
    (hconflict : s.methodConflicts method kind = true) :
    install (some method) bytecodeOffset (some nativeFunction) kind a s = .error .alreadyHooked s := by
  simp [install, run_bind, hready, henv, hconflict]

theorem uninstall_idle (method : Option JMethodId) (matches_ : HookEntry → Bool) (a : UninstallAnswers)
    (hidle : s.initialized = false) : uninstallMatching method matches_ a s = .error .notInitialized s := by
  simp [uninstallMatching, run_bind, hidle]

theorem uninstall_missing {method : Option JMethodId} {matches_ : HookEntry → Bool} {a : UninstallAnswers}
    (hready : s.initialized = true) (hmissing : ∀ x ∈ s.hooks, matches_ x = false) :
    uninstallMatching method matches_ a s = .error .notHooked s := by
  unfold uninstallMatching
  simp only [run_bind, run_get, hready, Bool.true_eq_false, if_false]
  cases hf : s.findClassOfMethod method with
  | none => rfl
  | some t =>
    have hall : (partitionHooks matches_ [] [] t.record.hooks).1 = t.record.hooks := by
      rw [partitionHooks_kept, List.nil_append]
      refine List.filter_eq_self.mpr fun x hx => ?_
      have hmem : x ∈ s.hooks := by
        refine List.mem_flatMap.mpr ⟨t.record, ?_, hx⟩
        rw [(findTarget_some hf).1]
        simp
      rw [hmissing x hmem]
      rfl
    simp only [hall, if_true, run_bind, run_throw]

theorem call_of_adds {r : HookRequest} (he : e.adds = some r) : ∃ a : InstallAnswers, e.environment = a.env ∧
    e.call = install (some r.method) r.bytecodeOffset (some r.nativeFunction) r.kind a := by
  cases e with
  | install method nativeFunction a =>
    rcases method with _ | method
    · cases he
    rcases nativeFunction with _ | nativeFunction
    · cases he
    cases he
    exact ⟨a, rfl, rfl⟩
  | installAt method bytecodeOffset nativeFunction a =>
    rcases method with _ | method
    · cases he
    rcases nativeFunction with _ | nativeFunction
    · cases he
    cases he
    exact ⟨a, rfl, rfl⟩
  | _ => cases he

/-- An uninstall moves what it removes, or has nothing to look for. -/
theorem call_of_isUninstall (he : e.isUninstall = true) :
    (∃ method matches_ a, e.call = uninstallMatching method matches_ a ∧ ∀ x, matches_ x = e.removes x.request) ∨
      e.call = throw .notHooked ∧ ∀ r, e.removes r = false := by
  cases e with
  | uninstall method a => exact .inl ⟨method, _, a, rfl, matchesMethod_request method a⟩
  | uninstallAt method bytecodeOffset nativeFunction a =>
    rcases method with _ | method
    · exact .inr ⟨rfl, fun _ => rfl⟩
    rcases nativeFunction with _ | nativeFunction
    · exact .inr ⟨rfl, fun _ => rfl⟩
    exact .inl ⟨some method, _, a, rfl, matchesInsert_request method bytecodeOffset nativeFunction a⟩
  | _ => cases he

theorem isUninstall_of_removes {r : HookRequest} (he : e.removes r = true) : e.isUninstall = true := by
  cases e with
  | uninstall method a => rfl
  | uninstallAt method bytecodeOffset nativeFunction a => rfl
  | _ => cases he

/-- A call that the table turns down does nothing. -/
theorem call_of_refuses (h : s.table.Refuses e status) : e.call s = .error status s := by
  cases h with
  | idle hidle he =>
    rcases he with he | he
    · obtain ⟨a, -, hcall⟩ := call_of_adds he
      rw [hcall]
      exact install_idle _ _ _ _ a hidle
    · rcases call_of_isUninstall (isUninstall_of_removes he) with ⟨method, matches_, a, hcall, -⟩ | ⟨-, hnone⟩
      · rw [hcall]
        exact uninstall_idle method matches_ a hidle
      · rw [hnone] at he
        cases he
  | conflict hready henv he hconflict =>
    obtain ⟨a, hsame, hcall⟩ := call_of_adds he
    rw [hcall]
    exact install_conflict _ _ _ _ hready (hsame.symm.trans henv) (methodConflicts_of_table hconflict)
  | missing hready he hmissing =>
    rcases call_of_isUninstall he with ⟨method, matches_, a, hcall, hmatches⟩ | ⟨hcall, -⟩
    · rw [hcall]
      refine uninstall_missing hready fun x hx => ?_
      rw [hmatches]
      exact hmissing _ (mem_table.mpr ⟨x, hx, rfl⟩)
    · rw [hcall]
      rfl

theorem isInstalled_iff (method : JMethodId) : jni2hookIsInstalled s (some method) = true ↔
    s.table.initialized = true ∧ ∃ r ∈ s.table.requests, r.method = method := by
  have hfound : (s.findClassOfMethod (some method)).isSome = true ↔ ∃ x ∈ s.hooks, x.method = method := by
    constructor
    · intro hsome
      obtain ⟨t, ht⟩ := Option.isSome_iff_exists.mp hsome
      obtain ⟨hclasses, hany⟩ := findTarget_some ht
      obtain ⟨x, hx, heq⟩ := List.any_eq_true.mp hany
      refine ⟨x, List.mem_flatMap.mpr ⟨t.record, by simp [hclasses], hx⟩, by simpa using heq⟩
    · rintro ⟨x, hx, rfl⟩
      obtain ⟨c, hc, hmem⟩ := List.mem_flatMap.mp hx
      by_contra hnone
      have hno := findTarget_none (Option.not_isSome_iff_eq_none.mp hnone) c hc
      exact absurd (List.any_eq_false.mp hno x hmem) (by simp)
  rw [jni2hookIsInstalled, Bool.and_eq_true, hfound]
  refine and_congr Iff.rfl ⟨fun ⟨x, hx, hmethod⟩ => ⟨x.request, mem_table.mpr ⟨x, hx, rfl⟩, hmethod⟩, ?_⟩
  rintro ⟨r, hr, hmethod⟩
  obtain ⟨x, hx, rfl⟩ := mem_table.mp hr
  exact ⟨x, hx, hmethod⟩

end Refused

/-! ## Whole runs -/

/-- Nothing started and nothing asked for. -/
def HookTable.start : HookTable := ⟨false, 0⟩

/-- The table after a run, from the calls and whether they returned OK. -/
def tableAfter (loaded : JClass → Bytes) (events : List RegistryEvent) : HookTable :=
  runEvents HookTable.step HookTable.start (loggedEvents registryStep returnsOk (Registry.start loaded) events)

section Runs

variable {loaded : JClass → Bytes} {declaringOf : JMethodId → JClass} {events : List RegistryEvent}

theorem placed_start : Placed declaringOf (Registry.start loaded) :=
  ⟨List.nodup_nil, fun _ hc _ => (nomatch hc), fun _ => rfl⟩

theorem placed_run (hdeclares : AllMeet registryStep (DeclaresIn declaringOf) (Registry.start loaded) events) :
    Placed declaringOf (runEvents registryStep (Registry.start loaded) events) := by
  have hkeep : ∀ s e, Placed declaringOf s → DeclaresIn declaringOf s e → Placed declaringOf (registryStep s e) :=
    fun _ e h hok => (stepsTable h e hok).1
  exact invariant_run hkeep placed_start hdeclares

theorem table_run (hdeclares : AllMeet registryStep (DeclaresIn declaringOf) (Registry.start loaded) events) :
    (runEvents registryStep (Registry.start loaded) events).table = tableAfter loaded events :=
  refines_run (fun _ e h hok => (stepsTable h e hok).1) (fun _ e h hok => (stepsTable h e hok).2) placed_start hdeclares

end Runs

/-- **The registry keeps the hooks that were asked for.** In every run of calls, whatever the VM and the allocator
answer, as long as the VM keeps to one class that declares a method: the recorded hooks are those of the installs that
returned OK and that no uninstall which returned OK has taken out since, nor a shutdown. The calls that this table turns
down are turned down and change nothing, and a method is reported as installed when a hook of it is in the table. -/
theorem registry_refines_table {loaded : JClass → Bytes} {declaringOf : JMethodId → JClass}
    {events : List RegistryEvent}
    {s : Registry} (hs : s = runEvents registryStep (Registry.start loaded) events)
    (hdeclares : AllMeet registryStep (DeclaresIn declaringOf) (Registry.start loaded) events) :
    s.initialized = (tableAfter loaded events).initialized ∧
      Multiset.ofList (s.hooks.map HookEntry.request) = (tableAfter loaded events).requests ∧
      (∀ e status, (tableAfter loaded events).Refuses e status → registryStatus s e = status ∧ registryStep s e = s) ∧
      ∀ method, jni2hookIsInstalled s (some method) = true ↔
        (tableAfter loaded events).initialized = true ∧ ∃ r ∈ (tableAfter loaded events).requests,
          r.method = method := by
  have htable := table_run hdeclares
  rw [← hs] at htable
  rw [← htable]
  refine ⟨rfl, rfl, fun e status hrefuses => ?_, isInstalled_iff⟩
  have hrun := call_of_refuses hrefuses
  refine ⟨?_, (step_of_error hrun).1⟩
  rw [registryStatus, hrun]

/-- Two callbacks at one instruction of method 7, and the first taken out again. -/
def insertsThenUninstall : List RegistryEvent :=
  twoInserts ++ [.uninstallAt (some 7) 0 (some 100) (plainUninstall (plainReapply true))]

theorem returnsOk_insertsThenUninstall :
    (loggedEvents registryStep returnsOk (Registry.start fun _ => plainClassBytes) insertsThenUninstall).map (·.2) =
      [true, true, true, true] := by decide +kernel

theorem tableAfter_insertsThenUninstall :
    tableAfter (fun _ => plainClassBytes) insertsThenUninstall = ⟨true, {⟨7, 0, 101, .insertCall⟩}⟩ := by
  have hall := returnsOk_insertsThenUninstall
  simp only [insertsThenUninstall, twoInserts, List.cons_append, List.nil_append, loggedEvents,
    List.map_cons, List.map_nil, List.cons.injEq, and_true] at hall
  obtain ⟨h₁, h₂, h₃, h₄⟩ := hall
  simp only [tableAfter, insertsThenUninstall, twoInserts, List.cons_append, List.nil_append,
    loggedEvents, h₁, h₂, h₃, h₄]
  rfl

theorem registry_refines_table_two_inserts :
    ∃ s, s = runEvents registryStep (Registry.start fun _ => plainClassBytes) insertsThenUninstall ∧
      Multiset.ofList (s.hooks.map HookEntry.request) = {⟨7, 0, 101, .insertCall⟩} ∧
      jni2hookIsInstalled s (some 7) = true := by
  have hdeclares : AllMeet registryStep (DeclaresIn fun _ => 1) (Registry.start fun _ => plainClassBytes)
      insertsThenUninstall :=
    ⟨trivial, fun _ h => (Option.some.inj h).symm, fun _ h => (Option.some.inj h).symm, trivial, trivial⟩
  obtain ⟨-, hrequests, -, hinstalled⟩ := registry_refines_table rfl hdeclares
  rw [tableAfter_insertsThenUninstall] at hrequests hinstalled
  exact ⟨_, rfl, hrequests, (hinstalled 7).mpr ⟨rfl, _, Multiset.mem_singleton_self _, rfl⟩⟩

/-! ## The live definitions -/

section Live

variable {loaded : JClass → Bytes} {declaringOf : JMethodId → JClass} {s : Registry} {t : Target}

/-- The hooks of the table that belong to a class are those of its record. -/
theorem Placed.requests_of_class (h : Placed declaringOf s) (ht : s.Opens t) :
    s.table.requests.filter (fun r => declaringOf r.method = t.record.klass) =
      Multiset.ofList (t.record.hooks.map HookEntry.request) := by
  have hrecord : (t.record.hooks.map HookEntry.request).filter (fun r => declaringOf r.method = t.record.klass) =
      t.record.hooks.map HookEntry.request := by
    refine List.filter_eq_self.mpr fun r hr => ?_
    obtain ⟨x, hx, rfl⟩ := List.mem_map.mp hr
    exact decide_eq_true (h.record ht x hx).1
  have hrest : ((t.others.flatMap (·.hooks)).map HookEntry.request).filter
      (fun r => declaringOf r.method = t.record.klass) = [] := by
    refine List.filter_eq_nil_iff.mpr fun r hr => ?_
    obtain ⟨x, hx, rfl⟩ := List.mem_map.mp hr
    exact fun heq => h.not_method ht (of_decide_eq_true heq) x hx rfl
  rw [Registry.table, Multiset.coe_eq_coe.mpr (ht.hooks_perm.map HookEntry.request),
    Multiset.filter_coe, List.map_append, List.filter_append, hrecord, hrest, List.append_nil]

/-- Each class has a record, or could be given one, and its live definition is the rebuild of the hooks there. -/
theorem Agrees.opens (h : Agrees loaded s) (klass : JClass) :
    ∃ t, s.Opens t ∧ t.record.klass = klass ∧ Permuted (loaded klass) t.record.hooks (s.vm klass) := by
  by_cases hnew : s.New klass
  · refine ⟨⟨s.classes, ⟨klass, []⟩, []⟩, .inr ⟨hnew, rfl, rfl, rfl⟩, rfl, [], List.Perm.refl _, ?_⟩
    rw [h.based.unrecorded klass hnew]
    rfl
  · obtain ⟨c, hc, rfl⟩ : ∃ c ∈ s.classes, c.klass = klass := by simpa [Registry.New] using hnew
    obtain ⟨before, after, hclasses⟩ := List.append_of_mem hc
    obtain ⟨original, ho, hlive⟩ := h.recorded.records c hc
    rw [h.based.cached _ _ ho] at hlive
    exact ⟨⟨before, c, after⟩, .inl hclasses, rfl, hlive⟩

end Live

/-- **The methods that are live run with the hooks that were asked for.** In every run of installs and uninstalls in
which the natives of what the VM accepts are bound, whatever else fails: each class that can be read is defined by the
tree of its hooks, which are those of the table, and its methods run like those it was loaded with and the calls of
these hooks in place. -/
theorem live_methods_run {loaded : JClass → Bytes} {declaringOf : JMethodId → JClass} {events : List RegistryEvent}
    {s : Registry} {klass : JClass} {cf : ClassFile} (hs : s = runEvents registryStep (Registry.start loaded) events)
    (hsteady : AllMeet registryStep SteadyCall (Registry.start loaded) events)
    (hdeclares : AllMeet registryStep (DeclaresIn declaringOf) (Registry.start loaded) events)
    (hparse : classfileParse (loaded klass) = .ok cf) :
    ∃ hooks tree, Multiset.ofList (hooks.map HookEntry.request) =
        (tableAfter loaded events).requests.filter (fun r => declaringOf r.method = klass) ∧
      transformAll (applicationOrder hooks) cf = .ok () tree ∧
      (∀ written, classfileSerialize tree = .ok written → written.length < 2 ^ 31 →
        classfileParse (s.vm klass) = .ok tree) ∧ RunsHooked cf tree hooks := by
  have hplaced := placed_run hdeclares
  have htable := table_run hdeclares
  have hagrees : Agrees loaded s := by
    rw [hs]
    exact invariant_run (fun _ e h hok => h.step e hok) (agrees_start loaded) hsteady
  rw [← hs] at hplaced htable
  obtain ⟨t, hopens, rfl, hooks, hperm, hrebuild⟩ := hagrees.opens klass
  obtain ⟨tree, hrun, hwritten⟩ := rebuild_ok hparse hrebuild
  refine ⟨hooks, tree, ?_, hrun, hwritten, runsHooked_of_transformAll (classfileParse_sound hparse).2
    (fun x hx => ?_) hrun⟩
  · rw [← htable, hplaced.requests_of_class hopens, Multiset.coe_eq_coe.mpr (hperm.map HookEntry.request)]
  · exact (hplaced.record hopens x (hperm.mem_iff.mp hx)).2

theorem live_methods_run_two_inserts : ∃ cf hooks tree, classfileParse plainClassBytes = .ok cf ∧
    Multiset.ofList (hooks.map HookEntry.request) =
      (tableAfter (fun _ => plainClassBytes) twoInserts).requests.filter (fun _ => (1 : JClass) = 1) ∧
    transformAll (applicationOrder hooks) cf = .ok () tree ∧ RunsHooked cf tree hooks := by
  have hsteady : AllMeet registryStep SteadyCall (Registry.start fun _ => plainClassBytes) twoInserts := by
    have hok : (plainReapply true).Steady := ⟨plainReapply_sound true, fun _ => rfl⟩
    exact ⟨trivial, ⟨hok, hok⟩, ⟨hok, hok⟩, trivial⟩
  have hdeclares : AllMeet registryStep (DeclaresIn fun _ => 1) (Registry.start fun _ => plainClassBytes) twoInserts :=
    ⟨trivial, fun _ h => (Option.some.inj h).symm, fun _ h => (Option.some.inj h).symm, trivial⟩
  have hparses : (classfileParse plainClassBytes).toOption.isSome = true := by decide +kernel
  cases hcf : classfileParse plainClassBytes with
  | error e =>
    rw [hcf] at hparses
    cases hparses
  | ok cf =>
    obtain ⟨hooks, tree, hrequests, hrun, -, hruns⟩ := @live_methods_run _ _ twoInserts _ 1 cf rfl hsteady hdeclares hcf
    exact ⟨cf, hooks, tree, rfl, hrequests, hrun, hruns⟩

end Jni2Hook
