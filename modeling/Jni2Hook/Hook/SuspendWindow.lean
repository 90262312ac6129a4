import Jni2Hook.Hook.Registry
import Jni2Hook.Lib.Compact

/-!
# The window of a redefinition

Between `RedefineClasses` and `RegisterNatives` a replaced method is native and has no implementation. `reapply`
suspends the other threads for that time: `suspend_others` keeps the threads it has suspended itself in front of the
array that the VM gave it, and `resume_others` resumes these.

* `ThreadService`: what the VM does with threads.
* `suspendOthers`, `resumeOthers`, `reapplyWindow`: the calls.
* `window_closed`: who stands still in the window, and that everyone goes on behind it as before.
-/

namespace Jni2Hook

open Lib

/-! ## The threads of the VM -/

/-- `jthread`, by the thread it refers to. -/
abbrev JThread := Nat

/-- `jvmtiError`; zero is `JVMTI_ERROR_NONE`. -/
abbrev JvmtiError := Nat

def jvmtiErrorInternal : JvmtiError := 113

/-- What the VM does with threads, in states `σ`. `SuspendThreadList` is handed an array of results, and leaves it so
when it fails as a whole. -/
structure ThreadService (σ : Type) where
  suspended : σ → JThread → Bool
  suspendThreadList : σ → List JThread → List JvmtiError → σ × List JvmtiError
  resumeThreadList : σ → List JThread → σ

/-- A thread without an error was running and is suspended now, the others are as before; those that are resumed run. -/
structure ThreadService.Documented {σ : Type} (S : ThreadService σ) : Prop where
  done : ∀ s threads results (i : Nat) t, threads.Nodup → results.length = threads.length → threads[i]? = some t →
    (S.suspendThreadList s threads results).2[i]? = some 0 →
    S.suspended s t = false ∧ S.suspended (S.suspendThreadList s threads results).1 t = true
  refused : ∀ s threads results (i : Nat) t, threads.Nodup → results.length = threads.length → threads[i]? = some t →
    (S.suspendThreadList s threads results).2[i]? ≠ some 0 →
    S.suspended (S.suspendThreadList s threads results).1 t = S.suspended s t
  others : ∀ s threads results t, t ∉ threads →
    S.suspended (S.suspendThreadList s threads results).1 t = S.suspended s t
  resumed : ∀ s threads t, t ∈ threads → S.suspended (S.resumeThreadList s threads) t = false
  resumedOthers : ∀ s threads t, t ∉ threads → S.suspended (S.resumeThreadList s threads) t = S.suspended s t

/-! ## The source -/

/-- `suspended_set`. -/
structure SuspendedSet where
  threads : Option (List JThread)
  results : Option (List JvmtiError)
  count : Nat

def SuspendedSet.none : SuspendedSet := ⟨.none, .none, 0⟩

/-- What the outside answers to `suspend_others`: the environments, whether threads can be suspended, the current thread
(which may be `NULL`), all threads, and whether there is memory for the results. -/
structure SuspendAnswers where
  jvmti : Bool
  jni : Bool
  canSuspend : Bool
  current : Option (Option JThread)
  allThreads : Option (List JThread)
  results : Bool

/-- The test of the first loop of `suspend_others`. -/
def SuspendAnswers.isOther (a : SuspendAnswers) (current : Option JThread) (thread : JThread) : Bool :=
  !(a.jni && current == some thread)

section Source

variable {σ : Type} (S : ThreadService σ)

/-- `suspend_others`. -/
def suspendOthers (a : SuspendAnswers) (s : σ) : σ × SuspendedSet :=
  if a.jvmti = false || a.canSuspend = false then (s, .none)
  else
    match a.current, a.allThreads with
    | some current, some threads =>
      let (kept, threads) := compactFrom (fun _ => a.isOther current) threads.length 0 0 threads
      if kept = 0 || a.results = false then (s, ⟨some threads, none, 0⟩)
      else
        let (s, results) := S.suspendThreadList s (threads.take kept) (List.replicate kept jvmtiErrorInternal)
        let (suspended, threads) := compactFrom (fun i _ => results[i]? == some 0) kept 0 0 threads
        (s, ⟨some threads, some results, suspended⟩)
    | _, _ => (s, .none)

/-- `resume_others`. -/
def resumeOthers (jvmti : Bool) (set : SuspendedSet) (s : σ) : σ :=
  if jvmti && 0 < set.count && set.results.isSome then S.resumeThreadList s ((set.threads.getD []).take set.count)
  else s

/-- The states in which natives are bound, one after the other. -/
def bindStates (register : σ → HookEntry → σ) : σ → List HookEntry → List σ
  | s, [] => [s]
  | s, h :: rest => s :: bindStates register (register s h) rest

/-- The end of `reapply`: the states from `RedefineClasses` to the last `RegisterNatives`, and the one behind
`resume_others`. A class that loses all its hooks has no natives to bind. -/
def reapplyWindow (a : SuspendAnswers) (redefine : σ → σ × Bool) (register : σ → HookEntry → σ) (hooks : List HookEntry)
    (s : σ) : List σ × σ :=
  let (s, set) := if hooks.isEmpty then (s, .none) else suspendOthers S a s
  let (s, redefined) := redefine s
  let states := if redefined then bindStates register s hooks else [s]
  (states, resumeOthers S a.jvmti set (states.getLastD s))

end Source

/-! ## Who stands still -/

/-- The threads that `resume_others` resumes. -/
def SuspendedSet.stopped (set : SuspendedSet) : List JThread :=
  if set.results.isSome then (set.threads.getD []).take set.count else []

/-- The threads that are to be suspended. -/
def SuspendAnswers.others (a : SuspendAnswers) (current : Option JThread) (threads : List JThread) : List JThread :=
  threads.filter (a.isOther current)

section Window

variable {σ : Type} {S : ThreadService σ} {a : SuspendAnswers} {s : σ}

/-- `SuspendThreadList` with fresh results. -/
def ThreadService.suspend (S : ThreadService σ) (s : σ) (threads : List JThread) : σ × List JvmtiError :=
  S.suspendThreadList s threads (List.replicate threads.length jvmtiErrorInternal)

/-- The VM does not suspend the thread when it is asked to. -/
def Refused (S : ThreadService σ) (s : σ) (threads : List JThread) (t : JThread) : Prop :=
  ∃ i : Nat, threads[i]? = some t ∧ (S.suspend s threads).2[i]? ≠ some 0

/-- What is known behind `suspend_others`. -/
structure Stopped (S : ThreadService σ) (a : SuspendAnswers) (s s' : σ) (stopped : List JThread) : Prop where
  halted : ∀ t ∈ stopped, S.suspended s t = false ∧ S.suspended s' t = true
  same : ∀ t, t ∉ stopped → S.suspended s' t = S.suspended s t
  current : a.jni = true → ∀ t ∈ stopped, a.current ≠ some (some t)

theorem stopped_nil : Stopped S a s s [] :=
  ⟨fun _ hmem => absurd hmem List.not_mem_nil, fun _ _ => rfl, fun _ _ hmem => absurd hmem List.not_mem_nil⟩

/-- The threads in front of the array are those that the VM has suspended. -/
theorem suspendOthers_eq {current : Option JThread} {threads : List JThread} (hjvmti : a.jvmti = true)
    (hcan : a.canSuspend = true) (hcurrent : a.current = some current) (hthreads : a.allThreads = some threads)
    (hmore : a.others current threads ≠ []) (hresults : a.results = true) :
    (suspendOthers S a s).1 = (S.suspend s (a.others current threads)).1 ∧
      (suspendOthers S a s).2.stopped =
        keptOf (fun i _ => (S.suspend s (a.others current threads)).2[i]? == some 0) 0 (a.others current threads) := by
  obtain ⟨hkept, hfront⟩ := compact_take (fun _ => a.isOther current) (Nat.le_refl threads.length)
  rw [List.take_length, keptOf_eq_filter, ← SuspendAnswers.others] at hkept hfront
  have hlength : (a.others current threads).length ≠ 0 := fun hzero => hmore (List.length_eq_zero_iff.mp hzero)
  unfold suspendOthers
  simp only [hjvmti, hcan, hcurrent, hthreads, hresults]
  cases hpass : compactFrom (fun _ => a.isOther current) threads.length 0 0 threads with
  | mk kept array =>
    rw [hpass] at hkept hfront
    dsimp only at hkept hfront
    subst hkept
    have hinside : (a.others current threads).length ≤ array.length := by
      have htaken := congrArg List.length hfront
      rw [List.length_take] at htaken
      omega
    have hsecond (keep : Nat → JThread → Bool) := (compact_take keep hinside).2
    rw [hfront] at hsecond
    simp [hlength, hfront, SuspendedSet.stopped, ThreadService.suspend, hsecond]

/-- Without the answers that it needs, `suspend_others` leaves the threads alone. -/
theorem suspendOthers_none (hnone : ∀ current threads, a.jvmti = true → a.canSuspend = true → a.current = some current →
    a.allThreads = some threads → a.results = true → a.others current threads = []) :
    (suspendOthers S a s).1 = s ∧ (suspendOthers S a s).2.stopped = [] := by
  unfold suspendOthers
  split
  · exact ⟨rfl, rfl⟩
  rename_i hable
  simp only [Bool.or_eq_true, decide_eq_true_eq, not_or, Bool.not_eq_false] at hable
  split
  · rename_i current threads hcurrent hthreads
    obtain ⟨hkept, -⟩ := compact_take (fun _ => a.isOther current) (Nat.le_refl threads.length)
    rw [List.take_length, keptOf_eq_filter, ← SuspendAnswers.others] at hkept
    dsimp only
    rw [hkept]
    split
    · exact ⟨rfl, rfl⟩
    · rename_i hmore
      simp only [Bool.or_eq_true, decide_eq_true_eq, not_or, Bool.not_eq_false] at hmore
      rw [hnone current threads hable.1 hable.2 hcurrent hthreads hmore.2] at hmore
      exact absurd rfl hmore.1
  · exact ⟨rfl, rfl⟩

/-- The threads that are suspended were running, and go on when they are resumed; the current one is not among them. -/
theorem suspendOthers_stopped (hS : S.Documented) (hthreads : ∀ threads, a.allThreads = some threads → threads.Nodup) :
    Stopped S a s (suspendOthers S a s).1 (suspendOthers S a s).2.stopped := by
  by_cases hnone : ∀ current threads, a.jvmti = true → a.canSuspend = true → a.current = some current →
    a.allThreads = some threads → a.results = true → a.others current threads = []
  · obtain ⟨hsame, hstopped⟩ := suspendOthers_none (S := S) (s := s) hnone
    rw [hsame, hstopped]
    exact stopped_nil
  · push Not at hnone
    obtain ⟨current, threads, hjvmti, hcan, hcurrent, hall, hresults, hmore⟩ := hnone
    obtain ⟨hstate, hstopped⟩ := suspendOthers_eq (S := S) (s := s) hjvmti hcan hcurrent hall hmore hresults
    rw [hstate, hstopped]
    have hnodup : (a.others current threads).Nodup := (hthreads threads hall).filter _
    have hlength := List.length_replicate (n := (a.others current threads).length) (a := jvmtiErrorInternal)
    refine ⟨fun t hmem => ?_, fun t hmem => ?_, fun hjni t hmem heq => ?_⟩
    · obtain ⟨j, hat, hresult⟩ := mem_keptOf.mp hmem
      rw [Nat.zero_add, beq_iff_eq] at hresult
      exact hS.done s _ _ j t hnodup hlength hat hresult
    · by_cases hother : t ∈ a.others current threads
      · obtain ⟨j, hat⟩ := List.getElem?_of_mem hother
        refine hS.refused s _ _ j t hnodup hlength hat fun hresult => hmem (mem_keptOf.mpr ⟨j, hat, ?_⟩)
        rw [Nat.zero_add, beq_iff_eq]
        exact hresult
      · exact hS.others s _ _ t hother
    · have hother := (keptOf_sublist _ _).subset hmem
      rw [hcurrent] at heq
      cases heq
      have htest := (List.mem_filter.mp hother).2
      simp [SuspendAnswers.isOther, hjni] at htest

/-- Those that it has stopped run again behind `resume_others`, and the others are as they were. -/
theorem suspended_resumeOthers (hS : S.Documented) {jvmti : Bool} {set : SuspendedSet}
    (hjvmti : jvmti = true ∨ set.stopped = []) (s : σ) (t : JThread) :
    S.suspended (resumeOthers S jvmti set s) t = if t ∈ set.stopped then false else S.suspended s t := by
  unfold resumeOthers
  split
  · rename_i hresume
    simp only [Bool.and_eq_true] at hresume
    rw [SuspendedSet.stopped, if_pos hresume.2]
    split
    · rename_i hmem
      exact hS.resumed s _ t hmem
    · rename_i hmem
      exact hS.resumedOthers s _ t hmem
  · rename_i hidle
    have hstopped : set.stopped = [] := by
      rcases hjvmti with rfl | hnone
      · rw [SuspendedSet.stopped]
        split
        · rename_i hresults
          rw [hresults, Bool.and_true, Bool.true_and, decide_eq_true_eq, Nat.not_lt, Nat.le_zero] at hidle
          rw [hidle, List.take_zero]
        · rfl
      · exact hnone
    rw [hstopped, if_neg List.not_mem_nil]

theorem suspended_bindStates {register : σ → HookEntry → σ}
    (hregister : ∀ s h t, S.suspended (register s h) t = S.suspended s t) {hooks : List HookEntry} {s s' : σ}
    (hmem : s' ∈ bindStates register s hooks) (t : JThread) : S.suspended s' t = S.suspended s t := by
  induction hooks generalizing s with
  | nil =>
    rw [List.mem_singleton.mp hmem]
  | cons h rest ih =>
    rcases List.mem_cons.mp hmem with rfl | hmem
    · rfl
    · exact (ih hmem).trans (hregister s h t)

section Call

variable {hooks : List HookEntry} {s₁ : σ} {set : SuspendedSet}

theorem stopped_window (hS : S.Documented) (hthreads : ∀ threads, a.allThreads = some threads → threads.Nodup)
    (h : (if hooks.isEmpty then (s, .none) else suspendOthers S a s) = (s₁, set)) : Stopped S a s s₁ set.stopped := by
  split at h
  · cases h
    exact stopped_nil
  · have hstopped := suspendOthers_stopped (S := S) (s := s) hS hthreads
    rw [h] at hstopped
    exact hstopped

theorem jvmti_of_stopped (h : (if hooks.isEmpty then (s, .none) else suspendOthers S a s) = (s₁, set)) :
    a.jvmti = true ∨ set.stopped = [] := by
  split at h
  · cases h
    exact .inr rfl
  · cases hjvmti : a.jvmti with
    | true => exact .inl rfl
    | false =>
      have hstopped := (suspendOthers_none (S := S) (s := s) fun _ _ htrue =>
        absurd (hjvmti.symm.trans htrue) (by decide)).2
      rw [h] at hstopped
      exact .inr hstopped

theorem bindStates_ne_nil (register : σ → HookEntry → σ) (s : σ) (hooks : List HookEntry) :
    bindStates register s hooks ≠ [] := by
  cases hooks <;> exact List.cons_ne_nil _ _

/-- The threads are resumed in the last state of the window. -/
theorem reapplyWindow_snd (S : ThreadService σ) (a : SuspendAnswers) (redefine : σ → σ × Bool)
    (register : σ → HookEntry → σ) (h : (if hooks.isEmpty then (s, .none) else suspendOthers S a s) = (s₁, set)) :
    ∃ last ∈ (reapplyWindow S a redefine register hooks s).1,
      (reapplyWindow S a redefine register hooks s).2 = resumeOthers S a.jvmti set last := by
  rw [reapplyWindow, h]
  dsimp only
  split
  · have hne := bindStates_ne_nil register (redefine s₁).1 hooks
    refine ⟨_, List.getLast_mem hne, ?_⟩
    rw [List.getLastD_eq_getLast?, List.getLast?_eq_some_getLast hne, Option.getD_some]
  · exact ⟨_, List.mem_singleton_self _, rfl⟩

end Call

/-- **The window is closed**, and opened again: from the redefinition to the last binding every thread stands still that
`reapply` could suspend, the current thread is left alone, and behind it every thread is suspended or running as
before. -/
theorem window_closed (hS : S.Documented) (hthreads : ∀ threads, a.allThreads = some threads → threads.Nodup)
    (redefine : σ → σ × Bool) (hredefine : ∀ s t, S.suspended (redefine s).1 t = S.suspended s t)
    (register : σ → HookEntry → σ) (hregister : ∀ s h t, S.suspended (register s h) t = S.suspended s t)
    (hooks : List HookEntry) (s : σ) :
    (∀ t, S.suspended (reapplyWindow S a redefine register hooks s).2 t = S.suspended s t) ∧
    ∀ s' ∈ (reapplyWindow S a redefine register hooks s).1,
      (∀ t, S.suspended s t = true → S.suspended s' t = true) ∧
      (a.jni = true → ∀ t, a.current = some (some t) → S.suspended s' t = S.suspended s t) ∧
      (hooks ≠ [] → a.jvmti = true → a.canSuspend = true → a.results = true → ∀ current threads,
        a.current = some current → a.allThreads = some threads → ∀ t ∈ threads, current ≠ some t →
          S.suspended s' t = true ∨ Refused S s (a.others current threads) t) := by
  obtain ⟨s₁, set, hfirst⟩ : ∃ s₁ set, (if hooks.isEmpty then (s, .none) else suspendOthers S a s) =
    (s₁, set) := ⟨_, _, rfl⟩
  have hstopped := stopped_window hS hthreads hfirst
  have hsame : ∀ s' ∈ (reapplyWindow S a redefine register hooks s).1, ∀ t, S.suspended s' t = S.suspended s₁ t := by
    intro s' hmem t
    rw [reapplyWindow, hfirst] at hmem
    rw [← hredefine s₁ t]
    dsimp only at hmem
    split at hmem
    · exact suspended_bindStates hregister hmem t
    · rw [List.mem_singleton.mp hmem]
  refine ⟨fun t => ?_, fun s' hmem => ⟨fun t hbefore => ?_, fun hjni t hcurrent => ?_,
    fun hhooks hjvmti hcan hresults current
    threads hcurrent hall t hmember hne => ?_⟩⟩
  · obtain ⟨last, hlast, hend⟩ := reapplyWindow_snd S a redefine register hfirst
    rw [hend, suspended_resumeOthers hS (jvmti_of_stopped hfirst), hsame last hlast]
    split
    · rename_i hmem
      exact (hstopped.halted t hmem).1.symm
    · rename_i hmem
      exact hstopped.same t hmem
  · rw [hsame s' hmem, hstopped.same t fun hin => ?_, hbefore]
    rw [(hstopped.halted t hin).1] at hbefore
    cases hbefore
  · rw [hsame s' hmem, hstopped.same t fun hin => hstopped.current hjni t hin hcurrent]
  · have hother : t ∈ a.others current threads := by
      refine List.mem_filter.mpr ⟨hmember, ?_⟩
      simp [SuspendAnswers.isOther, hne]
    obtain ⟨hstate, hset⟩ := suspendOthers_eq (S := S) (s := s) hjvmti hcan hcurrent hall
      (List.ne_nil_of_mem hother) hresults
    rw [if_neg (by simpa using hhooks)] at hfirst
    rw [hfirst] at hset
    by_cases hin : t ∈ set.stopped
    · rw [hsame s' hmem]
      exact .inl (hstopped.halted t hin).2
    · obtain ⟨k, hat⟩ := List.getElem?_of_mem hother
      refine .inr ⟨k, hat, fun hresult => hin ?_⟩
      rw [hset, mem_keptOf]
      exact ⟨k, hat, by rw [Nat.zero_add, beq_iff_eq]; exact hresult⟩

end Window

/-- Threads that are suspended or running; one that is suspended is not suspended again. -/
def plainThreads : ThreadService (List JThread) where
  suspended s t := s.contains t
  suspendThreadList s threads _ := (s ++ threads, threads.map fun t => if s.contains t then 14 else 0)
  resumeThreadList s threads := s.filter fun t => !threads.contains t

theorem plainThreads_documented : plainThreads.Documented where
  done s threads _ i t _ _ hat hresult := by
    simp only [plainThreads, List.getElem?_map, hat, Option.map_some, Option.some.injEq] at hresult ⊢
    split at hresult
    · cases hresult
    · rename_i hnot
      exact ⟨Bool.eq_false_iff.mpr hnot, by simp [List.mem_of_getElem? hat]⟩
  refused s threads _ i t _ _ hat hresult := by
    simp only [plainThreads, List.getElem?_map, hat, Option.map_some, ne_eq, Option.some.injEq] at hresult ⊢
    split at hresult
    · rename_i hin
      rw [List.contains_iff_mem] at hin
      simp [hin]
    · exact absurd rfl hresult
  others s threads _ t hnot := by simp [plainThreads, hnot]
  resumed s threads t hmem := by simp [plainThreads, hmem]
  resumedOthers s threads t hnot := by simp [plainThreads, hnot]

/-- Thread 1 redefines, 2 runs, and 3 was suspended before. -/
def threeThreads : SuspendAnswers := ⟨true, true, true, some (some 1), some [1, 2, 3], true⟩

/-- A method that is replaced. -/
def replacedMethod : HookEntry := ⟨7, text "f", text "()V", text "f$jni2hook", 0, false, 0, .makeNative⟩

theorem window_closed_three :
    (∀ t, plainThreads.suspended
      (reapplyWindow plainThreads threeThreads (fun s => (s, true)) (fun s _ => s) [replacedMethod] [3]).2 t =
        ([3].contains t)) ∧
    ∀ s' ∈ (reapplyWindow plainThreads threeThreads (fun s => (s, true)) (fun s _ => s) [replacedMethod] [3]).1,
      plainThreads.suspended s' 2 = true := by
  have hthreads : ∀ threads, threeThreads.allThreads = some threads → threads.Nodup := by
    rintro _ ⟨⟩
    decide
  obtain ⟨hafter, hwindow⟩ := window_closed plainThreads_documented hthreads (fun s => (s, true)) (fun _ _ => rfl)
    (fun s _ => s) (fun _ _ _ => rfl) [replacedMethod] [3]
  refine ⟨hafter, fun s' hmem => ?_⟩
  have hstands := (hwindow s' hmem).2.2 (List.cons_ne_nil _ _) rfl rfl rfl (some 1) [1, 2, 3] rfl rfl 2
    (by decide) (by decide)
  refine hstands.resolve_right ?_
  rintro ⟨_ | _ | i, hat, hresult⟩
  · exact hresult rfl
  · cases hat
  · cases hat

end Jni2Hook
