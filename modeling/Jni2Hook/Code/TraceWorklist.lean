import Jni2Hook.Code.ConstructorTrace
import Jni2Hook.Code.SlotEffects
import Jni2Hook.Lib.Ring
import Mathlib.Algebra.Order.BigOperators.Group.Finset

/-!
# The worklist of the trace

The loop of `constructor_init.c` on any code, verifiable or not: its queue has one cell for each instruction, and its
states only gain flags.

* `TraceLoop.Queues`: the entries of the circular queue are the queued instructions, each once.
* `TraceLoop.Running`: the invariant of the loop; `TraceLoop.Running.round` is its step.
* `TraceLoop.cost`: the iterations that a loop can still make.
* `constructor_worklist_runs`: the loop keeps its invariant and ends.
-/

namespace Jni2Hook

open Lib

/-! ## States of the loop -/

/-- The slots of a reached instruction. -/
def TraceLoop.slotsAt (loop : TraceLoop) (t : Nat) : Option TraceSlots := (loop.states.getD t {}).slots

def TraceLoop.queuedAt (loop : TraceLoop) (t : Nat) : Bool := (loop.states.getD t {}).queued

/-- What an instruction has once some work is merged into it. -/
def mergedSlots (old : Option TraceSlots) (work : TraceWork) : TraceSlots :=
  match old with
  | none => work.slots
  | some old => ⟨mergeSlots old.locals work.locals, mergeSlots old.stack work.stack⟩

section Propagate

variable {loop : TraceLoop} {work : TraceWork} {target : Nat}

/-- Stacks of one depth are merged, and the answer says whether anything has changed. -/
theorem mergeState_eq {state : TraceState}
    (hdepth : ∀ old, state.slots = some old → old.stack.length = work.stack.length) :
    mergeState state work = ({ state with slots := some (mergedSlots state.slots work) },
      decide (some (mergedSlots state.slots work) ≠ state.slots)) := by
  unfold mergeState mergedSlots
  cases hslots : state.slots with
  | none => simp [TraceWork.slots]
  | some old => simp [hdepth old hslots]

variable (hdepth : ∀ old, loop.slotsAt target = some old → old.stack.length = work.stack.length)
  (htarget : target < loop.states.length)

include hdepth in
theorem propagate_eq : propagate work loop target =
    if some (mergedSlots (loop.slotsAt target) work) ≠ loop.slotsAt target ∧ loop.queuedAt target = false then
      { loop with
        states := loop.states.set target ⟨some (mergedSlots (loop.slotsAt target) work), true⟩
        queue := loop.queue.set loop.tail target
        tail := (loop.tail + 1) % loop.queue.length
        pending := loop.pending + 1 }
    else { loop with
      states := loop.states.set target ⟨some (mergedSlots (loop.slotsAt target) work), loop.queuedAt target⟩ } := by
  unfold propagate
  rw [mergeState_eq hdepth]
  simp only [decide_eq_true_eq]
  rfl

include hdepth in
theorem length_propagate : (propagate work loop target).states.length = loop.states.length := by
  rw [propagate_eq hdepth]
  split <;> exact List.length_set

include hdepth in
theorem found_propagate : (propagate work loop target).found = loop.found ∧
    (propagate work loop target).ambiguous = loop.ambiguous := by
  rw [propagate_eq hdepth]
  split <;> exact ⟨rfl, rfl⟩

include hdepth htarget

theorem slotsAt_propagate (u : Nat) : (propagate work loop target).slotsAt u =
    if u = target then some (mergedSlots (loop.slotsAt target) work) else loop.slotsAt u := by
  rw [propagate_eq hdepth]
  unfold TraceLoop.slotsAt
  split <;> simp only [getD_set, htarget, and_true, eq_comm] <;> split <;> rfl

theorem queuedAt_propagate (u : Nat) : (propagate work loop target).queuedAt u =
    if u = target then
      loop.queuedAt target || decide (some (mergedSlots (loop.slotsAt target) work) ≠ loop.slotsAt target)
    else loop.queuedAt u := by
  rw [propagate_eq hdepth]
  by_cases hpush : some (mergedSlots (loop.slotsAt target) work) ≠ loop.slotsAt target ∧ loop.queuedAt target = false
  · rw [if_pos hpush]
    by_cases hu : u = target
    · subst hu
      simp [TraceLoop.queuedAt, htarget, hpush.1]
    · rw [if_neg hu]
      simp [TraceLoop.queuedAt, Ne.symm hu]
  · rw [if_neg hpush]
    by_cases hu : u = target
    · subst hu
      rw [if_pos rfl]
      simp only [TraceLoop.queuedAt, getD_set, htarget, and_self, if_true]
      cases hq : loop.queuedAt u with
      | true =>
        unfold TraceLoop.queuedAt at hq
        rw [hq]
        rfl
      | false =>
        have hsame : some (mergedSlots (loop.slotsAt u) work) = loop.slotsAt u := by
          by_contra hne
          exact hpush ⟨hne, hq⟩
        unfold TraceLoop.queuedAt at hq
        simp [hsame]
    · rw [if_neg hu]
      simp [TraceLoop.queuedAt, Ne.symm hu]

end Propagate

theorem slotsAt_dequeue (loop : TraceLoop) (t : Nat) : (dequeue loop).2.slotsAt t = loop.slotsAt t := by
  simp only [dequeue, TraceLoop.slotsAt, List.getD_eq_getElem?_getD, List.getElem?_modify]
  split
  · cases loop.states[t]? <;> rfl
  · simp

theorem queuedAt_dequeue (loop : TraceLoop) (t : Nat) :
    (dequeue loop).2.queuedAt t = (loop.queuedAt t && decide (t ≠ (dequeue loop).1)) := by
  simp only [dequeue, TraceLoop.queuedAt, List.getD_eq_getElem?_getD, List.getElem?_modify]
  by_cases ht : loop.queue[loop.head]?.getD 0 = t
  · subst ht
    cases loop.states[loop.queue[loop.head]?.getD 0]? <;> simp
  · simp [ht, Ne.symm ht]

/-! ## The queue -/

/-- The indices in the queue are those of the queued states, each once. -/
structure TraceLoop.Queues (loop : TraceLoop) : Prop where
  cells : loop.queue.length = loop.states.length
  head : loop.head < loop.states.length
  tail : loop.tail = (loop.head + loop.pending) % loop.queue.length
  nodup : (ringEntries loop.queue loop.head loop.pending 0).Nodup
  mem : ∀ t, t ∈ ringEntries loop.queue loop.head loop.pending 0 ↔ loop.queuedAt t = true

section Queues

variable {loop : TraceLoop}

theorem lt_of_queuedAt {t : Nat} (h : loop.queuedAt t = true) : t < loop.states.length := by
  by_contra hge
  rw [TraceLoop.queuedAt, List.getD_eq_default _ _ (by omega)] at h
  cases h

/-- There is room for one more index while it is not queued. -/
theorem TraceLoop.Queues.room (h : loop.Queues) {t : Nat} (ht : t < loop.states.length)
    (hqueued : loop.queuedAt t = false) : loop.pending < loop.queue.length := by
  have hnot : t ∉ ringEntries loop.queue loop.head loop.pending 0 := by
    rw [h.mem, hqueued]
    exact Bool.false_ne_true
  have hsubset : t :: ringEntries loop.queue loop.head loop.pending 0 ⊆ List.range loop.states.length := by
    intro u hu
    rw [List.mem_range]
    rcases List.mem_cons.mp hu with rfl | hu
    · exact ht
    · exact lt_of_queuedAt ((h.mem u).mp hu)
  have := (List.subperm_of_subset (List.nodup_cons.mpr ⟨hnot, h.nodup⟩) hsubset).length_le
  simp only [List.length_cons, length_ringEntries, List.length_range] at this
  rw [h.cells]
  omega

theorem TraceLoop.Queues.idle (h : loop.Queues) (hpending : loop.pending = 0) (t : Nat) : loop.queuedAt t = false := by
  rw [Bool.eq_false_iff]
  intro hqueued
  have hmem := (h.mem t).mpr hqueued
  rw [hpending] at hmem
  cases hmem

theorem TraceLoop.Queues.propagate {work : TraceWork} {target : Nat} (h : loop.Queues)
    (hdepth : ∀ old, loop.slotsAt target = some old → old.stack.length = work.stack.length)
    (htarget : target < loop.states.length) : (propagate work loop target).Queues := by
  have hlength := length_propagate hdepth
  have hqueued := queuedAt_propagate hdepth htarget
  by_cases hpush : some (mergedSlots (loop.slotsAt target) work) ≠ loop.slotsAt target ∧ loop.queuedAt target = false
  · have hroom := h.room htarget hpush.2
    have hentries := @ringEntries_push _ _ _ _ _ 0 target hroom h.tail
    have hnot : target ∉ ringEntries loop.queue loop.head loop.pending 0 := by
      rw [h.mem, hpush.2]
      exact Bool.false_ne_true
    rw [propagate_eq hdepth, if_pos hpush] at hlength hqueued ⊢
    refine ⟨?_, ?_, ?_, ?_, fun t => ?_⟩
    · rw [hlength]
      simp only [List.length_set, h.cells]
    · rw [hlength]
      exact h.head
    · simp only [List.length_set]
      exact ring_tail_push h.tail
    · rw [hentries]
      refine List.Nodup.append h.nodup (List.nodup_singleton target) ?_
      simpa using hnot
    · rw [hentries, List.mem_append, h.mem, hqueued, List.mem_singleton]
      by_cases ht : t = target
      · simp [ht, hpush.1]
      · simp [ht]
  · rw [propagate_eq hdepth, if_neg hpush] at hlength hqueued ⊢
    refine ⟨by rw [hlength]; exact h.cells, by rw [hlength]; exact h.head, h.tail, h.nodup, fun t => ?_⟩
    rw [hqueued]
    refine (h.mem t).trans ?_
    by_cases ht : t = target
    · subst ht
      rw [if_pos rfl]
      cases hq : loop.queuedAt t with
      | true => simp
      | false =>
        have hsame : some (mergedSlots (loop.slotsAt t) work) = loop.slotsAt t := by
          by_contra hne
          exact hpush ⟨hne, hq⟩
        simp [hsame]
    · rw [if_neg ht]

theorem TraceLoop.Queues.dequeue (h : loop.Queues) (hpending : loop.pending ≠ 0) :
    (dequeue loop).2.Queues ∧ loop.queuedAt (dequeue loop).1 = true ∧
      (Jni2Hook.dequeue loop).2.pending + 1 = loop.pending := by
  obtain ⟨pending, hsucc⟩ := Nat.exists_eq_succ_of_ne_zero hpending
  have hentries : ringEntries loop.queue loop.head loop.pending 0 = (Jni2Hook.dequeue loop).1 ::
      ringEntries loop.queue ((loop.head + 1) % loop.queue.length) pending 0 := by
    rw [hsucc]
    exact ringEntries_pop (by rw [h.cells]; exact h.head)
  have hnodup := h.nodup
  have hmem := h.mem
  rw [hentries] at hnodup hmem
  have hrest : (Jni2Hook.dequeue loop).2.pending = pending := by
    simp [Jni2Hook.dequeue, hsucc]
  refine ⟨⟨?_, ?_, ?_, ?_, fun t => ?_⟩, (hmem _).mp List.mem_cons_self, by rw [hrest, hsucc]⟩
  · simp [Jni2Hook.dequeue, h.cells]
  · simp only [Jni2Hook.dequeue, List.length_modify, h.cells]
    exact Nat.mod_lt _ (Nat.zero_lt_of_lt h.head)
  · have htail := h.tail
    rw [hsucc] at htail
    rw [hrest]
    exact ring_tail_pop htail
  · rw [hrest]
    exact (List.nodup_cons.mp hnodup).2
  · rw [hrest, queuedAt_dequeue]
    have hfirst := (List.nodup_cons.mp hnodup).1
    rw [Bool.and_eq_true, ← hmem, decide_eq_true_eq, List.mem_cons]
    constructor
    · intro ht
      refine ⟨.inr ht, ?_⟩
      rintro rfl
      exact hfirst ht
    · rintro ⟨rfl | ht, hne⟩
      · exact absurd rfl hne
      · exact ht

end Queues

/-! ## States that grow -/

/-- The offset is found, or known not to be the only one. -/
def TraceLoop.Recorded (loop : TraceLoop) (a : Nat) : Prop := loop.found = some a ∨ loop.ambiguous = true

/-- The states have only grown, and nothing that was recorded is lost. -/
structure TraceLoop.Grew (loop loop' : TraceLoop) : Prop where
  slots : ∀ t s, loop.slotsAt t = some s → ∃ s', loop'.slotsAt t = some s' ∧ s.Le s'
  recorded : ∀ a, loop.Recorded a → loop'.Recorded a

theorem SlotsSubset.trans {a b c : List UInt8} (h : SlotsSubset a b) (h' : SlotsSubset b c) : SlotsSubset a c := by
  unfold SlotsSubset at h h'
  induction h generalizing c with
  | nil =>
    cases h'
    exact .nil
  | cons hx _ ih =>
    cases h' with
    | cons hy hrest => exact .cons (by rw [← hy, ← UInt8.or_assoc, hx]) (ih hrest)

theorem TraceSlots.Le.trans {s t u : TraceSlots} (h : s.Le t) (h' : t.Le u) : s.Le u :=
  ⟨h.locals.trans h'.locals, h.stack.trans h'.stack⟩

theorem TraceLoop.Grew.refl (loop : TraceLoop) : loop.Grew loop := ⟨fun _ s hs => ⟨s, hs, .refl s⟩, fun _ h => h⟩

theorem TraceLoop.Grew.trans {a b c : TraceLoop} (h : a.Grew b) (h' : b.Grew c) : a.Grew c := by
  refine ⟨fun t s hs => ?_, fun x hx => h'.recorded x (h.recorded x hx)⟩
  obtain ⟨s', hs', hle⟩ := h.slots t s hs
  obtain ⟨s'', hs'', hle'⟩ := h'.slots t s' hs'
  exact ⟨s'', hs'', hle.trans hle'⟩

theorem TraceLoop.grew_dequeue (loop : TraceLoop) : loop.Grew (dequeue loop).2 :=
  ⟨fun t s hs => ⟨s, by rw [slotsAt_dequeue]; exact hs, .refl s⟩, fun _ ha => ha⟩

theorem subset_mergeSlots {a b : List UInt8} (h : a.length = b.length) :
    SlotsSubset a (mergeSlots a b) ∧ SlotsSubset b (mergeSlots a b) := by
  unfold SlotsSubset mergeSlots
  induction a generalizing b with
  | nil =>
    obtain rfl := List.length_eq_zero_iff.mp h.symm
    exact ⟨.nil, .nil⟩
  | cons x a ih =>
    cases b with
    | nil => cases h
    | cons y b =>
      obtain ⟨ha, hb⟩ := ih (by simpa using h)
      refine ⟨.cons ?_ ha, .cons ?_ hb⟩
      · rw [← UInt8.or_assoc, UInt8.or_self]
      · dsimp only
        rw [UInt8.or_comm x y, ← UInt8.or_assoc, UInt8.or_self]

/-! ## Flags -/

/-- A slot is marked as holding `this`, something else, or both. -/
def IsFlag (x : UInt8) : Prop := x = 1 ∨ x = 2 ∨ x = 3

instance (x : UInt8) : Decidable (IsFlag x) := inferInstanceAs (Decidable (x = 1 ∨ x = 2 ∨ x = 3))

theorem isFlag_or {x y : UInt8} (hx : IsFlag x) (hy : IsFlag y) : IsFlag (x ||| y) := by
  rcases hx with rfl | rfl | rfl <;> rcases hy with rfl | rfl | rfl <;> decide

theorem isFlag_zipWith {a b : List UInt8} (ha : ∀ x ∈ a, IsFlag x) (hb : ∀ y ∈ b, IsFlag y) :
    ∀ z ∈ List.zipWith (· ||| ·) a b, IsFlag z := by
  intro z hz
  obtain ⟨i, hi, rfl⟩ := List.getElem_of_mem hz
  rw [List.getElem_zipWith]
  exact isFlag_or (ha _ (List.getElem_mem _)) (hb _ (List.getElem_mem _))

theorem lt_of_mem_traceSuccessors {items : List Instruction} {i j : Nat} {node : Instruction}
    (h : j ∈ traceSuccessors items i node) : j < items.length := by
  rcases mem_traceSuccessors.mp h with ⟨v, -, hv⟩ | ⟨-, hlt, rfl⟩
  · unfold instructionIndexAt at hv
    split at hv
    · cases hv
    · exact (List.findIdx?_eq_some_iff_getElem.mp hv).1
  · exact hlt

/-! ## Termination -/

/-- A slot that can still grow. -/
def slotCost (x : UInt8) : Nat := if x = 3 then 0 else 1

def TraceSlots.cost (s : TraceSlots) : Nat := (s.locals.map slotCost).sum + (s.stack.map slotCost).sum

/-- How often a state can still change. -/
def stateCost (editor : CodeEditor) : Option TraceSlots → Nat
  | none => editor.maxLocals.toNat + editor.maxStack.toNat + 1
  | some s => s.cost

/-- The rounds that a loop can still make. -/
def TraceLoop.cost (editor : CodeEditor) (loop : TraceLoop) : Nat :=
  loop.pending + ∑ t ∈ Finset.range editor.instructions.items.length, stateCost editor (loop.slotsAt t)

theorem sum_slotCost_le (l : List UInt8) : (l.map slotCost).sum ≤ l.length := by
  have := List.sum_le_card_nsmul (l.map slotCost) 1 (by
    intro x hx
    obtain ⟨y, -, rfl⟩ := List.mem_map.mp hx
    unfold slotCost
    split <;> omega)
  simpa using this

/-- Merging flags costs one for every slot that it changes. -/
theorem cost_mergeSlots {a b : List UInt8} (ha : ∀ x ∈ a, IsFlag x) (hb : ∀ y ∈ b, IsFlag y)
    (hlen : a.length = b.length) :
    ((mergeSlots a b).map slotCost).sum + (if mergeSlots a b = a then 0 else 1) ≤ (a.map slotCost).sum := by
  induction a generalizing b with
  | nil => simp [mergeSlots]
  | cons x a ih =>
    cases b with
    | nil => cases hlen
    | cons y b =>
      have hrest := ih (fun z hz => ha z (List.mem_cons_of_mem x hz)) (fun z hz => hb z (List.mem_cons_of_mem y hz))
        (by simpa using hlen)
      have hslot : slotCost (x ||| y) + (if x ||| y = x then 0 else 1) ≤ slotCost x := by
        rcases ha x List.mem_cons_self with rfl | rfl | rfl <;> rcases hb y List.mem_cons_self with rfl | rfl | rfl <;>
          decide
      simp only [mergeSlots, List.zipWith_cons_cons, List.map_cons, List.sum_cons, List.cons.injEq] at hrest ⊢
      by_cases hx : x ||| y = x
      · by_cases hm : List.zipWith (fun x y => x ||| y) a b = a
        · simp only [hx, hm, and_self, if_true] at hrest hslot ⊢
          omega
        · simp only [hx, hm, and_false, if_true, if_false] at hrest hslot ⊢
          omega
      · simp only [hx, false_and, if_false] at hrest hslot ⊢
        omega

theorem cost_mergedSlots {old : TraceSlots} {work : TraceWork}
    (hold : (∀ x ∈ old.locals, IsFlag x) ∧ ∀ x ∈ old.stack, IsFlag x)
    (hwork : (∀ x ∈ work.locals, IsFlag x) ∧ ∀ x ∈ work.stack, IsFlag x)
    (hlocals : old.locals.length = work.locals.length)
    (hstack : old.stack.length = work.stack.length) (hne : mergedSlots (some old) work ≠ old) :
    (mergedSlots (some old) work).cost < old.cost := by
  have hl := cost_mergeSlots hold.1 hwork.1 hlocals
  have hs := cost_mergeSlots hold.2 hwork.2 hstack
  rw [show mergedSlots (some old) work =
    ⟨mergeSlots old.locals work.locals, mergeSlots old.stack work.stack⟩ from rfl] at hne ⊢
  unfold TraceSlots.cost
  by_cases hsame : mergeSlots old.locals work.locals = old.locals
  · have hstack' : mergeSlots old.stack work.stack ≠ old.stack := by
      intro heq
      exact hne (by rw [hsame, heq])
    rw [if_neg hstack'] at hs
    dsimp only
    omega
  · rw [if_neg hsame] at hl
    dsimp only
    split at hs <;> omega

/-! ## The invariant -/

/-- Slots of a method: one flag for each local, and a stack within its bound. -/
structure TraceSlots.Fits (editor : CodeEditor) (s : TraceSlots) : Prop where
  locals : s.locals.length = editor.maxLocals.toNat
  stack : s.stack.length ≤ editor.maxStack.toNat
  flags : (∀ x ∈ s.locals, IsFlag x) ∧ ∀ x ∈ s.stack, IsFlag x

/-- What the loop keeps to. -/
structure TraceLoop.Running (editor : CodeEditor) (loop : TraceLoop) : Prop where
  length : loop.states.length = editor.instructions.items.length
  queues : loop.Queues
  fits : ∀ t s, loop.slotsAt t = some s → s.Fits editor

/-- A loop that has gone on: its states have grown, and it has no more iterations before it. -/
structure TraceLoop.GoesOn (editor : CodeEditor) (loop loop' : TraceLoop) : Prop where
  running : loop'.Running editor
  grew : loop.Grew loop'
  cost : loop'.cost editor ≤ loop.cost editor

section Invariant

variable {cf : ClassFile} {editor : CodeEditor} {loop loop' : TraceLoop} {work : TraceWork}

theorem TraceLoop.GoesOn.refl (h : loop.Running editor) : loop.GoesOn editor loop := ⟨h, .refl loop, Nat.le_refl _⟩

theorem TraceLoop.GoesOn.trans {loop'' : TraceLoop} (h : loop.GoesOn editor loop') (h' : loop'.GoesOn editor loop'') :
    loop.GoesOn editor loop'' :=
  ⟨h'.running, h.grew.trans h'.grew, Nat.le_trans h'.cost h.cost⟩

/-- The slots that an instruction leaves are slots of the method again. -/
theorem TraceSlots.Fits.executeSlots {s : TraceSlots} (h : s.Fits editor) {node : Instruction}
    (hwork : executeSlots cf node ⟨s.locals, s.stack, editor.maxStack.toNat⟩ = some work) : work.slots.Fits editor := by
  obtain ⟨effect, heffect⟩ := executeSlots_effect cf node
  rw [heffect _ h.stack] at hwork
  obtain ⟨frame, hframe, rfl⟩ := Option.map_eq_some_iff.mp hwork
  obtain ⟨e, -, happly⟩ := Option.bind_eq_some_iff.mp hframe
  obtain ⟨hlocals, hstack⟩ := SlotEffect.length_apply _ _ happly
  have hflags := e.apply_forall _ (show IsFlag traceOther by decide) h.flags.1 h.flags.2 happly
  exact ⟨hlocals.trans h.locals, hstack, hflags⟩

theorem TraceSlots.Fits.merged {s : TraceSlots} (h : s.Fits editor) (hwork : work.slots.Fits editor)
    (hdepth : s.stack.length = work.stack.length) : (mergedSlots (some s) work).Fits editor := by
  have hlocals : s.locals.length = work.locals.length := h.locals.trans hwork.locals.symm
  refine ⟨?_, ?_, isFlag_zipWith h.flags.1 hwork.flags.1, isFlag_zipWith h.flags.2 hwork.flags.2⟩
  · simp only [mergedSlots, mergeSlots, List.length_zipWith, ← hlocals, Nat.min_self]
    exact h.locals
  · simp only [mergedSlots, mergeSlots, List.length_zipWith, ← hdepth, Nat.min_self]
    exact h.stack

/-- A target that is reached at another depth is left alone. -/
theorem propagate_of_depth_ne {target : Nat} {old : TraceSlots} (hold : loop.slotsAt target = some old)
    (hdepth : old.stack.length ≠ work.stack.length) : propagate work loop target = loop := by
  have hlt : target < loop.states.length := by
    by_contra hge
    rw [TraceLoop.slotsAt, List.getD_eq_default _ _ (by omega)] at hold
    cases hold
  have hmerge : mergeState (loop.states.getD target {}) work = (loop.states.getD target {}, false) := by
    unfold TraceLoop.slotsAt at hold
    unfold mergeState
    rw [hold]
    exact if_pos hdepth
  unfold propagate
  rw [hmerge, List.getD_eq_getElem _ _ hlt]
  simp

/-- What merging makes of a target, and what it costs. -/
theorem TraceLoop.Running.mergedSlots_spec (h : loop.Running editor) (hwork : work.slots.Fits editor) {target : Nat}
    (hdepth : ∀ old, loop.slotsAt target = some old → old.stack.length = work.stack.length) :
    (mergedSlots (loop.slotsAt target) work).Fits editor ∧
      (∀ old, loop.slotsAt target = some old → old.Le (mergedSlots (loop.slotsAt target) work)) ∧
      (some (mergedSlots (loop.slotsAt target) work) ≠ loop.slotsAt target →
        stateCost editor (some (mergedSlots (loop.slotsAt target) work)) < stateCost editor (loop.slotsAt target)) := by
  cases hold : loop.slotsAt target with
  | none =>
    refine ⟨hwork, fun old hold' => (by cases hold'), fun _ => ?_⟩
    have hlocals := sum_slotCost_le work.locals
    have hstack := sum_slotCost_le work.stack
    have hfits := hwork.stack
    have hlength := hwork.locals
    simp only [TraceWork.slots] at hfits hlength
    simp only [stateCost, mergedSlots, TraceSlots.cost, TraceWork.slots]
    omega
  | some old =>
    have hfits := h.fits target old hold
    have hlocals : old.locals.length = work.locals.length := hfits.locals.trans hwork.locals.symm
    have hstack := hdepth old hold
    refine ⟨hfits.merged hwork hstack, fun old' hold' => ?_, fun hne => ?_⟩
    · cases hold'
      exact ⟨(subset_mergeSlots hlocals).1, (subset_mergeSlots hstack).1⟩
    · exact cost_mergedSlots hfits.flags hwork.flags hlocals hstack fun heq => hne (by rw [heq])

theorem TraceLoop.Running.cost_propagate (h : loop.Running editor) (hwork : work.slots.Fits editor) {target : Nat}
    (htarget : target < editor.instructions.items.length)
    (hdepth : ∀ old, loop.slotsAt target = some old → old.stack.length = work.stack.length) :
    (Jni2Hook.propagate work loop target).cost editor ≤ loop.cost editor := by
  have hslots := slotsAt_propagate hdepth (by rw [h.length]; exact htarget)
  unfold TraceLoop.cost
  by_cases hsame : some (mergedSlots (loop.slotsAt target) work) = loop.slotsAt target
  · have hstates : (Jni2Hook.propagate work loop target).slotsAt = loop.slotsAt := by
      funext t
      rw [hslots]
      split
      · rename_i heq
        rw [heq, hsame]
      · rfl
    have hpending : (Jni2Hook.propagate work loop target).pending = loop.pending := by
      rw [propagate_eq hdepth, if_neg (fun hpush => hpush.1 hsame)]
    rw [hstates, hpending]
  · have hpending : (Jni2Hook.propagate work loop target).pending ≤ loop.pending + 1 := by
      rw [propagate_eq hdepth]
      split
      · exact Nat.le_refl _
      · exact Nat.le_succ _
    have hdrop := (h.mergedSlots_spec hwork hdepth).2.2 hsame
    have hsum : ∑ t ∈ Finset.range editor.instructions.items.length,
          stateCost editor ((Jni2Hook.propagate work loop target).slotsAt t) <
        ∑ t ∈ Finset.range editor.instructions.items.length, stateCost editor (loop.slotsAt t) := by
      refine Finset.sum_lt_sum (fun t _ => ?_) ⟨target, Finset.mem_range.mpr htarget, ?_⟩
      · rw [hslots]
        split
        · rename_i heq
          rw [heq]
          exact Nat.le_of_lt hdrop
        · exact Nat.le_refl _
      · rw [hslots, if_pos rfl]
        exact hdrop
    omega

theorem TraceLoop.Running.propagate_same (h : loop.Running editor) (hwork : work.slots.Fits editor) {target : Nat}
    (htarget : target < editor.instructions.items.length)
    (hdepth : ∀ old, loop.slotsAt target = some old → old.stack.length = work.stack.length) :
    loop.GoesOn editor (Jni2Hook.propagate work loop target) := by
  have hlt : target < loop.states.length := by rw [h.length]; exact htarget
  have hslots := slotsAt_propagate hdepth hlt
  obtain ⟨hfound, hambiguous⟩ := found_propagate hdepth
  obtain ⟨hfits, hle, -⟩ := h.mergedSlots_spec hwork hdepth
  refine ⟨⟨(length_propagate hdepth).trans h.length, h.queues.propagate hdepth hlt, fun t s hs => ?_⟩,
    ⟨fun t s hs => ?_, fun a ha => ?_⟩, h.cost_propagate hwork htarget hdepth⟩
  · rw [hslots] at hs
    split at hs
    · cases hs
      exact hfits
    · exact h.fits t s hs
  · rw [hslots]
    split
    · rename_i heq
      rw [heq] at hs
      exact ⟨_, rfl, hle s hs⟩
    · exact ⟨s, hs, .refl s⟩
  · rw [TraceLoop.Recorded, hfound, hambiguous]
    exact ha

theorem TraceLoop.Running.propagate (h : loop.Running editor) (hwork : work.slots.Fits editor) {target : Nat}
    (htarget : target < editor.instructions.items.length) :
    loop.GoesOn editor (Jni2Hook.propagate work loop target) := by
  by_cases hdepth : ∀ old, loop.slotsAt target = some old → old.stack.length = work.stack.length
  · exact h.propagate_same hwork htarget hdepth
  · push Not at hdepth
    obtain ⟨old, hold, hne⟩ := hdepth
    rw [propagate_of_depth_ne hold hne]
    exact .refl h

theorem TraceLoop.Running.propagateAll {targets : List Nat} (h : loop.Running editor) (hwork : work.slots.Fits editor)
    (htargets : ∀ t ∈ targets, t < editor.instructions.items.length) :
    loop.GoesOn editor (targets.foldl (Jni2Hook.propagate work) loop) := by
  induction targets generalizing loop with
  | nil => exact .refl h
  | cons target rest ih =>
    have hstep := h.propagate hwork (htargets target List.mem_cons_self)
    exact hstep.trans (ih hstep.running fun t ht => htargets t (List.mem_cons_of_mem target ht))

/-- Recording a call changes nothing else. -/
theorem TraceLoop.goesOn_recordFound (h : loop.Running editor) (after : Nat) :
    loop.GoesOn editor (recordFound loop after) := by
  have hq := h.queues
  unfold recordFound
  split
  · rename_i hnone
    refine ⟨⟨h.length, ⟨hq.cells, hq.head, hq.tail, hq.nodup, hq.mem⟩, h.fits⟩,
      ⟨(TraceLoop.Grew.refl loop).slots, ?_⟩, Nat.le_refl _⟩
    rintro a (ha | ha)
    · rw [hnone] at ha
      cases ha
    · exact .inr ha
  · split
    · exact ⟨⟨h.length, ⟨hq.cells, hq.head, hq.tail, hq.nodup, hq.mem⟩, h.fits⟩,
        ⟨(TraceLoop.Grew.refl loop).slots, fun _ _ => .inr rfl⟩, Nat.le_refl _⟩
    · exact .refl h

theorem TraceLoop.Running.visit (h : loop.Running editor) (index : Nat) :
    loop.GoesOn editor (traceVisit cf editor loop index) := by
  unfold traceVisit
  split
  · rename_i node slots hnode hslots
    split
    · exact goesOn_recordFound h _
    · split
      · exact .refl h
      · rename_i work hexecute
        exact h.propagateAll ((h.fits index slots hslots).executeSlots hexecute) fun t ht =>
          lt_of_mem_traceSuccessors ht
  · exact .refl h

/-- Taking an index off the queue is paid for. -/
theorem TraceLoop.Running.dequeue (h : loop.Running editor) (hpending : loop.pending ≠ 0) :
    (dequeue loop).2.Running editor ∧ (Jni2Hook.dequeue loop).2.cost editor + 1 = loop.cost editor := by
  obtain ⟨hqueues, -, hcount⟩ := h.queues.dequeue hpending
  refine ⟨⟨?_, hqueues, fun t s hs => ?_⟩, ?_⟩
  · simp [Jni2Hook.dequeue, h.length]
  · rw [slotsAt_dequeue] at hs
    exact h.fits t s hs
  · unfold TraceLoop.cost
    simp only [slotsAt_dequeue]
    omega

end Invariant

/-- One iteration of the loop. -/
def traceRound (cf : ClassFile) (editor : CodeEditor) (loop : TraceLoop) : TraceLoop :=
  traceVisit cf editor (dequeue loop).2 (dequeue loop).1

/-- An iteration keeps the invariant, loses no flag, and costs one. -/
theorem TraceLoop.Running.round {editor : CodeEditor} {loop : TraceLoop} (h : loop.Running editor) (cf : ClassFile)
    (hpending : loop.pending ≠ 0) : (traceRound cf editor loop).Running editor ∧ loop.Grew (traceRound cf editor loop) ∧
      (traceRound cf editor loop).cost editor < loop.cost editor := by
  obtain ⟨hrunning, hcost⟩ := h.dequeue hpending
  have hvisit := @TraceLoop.Running.visit cf _ _ hrunning (Jni2Hook.dequeue loop).1
  refine ⟨hvisit.running, loop.grew_dequeue.trans hvisit.grew, ?_⟩
  have := hvisit.cost
  unfold traceRound
  omega

/-! ## The first state -/

section Initial

variable {editor : CodeEditor}

theorem slotsAt_initialLoop (t : Nat) : (initialLoop editor).slotsAt t =
    if t = 0 then some ⟨entryLocals editor.maxLocals.toNat, []⟩ else none := by
  cases t with
  | zero => rfl
  | succ t =>
    simp only [initialLoop, TraceLoop.slotsAt, List.getD_cons_succ, Nat.succ_ne_zero, if_false]
    rw [List.getD_eq_getElem?_getD, List.getElem?_replicate]
    split <;> rfl

theorem queuedAt_initialLoop (t : Nat) : (initialLoop editor).queuedAt t = decide (t = 0) := by
  cases t with
  | zero => rfl
  | succ t =>
    simp only [initialLoop, TraceLoop.queuedAt, List.getD_cons_succ, Nat.succ_ne_zero, decide_false]
    rw [List.getD_eq_getElem?_getD, List.getElem?_replicate]
    split <;> rfl

theorem fits_entryLocals (hlocals : 0 < editor.maxLocals.toNat) :
    TraceSlots.Fits editor ⟨entryLocals editor.maxLocals.toNat, []⟩ := by
  refine ⟨?_, Nat.zero_le _, fun x hx => ?_, fun x hx => ?_⟩
  · simp only [entryLocals, List.length_cons, List.length_replicate]
    omega
  · rcases List.mem_cons.mp hx with rfl | hx
    · decide
    · rw [List.eq_of_mem_replicate hx]
      decide
  · cases hx

theorem queues_initialLoop (hcount : 0 < editor.instructions.items.length) :
    (initialLoop editor).states.length = editor.instructions.items.length ∧ (initialLoop editor).Queues := by
  have hlength : (initialLoop editor).states.length = editor.instructions.items.length := by
    simp only [initialLoop, List.length_cons, List.length_replicate]
    omega
  have hcells : (initialLoop editor).queue.length = editor.instructions.items.length := List.length_replicate
  have hentries : ringEntries (initialLoop editor).queue (initialLoop editor).head
    (initialLoop editor).pending 0 = [0] := by
    show [(List.replicate editor.instructions.items.length 0).getD _ 0] = [0]
    rw [List.getD_eq_getElem?_getD, List.getElem?_replicate]
    split <;> rfl
  refine ⟨hlength, hcells.trans hlength.symm, by rw [hlength]; exact hcount, ?_, ?_, fun t => ?_⟩
  · rw [hcells]
    rfl
  · rw [hentries]
    exact List.nodup_singleton 0
  · rw [hentries, queuedAt_initialLoop, List.mem_singleton, decide_eq_true_eq]

theorem running_initialLoop (hlocals : 0 < editor.maxLocals.toNat) (hcount : 0 < editor.instructions.items.length) :
    (initialLoop editor).Running editor := by
  obtain ⟨hlength, hqueues⟩ := queues_initialLoop hcount
  refine ⟨hlength, hqueues, fun t s hs => ?_⟩
  rw [slotsAt_initialLoop] at hs
  split at hs
  · cases hs
    exact fits_entryLocals hlocals
  · cases hs

theorem cost_initialLoop (hlocals : 0 < editor.maxLocals.toNat) (hcount : 0 < editor.instructions.items.length) :
    (initialLoop editor).cost editor <
      editor.instructions.items.length * (editor.maxLocals.toNat + editor.maxStack.toNat + 1) + 1 := by
  obtain ⟨n, hn⟩ := Nat.exists_eq_succ_of_ne_zero (Nat.ne_of_gt hcount)
  have hentry : stateCost editor (some ⟨entryLocals editor.maxLocals.toNat, []⟩) ≤ editor.maxLocals.toNat := by
    have := sum_slotCost_le (entryLocals editor.maxLocals.toNat)
    simp only [entryLocals, List.length_cons, List.length_replicate] at this
    simp only [stateCost, TraceSlots.cost, entryLocals, List.map_nil, List.sum_nil]
    omega
  have hsum : ∑ t ∈ Finset.range editor.instructions.items.length, stateCost editor ((initialLoop editor).slotsAt t) =
      n * (editor.maxLocals.toNat + editor.maxStack.toNat + 1) +
        stateCost editor (some ⟨entryLocals editor.maxLocals.toNat, []⟩) := by
    rw [hn, Finset.sum_range_succ']
    simp only [slotsAt_initialLoop, Nat.add_eq_zero_iff, one_ne_zero, and_false, if_false, if_true, Finset.sum_const,
      Finset.card_range, nsmul_eq_mul, Nat.cast_id, stateCost]
  have hpending : (initialLoop editor).pending = 1 := rfl
  rw [TraceLoop.cost, hsum, hpending, hn, Nat.succ_mul]
  omega

end Initial

/-! ## Runs -/

/-- The loop, once it is entered, after so many iterations. -/
inductive TraceRun (cf : ClassFile) (editor : CodeEditor) : Nat → TraceLoop → Prop
  | start : editor.instructions.items.length ≠ 0 → editor.maxLocals ≠ 0 → TraceRun cf editor 0 (initialLoop editor)
  | round {n : Nat} {loop : TraceLoop} : TraceRun cf editor n loop → loop.pending ≠ 0 →
      TraceRun cf editor (n + 1) (traceRound cf editor loop)

section Runs

variable {cf : ClassFile} {editor : CodeEditor} {n : Nat} {loop : TraceLoop}

theorem TraceRun.entered (h : TraceRun cf editor n loop) :
    0 < editor.maxLocals.toNat ∧ 0 < editor.instructions.items.length := by
  induction h with
  | start hcount hlocals =>
    have hne : editor.maxLocals.toNat ≠ 0 := fun hzero => hlocals (UInt16.toNat_inj.mp hzero)
    omega
  | round _ _ ih => exact ih

/-- The invariant after any number of iterations, each of which was paid for. -/
theorem TraceRun.running (h : TraceRun cf editor n loop) :
    loop.Running editor ∧ n + loop.cost editor ≤ (initialLoop editor).cost editor := by
  induction h with
  | start hcount hlocals =>
    have hstart : TraceRun cf editor 0 (initialLoop editor) := .start hcount hlocals
    obtain ⟨hl, hc⟩ := hstart.entered
    exact ⟨running_initialLoop hl hc, by omega⟩
  | round _ hpending ih =>
    obtain ⟨hrunning, hcost⟩ := ih
    obtain ⟨hrunning', -, hless⟩ := hrunning.round cf hpending
    exact ⟨hrunning', by omega⟩

theorem TraceRun.unique {loop' : TraceLoop} (h : TraceRun cf editor n loop) (h' : TraceRun cf editor n loop') :
    loop = loop' := by
  induction h generalizing loop' with
  | start => cases h'; rfl
  | round _ _ ih =>
    cases h' with
    | round run _ => rw [ih run]

/-- States only gain flags from one iteration to any later one. -/
theorem TraceRun.grew {m : Nat} {later : TraceLoop} (h : TraceRun cf editor n loop) (h' : TraceRun cf editor m later)
    (hle : n ≤ m) : loop.Grew later := by
  induction h' with
  | start hcount hlocals =>
    cases Nat.le_zero.mp hle
    rw [h.unique (.start hcount hlocals)]
    exact .refl _
  | @round m later run hpending ih =>
    rcases Nat.lt_or_eq_of_le hle with hlt | rfl
    · exact (ih (Nat.le_of_lt_succ hlt)).trans (run.running.1.round cf hpending).2.1
    · rw [h.unique (.round run hpending)]
      exact .refl _

/-- The loop of the model is the end of a run. -/
theorem TraceRun.traceLoop {fuel : Nat} (h : TraceRun cf editor n loop) (hfuel : loop.cost editor < fuel) :
    ∃ m, TraceRun cf editor m (traceLoop cf editor fuel loop) ∧
      (Jni2Hook.traceLoop cf editor fuel loop).pending = 0 := by
  induction fuel generalizing n loop with
  | zero => omega
  | succ fuel ih =>
    unfold Jni2Hook.traceLoop
    by_cases hpending : loop.pending = 0
    · rw [if_pos hpending]
      exact ⟨n, h, hpending⟩
    · rw [if_neg hpending]
      have hless := (h.running.1.round cf hpending).2.2
      exact ih (h.round hpending) (Nat.lt_of_lt_of_le hless (Nat.le_of_lt_succ hfuel))

end Runs

/-- What the loop answers when it ends. -/
def TraceLoop.answer (loop : TraceLoop) : ConstructorInitResult :=
  if loop.ambiguous then .ambiguous
  else match loop.found with
    | none => .missing
    | some offset => .found offset

/-- **The worklist keeps within its queue, and it empties.** On any code, after any number of iterations the queue holds
distinct instructions, exactly those with the flag, and never more than there are; the slots of a reached instruction
fit the method and only gain flags. No run is longer than the flags can grow, and the answer is that of a run to the
end. -/
theorem constructor_worklist_runs (cf : ClassFile) (editor : CodeEditor) :
    (∀ n loop, TraceRun cf editor n loop →
      (ringEntries loop.queue loop.head loop.pending 0).Nodup ∧
      (∀ t ∈ ringEntries loop.queue loop.head loop.pending 0, t < editor.instructions.items.length) ∧
      (∀ t, t ∈ ringEntries loop.queue loop.head loop.pending 0 ↔ loop.queuedAt t = true) ∧
      loop.queue.length = editor.instructions.items.length ∧ loop.head < editor.instructions.items.length ∧
      loop.tail < editor.instructions.items.length ∧ loop.pending ≤ editor.instructions.items.length ∧
      (∀ t s, loop.slotsAt t = some s →
        s.locals.length = editor.maxLocals.toNat ∧ s.stack.length ≤ editor.maxStack.toNat) ∧
      (∀ m later, TraceRun cf editor m later → n ≤ m →
        ∀ t s, loop.slotsAt t = some s → ∃ s', later.slotsAt t = some s' ∧ s.Le s') ∧
      n ≤ editor.instructions.items.length * (editor.maxLocals.toNat + editor.maxStack.toNat + 1)) ∧
    (editor.instructions.items.length ≠ 0 → editor.maxLocals ≠ 0 → ∃ n loop, TraceRun cf editor n loop ∧
      loop.pending = 0 ∧ constructorInitOffset cf editor = loop.answer) := by
  refine ⟨fun n loop hrun => ?_, fun hcount hlocals => ?_⟩
  · obtain ⟨hrunning, hcost⟩ := hrun.running
    obtain ⟨hl, hc⟩ := hrun.entered
    have hbound := cost_initialLoop hl hc
    have hentries : ∀ t ∈ ringEntries loop.queue loop.head loop.pending 0, t < editor.instructions.items.length := by
      intro t ht
      rw [← hrunning.length]
      exact lt_of_queuedAt ((hrunning.queues.mem t).mp ht)
    have hpending : loop.pending ≤ editor.instructions.items.length := by
      have hsubset := List.subperm_of_subset hrunning.queues.nodup fun t ht => List.mem_range.mpr (hentries t ht)
      simpa using hsubset.length_le
    have hcells := hrunning.queues.cells.trans hrunning.length
    have hhead : loop.head < editor.instructions.items.length := hrunning.length ▸ hrunning.queues.head
    have htail : loop.tail < editor.instructions.items.length := by
      rw [hrunning.queues.tail, hcells]
      exact Nat.mod_lt _ hc
    exact ⟨hrunning.queues.nodup, hentries, hrunning.queues.mem, hcells, hhead, htail, hpending,
      fun t s hs => ⟨(hrunning.fits t s hs).locals, (hrunning.fits t s hs).stack⟩,
      fun m later hlater hle => (hrun.grew hlater hle).slots, by omega⟩
  · have hstart : TraceRun cf editor 0 (initialLoop editor) := .start hcount hlocals
    obtain ⟨hl, hc⟩ := hstart.entered
    obtain ⟨n, hend, hpending⟩ := hstart.traceLoop (cost_initialLoop hl hc)
    refine ⟨n, _, hend, hpending, ?_⟩
    unfold constructorInitOffset
    rw [if_neg (by tauto)]
    rfl

/-- `aload_0; goto 0`, whose second way into the loop has a deeper stack. -/
def unevenLoop : CodeEditor :=
  ⟨1, 1, ⟨[⟨0, Opc.aload_0, false, .none⟩, ⟨1, Opc.goto, false, .branch 0⟩], 4⟩, [], none, none, none, none, [], []⟩

/-- A class without constants. -/
def bareClass : ClassFile := ⟨0, 52, ⟨[]⟩, 0x21, 0, 0, [], [], [], []⟩

theorem constructor_worklist_runs_uneven :
    (traceRound bareClass unevenLoop (initialLoop unevenLoop)).pending ≤ 2 ∧
      ∃ n loop, TraceRun bareClass unevenLoop n loop ∧ loop.pending = 0 ∧ loop.answer = .missing := by
  obtain ⟨hruns, hends⟩ := constructor_worklist_runs bareClass unevenLoop
  have hstart : TraceRun bareClass unevenLoop 0 (initialLoop unevenLoop) := .start (by decide) (by decide)
  obtain ⟨-, -, -, -, -, -, hpending, -⟩ := hruns 1 _ (hstart.round (by decide))
  obtain ⟨n, loop, hrun, hidle, hanswer⟩ := hends (by decide) (by decide)
  refine ⟨hpending, n, loop, hrun, hidle, ?_⟩
  rw [← hanswer]
  decide +kernel

end Jni2Hook
