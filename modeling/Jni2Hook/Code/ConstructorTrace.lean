import Jni2Hook.ClassFile.PoolGrowth
import Jni2Hook.Code.ConstructorInit
import Mathlib.Data.List.Forall2

/-!
# Typings of a constructor

The trace of `constructor_init.c` merges what reaches an instruction on different paths. A typing assigns to each
instruction slots that cover everything that reaches it, as the frames of a verified body do: in a body with a typing in
which one call alone receives `this`, the trace finds no other call.

* `mem_traceSuccessors`: where the trace goes from an instruction.
* `SlotLe`, `Steps`: executing an instruction respects the inclusion of slots.
* `TraceTyping`: the typings.
* `TraceTyping.found`: what the trace finds is the typed call.
-/

namespace Jni2Hook

/-! ## Where the trace goes -/

/-- Every target of an instruction. -/
def Operand.allTargets : Operand → List Int
  | .branch target | .branchWide target => [target]
  | .tableSwitch defaultTarget _ _ targets => defaultTarget :: targets
  | .lookupSwitch defaultTarget pairs => defaultTarget :: pairs.map (·.target)
  | _ => []

/-- The trace goes on to the next instruction. -/
def flowsOn (node : Instruction) : Bool :=
  match node.operand with
  | .branch _ | .branchWide _ => !isUnconditional node.opcode
  | .tableSwitch .. | .lookupSwitch .. => false
  | _ => !isTerminal node

theorem mem_nextIndex {items : List Instruction} {i t : Nat} :
    t ∈ nextIndex items i ↔ i + 1 < items.length ∧ t = i + 1 := by
  unfold nextIndex
  split
  · simp [*]
  · simp [*]

theorem mem_traceSuccessors {items : List Instruction} {i t : Nat} {node : Instruction} :
    t ∈ traceSuccessors items i node ↔ (∃ v ∈ node.operand.allTargets, instructionIndexAt items v = some t) ∨
      flowsOn node = true ∧ i + 1 < items.length ∧ t = i + 1 := by
  obtain ⟨offset, opcode, wide, operand⟩ := node
  cases operand with
  | branch target | branchWide target =>
    simp only [traceSuccessors, Operand.allTargets, flowsOn]
    cases isUnconditional opcode <;> simp [mem_nextIndex]
  | tableSwitch d low high targets => simp [traceSuccessors, Operand.allTargets, flowsOn]
  | lookupSwitch d pairs => simp [traceSuccessors, Operand.allTargets, flowsOn]
  | _ =>
    simp only [traceSuccessors, Operand.allTargets, flowsOn]
    split <;> simp_all [mem_nextIndex]

/-! ## Inclusion of slots -/

/-- A slot that may hold something, and nothing that the other may not hold. -/
def SlotLe (x y : UInt8) : Prop := x ≠ 0 ∧ x ||| y = y

/-- What a trace has at an instruction is covered, slot by slot. -/
structure TraceSlots.Within (s t : TraceSlots) : Prop where
  locals : List.Forall₂ SlotLe s.locals t.locals
  stack : List.Forall₂ SlotLe s.stack t.stack

/-- Slots with their flags among those of the others. -/
def SlotsSubset (a b : List UInt8) : Prop := List.Forall₂ (fun x y : UInt8 => x ||| y = y) a b

/-- One typing entry covers another. -/
structure TraceSlots.Le (s t : TraceSlots) : Prop where
  locals : SlotsSubset s.locals t.locals
  stack : SlotsSubset s.stack t.stack

/-- What the work of a round leaves behind. -/
def TraceWork.slots (work : TraceWork) : TraceSlots := ⟨work.locals, work.stack⟩

theorem SlotsSubset.refl (a : List UInt8) : SlotsSubset a a := List.forall₂_same.mpr fun _ _ => UInt8.or_self

theorem TraceSlots.Le.refl (s : TraceSlots) : s.Le s := ⟨.refl _, .refl _⟩

theorem SlotLe.trans {x y z : UInt8} (h : SlotLe x y) (h' : y ||| z = z) : SlotLe x z :=
  ⟨h.1, by rw [← h', ← UInt8.or_assoc, h.2]⟩

theorem forall₂_slotLe_trans {a b c : List UInt8} (h : List.Forall₂ SlotLe a b) (h' : SlotsSubset b c) :
    List.Forall₂ SlotLe a c := by
  induction h generalizing c with
  | nil =>
    cases h'
    exact .nil
  | cons hx _ ih =>
    cases h' with
    | cons hy hrest => exact .cons (hx.trans hy) (ih hrest)

theorem TraceSlots.Within.trans {s t u : TraceSlots} (h : s.Within t) (h' : t.Le u) : s.Within u :=
  ⟨forall₂_slotLe_trans h.locals h'.locals, forall₂_slotLe_trans h.stack h'.stack⟩

theorem SlotLe.or {x y z : UInt8} (hx : SlotLe x z) (hy : SlotLe y z) : SlotLe (x ||| y) z := by
  refine ⟨fun h => hx.1 (UInt8.or_eq_zero_iff.mp h).1, ?_⟩
  rw [UInt8.or_assoc, hy.2, hx.2]

theorem forall₂_mergeSlots {a b c : List UInt8} (ha : List.Forall₂ SlotLe a c) (hb : List.Forall₂ SlotLe b c) :
    List.Forall₂ SlotLe (mergeSlots a b) c := by
  induction ha generalizing b with
  | nil =>
    cases hb
    exact .nil
  | cons hx _ ih =>
    cases hb with
    | cons hy hrest => exact .cons (hx.or hy) (ih hrest)

theorem getD_slotLe {a b : List UInt8} (h : List.Forall₂ SlotLe a b) {i : Nat} (hi : i < a.length) :
    SlotLe (a.getD i 0) (b.getD i 0) := by
  have hlen := h.length_eq
  rw [List.getD_eq_getElem _ _ hi, List.getD_eq_getElem _ _ (by omega)]
  exact (List.forall₂_iff_get.mp h).2 i hi (by omega)

theorem forall₂_replicate_slotLe {x y : UInt8} (h : SlotLe x y) (n : Nat) :
    List.Forall₂ SlotLe (List.replicate n x) (List.replicate n y) := by
  induction n with
  | zero => exact .nil
  | succ n ih => exact .cons h ih

theorem slotLe_other : SlotLe traceOther traceOther := ⟨by decide, by decide⟩

/-! ## Executing respects the inclusion -/

/-- The same stack bound, and covered slots. -/
structure TraceWork.Within (w w' : TraceWork) : Prop where
  locals : List.Forall₂ SlotLe w.locals w'.locals
  stack : List.Forall₂ SlotLe w.stack w'.stack
  maxStack : w.maxStack = w'.maxStack

/-- What a step makes of covered slots is covered by what it makes of the covering ones. -/
def Steps (f : TraceWork → Option TraceWork) : Prop :=
  ∀ w w' : TraceWork, w.Within w' → ∀ v, f w = some v → ∃ v', f w' = some v' ∧ v.Within v'

theorem Steps.ite {c : Prop} [Decidable c] {f g : TraceWork → Option TraceWork} (hf : Steps f) (hg : Steps g) :
    Steps fun w => if c then f w else g w := by
  intro w w' h v hv
  dsimp only at hv ⊢
  split at hv
  · rename_i hc
    rw [if_pos hc]
    exact hf w w' h v hv
  · rename_i hc
    rw [if_neg hc]
    exact hg w w' h v hv

theorem Steps.bind {f g : TraceWork → Option TraceWork} (hf : Steps f) (hg : Steps g) : Steps fun w => f w >>= g := by
  intro w w' h v hv
  obtain ⟨u, hu, hv⟩ := Option.bind_eq_some_iff.mp hv
  obtain ⟨u', hu', hle⟩ := hf w w' h u hu
  obtain ⟨v', hv', hle'⟩ := hg u u' hle v hv
  exact ⟨v', Option.bind_eq_some_iff.mpr ⟨u', hu', hv'⟩, hle'⟩

theorem steps_none : Steps fun _ => none := fun _ _ _ _ h => nomatch h

theorem steps_some : Steps some := by
  intro w w' h v hv
  cases hv
  exact ⟨w', rfl, h⟩

theorem steps_popSlots (count : Nat) : Steps fun w => popSlots w count := by
  intro w w' h v hv
  have hlen := h.stack.length_eq
  simp only [popSlots] at hv ⊢
  split at hv
  · cases hv
  · cases hv
    rw [if_neg (by omega)]
    exact ⟨_, rfl, h.locals, by rw [← hlen]; exact List.forall₂_take _ h.stack, h.maxStack⟩

/-- Pushing a slot that may differ between the two. -/
theorem pushSlot_within {w w' v : TraceWork} {x x' : UInt8} (h : w.Within w') (hx : SlotLe x x')
    (hv : pushSlot w x = some v) : ∃ v', pushSlot w' x' = some v' ∧ v.Within v' := by
  have hlen := h.stack.length_eq
  unfold pushSlot at hv ⊢
  split at hv
  · cases hv
  · cases hv
    rw [if_neg (by rw [← hlen, ← h.maxStack]; assumption)]
    exact ⟨_, rfl, h.locals, List.rel_append h.stack (.cons hx .nil), h.maxStack⟩

theorem steps_pushOther (count : Nat) : Steps fun w => pushOther w count := by
  induction count with
  | zero => exact steps_some
  | succ count ih =>
    have push : Steps fun w => pushSlot w traceOther := fun _ _ h _ hv => pushSlot_within h slotLe_other hv
    exact push.bind ih

theorem steps_replaceSlots (popped pushed : Nat) : Steps fun w => replaceSlots w popped pushed :=
  (steps_popSlots popped).bind (steps_pushOther pushed)

theorem steps_loadLocal (index width : Nat) (reference : Bool) :
    Steps fun w => loadLocal w index width reference := by
  intro w w' h v hv
  have hlen := h.locals.length_eq
  simp only [loadLocal] at hv ⊢
  split at hv
  · cases hv
  · rename_i hin
    rw [if_neg (by rw [← hlen]; exact hin)]
    cases reference with
    | true => exact pushSlot_within h (getD_slotLe h.locals (by omega)) hv
    | false => exact steps_pushOther width w w' h v hv

theorem steps_storeLocal (index width : Nat) (reference : Bool) (hwidth : 0 < width) :
    Steps fun w => storeLocal w index width reference := by
  intro w w' h v hv
  have hlen := h.locals.length_eq
  have hdepth := h.stack.length_eq
  simp only [storeLocal] at hv ⊢
  split at hv
  · cases hv
  · rename_i hin
    rw [if_neg (by rw [← hlen, ← hdepth]; exact hin)]
    obtain ⟨popped, hp, hv⟩ := Option.bind_eq_some_iff.mp hv
    obtain ⟨popped', hp', hle⟩ := steps_popSlots width w w' h popped hp
    cases hv
    refine ⟨_, Option.bind_eq_some_iff.mpr ⟨popped', hp', rfl⟩, ?_, hle.stack, hle.maxStack⟩
    have value : SlotLe (if reference then w.stack.getD (w.stack.length - 1) 0 else traceOther)
        (if reference then w'.stack.getD (w'.stack.length - 1) 0 else traceOther) := by
      cases reference with
      | true =>
        have := getD_slotLe h.stack (i := w.stack.length - 1) (by omega)
        rwa [hdepth] at this ⊢
      | false => exact slotLe_other
    refine List.rel_append (List.forall₂_take _ hle.locals) (List.rel_append ?_ (List.forall₂_drop _ hle.locals))
    exact forall₂_replicate_slotLe value width

theorem steps_duplicateSlots (copied below : Nat) : Steps fun w => duplicateSlots w copied below := by
  intro w w' h v hv
  have hdepth := h.stack.length_eq
  simp only [duplicateSlots] at hv ⊢
  split at hv
  · cases hv
  · rename_i hroom
    rw [if_neg (by rw [← hdepth, ← h.maxStack]; exact hroom)]
    cases hv
    refine ⟨_, rfl, h.locals, ?_, h.maxStack⟩
    dsimp only
    rw [← hdepth]
    exact List.rel_append (List.forall₂_take _ h.stack)
      (List.rel_append (List.forall₂_drop _ h.stack) (List.forall₂_drop _ h.stack))

theorem steps_swapSlots : Steps swapSlots := by
  intro w w' h v hv
  have hdepth := h.stack.length_eq
  unfold swapSlots at hv ⊢
  split at hv
  · cases hv
  · rename_i htwo
    rw [if_neg (by rw [← hdepth]; exact htwo)]
    cases hv
    refine ⟨_, rfl, h.locals, ?_, h.maxStack⟩
    dsimp only
    rw [← hdepth]
    exact List.rel_append (List.forall₂_take _ h.stack) (List.rel_reverse (List.forall₂_drop _ h.stack))

theorem steps_executeField (cf : ClassFile) (opcode : Nat) (node : Instruction) :
    Steps (executeField cf opcode node) := by
  unfold executeField
  cases memberDescriptor cf.constantPool node.operand.memberIndex with
  | none => exact steps_none
  | some slots =>
    exact Steps.ite (steps_pushOther _) (Steps.ite (steps_popSlots _) (Steps.ite (steps_replaceSlots _ _)
      (steps_popSlots _)))

theorem steps_executeInvoke (cf : ClassFile) (opcode : Nat) (node : Instruction) :
    Steps (executeInvoke cf opcode node) := by
  unfold executeInvoke
  cases memberDescriptor cf.constantPool node.operand.memberIndex with
  | none => exact steps_none
  | some slots => exact steps_replaceSlots _ _

theorem steps_needsOne : Steps fun w => if w.stack.length ≠ 0 then some w else none := by
  intro w w' h v hv
  have hdepth := h.stack.length_eq
  dsimp only at hv ⊢
  rw [← hdepth]
  split at hv
  · rename_i hone
    rw [if_pos hone]
    exact steps_some w w' h v hv
  · cases hv

theorem steps_executeSlots (cf : ClassFile) (node : Instruction) : Steps (executeSlots cf node) := by
  have width (c : Prop) [Decidable c] : 0 < if c then 2 else 1 := by split <;> omega
  unfold executeSlots
  dsimp only
  repeat' apply Steps.ite
  all_goals first
    | exact steps_some
    | exact steps_none
    | exact steps_pushOther _
    | exact steps_popSlots _
    | exact steps_replaceSlots _ _
    | exact steps_loadLocal _ _ _
    | exact steps_storeLocal _ _ _ (width _)
    | exact steps_duplicateSlots _ _
    | exact steps_swapSlots
    | exact steps_executeField cf _ node
    | exact steps_executeInvoke cf _ node
    | exact steps_needsOne

/-! ## Typings -/

/-- The instructions whose effect is read off a constant of the pool. -/
def readsMember (node : Instruction) : Bool := 178 ≤ node.opcode.toNat && node.opcode.toNat ≤ 186

/-- The slot that an initialising call consumes. -/
def consumedSlot (arguments : Nat) (stack : List UInt8) : UInt8 := stack.getD (stack.length - arguments - 1) 0

/-- Slots for the instructions of a constructor that cover everything that reaches them, on an operand stack of
`maxStack` slots or more. Every call of a constructor receives `this` always or never, and only the instruction of index
`call` receives it; that one is not the last instruction. -/
structure TraceTyping (cf : ClassFile) (list : InstructionList) (maxLocals maxStack call : Nat)
    (types : Nat → Option TraceSlots) : Prop where
  entry : ∃ s, types 0 = some s ∧ TraceSlots.Within ⟨entryLocals maxLocals, []⟩ s
  step : ∀ {i node s}, list.items[i]? = some node → types i = some s → initializes cf node s.stack = none →
    ∀ m work, maxStack ≤ m → executeSlots cf node ⟨s.locals, s.stack, m⟩ = some work →
      ∀ t ∈ traceSuccessors list.items i node, ∃ s', types t = some s' ∧ work.slots.Le s'
  resolved : ∀ {i node s}, list.items[i]? = some node → types i = some s → initializes cf node s.stack = none →
    readsMember node = true → (memberDescriptor cf.constantPool node.operand.memberIndex).isSome = true
  uniform : ∀ {i node s arguments}, list.items[i]? = some node → types i = some s →
    isInitializingCall cf node = some arguments → arguments.toNat < s.stack.length →
      consumedSlot arguments.toNat s.stack = traceThis ∨ consumedSlot arguments.toNat s.stack &&& traceThis = 0
  only : ∀ {i node s a}, list.items[i]? = some node → types i = some s → initializes cf node s.stack = some a →
    i = call
  inside : call + 1 < list.items.length

theorem initializes_eq_some {cf : ClassFile} {node : Instruction} {stack : List UInt8} {a : Nat} :
    initializes cf node stack = some a ↔ ∃ arguments, isInitializingCall cf node = some arguments ∧
      consumesThis arguments.toNat stack = true ∧ u4 (node.offset + instructionLengthAt node node.offset) = a := by
  unfold initializes
  cases isInitializingCall cf node with
  | none => simp
  | some arguments => simp

theorem consumesThis_iff {arguments : Nat} {stack : List UInt8} : consumesThis arguments stack = true ↔
    arguments < stack.length ∧ consumedSlot arguments stack = traceThis := by
  simp [consumesThis, consumedSlot]

/-- A slot that holds nothing but `this` is covered by one that may hold `this`. -/
theorem SlotLe.of_this {y : UInt8} (h : SlotLe traceThis y) : y &&& traceThis ≠ 0 := by
  obtain ⟨-, hor⟩ := h
  obtain ⟨v⟩ := y
  revert v
  decide

/-- A slot that is covered by `this` holds nothing else. -/
theorem SlotLe.eq_this {x : UInt8} (h : SlotLe x traceThis) : x = traceThis := by
  obtain ⟨hne, hor⟩ := h
  obtain ⟨v⟩ := x
  revert v
  decide

section Sound

variable {cf : ClassFile} {list : InstructionList} {maxLocals maxStack call : Nat} {types : Nat → Option TraceSlots}

/-- The typing and the trace agree on which instruction is the call. -/
theorem TraceTyping.initializes_iff (h : TraceTyping cf list maxLocals maxStack call types) {i : Nat}
    {node : Instruction}
    {s s' : TraceSlots} (hnode : list.items[i]? = some node) (htype : types i = some s') (hle : s.Within s') :
    initializes cf node s.stack = initializes cf node s'.stack := by
  have hdepth := hle.stack.length_eq
  unfold initializes
  cases hcall : isInitializingCall cf node with
  | none => rfl
  | some arguments =>
    have hsame : consumesThis arguments.toNat s.stack = consumesThis arguments.toNat s'.stack := by
      rw [Bool.eq_iff_iff, consumesThis_iff, consumesThis_iff, ← hdepth]
      refine and_congr_right fun hlt => ?_
      have hslot : SlotLe (consumedSlot arguments.toNat s.stack) (consumedSlot arguments.toNat s'.stack) := by
        unfold consumedSlot
        rw [← hdepth]
        exact getD_slotLe hle.stack (by omega)
      constructor
      · intro hthis
        rw [hthis] at hslot
        rcases h.uniform hnode htype hcall (by omega) with huniform | huniform
        · exact huniform
        · exact absurd huniform hslot.of_this
      · intro hthis
        rw [hthis] at hslot
        exact hslot.eq_this
    dsimp only
    rw [hsame]

/-- What the loop has reached is covered by the typing, and what it has found are calls that the typing gives `this`. -/
structure TraceLoop.Covered (cf : ClassFile) (list : InstructionList) (types : Nat → Option TraceSlots)
    (loop : TraceLoop) : Prop where
  states : ∀ t s, (loop.states.getD t {}).slots = some s → ∃ s', types t = some s' ∧ s.Within s'
  found : ∀ a, loop.found = some a → ∃ (i : Nat) (node : Instruction) (s : TraceSlots),
    list.items[i]? = some node ∧ types i = some s ∧ initializes cf node s.stack = some a

theorem getD_set {α : Type} (l : List α) (i j : Nat) (a d : α) :
    (l.set i a).getD j d = if i = j ∧ i < l.length then a else l.getD j d := by
  rw [List.getD_eq_getElem?_getD, List.getElem?_set, List.getD_eq_getElem?_getD]
  by_cases hij : i = j
  · subst hij
    by_cases hlt : i < l.length
    · simp [hlt]
    · simp [hlt]
  · simp [hij]

theorem mergeState_within {state : TraceState} {work : TraceWork} {s s' : TraceSlots} (hwork : work.slots.Within s')
    (hstate : ∀ old, state.slots = some old → old.Within s') (hs : (mergeState state work).1.slots = some s) :
    s.Within s' := by
  unfold mergeState at hs
  split at hs
  · cases hs
    exact hwork
  · rename_i old hold
    split at hs
    · exact hstate s hs
    · cases hs
      have hw := hstate old hold
      exact ⟨forall₂_mergeSlots hw.locals hwork.locals, forall₂_mergeSlots hw.stack hwork.stack⟩

theorem TraceLoop.Covered.setState {loop : TraceLoop} {target : Nat} {state : TraceState}
    (h : loop.Covered cf list types) (hstate : ∀ s, state.slots = some s → ∃ s', types target = some s' ∧ s.Within s') :
    ∀ t s, ((loop.states.set target state).getD t {}).slots = some s → ∃ s', types t = some s' ∧ s.Within s' := by
  intro t s hs
  rw [getD_set] at hs
  split at hs
  · rename_i heq
    rw [← heq.1]
    exact hstate s hs
  · exact h.states t s hs

theorem TraceLoop.Covered.propagate {loop : TraceLoop} {work : TraceWork} {target : Nat}
    (h : loop.Covered cf list types) (htarget : ∃ s', types target = some s' ∧ work.slots.Within s') :
    (propagate work loop target).Covered cf list types := by
  obtain ⟨s', htype, hwork⟩ := htarget
  have merged : ∀ s, (mergeState (loop.states.getD target {}) work).1.slots = some s →
      ∃ s', types target = some s' ∧ s.Within s' := by
    intro s hs
    refine ⟨s', htype, mergeState_within hwork (fun old hold => ?_) hs⟩
    obtain ⟨s'', htype', hw⟩ := h.states target old hold
    rw [htype] at htype'
    cases htype'
    exact hw
  unfold Jni2Hook.propagate
  dsimp only
  split
  · exact ⟨h.setState merged, h.found⟩
  · exact ⟨h.setState merged, h.found⟩

theorem TraceLoop.Covered.propagateAll {work : TraceWork} {targets : List Nat} {loop : TraceLoop}
    (h : loop.Covered cf list types) (ht : ∀ t ∈ targets, ∃ s', types t = some s' ∧ work.slots.Within s') :
    (targets.foldl (Jni2Hook.propagate work) loop).Covered cf list types := by
  induction targets generalizing loop with
  | nil => exact h
  | cons t rest ih =>
    exact ih (h.propagate (ht t List.mem_cons_self)) fun t' ht' => ht t' (List.mem_cons_of_mem t ht')

theorem TraceLoop.Covered.recordFound {loop : TraceLoop} {after : Nat} (h : loop.Covered cf list types)
    (hafter : ∃ (i : Nat) (node : Instruction) (s : TraceSlots), list.items[i]? = some node ∧ types i = some s ∧
      initializes cf node s.stack = some after) : (recordFound loop after).Covered cf list types := by
  unfold Jni2Hook.recordFound
  split
  · refine ⟨h.states, fun a ha => ?_⟩
    cases ha
    exact hafter
  · split
    · exact ⟨h.states, h.found⟩
    · exact h

/-- One round. -/
theorem TraceTyping.covered_visit (h : TraceTyping cf list maxLocals maxStack call types) {editor : CodeEditor}
    (hlist : editor.instructions = list) (hstack : maxStack ≤ editor.maxStack.toNat) {loop : TraceLoop}
    (hloop : loop.Covered cf list types) (index : Nat) :
    (traceVisit cf editor loop index).Covered cf list types := by
  unfold traceVisit
  rw [hlist]
  split
  · rename_i node slots hnode hslots
    obtain ⟨s', htype, hle⟩ := hloop.states index slots hslots
    have hsame := h.initializes_iff hnode htype hle
    split
    · rename_i after hafter
      rw [hsame] at hafter
      exact hloop.recordFound ⟨index, node, s', hnode, htype, hafter⟩
    · rename_i hnone
      rw [hsame] at hnone
      split
      · exact hloop
      · rename_i work hwork
        -- the typed slots make the same step, and the typing covers where it leads
        have hbound : TraceWork.Within ⟨slots.locals, slots.stack, editor.maxStack.toNat⟩
            ⟨s'.locals, s'.stack, editor.maxStack.toNat⟩ := ⟨hle.locals, hle.stack, rfl⟩
        obtain ⟨work', hwork', hle'⟩ := steps_executeSlots cf node _ _ hbound work hwork
        refine hloop.propagateAll fun t ht => ?_
        obtain ⟨next, hnext, hcover⟩ := h.step hnode htype hnone _ work' hstack hwork' t ht
        have hslots' : work.slots.Within work'.slots := ⟨hle'.locals, hle'.stack⟩
        exact ⟨next, hnext, hslots'.trans hcover⟩
  · exact hloop

theorem TraceLoop.Covered.dequeue {loop : TraceLoop} (h : loop.Covered cf list types) :
    (dequeue loop).2.Covered cf list types := by
  refine ⟨fun t s hs => ?_, h.found⟩
  refine h.states t s ?_
  simp only [Jni2Hook.dequeue, List.getD_eq_getElem?_getD, List.getElem?_modify] at hs ⊢
  split at hs
  · cases hstate : loop.states[t]? with
    | none => simp [hstate] at hs
    | some state => simpa [hstate] using hs
  · simpa using hs

/-- A whole run. -/
theorem TraceTyping.covered_loop (h : TraceTyping cf list maxLocals maxStack call types) {editor : CodeEditor}
    (hlist : editor.instructions = list) (hstack : maxStack ≤ editor.maxStack.toNat) (fuel : Nat) {loop : TraceLoop}
    (hloop : loop.Covered cf list types) :
    (traceLoop cf editor fuel loop).Covered cf list types := by
  induction fuel generalizing loop with
  | zero => exact hloop
  | succ fuel ih =>
    unfold traceLoop
    split
    · exact hloop
    · exact ih (h.covered_visit hlist hstack hloop.dequeue _)

theorem TraceTyping.covered_initial (h : TraceTyping cf list maxLocals maxStack call types) {editor : CodeEditor}
    (hlocals : editor.maxLocals.toNat = maxLocals) : (initialLoop editor).Covered cf list types := by
  refine ⟨fun t s hs => ?_, fun a ha => nomatch ha⟩
  cases t with
  | zero =>
    obtain ⟨s', htype, hle⟩ := h.entry
    simp only [initialLoop, List.getD_cons_zero, Option.some.injEq] at hs
    rw [← hs, hlocals]
    exact ⟨s', htype, hle⟩
  | succ t =>
    have hempty (n : Nat) : (List.replicate n ({} : TraceState)).getD t {} = {} := by
      rw [List.getD_eq_getElem?_getD, List.getElem?_replicate]
      split <;> rfl
    simp only [initialLoop, List.getD_cons_succ, hempty] at hs
    cases hs

/-- The trace finds the typed call, if it finds one. -/
theorem TraceTyping.found (h : TraceTyping cf list maxLocals maxStack call types) {editor : CodeEditor}
    (hlist : editor.instructions = list) (hlocals : editor.maxLocals.toNat = maxLocals)
    (hstack : maxStack ≤ editor.maxStack.toNat) {a : Nat}
    (hfound : constructorInitOffset cf editor = .found a) : ∃ node s, list.items[call]? = some node ∧
      types call = some s ∧ initializes cf node s.stack = some a := by
  unfold constructorInitOffset at hfound
  dsimp only at hfound
  split at hfound
  · cases hfound
  split at hfound
  · cases hfound
  split at hfound
  · cases hfound
  rename_i offset hoffset
  cases hfound
  obtain ⟨i, node, s, hnode, htype, hinit⟩ :=
    (h.covered_loop hlist hstack _ (h.covered_initial hlocals)).found a hoffset
  obtain rfl := h.only hnode htype hinit
  exact ⟨node, s, hnode, htype, hinit⟩

end Sound

/-! ## Growth of the pool -/

section Growth

variable {cf cf' : ClassFile}

theorem descriptorSlots_of_grows (h : Grows cf.constantPool cf'.constantPool) {index : UInt16} {slots : UInt16 × UInt16}
    (hslots : descriptorSlots cf.constantPool index = some slots) :
    descriptorSlots cf'.constantPool index = some slots := by
  cases hutf8 : constantPoolUtf8 cf.constantPool index with
  | none => simp [descriptorSlots, hutf8] at hslots
  | some bytes =>
    rw [descriptorSlots, hutf8] at hslots
    rw [descriptorSlots, h.utf8 hutf8]
    exact hslots

theorem memberDescriptor_of_grows (h : Grows cf.constantPool cf'.constantPool) {index : UInt16}
    {slots : UInt16 × UInt16} (hslots : memberDescriptor cf.constantPool index = some slots) :
    memberDescriptor cf'.constantPool index = some slots := by
  obtain ⟨entry, hentry, hslots⟩ := Option.bind_eq_some_iff.mp hslots
  obtain ⟨natIndex, hnat, hslots⟩ := Option.bind_eq_some_iff.mp hslots
  obtain ⟨nat, hat, hslots⟩ := Option.bind_eq_some_iff.mp hslots
  refine Option.bind_eq_some_iff.mpr ⟨entry, h.at_ hentry, Option.bind_eq_some_iff.mpr ⟨natIndex, hnat,
    Option.bind_eq_some_iff.mpr ⟨nat, h.at_ hat, ?_⟩⟩⟩
  cases nat with
  | nameAndType nameIndex descriptorIndex => exact descriptorSlots_of_grows h hslots
  | _ => cases hslots

/-- The instructions that read no constant do the same under every pool. -/
theorem executeSlots_congr {node : Instruction} (h : readsMember node = true →
    memberDescriptor cf'.constantPool node.operand.memberIndex =
      memberDescriptor cf.constantPool node.operand.memberIndex)
    (work : TraceWork) : executeSlots cf' node work = executeSlots cf node work := by
  cases hreads : readsMember node with
  | true =>
    have hfield (opcode : Nat) : executeField cf' opcode node work = executeField cf opcode node work := by
      rw [executeField, executeField, h hreads]
    have hinvoke (opcode : Nat) : executeInvoke cf' opcode node work = executeInvoke cf opcode node work := by
      rw [executeInvoke, executeInvoke, h hreads]
    simp only [executeSlots, hfield, hinvoke]
  | false =>
    have hfield : ¬(178 ≤ node.opcode.toNat ∧ node.opcode.toNat ≤ 181) := by
      simp [readsMember] at hreads
      omega
    have hinvoke : ¬(182 ≤ node.opcode.toNat ∧ node.opcode.toNat ≤ 186) := by
      simp [readsMember] at hreads
      omega
    simp only [executeSlots, if_neg hfield, if_neg hinvoke]

/-- The parts of an initialising call. -/
theorem isInitializingCall_eq_some {node : Instruction} {arguments : UInt16} :
    isInitializingCall cf node = some arguments ↔
      ∃ index classIndex natIndex nameIndex descriptorIndex, node.operand = .cpIndex index ∧
        node.opcode = Opc.invokespecial ∧
        constantPoolAt cf.constantPool index = some (.methodref classIndex natIndex) ∧
        (classIndex = cf.thisClass ∨ classIndex = cf.superClass) ∧
        constantPoolAt cf.constantPool natIndex = some (.nameAndType nameIndex descriptorIndex) ∧
        constantPoolUtf8Equals cf.constantPool nameIndex (text "<init>") = true ∧
        (descriptorSlots cf.constantPool descriptorIndex).map (·.1) = some arguments := by
  unfold isInitializingCall
  constructor
  · intro h
    split at h
    · rename_i index hoperand
      split at h
      · cases h
      rename_i hopcode
      split at h
      · rename_i classIndex natIndex hat
        split at h
        · cases h
        rename_i hclass
        split at h
        · rename_i nameIndex descriptorIndex hnat
          split at h
          · rename_i hname
            exact ⟨index, classIndex, natIndex, nameIndex, descriptorIndex, hoperand, not_not.mp hopcode, hat,
              by tauto, hnat, hname, h⟩
          · cases h
        · cases h
      · cases h
    · cases h
  · rintro ⟨index, classIndex, natIndex, nameIndex, descriptorIndex, hoperand, hopcode, hat, hclass,
      hnat, hname, hslots⟩
    have hthis : ¬(classIndex ≠ cf.thisClass ∧ classIndex ≠ cf.superClass) := by tauto
    rw [hoperand]
    simp only [hopcode, hat, hnat, hname, ne_eq, not_true_eq_false, if_false, if_true]
    rw [if_neg hthis]
    exact hslots

section SameClass

variable (h : Grows cf.constantPool cf'.constantPool) (hthis : cf'.thisClass = cf.thisClass)
  (hsuper : cf'.superClass = cf.superClass)

include h hthis hsuper

theorem isInitializingCall_of_grows {node : Instruction} {arguments : UInt16}
    (hcall : isInitializingCall cf node = some arguments) : isInitializingCall cf' node = some arguments := by
  obtain ⟨index, classIndex, natIndex, nameIndex, descriptorIndex, hoperand, hopcode, hat, hclass,
    hnat, hname, hslots⟩ :=
    isInitializingCall_eq_some.mp hcall
  obtain ⟨slots, hdescriptor, hfirst⟩ := Option.map_eq_some_iff.mp hslots
  refine isInitializingCall_eq_some.mpr ⟨index, classIndex, natIndex, nameIndex, descriptorIndex, hoperand, hopcode,
    h.at_ hat, by rw [hthis, hsuper]; exact hclass, h.at_ hnat, ?_, ?_⟩
  · rw [h.utf8Equals (mem_of_constantPoolUtf8Equals hname)]
    exact hname
  · rw [descriptorSlots_of_grows h hdescriptor, Option.map_some, hfirst]

/-- A call that names its constants is no new initialising call. -/
theorem isInitializingCall_of_resolved {node : Instruction} {arguments : UInt16}
    (hinit : .utf8 (text "<init>") ∈ cf.constantPool.entries)
    (hresolved : (memberDescriptor cf.constantPool node.operand.memberIndex).isSome = true)
    (hcall : isInitializingCall cf' node = some arguments) : isInitializingCall cf node = some arguments := by
  obtain ⟨index, classIndex, natIndex, nameIndex, descriptorIndex, hoperand, hopcode, hat, hclass,
    hnat, hname, hslots⟩ :=
    isInitializingCall_eq_some.mp hcall
  obtain ⟨slots, hmember⟩ := Option.isSome_iff_exists.mp hresolved
  rw [hoperand] at hmember
  obtain ⟨entry, hentry, hmember⟩ := Option.bind_eq_some_iff.mp hmember
  obtain ⟨natIndex', hnat', hmember⟩ := Option.bind_eq_some_iff.mp hmember
  obtain ⟨nat, hat', hmember⟩ := Option.bind_eq_some_iff.mp hmember
  have hsame := (h.at_ hentry).symm.trans hat
  cases hsame
  cases hnat'
  have hsame' := (h.at_ hat').symm.trans hnat
  cases hsame'
  have hdescriptor : descriptorSlots cf.constantPool descriptorIndex = some slots := hmember
  rw [descriptorSlots_of_grows h hdescriptor] at hslots
  refine isInitializingCall_eq_some.mpr ⟨index, classIndex, natIndex, nameIndex, descriptorIndex, hoperand, hopcode,
    hentry, by rw [← hthis, ← hsuper]; exact hclass, hat', ?_, ?_⟩
  · rw [← h.utf8Equals hinit]
    exact hname
  · rw [hdescriptor]
    exact hslots

theorem initializes_of_grows {node : Instruction} {stack : List UInt8} {a : Nat}
    (hinit : initializes cf node stack = some a) : initializes cf' node stack = some a := by
  obtain ⟨arguments, hcall, hrest⟩ := initializes_eq_some.mp hinit
  exact initializes_eq_some.mpr ⟨arguments, isInitializingCall_of_grows h hthis hsuper hcall, hrest⟩

/-- A typing is a typing under a pool that has grown. -/
theorem TraceTyping.grows {list : InstructionList} {maxLocals maxStack call : Nat} {types : Nat → Option TraceSlots}
    (ht : TraceTyping cf list maxLocals maxStack call types) (hinit : .utf8 (text "<init>") ∈ cf.constantPool.entries) :
    TraceTyping cf' list maxLocals maxStack call types := by
  have hnone {node : Instruction} {stack : List UInt8} (hnone' : initializes cf' node stack = none) :
      initializes cf node stack = none := by
    cases hsome : initializes cf node stack with
    | none => rfl
    | some a =>
      rw [initializes_of_grows h hthis hsuper hsome] at hnone'
      cases hnone'
  have hcall {i : Nat} {node : Instruction} {s : TraceSlots} {arguments : UInt16} (hnode : list.items[i]? = some node)
      (htype : types i = some s) (hcall : isInitializingCall cf' node = some arguments) :
      isInitializingCall cf node = some arguments := by
    cases hsome : initializes cf node s.stack with
    | none =>
      have hopcode : node.opcode = Opc.invokespecial := by
        obtain ⟨_, _, _, _, _, _, hopcode, -⟩ := isInitializingCall_eq_some.mp hcall
        exact hopcode
      have hreads : readsMember node = true := by
        rw [readsMember, hopcode]
        rfl
      exact isInitializingCall_of_resolved h hthis hsuper hinit (ht.resolved hnode htype hsome hreads) hcall
    | some a =>
      obtain ⟨arguments', hcall', -⟩ := initializes_eq_some.mp hsome
      rw [isInitializingCall_of_grows h hthis hsuper hcall'] at hcall
      cases hcall
      exact hcall'
  exact {
    entry := ht.entry
    step := fun {i node s} hnode htype hno m work hm hwork => by
      refine ht.step hnode htype (hnone hno) m work hm ?_
      rw [← hwork]
      refine (executeSlots_congr (fun hreads => ?_) _).symm
      obtain ⟨slots, hslots⟩ := Option.isSome_iff_exists.mp (ht.resolved hnode htype (hnone hno) hreads)
      rw [hslots, memberDescriptor_of_grows h hslots]
    resolved := fun hnode htype hno hreads => by
      obtain ⟨slots, hslots⟩ := Option.isSome_iff_exists.mp (ht.resolved hnode htype (hnone hno) hreads)
      rw [memberDescriptor_of_grows h hslots]
      rfl
    uniform := fun hnode htype hcall' => ht.uniform hnode htype (hcall hnode htype hcall')
    only := fun {i node s a} hnode htype hsome => by
      obtain ⟨arguments, hcall', hrest⟩ := initializes_eq_some.mp hsome
      exact ht.only hnode htype (initializes_eq_some.mpr ⟨arguments, hcall hnode htype hcall', hrest⟩)
    inside := ht.inside }

end SameClass

end Growth

end Jni2Hook
