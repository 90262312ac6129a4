import Jni2Hook.Code.TraceWorklist

/-!
# The trace against its paths

The loop of `constructor_init.c` merges the frames of all paths that it follows. Here the paths are followed one by one,
with frames that say of each slot whether it holds the uninitialised `this`: when all paths to an instruction agree on
the depth of the stack and on what an initialising call consumes, the loop finds exactly the calls that a path finds.

* `Traced`: the frames of the single paths.
* `Joined`: slots that merge such frames, and nothing else.
* `TraceLoop.Sound`, `TraceLoop.Closed`: the invariants of the loop; with nothing queued every path is covered.
* `traceLoop_spec`: the fuel is enough to empty the queue.
* `constructorInitOffset_traced`: the answer, from the set of the calls that paths find.
-/

namespace Jni2Hook

open Lib

/-! ## Single paths -/

/-- The flag of a slot that holds `this`, or something else. -/
def thisFlag (isThis : Bool) : UInt8 := if isThis then traceThis else traceOther

/-- The frame at entry: `this` in the first local. -/
def entryThis (maxLocals : Nat) : SlotFrame Bool := ⟨true :: List.replicate (maxLocals - 1) false, []⟩

/-- The instruction is an initialising call, and its receiver is `this`. -/
def receivesThis (cf : ClassFile) (node : Instruction) (f : SlotFrame Bool) : Bool :=
  match isInitializingCall cf node with
  | some arguments =>
    arguments.toNat < f.stack.length && f.stack.getD (f.stack.length - arguments.toNat - 1) false
  | none => false

/-- The instructions that a path of the trace reaches, with the frames it has there. -/
inductive Traced (cf : ClassFile) (editor : CodeEditor) : Nat → SlotFrame Bool → Prop
  | entry : Traced cf editor 0 (entryThis editor.maxLocals.toNat)
  | step {i j : Nat} {f g : SlotFrame Bool} {node : Instruction} {e : SlotEffect} (path : Traced cf editor i f)
      (at_ : editor.instructions.items[i]? = some node) (goesOn : receivesThis cf node f = false)
      (effect : codeEffect cf node = some e) (executed : e.apply editor.maxStack.toNat false f = some g)
      (edge : j ∈ traceSuccessors editor.instructions.items i node) : Traced cf editor j g

/-- The paths agree where the trace needs them to: on the depth of the stack, and on the receivers of initialising
calls. The arguments of every call on them can be counted. -/
structure Traceable (cf : ClassFile) (editor : CodeEditor) : Prop where
  locals : 0 < editor.maxLocals.toNat
  depth : ∀ {i f g}, Traced cf editor i f → Traced cf editor i g → f.stack.length = g.stack.length
  receivers : ∀ {i f g node}, Traced cf editor i f → Traced cf editor i g →
    editor.instructions.items[i]? = some node → receivesThis cf node f = receivesThis cf node g
  fits : ∀ {i f node}, Traced cf editor i f → editor.instructions.items[i]? = some node →
    182 ≤ node.opcode.toNat ∧ node.opcode.toNat ≤ 186 → ∀ slots, codeMembers cf node = some slots → slots.1 + 1 < 2 ^ 16

/-- The offsets behind the initialising calls that a path finds. -/
def tracedCalls (cf : ClassFile) (editor : CodeEditor) : Set Nat :=
  { a | ∃ i f node, Traced cf editor i f ∧ editor.instructions.items[i]? = some node ∧ receivesThis cf node f = true ∧
    a = u4 (node.offset + instructionLengthAt node node.offset) }

/-! ## Merged frames -/

/-- Slots that merge frames of which `P` holds. -/
inductive Joined (P : SlotFrame Bool → Prop) : SlotFrame UInt8 → Prop
  | one {f : SlotFrame Bool} (h : P f) : Joined P (f.map thisFlag)
  | join {s t : SlotFrame UInt8} (hs : Joined P s) (ht : Joined P t) (shape : s.SameShape t) :
      Joined P (s.zipWith (· ||| ·) t)

section Joined

variable {P Q : SlotFrame Bool → Prop} {s s' : SlotFrame UInt8}

theorem Joined.mono (h : Joined P s) (hPQ : ∀ f, P f → Q f) : Joined Q s := by
  induction h with
  | one hf => exact .one (hPQ _ hf)
  | join _ _ shape ihs iht => exact .join ihs iht shape

/-- Executing an instruction on merged slots merges what it makes of each frame. -/
theorem Joined.apply (h : Joined P s) {e : SlotEffect} {limit : Nat} (hs : e.apply limit traceOther s = some s') :
    Joined (fun g => ∃ f, P f ∧ e.apply limit false f = some g) s' := by
  induction h generalizing s' with
  | @one f hf =>
    have hmap := e.apply_map limit thisFlag false f
    rw [show thisFlag false = traceOther from rfl, hs] at hmap
    obtain ⟨g, hg, rfl⟩ := Option.map_eq_some_iff.mp hmap.symm
    exact .one ⟨f, hf, hg⟩
  | @join s t _ _ shape ihs iht =>
    have hzip := e.apply_zipWith limit (· ||| ·) shape traceOther traceOther
    rw [show traceOther ||| traceOther = traceOther from rfl, hs] at hzip
    obtain ⟨s₁, hs₁, hzip⟩ := Option.bind_eq_some_iff.mp hzip.symm
    obtain ⟨t₁, ht₁, rfl⟩ := Option.map_eq_some_iff.mp hzip
    obtain ⟨t₁', ht₁', shape'⟩ := e.apply_sameShape limit shape traceOther hs₁
    rw [ht₁] at ht₁'
    cases ht₁'
    exact .join (ihs hs₁) (iht ht₁) shape'

/-- The merged slots have the shape that all frames have. -/
theorem Joined.sameShape (h : Joined P s) {f : SlotFrame Bool} (hP : ∀ g, P g → g.SameShape f) : s.SameShape f := by
  induction h with
  | one hg => exact (SlotFrame.sameShape_map _ _).trans (hP _ hg)
  | join _ _ shape ihs _ => exact (shape.zipWith _).trans ihs

theorem Joined.exists_frame (h : Joined P s) : ∃ f, P f := by
  induction h with
  | one hf => exact ⟨_, hf⟩
  | join _ _ _ ih _ => exact ih

theorem isFlag_thisFlag (b : Bool) : IsFlag (thisFlag b) := by
  cases b <;> decide

theorem Joined.isFlag (h : Joined P s) : (∀ x ∈ s.locals, IsFlag x) ∧ ∀ x ∈ s.stack, IsFlag x := by
  induction h with
  | @one f _ =>
    constructor
    · intro x hx
      obtain ⟨b, -, rfl⟩ := List.mem_map.mp hx
      exact isFlag_thisFlag b
    · intro x hx
      obtain ⟨b, -, rfl⟩ := List.mem_map.mp hx
      exact isFlag_thisFlag b
  | join _ _ _ ihs iht => exact ⟨isFlag_zipWith ihs.1 iht.1, isFlag_zipWith ihs.2 iht.2⟩

/-- Where all frames agree on a slot, the merged slot says so. -/
theorem Joined.slot (h : Joined P s) {k : Nat} {b : Bool} (hk : k < s.stack.length)
    (hP : ∀ f, P f → f.stack.getD k false = b) : s.stack.getD k 0 = thisFlag b := by
  induction h with
  | @one f hf =>
    have hlt : k < f.stack.length := by simpa [SlotFrame.map] using hk
    have hb := hP f hf
    rw [List.getD_eq_getElem _ _ hlt] at hb
    rw [List.getD_eq_getElem _ _ hk]
    simp only [SlotFrame.map, List.getElem_map, hb]
  | @join s t _ _ shape ihs iht =>
    have hks : k < s.stack.length := by
      rw [← (shape.zipWith (· ||| ·)).stack]
      exact hk
    have hs := ihs hks
    have ht := iht (by rw [← shape.stack]; exact hks)
    rw [List.getD_eq_getElem _ _ hks] at hs
    rw [List.getD_eq_getElem _ _ (by rw [← shape.stack]; exact hks)] at ht
    rw [List.getD_eq_getElem _ _ hk]
    simp only [SlotFrame.zipWith, List.getElem_zipWith, hs, ht]
    cases b <;> rfl

end Joined

/-! ## The invariants -/

def TraceSlots.frame (s : TraceSlots) : SlotFrame UInt8 := ⟨s.locals, s.stack⟩

section Invariants

variable (cf : ClassFile) (editor : CodeEditor)

/-- Everything in the loop comes from paths. -/
structure TraceLoop.Sound (loop : TraceLoop) : Prop where
  length : loop.states.length = editor.instructions.items.length
  queues : loop.Queues
  joined : ∀ t s, loop.slotsAt t = some s → Joined (Traced cf editor t) s.frame
  found : ∀ a, loop.found = some a → a ∈ tracedCalls cf editor
  ambiguous : loop.ambiguous = true → (tracedCalls cf editor).Nontrivial

/-- What follows from the slots of an instruction is in the loop. -/
structure TraceLoop.Settled (loop : TraceLoop) (t : Nat) (s : TraceSlots) : Prop where
  recorded : ∀ {node a}, editor.instructions.items[t]? = some node → initializes cf node s.stack = some a →
    loop.Recorded a
  propagated : ∀ {node work}, editor.instructions.items[t]? = some node → initializes cf node s.stack = none →
    executeSlots cf node ⟨s.locals, s.stack, editor.maxStack.toNat⟩ = some work →
    ∀ j ∈ traceSuccessors editor.instructions.items t node, ∃ s', loop.slotsAt j = some s' ∧ work.slots.Le s'

/-- The entry is covered, and whatever is not queued is settled. -/
structure TraceLoop.Closed (loop : TraceLoop) : Prop where
  entry : ∃ s, loop.slotsAt 0 = some s ∧ TraceSlots.Le ⟨entryLocals editor.maxLocals.toNat, []⟩ s
  settled : ∀ t s, loop.slotsAt t = some s → loop.queuedAt t = false → loop.Settled cf editor t s

end Invariants

/-- A loop that has gone on from paths to paths; what is not queued is as it was. -/
structure TraceLoop.Advances (cf : ClassFile) (editor : CodeEditor) (loop loop' : TraceLoop) : Prop where
  sound : loop'.Sound cf editor
  grew : loop.Grew loop'
  kept : ∀ t, loop'.queuedAt t = false → loop'.slotsAt t = loop.slotsAt t ∧ loop.queuedAt t = false

section Loop

variable {cf : ClassFile} {editor : CodeEditor} {loop loop' : TraceLoop}

theorem TraceLoop.Advances.refl (h : loop.Sound cf editor) : loop.Advances cf editor loop :=
  ⟨h, .refl loop, fun _ ht => ⟨rfl, ht⟩⟩

theorem TraceLoop.Advances.trans {loop'' : TraceLoop} (h : loop.Advances cf editor loop')
    (h' : loop'.Advances cf editor loop'') : loop.Advances cf editor loop'' := by
  refine ⟨h'.sound, h.grew.trans h'.grew, fun t ht => ?_⟩
  obtain ⟨hslots', hqueued'⟩ := h'.kept t ht
  obtain ⟨hslots, hqueued⟩ := h.kept t hqueued'
  exact ⟨hslots'.trans hslots, hqueued⟩

theorem TraceLoop.Settled.mono {t : Nat} {s : TraceSlots} (h : loop.Settled cf editor t s) (hgrew : loop.Grew loop') :
    loop'.Settled cf editor t s := by
  refine ⟨fun hnode hinit => hgrew.recorded _ (h.recorded hnode hinit), fun hnode hinit hwork j hj => ?_⟩
  obtain ⟨s', hs', hle⟩ := h.propagated hnode hinit hwork j hj
  obtain ⟨s'', hs'', hle'⟩ := hgrew.slots j s' hs'
  exact ⟨s'', hs'', hle.trans hle'⟩

/-- Frames on paths have the locals of the method, and a stack within its bound. -/
theorem Traced.bounds {i : Nat} {f : SlotFrame Bool} (h : Traced cf editor i f) (hlocals : 0 < editor.maxLocals.toNat) :
    f.locals.length = editor.maxLocals.toNat ∧ f.stack.length ≤ editor.maxStack.toNat := by
  induction h with
  | entry =>
    simp only [entryThis, List.length_cons, List.length_replicate, List.length_nil]
    omega
  | step _ _ _ _ executed _ ih =>
    obtain ⟨hl, hs⟩ := SlotEffect.length_apply _ _ executed
    exact ⟨hl.trans ih.1, hs⟩

section Traceable

variable (h : Traceable cf editor)
include h

/-- All frames at an instruction have one shape. -/
theorem Traceable.sameShape {i : Nat} {f g : SlotFrame Bool} (hf : Traced cf editor i f) (hg : Traced cf editor i g) :
    f.SameShape g :=
  ⟨(hf.bounds h.locals).1.trans (hg.bounds h.locals).1.symm, h.depth hf hg⟩

theorem Traceable.sameShape_joined {i : Nat} {s t : SlotFrame UInt8} (hs : Joined (Traced cf editor i) s)
    (ht : Joined (Traced cf editor i) t) : s.SameShape t := by
  obtain ⟨f, hf⟩ := hs.exists_frame
  exact (hs.sameShape fun g hg => h.sameShape hg hf).trans (ht.sameShape fun g hg => h.sameShape hg hf).symm

/-- What a call consumes of the merged slots is what it consumes on each path. -/
theorem Traceable.consumedSlot_joined {i : Nat} {f : SlotFrame Bool} {s : SlotFrame UInt8} {node : Instruction}
    {arguments : UInt16} (hf : Traced cf editor i f) (hs : Joined (Traced cf editor i) s)
    (hnode : editor.instructions.items[i]? = some node) (hcall : isInitializingCall cf node = some arguments)
    (hlt : arguments.toNat < s.stack.length) :
    consumedSlot arguments.toNat s.stack = thisFlag (receivesThis cf node f) := by
  have hdepth := (hs.sameShape fun g hg => h.sameShape hg hf).stack
  rw [hdepth] at hlt
  have hreceived : receivesThis cf node f = f.stack.getD (f.stack.length - arguments.toNat - 1) false := by
    simp only [receivesThis, hcall, hlt, decide_true, Bool.true_and]
  rw [consumedSlot, hdepth, hreceived]
  refine hs.slot (by omega) fun g hg => ?_
  have hreceives := h.receivers hg hf hnode
  simp only [receivesThis, hcall, h.depth hg hf, hlt, decide_true, Bool.true_and] at hreceives
  exact hreceives

/-- The merged slots and each of the frames agree on which instruction initialises `this`. -/
theorem Traceable.initializes_joined {i : Nat} {f : SlotFrame Bool} {s : SlotFrame UInt8} {node : Instruction}
    (hf : Traced cf editor i f) (hs : Joined (Traced cf editor i) s)
    (hnode : editor.instructions.items[i]? = some node) : initializes cf node s.stack =
      if receivesThis cf node f then some (u4 (node.offset + instructionLengthAt node node.offset)) else none := by
  have hdepth := (hs.sameShape fun g hg => h.sameShape hg hf).stack
  unfold initializes
  cases hcall : isInitializingCall cf node with
  | none => simp [receivesThis, hcall]
  | some arguments =>
    have hsame : consumesThis arguments.toNat s.stack = receivesThis cf node f := by
      rw [Bool.eq_iff_iff, consumesThis_iff]
      by_cases hlt : arguments.toNat < s.stack.length
      · rw [h.consumedSlot_joined hf hs hnode hcall hlt]
        cases receivesThis cf node f <;> simp [hlt, thisFlag, traceThis, traceOther]
      · have hnone : receivesThis cf node f = false := by
          rw [hdepth] at hlt
          simp [receivesThis, hcall, hlt]
        simp [hlt, hnone]
    dsimp only
    rw [hsame]

/-! ## One propagation -/

/-- The work of a round, where it may go. -/
theorem Traceable.depth_eq (hloop : loop.Sound cf editor) {target : Nat} {work : TraceWork}
    (hwork : Joined (Traced cf editor target) work.frame) {old : TraceSlots} (hold : loop.slotsAt target = some old) :
    old.stack.length = work.stack.length :=
  (h.sameShape_joined (hloop.joined target old hold) hwork).stack

/-- Frames of paths make slots of the method. -/
theorem Traceable.fits_joined {i : Nat} {s : TraceSlots} (hs : Joined (Traced cf editor i) s.frame) :
    s.Fits editor := by
  obtain ⟨f, hf⟩ := hs.exists_frame
  have hshape := hs.sameShape fun g hg => h.sameShape hg hf
  obtain ⟨hlocals, hstack⟩ := hf.bounds h.locals
  rw [← hshape.locals] at hlocals
  rw [← hshape.stack] at hstack
  exact ⟨hlocals, hstack, hs.isFlag⟩

theorem Traceable.running (hloop : loop.Sound cf editor) : loop.Running editor :=
  ⟨hloop.length, hloop.queues, fun t s hs => h.fits_joined (hloop.joined t s hs)⟩

/-- Merging keeps to the frames of paths, and takes up all of the work. -/
theorem Traceable.joined_mergedSlots (hloop : loop.Sound cf editor) {target : Nat} {work : TraceWork}
    (hwork : Joined (Traced cf editor target) work.frame) :
    Joined (Traced cf editor target) (mergedSlots (loop.slotsAt target) work).frame ∧
      work.slots.Le (mergedSlots (loop.slotsAt target) work) := by
  cases hold : loop.slotsAt target with
  | none => exact ⟨hwork, .refl _⟩
  | some old =>
    have hjoined := hloop.joined target old hold
    have hshape := h.sameShape_joined hjoined hwork
    have hlocals := subset_mergeSlots hshape.locals
    have hstack := subset_mergeSlots hshape.stack
    exact ⟨.join hjoined hwork hshape, hlocals.2, hstack.2⟩

theorem Traceable.advances_propagate (hloop : loop.Sound cf editor) {target : Nat} {work : TraceWork}
    (hwork : Joined (Traced cf editor target) work.frame) (htarget : target < editor.instructions.items.length) :
    loop.Advances cf editor (propagate work loop target) ∧
      ∃ s, (propagate work loop target).slotsAt target = some s ∧ work.slots.Le s := by
  have hdepth := fun old hold => @Traceable.depth_eq _ _ _ h hloop _ _ hwork old hold
  have hgoes := (h.running hloop).propagate_same (h.fits_joined hwork) htarget hdepth
  rw [← hloop.length] at htarget
  have hslots := slotsAt_propagate hdepth htarget
  have hqueued := queuedAt_propagate hdepth htarget
  obtain ⟨hfound, hambiguous⟩ := found_propagate hdepth
  obtain ⟨hjoined, hle⟩ := h.joined_mergedSlots hloop hwork
  refine ⟨⟨⟨hgoes.running.length, hgoes.running.queues, fun t s hs => ?_, ?_, ?_⟩, hgoes.grew, fun t ht => ?_⟩, _,
    (hslots target).trans (if_pos rfl), hle⟩
  · rw [hslots] at hs
    split at hs
    · rename_i heq
      cases hs
      rw [heq]
      exact hjoined
    · exact hloop.joined t s hs
  · rw [hfound]
    exact hloop.found
  · rw [hambiguous]
    exact hloop.ambiguous
  · rw [hqueued] at ht
    rw [hslots]
    split at ht
    · rename_i heq
      rw [Bool.or_eq_false_iff, decide_eq_false_iff_not, not_not] at ht
      rw [heq, if_pos rfl]
      exact ⟨ht.2, ht.1⟩
    · rename_i hne
      rw [if_neg hne]
      exact ⟨rfl, ht⟩

/-- All the targets of an instruction. -/
theorem Traceable.advances_propagateAll {work : TraceWork} {targets : List Nat} (hloop : loop.Sound cf editor)
    (hwork : ∀ t ∈ targets, Joined (Traced cf editor t) work.frame ∧ t < editor.instructions.items.length) :
    loop.Advances cf editor (targets.foldl (propagate work) loop) ∧
      ∀ t ∈ targets, ∃ s, (targets.foldl (propagate work) loop).slotsAt t = some s ∧ work.slots.Le s := by
  induction targets generalizing loop with
  | nil => exact ⟨.refl hloop, fun t ht => nomatch ht⟩
  | cons target rest ih =>
    obtain ⟨hstep, s, hs, hle⟩ :=
      h.advances_propagate hloop (hwork target List.mem_cons_self).1 (hwork target List.mem_cons_self).2
    obtain ⟨hrest, hcovered⟩ := ih hstep.sound fun t ht => hwork t (List.mem_cons_of_mem target ht)
    refine ⟨hstep.trans hrest, fun t ht => ?_⟩
    rcases List.mem_cons.mp ht with rfl | ht
    · obtain ⟨s', hs', hle'⟩ := hrest.grew.slots t s hs
      exact ⟨s', hs', hle.trans hle'⟩
    · exact hcovered t ht

/-! ## One round -/

/-- The work of a round comes from the paths through the instruction. -/
theorem Traceable.joined_executeSlots {i : Nat} {s : TraceSlots} {node : Instruction} {work : TraceWork}
    (hs : Joined (Traced cf editor i) s.frame) (hnode : editor.instructions.items[i]? = some node)
    (hinit : initializes cf node s.stack = none)
    (hwork : executeSlots cf node ⟨s.locals, s.stack, editor.maxStack.toNat⟩ = some work) {j : Nat}
    (hj : j ∈ traceSuccessors editor.instructions.items i node) : Joined (Traced cf editor j) work.frame := by
  obtain ⟨f, hf⟩ := hs.exists_frame
  have hshape := hs.sameShape fun g hg => h.sameShape hg hf
  have hdepth : s.stack.length ≤ editor.maxStack.toNat := by
    have := (hf.bounds h.locals).2
    rw [← hshape.stack] at this
    exact this
  rw [executeSlots_eq (h.fits hf hnode) hdepth] at hwork
  obtain ⟨frame, hframe, rfl⟩ := Option.map_eq_some_iff.mp hwork
  obtain ⟨e, he, happly⟩ := Option.bind_eq_some_iff.mp hframe
  refine (hs.apply happly).mono ?_
  rintro g ⟨f', hf', hg⟩
  have hgoes : receivesThis cf node f' = false := by
    have := h.initializes_joined hf' hs hnode
    rw [show s.frame.stack = s.stack from rfl, hinit] at this
    by_contra hreceives
    rw [Bool.not_eq_false] at hreceives
    rw [hreceives] at this
    cases this
  exact .step hf' hnode hgoes he hg hj

theorem Traceable.advances_recordFound {after : Nat} (hloop : loop.Sound cf editor)
    (hafter : after ∈ tracedCalls cf editor) :
    loop.Advances cf editor (recordFound loop after) ∧ (recordFound loop after).Recorded after := by
  have hgoes := TraceLoop.goesOn_recordFound (h.running hloop) after
  have hlength := hgoes.running.length
  have hqueues := hgoes.running.queues
  have hgrew := hgoes.grew
  unfold recordFound at hlength hqueues hgrew ⊢
  cases hfound : loop.found with
  | none =>
    rw [hfound] at hlength hqueues hgrew
    refine ⟨⟨⟨hlength, hqueues, hloop.joined, ?_, hloop.ambiguous⟩, hgrew, fun _ ht => ⟨rfl, ht⟩⟩, .inl rfl⟩
    intro a ha
    cases ha
    exact hafter
  | some offset =>
    rw [hfound] at hlength hqueues hgrew
    by_cases hne : after ≠ offset
    · simp only [if_pos hne] at hlength hqueues hgrew ⊢
      exact ⟨⟨⟨hlength, hqueues, hloop.joined, fun a ha => hloop.found a (hfound.trans ha),
        fun _ => ⟨after, hafter, offset, hloop.found offset hfound, hne⟩⟩, hgrew, fun _ ht => ⟨rfl, ht⟩⟩, .inr rfl⟩
    · simp only [if_neg hne]
      rw [not_not] at hne
      exact ⟨.refl hloop, .inl (hne ▸ hfound)⟩

/-- A round takes what it has to from an instruction. -/
theorem Traceable.advances_visit (hloop : loop.Sound cf editor) (index : Nat) :
    loop.Advances cf editor (traceVisit cf editor loop index) ∧
      ∀ s, loop.slotsAt index = some s → (traceVisit cf editor loop index).Settled cf editor index s := by
  unfold traceVisit
  split
  · rename_i node slots hnode hslots
    have hjoined := hloop.joined index slots hslots
    split
    · rename_i after hafter
      have hcall : after ∈ tracedCalls cf editor := by
        obtain ⟨f, hf⟩ := hjoined.exists_frame
        have hsame := h.initializes_joined hf hjoined hnode
        rw [show slots.frame.stack = slots.stack from rfl, hafter] at hsame
        split at hsame
        · rename_i hreceives
          exact ⟨index, f, node, hf, hnode, hreceives, Option.some.inj hsame⟩
        · cases hsame
      obtain ⟨hadvances, hrecorded⟩ := h.advances_recordFound hloop hcall
      refine ⟨hadvances, fun s hs => ?_⟩
      obtain rfl : slots = s := Option.some.inj (hslots.symm.trans hs)
      refine ⟨fun hnode' hinit => ?_, fun hnode' hnone => ?_⟩
      · rw [hnode] at hnode'
        cases hnode'
        rw [hafter] at hinit
        cases hinit
        exact hrecorded
      · rw [hnode] at hnode'
        cases hnode'
        rw [hafter] at hnone
        cases hnone
    · rename_i hnone
      have hsettled {loop' : TraceLoop} (hwork : ∀ work,
          executeSlots cf node ⟨slots.locals, slots.stack, editor.maxStack.toNat⟩ = some work →
          ∀ j ∈ traceSuccessors editor.instructions.items index node, ∃ s', loop'.slotsAt j = some s' ∧
            work.slots.Le s') :
          ∀ s, loop.slotsAt index = some s → loop'.Settled cf editor index s := by
        intro s hs
        obtain rfl : slots = s := Option.some.inj (hslots.symm.trans hs)
        refine ⟨fun hnode' hinit => ?_, fun hnode' _ hexecute => ?_⟩
        · rw [hnode] at hnode'
          cases hnode'
          rw [hnone] at hinit
          cases hinit
        · rw [hnode] at hnode'
          cases hnode'
          exact hwork _ hexecute
      split
      · rename_i hexecute
        refine ⟨.refl hloop, hsettled fun work hwork => ?_⟩
        rw [hexecute] at hwork
        cases hwork
      · rename_i work hexecute
        obtain ⟨hadvances, hcovered⟩ := h.advances_propagateAll hloop fun t ht =>
          ⟨h.joined_executeSlots hjoined hnode hnone hexecute ht, lt_of_mem_traceSuccessors ht⟩
        refine ⟨hadvances, hsettled fun work' hwork' => ?_⟩
        rw [hexecute] at hwork'
        cases hwork'
        exact hcovered
  · rename_i hnot
    refine ⟨.refl hloop, fun s hs => ⟨fun hnode => ?_, fun hnode => ?_⟩⟩
    · exact absurd hs (hnot _ s hnode)
    · exact absurd hs (hnot _ s hnode)

omit h in
theorem TraceLoop.Sound.dequeue (hloop : loop.Sound cf editor) (hpending : loop.pending ≠ 0) :
    (dequeue loop).2.Sound cf editor := by
  refine ⟨?_, (hloop.queues.dequeue hpending).1, fun t s hs => ?_, hloop.found, hloop.ambiguous⟩
  · simp [Jni2Hook.dequeue, hloop.length]
  · rw [slotsAt_dequeue] at hs
    exact hloop.joined t s hs

/-- A round keeps both invariants. -/
theorem Traceable.sound_round (hloop : loop.Sound cf editor) (hclosed : loop.Closed cf editor)
    (hpending : loop.pending ≠ 0) :
    (traceVisit cf editor (dequeue loop).2 (dequeue loop).1).Sound cf editor ∧
      (traceVisit cf editor (dequeue loop).2 (dequeue loop).1).Closed cf editor := by
  obtain ⟨hadvances, hindex⟩ := h.advances_visit (hloop.dequeue hpending) (dequeue loop).1
  refine ⟨hadvances.sound, ?_, fun t s hs ht => ?_⟩
  · obtain ⟨s, hs, hle⟩ := hclosed.entry
    obtain ⟨s', hs', hle'⟩ := hadvances.grew.slots 0 s (by rw [slotsAt_dequeue]; exact hs)
    exact ⟨s', hs', hle.trans hle'⟩
  · obtain ⟨hkept, hqueued⟩ := hadvances.kept t ht
    rw [hkept] at hs
    by_cases heq : t = (dequeue loop).1
    · rw [heq] at hs ⊢
      exact hindex s hs
    · rw [slotsAt_dequeue] at hs
      rw [queuedAt_dequeue] at hqueued
      have hsettled : loop.Settled cf editor t s := hclosed.settled t s hs (by simpa [heq] using hqueued)
      exact hsettled.mono (loop.grew_dequeue.trans hadvances.grew)

end Traceable

end Loop

section Run

variable {cf : ClassFile} {editor : CodeEditor} {loop : TraceLoop} (h : Traceable cf editor)
include h

/-- With fuel for what a loop costs, it ends with nothing queued and both invariants. -/
theorem Traceable.traceLoop_spec {fuel : Nat} (hloop : loop.Sound cf editor) (hclosed : loop.Closed cf editor)
    (hfuel : loop.cost editor < fuel) : (traceLoop cf editor fuel loop).Sound cf editor ∧
      (traceLoop cf editor fuel loop).Closed cf editor ∧ (traceLoop cf editor fuel loop).pending = 0 := by
  induction fuel generalizing loop with
  | zero => omega
  | succ fuel ih =>
    unfold traceLoop
    by_cases hpending : loop.pending = 0
    · rw [if_pos hpending]
      exact ⟨hloop, hclosed, hpending⟩
    · rw [if_neg hpending]
      obtain ⟨hsound, hclosed'⟩ := h.sound_round hloop hclosed hpending
      have hless := ((h.running hloop).round cf hpending).2.2
      exact ih hsound hclosed' (Nat.lt_of_lt_of_le hless (Nat.le_of_lt_succ hfuel))

omit h

/-! ## The whole run -/

theorem joined_entry : Joined (Traced cf editor 0) ⟨entryLocals editor.maxLocals.toNat, []⟩ := by
  have hentry : SlotFrame.map thisFlag (entryThis editor.maxLocals.toNat) =
    ⟨entryLocals editor.maxLocals.toNat, []⟩ := by
    simp [SlotFrame.map, entryThis, entryLocals, thisFlag]
  rw [← hentry]
  exact .one .entry

theorem sound_initialLoop (hcount : 0 < editor.instructions.items.length) : (initialLoop editor).Sound cf editor := by
  obtain ⟨hlength, hqueues⟩ := queues_initialLoop hcount
  refine ⟨hlength, hqueues, fun t s hs => ?_, fun a ha => ?_, fun ha => ?_⟩
  · rw [slotsAt_initialLoop] at hs
    split at hs
    · rename_i heq
      cases hs
      rw [heq]
      exact joined_entry
    · cases hs
  · cases ha
  · cases ha

theorem closed_initialLoop : (initialLoop editor).Closed cf editor := by
  refine ⟨⟨_, slotsAt_initialLoop 0, .refl _⟩, fun t s hs ht => ?_⟩
  rw [queuedAt_initialLoop, decide_eq_false_iff_not] at ht
  rw [slotsAt_initialLoop, if_neg ht] at hs
  cases hs

/-- The flags of a frame. -/
def frameSlots (f : SlotFrame Bool) : TraceSlots := ⟨f.locals.map thisFlag, f.stack.map thisFlag⟩

theorem frameSlots_entryThis (maxLocals : Nat) : frameSlots (entryThis maxLocals) = ⟨entryLocals maxLocals, []⟩ := by
  simp [frameSlots, entryThis, entryLocals, thisFlag]

theorem within_of_le {f : SlotFrame Bool} {s : TraceSlots} (h : (frameSlots f).Le s) : (frameSlots f).Within s := by
  have nonzero {a : List Bool} {b : List UInt8} (hle : SlotsSubset (a.map thisFlag) b) :
      List.Forall₂ SlotLe (a.map thisFlag) b := by
    induction a generalizing b with
    | nil =>
      cases hle
      exact .nil
    | cons x a ih =>
      cases hle with
      | cons hx hrest => exact .cons ⟨by cases x <;> decide, hx⟩ (ih hrest)
  exact ⟨nonzero h.locals, nonzero h.stack⟩

include h

/-- With nothing queued, every path is covered. -/
theorem Traceable.covered (hloop : loop.Sound cf editor) (hclosed : loop.Closed cf editor) (hpending : loop.pending = 0)
    {i : Nat} {f : SlotFrame Bool} (hf : Traced cf editor i f) :
    ∃ s, loop.slotsAt i = some s ∧ (frameSlots f).Within s := by
  induction hf with
  | entry =>
    obtain ⟨s, hs, hle⟩ := hclosed.entry
    refine ⟨s, hs, within_of_le ?_⟩
    rw [frameSlots_entryThis]
    exact hle
  | @step i j f g node e path hnode hgoes heffect hexecuted hedge ih =>
    obtain ⟨s, hs, hwithin⟩ := ih
    have hjoined := hloop.joined i s hs
    have hnone : initializes cf node s.stack = none := by
      have := h.initializes_joined path hjoined hnode
      rw [hgoes] at this
      exact this
    -- the frame makes its step in the loop's own slots
    have hdepth := (path.bounds h.locals).2
    have hframe : executeSlots cf node ⟨f.locals.map thisFlag, f.stack.map thisFlag, editor.maxStack.toNat⟩ =
        some ⟨g.locals.map thisFlag, g.stack.map thisFlag, editor.maxStack.toNat⟩ := by
      rw [executeSlots_eq (h.fits path hnode) (by simpa using hdepth), heffect, Option.bind_some]
      have hmap := e.apply_map editor.maxStack.toNat thisFlag false f
      rw [hexecuted] at hmap
      have hother : e.apply editor.maxStack.toNat traceOther (f.map thisFlag) = some (g.map thisFlag) := hmap
      simp only [TraceWork.frame]
      rw [show (⟨f.locals.map thisFlag, f.stack.map thisFlag⟩ : SlotFrame UInt8) = f.map thisFlag from rfl, hother]
      rfl
    obtain ⟨work, hwork, hle⟩ := steps_executeSlots cf node
      ⟨f.locals.map thisFlag, f.stack.map thisFlag, editor.maxStack.toNat⟩ ⟨s.locals, s.stack, editor.maxStack.toNat⟩
      ⟨hwithin.locals, hwithin.stack, rfl⟩ _ hframe
    obtain ⟨s', hs', hcover⟩ := (hclosed.settled i s hs (hloop.queues.idle hpending i)).propagated hnode
      hnone hwork j hedge
    have hg : (frameSlots g).Within work.slots := ⟨hle.locals, hle.stack⟩
    exact ⟨s', hs', hg.trans hcover⟩

/-- Every call that a path finds is recorded. -/
theorem Traceable.recorded (hloop : loop.Sound cf editor) (hclosed : loop.Closed cf editor)
    (hpending : loop.pending = 0)
    {a : Nat} (ha : a ∈ tracedCalls cf editor) : loop.Recorded a := by
  obtain ⟨i, f, node, hf, hnode, hreceives, rfl⟩ := ha
  obtain ⟨s, hs, -⟩ := h.covered hloop hclosed hpending hf
  have hinit := h.initializes_joined hf (hloop.joined i s hs) hnode
  rw [hreceives] at hinit
  exact (hclosed.settled i s hs (hloop.queues.idle hpending i)).recorded hnode hinit

end Run

/-- The answer that a set of offsets asks for. -/
structure ConstructorInitResult.Answers (result : ConstructorInitResult) (calls : Set Nat) : Prop where
  found : ∀ a, calls = {a} → result = .found a
  missing : calls = ∅ → result = .missing
  ambiguous : calls.Nontrivial → result = .ambiguous

/-- Two sets that get one answer: the same set, or both with two elements. -/
theorem ConstructorInitResult.Answers.unique {result : ConstructorInitResult} {calls calls' : Set Nat}
    (h : result.Answers calls) (h' : result.Answers calls') : calls = calls' ∨ calls.Nontrivial := by
  rcases calls.eq_empty_or_nonempty with hempty | hne
  · rcases calls'.eq_empty_or_nonempty with hempty' | hne'
    · exact .inl (hempty.trans hempty'.symm)
    · have hmissing := h.missing hempty
      rcases hne'.exists_eq_singleton_or_nontrivial with ⟨a, ha⟩ | hnontrivial
      · rw [h'.found a ha] at hmissing
        cases hmissing
      · rw [h'.ambiguous hnontrivial] at hmissing
        cases hmissing
  · rcases hne.exists_eq_singleton_or_nontrivial with ⟨a, ha⟩ | hnontrivial
    · have hfound := h.found a ha
      rcases calls'.eq_empty_or_nonempty with hempty' | hne'
      · rw [h'.missing hempty'] at hfound
        cases hfound
      · rcases hne'.exists_eq_singleton_or_nontrivial with ⟨b, hb⟩ | hnontrivial'
        · rw [h'.found b hb] at hfound
          cases hfound
          exact .inl (ha.trans hb.symm)
        · rw [h'.ambiguous hnontrivial'] at hfound
          cases hfound
    · exact .inr hnontrivial

theorem ConstructorInitResult.Answers.eq_of_found {calls : Set Nat} {a : Nat}
    (h : (ConstructorInitResult.found a).Answers calls) : calls = {a} := by
  rcases calls.eq_empty_or_nonempty with hempty | hne
  · cases h.missing hempty
  · rcases hne.exists_eq_singleton_or_nontrivial with ⟨b, hb⟩ | hnontrivial
    · cases h.found b hb
      exact hb
    · cases h.ambiguous hnontrivial

/-- **The trace finds what its paths find.** -/
theorem constructorInitOffset_traced {cf : ClassFile} {editor : CodeEditor} (h : Traceable cf editor) :
    (constructorInitOffset cf editor).Answers (tracedCalls cf editor) := by
  by_cases hcount : editor.instructions.items.length = 0
  · have hempty : tracedCalls cf editor = ∅ := by
      rw [Set.eq_empty_iff_forall_notMem]
      rintro a ⟨i, f, node, -, hnode, -⟩
      rw [List.length_eq_zero_iff.mp hcount] at hnode
      cases hnode
    have hmissing : constructorInitOffset cf editor = .missing := by
      unfold constructorInitOffset
      rw [if_pos (.inl hcount)]
    rw [hempty, hmissing]
    exact ⟨fun a ha => absurd ha.symm (Set.singleton_ne_empty a), fun _ => rfl,
      fun hne => absurd rfl hne.nonempty.ne_empty⟩
  have hlocals : editor.maxLocals ≠ 0 := by
    intro hzero
    have := h.locals
    rw [hzero] at this
    cases this
  obtain ⟨hsound, hclosed, hpending⟩ := h.traceLoop_spec (sound_initialLoop (by omega)) closed_initialLoop
    (cost_initialLoop h.locals (by omega))
  unfold constructorInitOffset
  rw [if_neg (by tauto)]
  dsimp only
  generalize traceLoop cf editor _ (initialLoop editor) = done at hsound hclosed hpending ⊢
  have hrecorded := fun a ha => h.recorded hsound hclosed hpending (a := a) ha
  refine ⟨fun a ha => ?_, fun hempty => ?_, fun hnontrivial => ?_⟩
  · have hclear : done.ambiguous ≠ true := by
      intro hambiguous
      have := hsound.ambiguous hambiguous
      rw [ha] at this
      exact Set.not_nontrivial_singleton this
    rcases hrecorded a (by rw [ha]; rfl) with hfound | hambiguous
    · rw [if_neg hclear, hfound]
    · exact absurd hambiguous hclear
  · have hclear : done.ambiguous ≠ true := by
      intro hambiguous
      have := hsound.ambiguous hambiguous
      rw [hempty] at this
      exact Set.not_nontrivial_empty this
    have hnone : done.found = none := by
      cases hfound : done.found with
      | none => rfl
      | some a =>
        have := hsound.found a hfound
        rw [hempty] at this
        cases this
    rw [if_neg hclear, hnone]
  · obtain ⟨a, ha, b, hb, hne⟩ := hnontrivial
    have hambiguous : done.ambiguous = true := by
      rcases hrecorded a ha with hfound | hambiguous
      · rcases hrecorded b hb with hfound' | hambiguous
        · rw [hfound] at hfound'
          exact absurd (Option.some.inj hfound') hne
        · exact hambiguous
      · exact hambiguous
    rw [if_pos hambiguous]

end Jni2Hook
