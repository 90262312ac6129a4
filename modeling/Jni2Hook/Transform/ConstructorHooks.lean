import Jni2Hook.Transform.ConstructorAnalysis
import Jni2Hook.Transform.InsertionPoint

/-!
# Hooks in constructors

`class_transform_insert_call` moves an offset that is below the end of the initialising call up to it. Where a body is
not laid out in the order in which it is executed, an offset behind the call may still be reached before it.

* `execute_grows`: an instruction does the same under a pool that has grown.
* `Relocated`: a body with instructions inserted; up to the first visit of the inserted ones, its paths are the old
  ones.
* `constructor_hook_initialised_iff`: a hook runs on an initialised `this` exactly when no old path comes to the point
  of insertion with an uninitialised one.
-/

namespace Jni2Hook

open Lib

/-! ## Instructions under a pool that has grown -/

section Grows

variable {cf cf' : ClassFile} {limit limit' i i' : Nat} {node node' : Instruction} {s s' : ThisState} {g : Nat → Nat}

/-- Nothing tells the two instructions apart but where they stand and where they jump to. -/
structure SameAction (node node' : Instruction) : Prop where
  opcode : node'.opcode = node.opcode
  localIndex : node'.operand.localIndex = node.operand.localIndex
  memberIndex : node'.operand.memberIndex = node.operand.memberIndex
  dimensions : node'.operand.dimensions = node.operand.dimensions

theorem SameAction.of_blank (hopcode : node'.opcode = node.opcode) (h : node'.operand.blank = node.operand.blank) :
    SameAction node node' := by
  have hlocal (operand : Operand) : operand.blank.localIndex = operand.localIndex := by cases operand <;> rfl
  have hmember (operand : Operand) : operand.blank.memberIndex = operand.memberIndex := by cases operand <;> rfl
  have hdimensions (operand : Operand) : operand.blank.dimensions = operand.dimensions := by cases operand <;> rfl
  refine ⟨hopcode, ?_, ?_, ?_⟩
  · rw [← hlocal, h, hlocal]
  · rw [← hmember, h, hmember]
  · rw [← hdimensions, h, hdimensions]

theorem memberText_grows (h : Edits cf cf') (hsame : SameAction node node') {t : Bytes}
    (ht : memberText cf.constantPool node = some t) : memberText cf'.constantPool node' = some t := by
  obtain ⟨entry, hentry, ht⟩ := Option.bind_eq_some_iff.mp ht
  obtain ⟨natIndex, hnat, ht⟩ := Option.bind_eq_some_iff.mp ht
  obtain ⟨pair, hpair, heq⟩ := Option.bind_eq_some_iff.mp ht
  cases heq
  unfold memberText
  rw [hsame.memberIndex]
  simp only [h.grows.at_ hentry, hnat, h.grows.nameAndType hpair, Option.bind_eq_bind,
    Option.bind_some, Option.pure_def]

theorem fieldTypeOf_grows (h : Edits cf cf') (hsame : SameAction node node') {t : Bytes}
    (ht : memberText cf.constantPool node = some t) :
    fieldTypeOf cf'.constantPool node' = fieldTypeOf cf.constantPool node := by
  simp only [fieldTypeOf, ht, memberText_grows h hsame ht]

theorem methodTypeOf_grows (h : Edits cf cf') (hsame : SameAction node node') {t : Bytes}
    (ht : memberText cf.constantPool node = some t) :
    methodTypeOf cf'.constantPool node' = methodTypeOf cf.constantPool node := by
  simp only [methodTypeOf, ht, memberText_grows h hsame ht]

theorem memberText_of_members {slots : Nat × Nat} (h : jvmMembers cf.constantPool node = some slots) :
    ∃ t, memberText cf.constantPool node = some t := by
  unfold jvmMembers at h
  split at h
  · obtain ⟨type, htype, -⟩ := Option.map_eq_some_iff.mp h
    obtain ⟨t, ht, -⟩ := Option.bind_eq_some_iff.mp htype
    exact ⟨t, ht⟩
  · obtain ⟨d, hd, -⟩ := Option.map_eq_some_iff.mp h
    obtain ⟨t, ht, -⟩ := Option.bind_eq_some_iff.mp hd
    exact ⟨t, ht⟩

theorem memberText_of_execute (h : s.execute cf limit i node = some s') (hop : namesMember node.opcode.toNat = true) :
    ∃ t, memberText cf.constantPool node = some t := by
  obtain ⟨slots, hslots⟩ := jvmMembers_of_execute h hop
  exact memberText_of_members hslots

theorem jvmMembers_grows (h : Edits cf cf') (hsame : SameAction node node') {slots : Nat × Nat}
    (hslots : jvmMembers cf.constantPool node = some slots) : jvmMembers cf'.constantPool node' = some slots := by
  obtain ⟨t, ht⟩ := memberText_of_members hslots
  rw [jvmMembers, hsame.opcode, fieldTypeOf_grows h hsame ht, methodTypeOf_grows h hsame ht]
  exact hslots

theorem jvmEffect_grows (h : Edits cf cf') (hsame : SameAction node node') {e : SlotEffect}
    (he : jvmEffect cf node = some e) : jvmEffect cf' node' = some e := by
  obtain ⟨shape, hshape, heffect⟩ := Option.bind_eq_some_iff.mp he
  have hcode := effect_of_members (fun _ slots hslots => jvmMembers_grows h hsame hslots) heffect
  rw [jvmEffect, hsame.opcode, hshape, Option.bind_some, ← hcode]
  cases shape <;> simp only [SlotShape.effect, hsame.localIndex, hsame.dimensions]

/-- The call of an instruction that passes stays the same. -/
theorem initCall_grows (h : Edits cf cf') (hsame : SameAction node node')
    (hexecute : s.execute cf limit i node = some s') :
    initCall cf' node' = initCall cf node := by
  unfold initCall
  rw [hsame.opcode, hsame.memberIndex]
  by_cases hop : node.opcode = Opc.invokespecial
  · obtain ⟨slots, hslots⟩ := jvmMembers_of_execute hexecute (by rw [hop]; rfl)
    obtain ⟨t, ht⟩ := memberText_of_members hslots
    rw [if_pos hop, if_pos hop, methodTypeOf_grows h hsame ht]
    obtain ⟨entry, hentry, ht⟩ := Option.bind_eq_some_iff.mp ht
    obtain ⟨natIndex, hnat, ht⟩ := Option.bind_eq_some_iff.mp ht
    obtain ⟨pair, hpair, -⟩ := Option.bind_eq_some_iff.mp ht
    rw [hentry, h.grows.at_ hentry]
    cases entry with
    | methodref classIndex index =>
      cases hnat
      dsimp only
      rw [hpair, h.grows.nameAndType hpair]
    | _ => rfl
  · rw [if_neg hop, if_neg hop]

theorem namesOwnClass_grows (h : Edits cf cf') {classIndex : UInt16} (hnames : namesOwnClass cf classIndex = true) :
    namesOwnClass cf' classIndex = true := by
  unfold namesOwnClass at hnames ⊢
  split at hnames
  · rename_i name hname
    rw [h.grows.className hname, h.thisClass, h.superClass]
    simp only [Bool.or_eq_true, decide_eq_true_eq] at hnames ⊢
    exact hnames.imp h.grows.className h.grows.className
  · cases hnames

/-- The places to return to have moved. -/
def ThisState.moved (g : Nat → Nat) (s : ThisState) : ThisState :=
  ⟨s.frame, s.initialised, s.addresses.map (Option.map g)⟩

theorem ThisState.moved_id (s : ThisState) : s.moved id = s := by
  simp [ThisState.moved, SlotFrame.map]

theorem ThisState.moved_outside (g : Nat → Nat) (f : SlotFrame Bool) (b : Bool) :
    (ThisState.outside f b).moved g = .outside f b := by
  simp [ThisState.moved, ThisState.outside, SlotFrame.map]

/-- A `ret` goes to where its address is now. -/
theorem goes_moved_iff (hg : g.Injective) (hsame : SameAction node node') {kind : EdgeKind} {j : Nat} :
    (s.moved g).Goes node' kind (g j) ↔ s.Goes node kind j := by
  have haddress : (s.moved g).addresses.locals.getD node'.operand.localIndex none =
      (s.addresses.locals.getD node.operand.localIndex none).map g := by
    rw [hsame.localIndex]
    exact List.getD_map s.addresses.locals none (Option.map g)
  unfold ThisState.Goes
  rw [haddress, ← Option.map_some, (Option.map_injective hg).eq_iff]

/-- An instruction that passes does the same under a pool that has grown, at another place. -/
theorem execute_moved (h : Edits cf cf') (hsame : SameAction node node') (hle : limit ≤ limit')
    (hg : g (i + 1) = i' + 1) (hexecute : s.execute cf limit i node = some s') :
    (s.moved g).execute cf' limit' i' node' = some (s'.moved g) := by
  obtain ⟨e, he, happly, haddresses, hnumbers, hcall⟩ := execute_cases hexecute
  have haddress : returnAddress i' node' = (returnAddress i node).map g := by
    unfold returnAddress
    rw [hsame.opcode, ← hg]
    split <;> rfl
  have hmoved : e.apply limit (returnAddress i' node') (s.moved g).addresses = some (s'.moved g).addresses := by
    rw [haddress]
    exact (e.apply_map limit (Option.map g) _ _).trans (by rw [haddresses]; rfl)
  have happly : e.apply limit false (s.moved g).frame = some s'.frame := happly
  unfold ThisState.execute
  simp only [jvmEffect_grows h hsame he, e.apply_mono limit hle happly, e.apply_mono limit hle hmoved,
    Option.bind_eq_bind, Option.bind_some]
  rw [initCall_grows h hsame hexecute, hsame.opcode, if_neg]
  · rcases hcall with ⟨classIndex, arguments, hcall, htakes, hfresh, hown, hdone⟩ | ⟨hnone, hkept⟩
    · rw [hcall]
      dsimp only
      rw [if_pos (show takesThis (s.moved g).frame arguments = true from htakes),
        if_pos ⟨hfresh, namesOwnClass_grows h hown⟩, ← hdone]
      rfl
    · have hkept : s'.initialised = (s.moved g).initialised := hkept
      cases hcall : initCall cf node with
      | none =>
        dsimp only
        rw [← hkept]
        rfl
      | some call =>
        obtain ⟨classIndex, arguments⟩ := call
        have hnot : takesThis (s.moved g).frame arguments = false := hnone classIndex arguments hcall
        dsimp only
        rw [if_neg (by rw [hnot]; decide), ← hkept]
        rfl
  · rw [Bool.and_eq_true, List.any_eq_true]
    rintro ⟨harithmetic, x, hx, htrue⟩
    rw [hnumbers harithmetic x hx] at htrue
    cases htrue

/-- An instruction that passes does the same under a pool that has grown. -/
theorem execute_grows (h : Edits cf cf') (hsame : SameAction node node') (hle : limit ≤ limit')
    (hexecute : s.execute cf limit i node = some s') : s.execute cf' limit' i node' = some s' := by
  have hmoved := execute_moved (g := id) h hsame hle rfl hexecute
  rwa [ThisState.moved_id, ThisState.moved_id] at hmoved

/-- What is initialised stays so. -/
theorem initialised_of_execute (h : s.execute cf limit i node = some s') (hs : s.initialised = true) :
    s'.initialised = true := by
  obtain ⟨-, -, -, -, -, ⟨-, -, -, -, -, -, hdone⟩ | ⟨-, hkept⟩⟩ := execute_cases h
  · exact hdone
  · rw [hkept, hs]

end Grows

/-! ## Bodies with instructions inserted -/

/-- The second body is the first with `count` instructions inserted before the one of index `at_`, under a tree that has
been edited. -/
structure Relocated (cf cf' : ClassFile) (old new : CodeEditor) (at_ count : Nat) : Prop where
  edits : Edits cf cf'
  locals : new.maxLocals = old.maxLocals
  stack : old.maxStack.toNat ≤ new.maxStack.toNat
  moved : ∀ {i node}, old.instructions.items[i]? = some node →
    ∃ node', new.instructions.items[shiftInstruction at_ count i]? = some node' ∧ SameAction node node'
  edges : ∀ i, new.resolve.successors (shiftInstruction at_ count i) =
    (old.resolve.successors i).map (Prod.map id (shiftPosition at_ count))

theorem shiftPosition_of_ne {at_ count i : Nat} (h : i ≠ at_) :
    shiftPosition at_ count i = shiftInstruction at_ count i := by
  unfold shiftPosition shiftInstruction
  split <;> split <;> omega

theorem shiftPosition_self (at_ count : Nat) : shiftPosition at_ count at_ = at_ := if_pos (Nat.le_refl _)

/-- What stands behind an instruction moves with it. -/
theorem shiftPosition_behind (at_ count i : Nat) :
    shiftPosition at_ count (i + 1) = shiftInstruction at_ count i + 1 := by
  unfold shiftPosition shiftInstruction
  split <;> split <;> omega

theorem shiftPosition_injective (at_ count : Nat) : (shiftPosition at_ count).Injective :=
  Function.LeftInverse.injective (projectIndex_shiftPosition at_ count)

namespace Relocated

variable {cf cf' : ClassFile} {old new : CodeEditor} {at_ count : Nat} (h : Relocated cf cf' old new at_ count)

include h

theorem edge {i j : Nat} {kind : EdgeKind} (hedge : old.Edge i kind j) :
    new.Edge (shiftInstruction at_ count i) kind (shiftPosition at_ count j) := by
  rw [CodeEditor.Edge, h.edges]
  exact List.mem_map.mpr ⟨(kind, j), hedge, rfl⟩

theorem edge_cases {i j' : Nat} {kind : EdgeKind} (hedge : new.Edge (shiftInstruction at_ count i) kind j') :
    ∃ j, old.Edge i kind j ∧ j' = shiftPosition at_ count j := by
  rw [CodeEditor.Edge, h.edges] at hedge
  obtain ⟨⟨kind', j⟩, hmem, heq⟩ := List.mem_map.mp hedge
  cases heq
  exact ⟨j, hmem, rfl⟩

/-- An old path with an uninitialised `this` is a new one, up to the first visit of the point. -/
theorem arrives_new {i : Nat} {s : ThisState} (path : Arrives cf old anyEdge i s) (hs : s.initialised = false) :
    Arrives cf' new anyEdge (shiftPosition at_ count i) (s.moved (shiftPosition at_ count)) ∨
      ∃ t, t.initialised = false ∧ Arrives cf' new anyEdge at_ t := by
  induction path with
  | entry =>
    refine .inl ?_
    rw [← h.locals, ThisState.moved_outside]
    exact .entry
  | @flow i j kind node s s' path hat _ hexecuted hnormal hedge hgoes ih =>
    have hfresh : s.initialised = false := by
      by_contra hdone
      rw [initialised_of_execute hexecuted (by simpa using hdone)] at hs
      cases hs
    rcases ih hfresh with hnew | hvisited
    · by_cases hi : i = at_
      · rw [hi, shiftPosition_self] at hnew
        exact .inr ⟨s.moved _, hfresh, hnew⟩
      · rw [shiftPosition_of_ne hi] at hnew
        obtain ⟨node', hat', hsame⟩ := h.moved hat
        have hexecute := execute_moved h.edits hsame h.stack (shiftPosition_behind at_ count i) hexecuted
        exact .inl (hnew.flow hat' trivial hexecute hnormal (h.edge hedge)
          ((goes_moved_iff (shiftPosition_injective at_ count) hsame).mpr hgoes))
    · exact .inr hvisited
  | @thrown i j kind node s path hat _ hhandled hedge ih =>
    rcases ih hs with hnew | hvisited
    · by_cases hi : i = at_
      · rw [hi, shiftPosition_self] at hnew
        exact .inr ⟨s.moved _, hs, hnew⟩
      · rw [shiftPosition_of_ne hi] at hnew
        obtain ⟨node', hat', -⟩ := h.moved hat
        exact .inl (hnew.thrown hat' trivial hhandled (h.edge hedge))
    · exact .inr hvisited

/-- When no old path comes to the point with an uninitialised `this`, a new path with one is an old path that has not
been there. -/
theorem arrives_old (hv : Verified cf old)
    (hpoint : ∀ s, Arrives cf old anyEdge at_ s → s.initialised = true) {i' : Nat} {s : ThisState}
    (path : Arrives cf' new anyEdge i' s) :
    s.initialised = true ∨ ∃ i t, i ≠ at_ ∧ i' = shiftInstruction at_ count i ∧ s = t.moved (shiftPosition at_ count) ∧
      Arrives cf old anyEdge i t := by
  have hreach {j : Nat} {s : ThisState} (harrives : Arrives cf old anyEdge j s) : s.initialised = true ∨
      ∃ i t, i ≠ at_ ∧ shiftPosition at_ count j = shiftInstruction at_ count i ∧
        s.moved (shiftPosition at_ count) = t.moved (shiftPosition at_ count) ∧ Arrives cf old anyEdge i t := by
    by_cases hj : j = at_
    · rw [hj] at harrives
      exact .inl (hpoint s harrives)
    · exact .inr ⟨j, s, hj, shiftPosition_of_ne hj, rfl, harrives⟩
  induction path with
  | entry =>
    have hentry := hreach .entry
    rw [← h.locals, ThisState.moved_outside] at hentry
    exact hentry
  | @flow i' j' kind node' s s' path hat' _ hexecuted hnormal hedge hgoes ih =>
    rcases ih with hdone | ⟨i, t, -, rfl, rfl, harrives⟩
    · exact .inl (initialised_of_execute hexecuted hdone)
    · obtain ⟨node, t', hat, hexecute⟩ := hv.executes harrives
      obtain ⟨moved, hmoved, hsame⟩ := h.moved hat
      rw [hat'] at hmoved
      cases hmoved
      rw [execute_moved h.edits hsame h.stack (shiftPosition_behind at_ count i) hexecute] at hexecuted
      cases hexecuted
      obtain ⟨j, hold, rfl⟩ := h.edge_cases hedge
      exact hreach (harrives.flow hat trivial hexecute hnormal hold
        ((goes_moved_iff (shiftPosition_injective at_ count) hsame).mp hgoes))
  | @thrown i' j' kind node' s path hat' _ hhandled hedge ih =>
    rcases ih with hdone | ⟨i, t, -, rfl, rfl, harrives⟩
    · exact .inl hdone
    · obtain ⟨node, -, hat, -⟩ := hv.executes harrives
      obtain ⟨j, hold, rfl⟩ := h.edge_cases hedge
      exact hreach (harrives.thrown hat trivial hhandled hold)

/-- What the inserted instructions find is initialised exactly when it was at the point. -/
theorem initialised_iff (hv : Verified cf old) (hcount : 0 < count) :
    (∀ k < count, ∀ s, Arrives cf' new anyEdge (at_ + k) s → s.initialised = true) ↔
      ∀ s, Arrives cf old anyEdge at_ s → s.initialised = true := by
  constructor
  · intro hnew s path
    by_contra hs
    have hfresh : s.initialised = false := by simpa using hs
    obtain ⟨t, ht, harrives⟩ : ∃ t, t.initialised = false ∧ Arrives cf' new anyEdge at_ t := by
      rcases h.arrives_new path hfresh with harrives | hvisited
      · rw [shiftPosition_self] at harrives
        exact ⟨s.moved _, hfresh, harrives⟩
      · exact hvisited
    rw [hnew 0 hcount t harrives] at ht
    cases ht
  · intro hpoint k hk s path
    rcases h.arrives_old hv hpoint path with hdone | ⟨i, -, hi, heq, -⟩
    · exact hdone
    · -- no old instruction stands among the inserted ones
      unfold shiftInstruction at heq
      split at heq <;> omega

end Relocated

/-! ## The analysis under a pool that has grown -/

theorem SameAction.refl (node : Instruction) : SameAction node node := ⟨rfl, rfl, rfl, rfl⟩

section Grown

variable {cf cf' : ClassFile} {old new : CodeEditor} (hedits : Edits cf cf') (hbare : new.bare = old.bare)
  (hv : Verified cf old)

include hbare

theorem instructions_of_bare : new.instructions = old.instructions := (congrArg CodeEditor.instructions hbare :)

theorem maxStack_of_bare : new.maxStack = old.maxStack := (congrArg CodeEditor.maxStack hbare :)

theorem maxLocals_of_bare : new.maxLocals = old.maxLocals := (congrArg CodeEditor.maxLocals hbare :)

theorem edge_of_bare {i j : Nat} {kind : EdgeKind} : new.Edge i kind j ↔ old.Edge i kind j := by
  have h := congrArg (fun editor : CodeEditor => editor.resolve.successors i) hbare
  exact iff_of_eq (congrArg ((kind, j) ∈ ·) h)

include hedits hv

/-- The paths of a constructor do not depend on what is appended to the pool. -/
theorem arrives_grown_iff {allowed allowed' : ThisState → Instruction → EdgeKind → Prop}
    (hallowed : ∀ {i : Nat} {s s' : ThisState} {node : Instruction} {kind : EdgeKind},
      s.execute cf old.maxStack.toNat i node = some s' → (allowed' s node kind ↔ allowed s node kind))
    {i : Nat} {s : ThisState} : Arrives cf' new allowed' i s ↔ Arrives cf old allowed i s := by
  have hstack := maxStack_of_bare hbare
  have hitems := congrArg InstructionList.items (instructions_of_bare hbare)
  constructor
  · intro path
    induction path with
    | entry =>
      rw [maxLocals_of_bare hbare]
      exact .entry
    | @flow i j kind node s s' path hat hallows hexecuted hnormal hedge hgoes ih =>
      obtain ⟨node', t, hat', hexecute⟩ := hv.executes ih.any
      rw [hitems, hat'] at hat
      cases hat
      rw [hstack, execute_grows hedits (.refl _) (Nat.le_refl _) hexecute] at hexecuted
      cases hexecuted
      exact ih.flow hat' ((hallowed hexecute).mp hallows) hexecute hnormal ((edge_of_bare hbare).mp hedge) hgoes
    | @thrown i j kind node s path hat hallows hhandled hedge ih =>
      obtain ⟨node', t, hat', hexecute⟩ := hv.executes ih.any
      rw [hitems, hat'] at hat
      cases hat
      exact ih.thrown hat' ((hallowed hexecute).mp hallows) hhandled ((edge_of_bare hbare).mp hedge)
  · intro path
    induction path with
    | entry =>
      rw [← maxLocals_of_bare hbare]
      exact .entry
    | @flow i j kind node s s' path hat hallows hexecuted hnormal hedge hgoes ih =>
      have hexecute := execute_grows hedits (.refl _) (Nat.le_refl _) hexecuted
      exact ih.flow (by rw [hitems]; exact hat) ((hallowed hexecuted).mpr hallows)
        (by rw [hstack]; exact hexecute) hnormal
        ((edge_of_bare hbare).mpr hedge) hgoes
    | @thrown i j kind node s path hat hallows hhandled hedge ih =>
      obtain ⟨node', t, hat', hexecute⟩ := hv.executes path.any
      rw [hat] at hat'
      cases hat'
      exact ih.thrown (by rw [hitems]; exact hat) ((hallowed hexecute).mpr hallows) hhandled
        ((edge_of_bare hbare).mpr hedge)

theorem verified_grown : Verified cf' new := by
  have harrives {i : Nat} {s : ThisState} : Arrives cf' new anyEdge i s ↔ Arrives cf old anyEdge i s :=
    arrives_grown_iff hedits hbare hv fun _ => Iff.rfl
  have hinstructions := instructions_of_bare hbare
  refine ⟨hinstructions ▸ hv.size, maxLocals_of_bare hbare ▸ hv.locals, fun path => ?_, fun hs ht => ?_,
    fun {i s t node classIndex arguments} hs ht hat hcall => ?_⟩
  · obtain ⟨node, t, hat, hexecute⟩ := hv.executes (harrives.mp path)
    refine ⟨node, t, hinstructions ▸ hat, ?_⟩
    rw [maxStack_of_bare hbare]
    exact execute_grows hedits (.refl _) (Nat.le_refl _) hexecute
  · exact hv.depth (harrives.mp hs) (harrives.mp ht)
  · obtain ⟨node', u, hat', hexecute⟩ := hv.executes (harrives.mp hs)
    rw [hinstructions, hat'] at hat
    cases hat
    rw [initCall_grows hedits (.refl _) hexecute] at hcall
    exact hv.receivers (harrives.mp hs) (harrives.mp ht) hat' hcall

omit hbare hv in
theorem callsOwn_grown {s s' : ThisState} {limit i : Nat} {node : Instruction} (h : s.execute cf limit i node = some s')
    (f : SlotFrame Bool) : callsOwn cf' node f = callsOwn cf node f := by
  unfold callsOwn
  rw [initCall_grows hedits (.refl _) h, hedits.thisClass, hedits.superClass]

theorem followed_grown_iff {i : Nat} {s : ThisState} :
    Arrives cf' new (Followed cf') i s ↔ Arrives cf old (Followed cf) i s := by
  refine arrives_grown_iff hedits hbare hv fun {_ s s' node kind} hexecute => ?_
  unfold Followed
  rw [callsOwn_grown hedits hexecute]

theorem counted_grown (hcounted : Counted cf old) : Counted cf' new := by
  intro i s node path hat
  have hpath := (followed_grown_iff hedits hbare hv).mp path
  rw [instructions_of_bare hbare] at hat
  obtain ⟨node', t, hat', hexecute⟩ := hv.executes hpath.any
  rw [hat] at hat'
  cases hat'
  have htypes := hcounted i s node hpath hat
  unfold memberTypes at htypes ⊢
  split
  · rename_i hop
    rw [if_pos hop] at htypes
    obtain ⟨t, ht⟩ := memberText_of_execute hexecute hop
    rw [fieldTypeOf_grows hedits (.refl _) ht, methodTypeOf_grows hedits (.refl _) ht]
    exact htypes
  · exact fun _ hmem => absurd hmem List.not_mem_nil

theorem followedCalls_grown : followedCalls cf' new = followedCalls cf old := by
  ext a
  constructor
  · rintro ⟨i, s, node, classIndex, arguments, path, hat, hcall, htakes, hown, rfl⟩
    have hpath := (followed_grown_iff hedits hbare hv).mp path
    rw [instructions_of_bare hbare] at hat ⊢
    obtain ⟨node', t, hat', hexecute⟩ := hv.executes hpath.any
    rw [hat] at hat'
    cases hat'
    rw [initCall_grows hedits (.refl _) hexecute] at hcall
    rw [hedits.thisClass, hedits.superClass] at hown
    exact ⟨i, s, node, classIndex, arguments, hpath, hat, hcall, htakes, hown, rfl⟩
  · rintro ⟨i, s, node, classIndex, arguments, path, hat, hcall, htakes, hown, rfl⟩
    obtain ⟨node', t, hat', hexecute⟩ := hv.executes path.any
    rw [hat] at hat'
    cases hat'
    rw [← initCall_grows hedits (.refl _) hexecute] at hcall
    rw [← hedits.thisClass, ← hedits.superClass] at hown
    rw [← instructions_of_bare hbare] at hat ⊢
    exact ⟨i, s, node, classIndex, arguments, (followed_grown_iff hedits hbare hv).mpr path, hat, hcall,
      htakes, hown, rfl⟩

/-- The analysis of the grown class answers for the calls of the old one. -/
theorem answers_grown (hl : new.instructions.Laid) (hcounted : Counted cf old) :
    (constructorInitOffset cf' new).Answers (followedCalls cf old) := by
  have hverified := verified_grown hedits hbare hv
  have hgrown := counted_grown hedits hbare hv hcounted
  rw [← followedCalls_grown hedits hbare hv, ← tracedCalls_eq hverified hl hgrown]
  exact constructorInitOffset_traced (traceable_of_verified hverified hl hgrown)

end Grown

/-! ## The hook -/

theorem edits_storedAt (cf : ClassFile) (index : Nat) (stored : AttributeInfo) :
    Edits cf (storedAt cf index stored) := by
  refine ⟨.refl _, rfl, rfl, fun {i m} hm => ?_⟩
  simp only [storedAt, List.getElem?_modify, hm, Option.map_eq_map, Option.map_some]
  split
  · exact ⟨_, rfl, rfl, rfl⟩
  · exact ⟨_, rfl, rfl, rfl⟩

/-- The stack that is added does not overflow. -/
theorem maxStack_of_insert {editor edited : CodeEditor} {offset : Nat} {nodes : List Instruction} {extraStack : UInt16}
    (hne : nodes ≠ []) (h : codeEditorInsert editor offset nodes extraStack = (.ok (), edited)) :
    editor.maxStack.toNat ≤ (editor.maxStack + extraStack).toNat := by
  unfold codeEditorInsert at h
  rw [if_neg (by simpa using hne)] at h
  dsimp only at h
  split at h
  · cases h
  split at h
  · cases h
  · rw [UInt16.toNat_add]
    omega

theorem relocated_of_insert {cf cf' : ClassFile} {old new : CodeEditor} {at_ : Nat} {nodes : List Instruction}
    {extraStack : UInt16} (hedits : Edits cf cf') (hat : at_ ≤ old.instructions.items.length) (hne : nodes ≠ [])
    (hstraight : ∀ n ∈ nodes, n.isStraightLine = true)
    (hstack : old.maxStack.toNat ≤ (old.maxStack + extraStack).toNat)
    (hview : new.resolve = old.resolve.insert at_ nodes extraStack) : Relocated cf cf' old new at_ nodes.length := by
  have hlength : at_ ≤ old.resolve.instructions.length := by
    simpa [CodeEditor.resolve, CodeEditor.body, Body.map] using hat
  refine ⟨hedits, (congrArg Body.maxLocals hview :), ?_, fun {i node} hnode => ?_, fun i => ?_⟩
  · have hmax : new.maxStack = old.maxStack + extraStack := by
      have h := congrArg Body.maxStack hview
      rw [Body.insert, if_neg (by simpa using hne)] at h
      exact h
    rw [hmax]
    exact hstack
  · have hnew := instructions_insert_moved nodes extraStack hlength i
    rw [← hview] at hnew
    simp only [CodeEditor.resolve, CodeEditor.body, Body.map, List.getElem?_map, hnode, Option.map_some] at hnew
    obtain ⟨_, hbody, heq⟩ := Option.map_eq_some_iff.mp hnew
    obtain ⟨node', hnode', rfl⟩ := Option.map_eq_some_iff.mp hbody
    exact ⟨node', hnode', .of_blank (congrArg BodyInstruction.opcode heq :) (congrArg BodyInstruction.operand heq :)⟩
  · rw [hview]
    exact successors_shiftInstruction extraStack hstraight hlength i

/-- **A constructor hook runs on an initialised `this` exactly when no path is early.** For every constructor that the
verifier accepts and every offset at which a hook is inserted: on every path of the new body that comes to the inserted
pair, `this` is initialised, if and only if it is on every path of the old body that comes to the point of insertion.
The point is the given offset, or the end of the initialising call when that is behind it. -/
theorem constructor_hook_initialised_iff {name descriptor hookName : Bytes} {atOffset : UInt32} {cf cf' : ClassFile}
    {index : Nat} {method : MemberInfo} {code : AttributeInfo} {editor : CodeEditor}
    (hfind : findMethod cf name descriptor = some (index, method))
    (hconstructor : isInstanceInitializer cf method = true)
    (hinstance : hasFlag method.accessFlags Acc.static_ = false) (hcode : codeOf cf index = some code)
    (hload : codeEditorLoad code cf.constantPool = .ok editor) (hverified : Verified cf editor)
    (h : classTransformInsertCall (some name) (some descriptor) atOffset (some hookName) cf = .ok () cf') :
    ∃ e stored new at_ methodref,
      ((InsertionCall.hook (some name) (some descriptor) atOffset (some hookName)).site cf).map (·.initialised) =
        some (some e) ∧
      (Counted cf editor → followedCalls cf editor = {e}) ∧
      editor.instructions.names (max atOffset.toNat e : Nat) = some at_ ∧
      codeOf cf' index = some stored ∧ codeEditorLoad stored cf'.constantPool = .ok new ∧
      hookRef cf' hookName = some methodref ∧
      new.resolve.instructions[at_]? = some (straight Opc.aload_0 .none) ∧
      new.resolve.instructions[at_ + 1]? = some (straight Opc.invokespecial (.cpIndex methodref)) ∧
      ((∀ k < 2, ∀ s, Arrives cf' new anyEdge (at_ + k) s → s.initialised = true) ↔
        ∀ s, Arrives cf editor anyEdge at_ s → s.initialised = true) := by
  obtain ⟨index', method', tree, code', stored, editor', point, methodref, hhook⟩ := insertCall_ok h
  have hmethod := hhook.located
  rw [hfind] at hmethod
  cases hmethod
  have hinto := hhook.into
  have hfound := hinto.found
  rw [hcode] at hfound
  cases hfound
  have hbare := bare_of_load hload hinto.loaded
  have hedits : Edits cf cf' := hhook.edits.trans (hhook.stores ▸ edits_storedAt tree index stored)
  have hinit : isInstanceInitializer tree method = true := by
    rw [isInstanceInitializer, classFileUtf8Equals, constantPoolUtf8Equals, beq_iff_eq] at hconstructor ⊢
    exact hhook.edits.grows.utf8 hconstructor
  have hmoved := hinto.moved
  rw [hinit] at hmoved
  obtain ⟨e, hanswer, hpoint⟩ := constructorOffset_ok hmoved
  have hlt := constructorInitOffset_lt hanswer
  have hoffset := atOffset.toNat_lt
  obtain ⟨at_, hnames, hat, rfl⟩ := hinto.names_point (by omega)
  obtain ⟨edited, extraStack, hinsert, hstore⟩ := hinto.inserted
  obtain ⟨-, new, hre, -, hview⟩ :=
    reload_inserted_at hinto.loaded hat hinto.isCall.encodable hinto.isCall.ne_nil hinsert hstore
  have hrelocated := relocated_of_insert hedits hat hinto.isCall.ne_nil (fun n hn => (hinto.isCall.encodable n hn).2)
    (maxStack_of_insert hinto.isCall.ne_nil hinsert) hview
  have inserted_at (k : Nat) (node : Instruction) (hk : (hookNodes false methodref)[k]? = some node) :
      new.resolve.instructions[at_ + k]? = some node.plain := by
    have hlength : at_ ≤ editor'.resolve.instructions.length := by
      simpa [CodeEditor.resolve, CodeEditor.body, Body.map] using hat
    rw [hview, hinstance, instructions_insert_new _ _ hlength (List.getElem?_eq_some_iff.mp hk).1, hk]
    rfl
  refine ⟨e, stored, new, at_, methodref, ?_, fun hcounted => ?_, ?_, hinto.kept, ?_, ?_, ?_, ?_, ?_⟩
  · have hloaded : (codeEditorLoad code tree.constantPool).toOption = some editor' := by
      rw [hinto.loaded]
      rfl
    simp only [InsertionCall.site, InsertionCall.prepare, hhook.prepared, hcode, hloaded, hinit, hanswer,
      Option.bind_eq_bind, Option.bind_some, if_true, Option.pure_def, Option.map_some]
  · have hanswers := answers_grown hhook.edits hbare hverified (coherent_of_load hinto.loaded).instructions hcounted
    rw [hanswer] at hanswers
    exact hanswers.eq_of_found
  · rw [← instructions_of_bare hbare, ← hpoint]
    exact hnames
  · rw [hhook.stores]
    exact hre
  · exact (hhook.stores ▸ edits_storedAt tree index stored : Edits tree cf').hookRef hhook.ref
  · exact inserted_at 0 _ rfl
  · exact inserted_at 1 _ rfl
  · have hsame : ∀ {s}, Arrives cf editor' anyEdge at_ s ↔ Arrives cf editor anyEdge at_ s :=
      arrives_grown_iff (.refl cf) hbare hverified fun _ => Iff.rfl
    have hiff := hrelocated.initialised_iff (verified_grown (.refl cf) hbare hverified)
      (by rw [hinstance]; exact Nat.succ_pos 1)
    simp only [hsame] at hiff
    rw [hinstance] at hiff
    exact hiff

/-- In `super(); return;` a hook at the start runs behind `super()`. -/
theorem constructor_hook_initialised_plain : ∃ cf' stored new,
    classTransformInsertCall (some (text "<init>")) (some (text "()V")) 0 (some (text "h"))
      (constructorClass plainConstructor) = .ok () cf' ∧
    codeOf cf' 0 = some stored ∧ codeEditorLoad stored cf'.constantPool = .ok new ∧
    new.resolve.instructions[2]? = some (straight Opc.aload_0 .none) ∧
    ∀ k < 2, ∀ s, Arrives cf' new anyEdge (2 + k) s → s.initialised = true := by
  obtain ⟨cf', h⟩ := ok_of_succeeded (r := classTransformInsertCall (some (text "<init>")) (some (text "()V")) 0
    (some (text "h")) (constructorClass plainConstructor)) (by decide +kernel)
  have hload : codeEditorLoad plainConstructor (constructorClass plainConstructor).constantPool = .ok plainEditor := by
    decide
  have hfind : findMethod (constructorClass plainConstructor) (text "<init>") (text "()V") =
      some (0, ⟨0x1, 5, 6, [plainConstructor]⟩) := by decide
  obtain ⟨e, stored, new, at_, methodref, hsite, -, hnames, hstored, hnew, -, hfirst, -, hiff⟩ :=
    constructor_hook_initialised_iff hfind (by decide) (by decide) (by decide) hload verifies_plain.verified h
  have hend : ((InsertionCall.hook (some (text "<init>")) (some (text "()V")) 0 (some (text "h"))).site
      (constructorClass plainConstructor)).map (·.initialised) = some (some 4) := by decide +kernel
  rw [hend] at hsite
  cases hsite
  have hat : plainEditor.instructions.names (max (0 : UInt32).toNat 4 : Nat) = some 2 := by decide
  rw [hat] at hnames
  cases hnames
  refine ⟨cf', stored, new, h, hstored, hnew, hfirst, hiff.mpr fun s path => ?_⟩
  have hstates : ∀ p ∈ plainStates, p.1 = 2 → p.2.initialised = true := by decide
  exact hstates _ (verifies_plain.mem path) rfl

/-- `goto L; S: super(); return; L: nop; goto S;`. -/
def backwardConstructor : AttributeInfo :=
  attributeInfoOf 12 [0, 1, 0, 1, 0, 0, 0, 12, 0xA7, 0, 8, 0x2A, 0xB7, 0, 8, 0xB1, 0, 0xA7, 0xFF, 0xFA, 0, 0, 0, 0]

def backwardNodes : List Instruction :=
  [⟨0, 0xA7, false, .branch 8⟩, ⟨3, 0x2A, false, .none⟩, ⟨4, 0xB7, false, .cpIndex 8⟩, ⟨7, 0xB1, false, .none⟩,
    ⟨8, 0, false, .none⟩, ⟨9, 0xA7, false, .branch 3⟩]

def backwardEditor : CodeEditor := ⟨1, 1, ⟨backwardNodes, 12⟩, [], none, none, none, none, [], []⟩

def backwardStates : List (Nat × ThisState) :=
  [(0, .outside ⟨[true], []⟩ false), (4, .outside ⟨[true], []⟩ false), (5, .outside ⟨[true], []⟩ false),
    (1, .outside ⟨[true], []⟩ false), (2, .outside ⟨[true], [true]⟩ false), (3, .outside ⟨[true], []⟩ true)]

theorem verifies_backward : Verifies (constructorClass backwardConstructor) backwardEditor backwardStates :=
  ⟨by decide, by decide, by decide, by decide, by decide, by decide⟩

/-- The tree with the hook at the `nop`. -/
def backwardHooked : ClassFile :=
  endState (classTransformInsertCall (some (text "<init>")) (some (text "()V")) 8 (some (text "h")))
    (constructorClass backwardConstructor)

def backwardHookedEditor : CodeEditor :=
  ⟨2, 1, ⟨[⟨0, 0xA7, false, .branch 8⟩, ⟨3, 0x2A, false, .none⟩, ⟨4, 0xB7, false, .cpIndex 8⟩, ⟨7, 0xB1, false, .none⟩,
    ⟨8, 0x2A, false, .none⟩, ⟨9, 0xB7, false, .cpIndex 15⟩, ⟨12, 0, false, .none⟩, ⟨13, 0xA7, false, .branch 3⟩], 16⟩,
    [], none, none, none, none, [], []⟩

/-- The hook is behind the end of `super()`, and runs before it. -/
theorem hook_before_super :
    classTransformInsertCall (some (text "<init>")) (some (text "()V")) 8 (some (text "h"))
      (constructorClass backwardConstructor) = .ok () backwardHooked ∧
    codeEditorLoad backwardConstructor (constructorClass backwardConstructor).constantPool = .ok backwardEditor ∧
    Verified (constructorClass backwardConstructor) backwardEditor ∧
    (codeOf backwardHooked 0).map (codeEditorLoad · backwardHooked.constantPool) = some (.ok backwardHookedEditor) ∧
    hookRef backwardHooked (text "h") = some 15 ∧
    ∃ s, Arrives backwardHooked backwardHookedEditor anyEdge 4 s ∧ s.initialised = false := by
  have harrives : Arrives backwardHooked backwardHookedEditor anyEdge 4 (.outside ⟨[true], []⟩ false) :=
    Arrives.entry.next (by decide +kernel)
  refine ⟨?_, by decide +kernel, verifies_backward.verified, by decide +kernel, by decide +kernel, _, harrives, rfl⟩
  obtain ⟨cf', h⟩ := ok_of_succeeded (r := classTransformInsertCall (some (text "<init>")) (some (text "()V")) 8
    (some (text "h")) (constructorClass backwardConstructor)) (by decide +kernel)
  rw [backwardHooked, endState, h]

/-- `iconst_0; ifeq L; S: super(); return; L: jsr R; nop; goto S; R: astore_1; ret 1;`. -/
def returningEditor : CodeEditor :=
  ⟨1, 2, ⟨[⟨0, 0x03, false, .none⟩, ⟨1, 0x99, false, .branch 9⟩, ⟨4, 0x2A, false, .none⟩, ⟨5, 0xB7, false, .cpIndex 8⟩,
    ⟨8, 0xB1, false, .none⟩, ⟨9, 0xA8, false, .branch 16⟩, ⟨12, 0, false, .none⟩, ⟨13, 0xA7, false, .branch 4⟩,
    ⟨16, 0x4C, false, .none⟩, ⟨17, 0xA9, false, .local_ 1⟩], 19⟩, [], none, none, none, none, [], []⟩

/-- The path that comes to the `nop` before `super()` goes through a subroutine. -/
example : ∃ s, Arrives (constructorClass plainConstructor) returningEditor anyEdge 6 s ∧ s.initialised = false := by
  let this_ : SlotFrame Bool := ⟨[true, false], []⟩
  have hpushed : Arrives (constructorClass plainConstructor) returningEditor anyEdge 1
      (.outside ⟨[true, false], [false]⟩ false) :=
    Arrives.entry.next (by decide)
  have hbranched : Arrives (constructorClass plainConstructor) returningEditor anyEdge 5 (.outside this_ false) :=
    hpushed.next (by decide)
  have hcalled : Arrives (constructorClass plainConstructor) returningEditor anyEdge 8
      ⟨⟨[true, false], [false]⟩, false, ⟨[none, none], [some 6]⟩⟩ :=
    hbranched.next (by decide)
  have hstored : Arrives (constructorClass plainConstructor) returningEditor anyEdge 9
      ⟨this_, false, ⟨[none, some 6], []⟩⟩ :=
    hcalled.next (by decide)
  exact ⟨⟨this_, false, ⟨[none, some 6], []⟩⟩, hstored.next (by decide), rfl⟩

end Jni2Hook
