import Jni2Hook.Code.InstructionRoundTrip
import Jni2Hook.Code.StackMapTable
import Jni2Hook.Lib.Noted
import Mathlib.Algebra.Ring.Int.Defs

/-!
# The range of the positions that are decoded

Branches, switches and frames are relative in a class file, and the decoders add them up in `i4`. The decoders are run
here with every addition noted; what they answer is what they answered before (`erase_notedInstructions`,
`erase_notedStackMapTable`).

* `codePositions`, `framePositions`: the exact values of the additions of a run, whether it succeeds or not.
* `fits_codePositions_iff`: those of the code are in range when no target lies on the other side of 2³¹.
* `fits_framePositions_iff`: those of the frames are in range when the deltas add up to at most 2³¹.
* `decoding_in_range_iff`: both.
-/

namespace Jni2Hook

open Lib

/-! ## The decoder of the code -/

/-- An addition of `instruction_list_parse`: the offset of the instruction and the delta that is read. -/
structure RelativeTarget where
  offset : Nat
  delta : Int
  deriving DecidableEq, Repr

/-- The exact value of `(i4)offset + delta`. -/
def RelativeTarget.position (t : RelativeTarget) : Int := wrapI4 t.offset + t.delta

abbrev NotedParse (ν : Type) := Noted ν ByteCursor ClassfileStatus

/-- An addition, noted. -/
def notedTarget (offset : Nat) (read : Parse Int) : NotedParse RelativeTarget Int := do
  let delta ← Noted.lift read
  Noted.note ⟨offset, delta⟩
  return wrapI4 (offset + delta)

def notedSwitchPair (offset : Nat) : NotedParse RelativeTarget SwitchPair := do
  let matchValue ← Noted.lift readI4
  return ⟨matchValue, ← notedTarget offset readI4⟩

def notedTableSwitch (offset : Nat) : NotedParse RelativeTarget Operand := do
  Noted.lift (skipPadding 3)
  let defaultTarget ← notedTarget offset readI4
  let low ← Noted.lift readI4
  let high ← Noted.lift readI4
  Noted.lift (checkOk .truncated)
  if high < low then Noted.lift (throw .truncated)
  else do
    let remaining ← Noted.lift byteCursorRemaining
    if (high - low + 1) * 4 > remaining then Noted.lift (throw .truncated)
    else return .tableSwitch defaultTarget low high (← (notedTarget offset readI4).many (high - low + 1).toNat)

def notedLookupSwitch (offset : Nat) : NotedParse RelativeTarget Operand := do
  Noted.lift (skipPadding 3)
  let defaultTarget ← notedTarget offset readI4
  let count ← Noted.lift readI4
  Noted.lift (checkOk .truncated)
  if count < 0 then Noted.lift (throw .truncated)
  else do
    let remaining ← Noted.lift byteCursorRemaining
    if count.toNat * 8 > remaining then Noted.lift (throw .truncated)
    else return .lookupSwitch defaultTarget (← (notedSwitchPair offset).many count.toNat)

/-- Only branches and switches add anything. -/
def notedOperand (offset : Nat) (opcode : UInt8) (wide : Bool) : NotedParse RelativeTarget Operand :=
  match instructionKindOf opcode with
  | .branch => return .branch (← notedTarget offset readI2)
  | .branchWide => return .branchWide (← notedTarget offset readI4)
  | .tableSwitch => notedTableSwitch offset
  | .lookupSwitch => notedLookupSwitch offset
  | _ => Noted.lift (readOperand offset opcode wide)

def notedInstruction : NotedParse RelativeTarget Instruction := do
  let offset ← Noted.lift byteCursorOffset
  let (opcode, wide) ← Noted.lift readOpcode
  if instructionOpcodeIsDefined opcode = false ∨ opcode = Opc.wide then do
    Noted.lift (checkOk .truncated)
    Noted.lift (throw .opcode)
  else if wide = true ∧ kindIsWidenable (instructionKindOf opcode) = false then Noted.lift (throw .opcode)
  else do
    let operand ← notedOperand offset opcode wide
    Noted.lift (checkOk .truncated)
    return ⟨offset, opcode, wide, operand⟩

def notedInstructions : Nat → NotedParse RelativeTarget (List Instruction)
  | 0 => return []
  | fuel + 1 => do
    if (← Noted.lift byteCursorExhausted) = true then return []
    else do
      let node ← notedInstruction
      let rest ← notedInstructions fuel
      return node :: rest

/-- The targets that `instruction_list_parse` reads. -/
def relativeTargets (code : Bytes) : List RelativeTarget := (notedInstructions code.length (byteCursorInit code)).1

/-- The exact positions that it computes. -/
def codePositions (code : Bytes) : List Int := (relativeTargets code).map (·.position)

/-! ## The decoder is the same -/

theorem erase_notedTarget (offset : Nat) (read : Parse Int) :
    (notedTarget offset read).erase = do return wrapI4 (offset + (← read)) := by
  simp only [notedTarget, erase_bind, erase_lift, erase_note, erase_pure, pure_bind]

theorem erase_notedOperand (offset : Nat) (opcode : UInt8) (wide : Bool) :
    (notedOperand offset opcode wide).erase = readOperand offset opcode wide := by
  unfold notedOperand
  split
  · rename_i hkind
    simp only [readOperand, hkind, erase_bind, erase_notedTarget, erase_pure, bind_pure_comp, Functor.map_map]
  · rename_i hkind
    simp only [readOperand, hkind, erase_bind, erase_notedTarget, erase_pure, readTarget4]
  · rename_i hkind
    simp only [readOperand, hkind, notedTableSwitch, readTableSwitch, erase_bind, erase_lift,
      erase_notedTarget, erase_ite, erase_many, erase_pure, readTarget4]
  · rename_i hkind
    simp only [readOperand, hkind, notedLookupSwitch, readLookupSwitch, notedSwitchPair, erase_bind, erase_lift,
      erase_notedTarget, erase_ite, erase_many, erase_pure, readTarget4, readSwitchPair]
  · rfl

theorem erase_notedInstruction : notedInstruction.erase = readInstruction := by
  simp only [notedInstruction, readInstruction, erase_bind, erase_lift, erase_ite, erase_notedOperand, erase_pure]

/-- The notes do not change what is decoded. -/
theorem erase_notedInstructions : ∀ fuel, (notedInstructions fuel).erase = readInstructions fuel
  | 0 => rfl
  | fuel + 1 => by
    simp only [notedInstructions, readInstructions, erase_bind, erase_lift, erase_ite, erase_notedInstruction,
      erase_notedInstructions fuel, erase_pure]

/-! ## The positions in the code -/

/-- A delta that was read, of the instruction at this offset. -/
def RelativeTarget.From (offset : Nat) (t : RelativeTarget) : Prop := t.offset = offset ∧ FitsI4 t.delta

theorem fits_readI4 {s t : ByteCursor} {x : Int} (h : readI4.run s = .ok (x, t)) : FitsI4 x := by
  obtain ⟨word, s₁, -, h⟩ := run_bind_ok h
  rw [StateT.run_pure] at h
  change Except.ok _ = _ at h
  rw [Except.ok.injEq, Prod.mk.injEq] at h
  rw [← h.1]
  exact fitsI4_wrapI4 _

theorem fits_readI2 {s t : ByteCursor} {x : Int} (h : readI2.run s = .ok (x, t)) : FitsI4 x := by
  obtain ⟨word, s₁, -, h⟩ := run_bind_ok h
  rw [StateT.run_pure] at h
  change Except.ok _ = _ at h
  rw [Except.ok.injEq, Prod.mk.injEq] at h
  rw [← h.1]
  have := fitsI2_wrapI2 word.toNat
  unfold FitsI2 at this
  exact ⟨by omega, by omega⟩

theorem notes_notedTarget (offset : Nat) {read : Parse Int}
    (hread : ∀ {s t : ByteCursor} {x : Int}, read.run s = .ok (x, t) → FitsI4 x) :
    AllNotes (RelativeTarget.From offset) (notedTarget offset read) := by
  refine (AllNotes.lift _).bind' (Q := FitsI4) (fun s a t h => hread h) fun delta hdelta => ?_
  exact (AllNotes.note ⟨rfl, hdelta⟩).bind fun _ => .pure _

theorem notes_notedOperand (offset : Nat) (opcode : UInt8) (wide : Bool) :
    AllNotes (RelativeTarget.From offset) (notedOperand offset opcode wide) := by
  have target := notes_notedTarget offset fits_readI4
  unfold notedOperand
  split
  · exact (notes_notedTarget offset fits_readI2).bind fun _ => .pure _
  · exact target.bind fun _ => .pure _
  · refine (AllNotes.lift _).bind fun _ => target.bind fun _ => (AllNotes.lift _).bind fun _ =>
      (AllNotes.lift _).bind fun _ => (AllNotes.lift _).bind fun _ => .ite (.lift _) ?_
    exact (AllNotes.lift _).bind fun _ => .ite (.lift _) ((target.many _).bind fun _ => .pure _)
  · refine (AllNotes.lift _).bind fun _ => target.bind fun _ => (AllNotes.lift _).bind fun _ =>
      (AllNotes.lift _).bind fun _ => .ite (.lift _) ?_
    have pair : AllNotes (RelativeTarget.From offset) (notedSwitchPair offset) :=
      (AllNotes.lift _).bind fun _ => target.bind fun _ => .pure _
    exact (AllNotes.lift _).bind fun _ => .ite (.lift _) ((pair.many _).bind fun _ => .pure _)
  · exact .lift _

/-- An instruction adds to its own offset. -/
theorem notes_notedInstruction (c : ByteCursor) : ∀ t ∈ (notedInstruction c).1, t.From c.offset := by
  have rest (offset : Nat) : AllNotes (RelativeTarget.From offset) (do
      let (opcode, wide) ← Noted.lift readOpcode
      if instructionOpcodeIsDefined opcode = false ∨ opcode = Opc.wide then do
        Noted.lift (checkOk .truncated)
        Noted.lift (throw .opcode)
      else if wide = true ∧ kindIsWidenable (instructionKindOf opcode) = false then Noted.lift (throw .opcode)
      else do
        let operand ← notedOperand offset opcode wide
        Noted.lift (checkOk .truncated)
        return (⟨offset, opcode, wide, operand⟩ : Instruction)) := by
    refine (AllNotes.lift _).bind fun x => .ite ((AllNotes.lift _).bind fun _ => .lift _) (.ite (.lift _) ?_)
    exact (notes_notedOperand offset _ _).bind fun _ => (AllNotes.lift _).bind fun _ => .pure _
  intro t ht
  unfold notedInstruction at ht
  rw [notes_bind_ok (a := c.offset) (t := c) rfl] at ht
  exact rest c.offset c t ht

/-- Every instruction stands in the code. -/
theorem notes_notedInstructions : ∀ {fuel n : Nat} {w : Bytes}, ∀ t ∈ (notedInstructions fuel ⟨w, n, true⟩).1,
    t.offset ≤ n + w.length ∧ FitsI4 t.delta
  | 0, n, w, t, ht => nomatch ht
  | fuel + 1, n, w, t, ht => by
    unfold notedInstructions at ht
    rw [notes_bind_ok (a := w.isEmpty) (t := ⟨w, n, true⟩) rfl] at ht
    rcases List.mem_append.mp ht with ht | ht
    · cases ht
    · split at ht
      · cases ht
      · cases hnode : (notedInstruction ⟨w, n, true⟩).2 with
        | error e =>
          rw [notes_bind_error hnode] at ht
          obtain ⟨hoffset, hfits⟩ := notes_notedInstruction _ t ht
          exact ⟨by rw [hoffset]; exact Nat.le_add_right _ _, hfits⟩
        | ok r =>
          obtain ⟨node, c⟩ := r
          rw [notes_bind_ok hnode] at ht
          rcases List.mem_append.mp ht with ht | hlater
          · obtain ⟨hoffset, hfits⟩ := notes_notedInstruction _ t ht
            exact ⟨by rw [hoffset]; exact Nat.le_add_right _ _, hfits⟩
          · -- the round has moved the cursor over what it took
            have hrun : readInstruction.run ⟨w, n, true⟩ = .ok (node, c) := by
              rw [← erase_notedInstruction]
              exact hnode
            obtain ⟨m, w₁, w₂, hv, hv₂, -⟩ := takes_readInstruction.checked checks_readInstruction hrun
            rw [view_eq_some] at hv hv₂
            obtain ⟨rfl, rfl⟩ : w = w₁ ++ w₂ ∧ n = m := by simpa using hv
            subst hv₂
            have hmem : t ∈ (notedInstructions fuel ⟨w₂, n + w₁.length, true⟩).1 := by
              cases hrest : (notedInstructions fuel ⟨w₂, n + w₁.length, true⟩).2 with
              | error e => rwa [notes_bind_error hrest] at hlater
              | ok r =>
                rw [notes_bind_ok hrest] at hlater
                rcases List.mem_append.mp hlater with hlater | hnone
                · exact hlater
                · cases hnone
            have := notes_notedInstructions t hmem
            rw [List.length_append]
            exact ⟨by omega, this.2⟩

/-- The cast moves an offset from 2³¹ on to the negative side, and a sum leaves the range when it crosses over. -/
theorem fits_position_iff {t : RelativeTarget} (hoffset : t.offset < 2 ^ 32) (hdelta : FitsI4 t.delta) :
    FitsI4 t.position ↔ (t.offset < 2 ^ 31 ↔ t.offset + t.delta < 2 ^ 31) := by
  unfold FitsI4 at hdelta
  unfold RelativeTarget.position
  rcases Nat.lt_or_ge t.offset (2 ^ 31) with hlow | hhigh
  · have hcast : wrapI4 t.offset = t.offset := wrapI4_of_fits ⟨by omega, by omega⟩
    rw [hcast, FitsI4]
    omega
  · have hcast : wrapI4 t.offset = t.offset - 2 ^ 32 := by
      simp only [wrapI4, Int.bmod]
      split <;> omega
    rw [hcast, FitsI4]
    omega

theorem fits_codePositions_iff {code : Bytes} (hcode : code.length < 2 ^ 32) :
    (∀ v ∈ codePositions code, FitsI4 v) ↔
      ∀ t ∈ relativeTargets code, t.offset < 2 ^ 31 ↔ t.offset + t.delta < 2 ^ 31 := by
  simp only [codePositions, List.forall_mem_map]
  refine forall₂_congr fun t ht => ?_
  obtain ⟨hoffset, hdelta⟩ := notes_notedInstructions (n := 0) t ht
  exact fits_position_iff (by omega) hdelta

/-! ## The decoder of the frames -/

/-- An addition of `stack_map_table_parse`: the position of the frame before, if there is one, and the delta. -/
structure FrameStep where
  previous : Option Int
  delta : Int
  deriving DecidableEq, Repr

/-- What the delta of a frame is counted from: `previous` is -1 before the first frame. -/
def frameBase (previous : Option Int) : Int := previous.getD (-1)

/-- The exact value of `first ? delta : previous + delta + 1`. -/
def FrameStep.position (f : FrameStep) : Int := frameBase f.previous + f.delta + 1

/-- A delta, with the position noted that is computed from it. -/
def notedDelta (previous : Option Int) (read : Parse Int) : NotedParse FrameStep Int := do
  let delta ← Noted.lift read
  Noted.note ⟨previous, delta⟩
  return delta

/-- The position is computed before the types are read. -/
def notedFrameBody (previous : Option Int) (tag : UInt8) : NotedParse FrameStep (Int × FrameKind) := do
  if tag ≤ 63 then return (← notedDelta previous (pure tag.toNat), .same)
  else if tag ≤ 127 then do
    let delta ← notedDelta previous (pure (tag.toNat - 64))
    return (delta, .sameLocals1StackItem (← Noted.lift readVerificationType))
  else if tag = 247 then do
    let delta ← notedDelta previous readDelta
    return (delta, .sameLocals1StackItem (← Noted.lift readVerificationType))
  else if 248 ≤ tag ∧ tag ≤ 250 then
    return (← notedDelta previous readDelta, .chop (UInt16.ofNat (251 - tag.toNat)))
  else if tag = 251 then return (← notedDelta previous readDelta, .same)
  else if 252 ≤ tag ∧ tag ≤ 254 then do
    let delta ← notedDelta previous readDelta
    return (delta, .append (← Noted.lift (readMany readVerificationType (tag.toNat - 251))))
  else if tag = 255 then do
    let delta ← notedDelta previous readDelta
    let localsCount ← Noted.lift byteCursorU2
    let locals ← Noted.lift (readMany readVerificationType localsCount.toNat)
    let stackCount ← Noted.lift byteCursorU2
    let stack ← Noted.lift (readMany readVerificationType stackCount.toNat)
    return (delta, .full locals stack)
  else Noted.lift (throw .truncated)

def notedFrame (previous : Option Int) : NotedParse FrameStep StackMapFrame := do
  let tag ← Noted.lift byteCursorU1
  let (delta, kind) ← notedFrameBody previous tag
  Noted.lift (checkOk .truncated)
  return ⟨tag, frameOffset previous delta, kind⟩

def notedFrames : Nat → Option Int → NotedParse FrameStep (List StackMapFrame)
  | 0, _ => return []
  | n + 1, previous => do
    let frame ← notedFrame previous
    let rest ← notedFrames n (some frame.offset)
    return frame :: rest

def notedStackMapTable : NotedParse FrameStep (List StackMapFrame) := do
  let count ← Noted.lift byteCursorU2
  Noted.lift (checkOk .truncated)
  notedFrames count.toNat none

/-- The steps that `stack_map_table_parse` makes from frame to frame. -/
def frameSteps (attr : AttributeInfo) : List FrameStep := (notedStackMapTable (byteCursorInit attr.payload)).1

/-- The exact positions that it computes. -/
def framePositions (attr : AttributeInfo) : List Int := (frameSteps attr).map (·.position)

/-- The deltas that it reads. -/
def frameDeltas (attr : AttributeInfo) : List Int := (frameSteps attr).map (·.delta)

theorem erase_notedDelta (previous : Option Int) (read : Parse Int) : (notedDelta previous read).erase = read := by
  simp only [notedDelta, erase_bind, erase_lift, erase_note, erase_pure, pure_bind, bind_pure]

theorem erase_notedFrameBody (previous : Option Int) (tag : UInt8) :
    (notedFrameBody previous tag).erase = readFrameBody tag := by
  simp only [notedFrameBody, readFrameBody, erase_ite, erase_bind, erase_notedDelta, erase_lift, erase_pure, pure_bind]

theorem erase_notedFrame (previous : Option Int) : (notedFrame previous).erase = readFrame previous := by
  simp only [notedFrame, readFrame, erase_bind, erase_lift, erase_notedFrameBody, erase_pure]

theorem erase_notedFrames : ∀ n previous, (notedFrames n previous).erase = readFrames n previous
  | 0, _ => rfl
  | n + 1, previous => by
    simp only [notedFrames, readFrames, erase_bind, erase_notedFrame, erase_notedFrames n, erase_pure]

/-- The notes do not change what is decoded. -/
theorem erase_notedStackMapTable : notedStackMapTable.erase = readStackMapTable := by
  simp only [notedStackMapTable, readStackMapTable, erase_bind, erase_lift, erase_notedFrames]

/-! ## The positions of the frames -/

/-- A run that makes one step from the frame before and answers accordingly, or fails before it has made one. -/
def StepsOnce {α : Type} (previous : Option Int) (R : Int → α → Prop) (x : NotedParse FrameStep α) : Prop :=
  ∀ s, ((x s).1 = [] ∧ ∃ e, (x s).2 = .error e) ∨ ∃ delta, 0 ≤ delta ∧ (x s).1 = [⟨previous, delta⟩] ∧
    ∀ a t, (x s).2 = .ok (a, t) → R delta a

theorem stepsOnce_notedDelta (previous : Option Int) {read : Parse Int}
    (hread : ∀ {s t : ByteCursor} {x : Int}, read.run s = .ok (x, t) → 0 ≤ x) :
    StepsOnce previous (fun delta a => a = delta) (notedDelta previous read) := by
  intro s
  cases h : read.run s with
  | error e =>
    have hlift : ((Noted.lift read : NotedParse FrameStep Int) s).2 = .error e := h
    refine .inl ⟨notes_bind_error hlift, e, ?_⟩
    show (notedDelta previous read).erase s = _
    rw [erase_notedDelta]
    exact h
  | ok r =>
    obtain ⟨delta, t⟩ := r
    have hlift : ((Noted.lift read : NotedParse FrameStep Int) s).2 = .ok (delta, t) := h
    refine .inr ⟨delta, hread h, notes_bind_ok hlift, fun a u ha => ?_⟩
    change (notedDelta previous read).erase s = _ at ha
    rw [erase_notedDelta] at ha
    rw [StateT.run] at h
    rw [h] at ha
    cases ha
    rfl

/-- What follows the step makes no further one. -/
theorem StepsOnce.bind {α β : Type} {previous : Option Int} {R : Int → α → Prop} {R' : Int → β → Prop}
    {x : NotedParse FrameStep α} {f : α → NotedParse FrameStep β} (hx : StepsOnce previous R x)
    (hsilent : ∀ a, AllNotes (fun _ => False) (f a))
    (hanswer : ∀ delta a, R delta a → ∀ s b t, (f a).erase.run s = .ok (b, t) → R' delta b) :
    StepsOnce previous R' (x >>= f) := by
  intro s
  rcases hx s with ⟨hnone, e, he⟩ | ⟨delta, hpos, hone, hall⟩
  · refine .inl ⟨by rw [notes_bind_error he, hnone], e, ?_⟩
    show (x >>= f).erase s = _
    rw [erase_bind]
    show (x.erase s >>= fun r => (f r.1).erase r.2) = _
    rw [show x.erase s = .error e from he]
    rfl
  · refine .inr ⟨delta, hpos, ?_, fun b u hb => ?_⟩
    · cases hresult : (x s).2 with
      | error e => rw [notes_bind_error hresult, hone]
      | ok r =>
        have hrest : (f r.1 r.2).1 = [] := List.eq_nil_iff_forall_not_mem.mpr fun v hv => hsilent r.1 r.2 v hv
        rw [notes_bind_ok hresult, hone, hrest, List.append_nil]
    · change (x >>= f).erase s = _ at hb
      rw [erase_bind] at hb
      obtain ⟨a, t, ha, hb⟩ := run_bind_ok hb
      exact hanswer delta a (hall a t ha) t b u hb

/-- What comes before the step makes none. -/
theorem StepsOnce.after {α β : Type} {previous : Option Int} {R : Int → β → Prop} {p : Parse α}
    {f : α → NotedParse FrameStep β} (hf : ∀ a, StepsOnce previous R (f a)) :
    StepsOnce previous R (Noted.lift p >>= f) := by
  intro s
  cases h : p.run s with
  | error e =>
    have hlift : ((Noted.lift p : NotedParse FrameStep α) s).2 = .error e := h
    refine .inl ⟨notes_bind_error hlift, e, ?_⟩
    show (Noted.lift p >>= f).erase s = _
    rw [erase_bind, erase_lift]
    show (p.run s >>= fun r => (f r.1).erase r.2) = _
    rw [h]
    rfl
  | ok r =>
    obtain ⟨a, t⟩ := r
    have hlift : ((Noted.lift p : NotedParse FrameStep α) s).2 = .ok (a, t) := h
    have hnotes : ((Noted.lift p >>= f) s).1 = (f a t).1 := notes_bind_ok hlift
    have hresult : ((Noted.lift p >>= f) s).2 = (f a t).2 := by
      show (Noted.lift p >>= f).erase s = _
      rw [erase_bind, erase_lift]
      show (p.run s >>= fun r => (f r.1).erase r.2) = _
      rw [h]
      rfl
    rw [hnotes, hresult]
    exact hf a t

theorem stepsOnce_notedFrameBody (previous : Option Int) (tag : UInt8) :
    StepsOnce previous (fun delta b => b.1 = delta) (notedFrameBody previous tag) := by
  have hread : ∀ {s t : ByteCursor} {x : Int}, readDelta.run s = .ok (x, t) → 0 ≤ x := by
    intro s t x h
    obtain ⟨word, s₁, -, h⟩ := run_bind_ok h
    rw [StateT.run_pure] at h
    cases h
    omega
  have hpure {n : Int} (hn : 0 ≤ n) : ∀ {s t : ByteCursor} {x : Int},
    (pure n : Parse Int).run s = .ok (x, t) → 0 ≤ x := by
    intro s t x h
    cases h
    exact hn
  have last {kind : FrameKind} (δ a : Int) (ha : a = δ) (s : ByteCursor) (b : Int × FrameKind) (t : ByteCursor)
      (h : (pure (a, kind) : NotedParse FrameStep _).erase.run s = .ok (b, t)) : b.1 = δ := by
    cases h
    exact ha
  have typed {γ : Type} {p : Parse γ} {kind : γ → FrameKind} (δ a : Int) (ha : a = δ) (s : ByteCursor)
      (b : Int × FrameKind) (t : ByteCursor)
      (h : (Noted.lift p >>= fun types => pure (a, kind types) : NotedParse FrameStep _).erase.run s = .ok (b, t)) :
      b.1 = δ := by
    rw [erase_bind] at h
    obtain ⟨_, s₁, -, h⟩ := run_bind_ok h
    exact last δ a ha s₁ b t h
  have silent {γ : Type} {p : Parse γ} {kind : γ → Int × FrameKind} :
      AllNotes (fun _ => False) (Noted.lift p >>= fun types => pure (kind types) : NotedParse FrameStep _) :=
    (AllNotes.lift _).bind fun _ => .pure _
  have read := stepsOnce_notedDelta previous hread
  unfold notedFrameBody
  split
  · exact (stepsOnce_notedDelta previous (hpure (by omega))).bind (fun _ => .pure _) last
  split
  · rename_i h₁ h₂
    have hlow : 64 ≤ tag.toNat := by
      have : ¬tag.toNat ≤ 63 := h₁
      omega
    exact (stepsOnce_notedDelta previous (hpure (by omega))).bind (fun _ => silent) typed
  split
  · exact read.bind (fun _ => silent) typed
  split
  · exact read.bind (fun _ => .pure _) last
  split
  · exact read.bind (fun _ => .pure _) last
  split
  · exact read.bind (fun _ => silent) typed
  split
  · refine read.bind (fun _ => (AllNotes.lift _).bind fun _ => (AllNotes.lift _).bind fun _ => (AllNotes.lift _).bind
      fun _ => silent) fun δ a ha s b t h => ?_
    rw [erase_bind] at h
    obtain ⟨_, s₁, -, h⟩ := run_bind_ok h
    rw [erase_bind] at h
    obtain ⟨_, s₂, -, h⟩ := run_bind_ok h
    rw [erase_bind] at h
    obtain ⟨_, s₃, -, h⟩ := run_bind_ok h
    exact typed δ a ha s₃ b t h
  · exact fun s => .inl ⟨rfl, _, rfl⟩

theorem stepsOnce_notedFrame (previous : Option Int) :
    StepsOnce previous (fun delta frame => frame.offset = frameOffset previous delta) (notedFrame previous) := by
  refine .after fun tag => (stepsOnce_notedFrameBody previous tag).bind
    (fun _ => (AllNotes.lift _).bind fun _ => .pure _) ?_
  intro delta body hbody s frame t h
  rw [erase_bind] at h
  obtain ⟨_, s₁, -, h⟩ := run_bind_ok h
  cases h
  rw [← hbody]

/-- A round of the loop makes one step, and the rounds behind it start where that led. -/
theorem notes_notedFrames_succ (n : Nat) (previous : Option Int) (s : ByteCursor) :
    (notedFrames (n + 1) previous s).1 = [] ∨ ∃ delta, 0 ≤ delta ∧
      ((notedFrames (n + 1) previous s).1 = [⟨previous, delta⟩] ∨ ∃ t, (notedFrames (n + 1) previous s).1 =
        ⟨previous, delta⟩ :: (notedFrames n (some (frameOffset previous delta)) t).1) := by
  rw [show notedFrames (n + 1) previous = (do
    let frame ← notedFrame previous
    let rest ← notedFrames n (some frame.offset)
    return frame :: rest) from rfl]
  rcases stepsOnce_notedFrame previous s with ⟨hnone, e, he⟩ | ⟨delta, hpos, hone, hall⟩
  · exact .inl (by rw [notes_bind_error he, hnone])
  · refine .inr ⟨delta, hpos, ?_⟩
    cases hframe : (notedFrame previous s).2 with
    | error e => exact .inl (by rw [notes_bind_error hframe, hone])
    | ok r =>
      obtain ⟨frame, t⟩ := r
      refine .inr ⟨t, ?_⟩
      rw [notes_bind_ok hframe, hone, hall frame t hframe, List.singleton_append]
      cases hrest : (notedFrames n (some (frameOffset previous delta)) t).2 with
      | error e => rw [notes_bind_error hrest]
      | ok r =>
        rw [notes_bind_ok hrest]
        exact congrArg _ (List.append_nil _)

/-- Every frame moves on. -/
theorem sum_notedFrames : ∀ (n : Nat) (previous : Option Int) (s : ByteCursor),
    0 ≤ ((notedFrames n previous s).1.map (·.delta + 1)).sum
  | 0, previous, s => Int.le_refl 0
  | n + 1, previous, s => by
    rcases notes_notedFrames_succ n previous s with hnone | ⟨delta, hpos, hone | ⟨t, hcons⟩⟩
    · rw [hnone]
      decide
    · rw [hone]
      simp only [List.map_cons, List.map_nil, List.sum_cons, List.sum_nil]
      omega
    · have := sum_notedFrames n (some (frameOffset previous delta)) t
      rw [hcons, List.map_cons, List.sum_cons]
      dsimp only
      omega

theorem fits_frameStep_iff {previous : Option Int} {delta : Int} (hlow : -1 ≤ frameBase previous) (hpos : 0 ≤ delta) :
    FitsI4 (FrameStep.position ⟨previous, delta⟩) ↔ frameBase previous + (delta + 1) < 2 ^ 31 := by
  simp only [FitsI4, FrameStep.position]
  omega

/-- A step that stays in range leads where it says. -/
theorem frameBase_frameOffset {previous : Option Int} {delta : Int} (hlow : -1 ≤ frameBase previous) (hpos : 0 ≤ delta)
    (hlt : frameBase previous + (delta + 1) < 2 ^ 31) :
    frameBase (some (frameOffset previous delta)) = frameBase previous + (delta + 1) := by
  cases previous with
  | none =>
    simp only [frameBase, frameOffset, Option.getD_some, Option.getD_none]
    omega
  | some p =>
    simp only [frameBase, frameOffset, Option.getD_some] at hlow hlt ⊢
    rw [wrapI4_of_fits ⟨by omega, by omega⟩]
    omega

/-- The loop over the frames: all positions are in range exactly when the last one is. -/
theorem fits_notedFrames_iff : ∀ (n : Nat) (previous : Option Int) (s : ByteCursor), -1 ≤ frameBase previous →
    frameBase previous < 2 ^ 31 → ((∀ f ∈ (notedFrames n previous s).1, FitsI4 f.position) ↔
      frameBase previous + ((notedFrames n previous s).1.map (·.delta + 1)).sum < 2 ^ 31)
  | 0, previous, s, _, hlt => by
    show (∀ f ∈ [], FitsI4 (FrameStep.position f)) ↔ frameBase previous + 0 < 2 ^ 31
    simpa using hlt
  | n + 1, previous, s, hlow, hlt => by
    rcases notes_notedFrames_succ n previous s with hnone | ⟨delta, hpos, hone | ⟨t, hcons⟩⟩
    · rw [hnone]
      simpa using hlt
    · rw [hone, List.forall_mem_singleton, fits_frameStep_iff hlow hpos]
      simp only [List.map_cons, List.map_nil, List.sum_cons, List.sum_nil, Int.add_zero]
    · rw [hcons, List.forall_mem_cons, fits_frameStep_iff hlow hpos, List.map_cons, List.sum_cons]
      dsimp only
      have hrest := sum_notedFrames n (some (frameOffset previous delta)) t
      by_cases hstep : frameBase previous + (delta + 1) < 2 ^ 31
      · have hbase := frameBase_frameOffset hlow hpos hstep
        have ih := fits_notedFrames_iff n (some (frameOffset previous delta)) t (by omega) (by omega)
        rw [hbase] at ih
        rw [ih]
        omega
      · -- the deltas behind it cannot bring the position back
        constructor
        · rintro ⟨h, -⟩
          exact absurd h hstep
        · intro h
          omega

theorem fits_framePositions_iff (attr : AttributeInfo) : (∀ v ∈ framePositions attr, FitsI4 v) ↔
    ((frameDeltas attr).map (· + 1)).sum ≤ 2 ^ 31 := by
  have hloop : ∀ (n : Nat) (s : ByteCursor), (∀ f ∈ (notedFrames n none s).1, FitsI4 f.position) ↔
      ((notedFrames n none s).1.map (·.delta + 1)).sum ≤ 2 ^ 31 := by
    intro n s
    rw [fits_notedFrames_iff n none s (by decide) (by decide)]
    simp only [frameBase, Option.getD_none]
    omega
  have hsteps : (∀ f ∈ frameSteps attr, FitsI4 f.position) ↔ ((frameSteps attr).map (·.delta + 1)).sum ≤ 2 ^ 31 := by
    unfold frameSteps notedStackMapTable
    cases hcount : byteCursorU2.run (byteCursorInit attr.payload) with
    | error e =>
      have hlift : ((Noted.lift byteCursorU2 : NotedParse FrameStep UInt16) (byteCursorInit attr.payload)).2 =
        .error e :=
        hcount
      rw [notes_bind_error hlift]
      exact hloop 0 (byteCursorInit attr.payload)
    | ok r =>
      obtain ⟨count, c⟩ := r
      have hlift : ((Noted.lift byteCursorU2 : NotedParse FrameStep UInt16) (byteCursorInit attr.payload)).2 =
        .ok (count, c) := hcount
      rw [notes_bind_ok hlift]
      cases hcheck : (checkOk .truncated).run c with
      | error e =>
        have hlift : ((Noted.lift (checkOk .truncated) : NotedParse FrameStep Unit) c).2 = .error e := hcheck
        rw [notes_bind_error hlift]
        exact hloop 0 c
      | ok r =>
        obtain ⟨⟨⟩, c'⟩ := r
        have hlift : ((Noted.lift (checkOk .truncated) : NotedParse FrameStep Unit) c).2 = .ok ((), c') := hcheck
        rw [notes_bind_ok hlift]
        exact hloop count.toNat c'
  simpa only [framePositions, frameDeltas, List.forall_mem_map, List.map_map, Function.comp_def] using hsteps

/-- **When decoding stays in the range of `i4`.** For every code array and every StackMapTable payload of a class-file
attribute: the exact positions of the code are all in range if and only if no target lies on the other side of 2³¹ from
its instruction, and those of the frames if and only if the deltas, with one more for each, add up to at most 2³¹. -/
theorem decoding_in_range_iff (code : Bytes) (attr : AttributeInfo) (hcode : code.length < 2 ^ 32) :
    ((∀ v ∈ codePositions code, FitsI4 v) ↔
      ∀ t ∈ relativeTargets code, t.offset < 2 ^ 31 ↔ t.offset + t.delta < 2 ^ 31) ∧
    ((∀ v ∈ framePositions attr, FitsI4 v) ↔ ((frameDeltas attr).map (· + 1)).sum ≤ 2 ^ 31) :=
  ⟨fits_codePositions_iff hcode, fits_framePositions_iff attr⟩

/-- `goto` the instruction itself; one frame at 3 and one at 5. -/
theorem decoding_in_range_loop :
    ((∀ v ∈ codePositions [Opc.goto, 0, 0], FitsI4 v) ↔
      ∀ t ∈ relativeTargets [Opc.goto, 0, 0], t.offset < 2 ^ 31 ↔ t.offset + t.delta < 2 ^ 31) ∧
    ((∀ v ∈ framePositions (attributeInfoOf 1 [0, 2, 3, 1]), FitsI4 v) ↔
      ((frameDeltas (attributeInfoOf 1 [0, 2, 3, 1])).map (· + 1)).sum ≤ 2 ^ 31) ∧
    relativeTargets [Opc.goto, 0, 0] = [⟨0, 0⟩] ∧ frameDeltas (attributeInfoOf 1 [0, 2, 3, 1]) = [3, 1] := by
  obtain ⟨hcode, hframes⟩ := decoding_in_range_iff [Opc.goto, 0, 0] (attributeInfoOf 1 [0, 2, 3, 1]) (by decide)
  exact ⟨hcode, hframes, by decide +kernel, by decide +kernel⟩

/-- `nop` and a `goto_w` by 2³¹ - 1 behind it: the sum does not fit. -/
theorem wide_branch_overflows : instructionListParse [Opc.nop, Opc.goto_w, 0x7F, 0xFF, 0xFF, 0xFF] =
      .ok ⟨[⟨0, Opc.nop, false, .none⟩, ⟨1, Opc.goto_w, false, .branchWide (-2 ^ 31)⟩], 6⟩ ∧
    ¬∀ v ∈ codePositions [Opc.nop, Opc.goto_w, 0x7F, 0xFF, 0xFF, 0xFF], FitsI4 v := by
  decide +kernel

end Jni2Hook
