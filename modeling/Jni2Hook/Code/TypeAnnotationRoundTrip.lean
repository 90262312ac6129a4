import Mathlib.Data.List.Forall2
import Jni2Hook.ClassFile.RoundTrip
import Jni2Hook.Code.InstructionRoundTrip
import Jni2Hook.Code.TypeAnnotation

/-!
# Type annotations: new offsets in the same places

The walk over a payload does not depend on the offsets it passes. So when other offsets are written into the places
that the walk recorded, a second walk takes the same way and finds the new offsets (`collect_fill`). `Refills` is the
law that every part of the walk obeys: what was taken can be taken again with the recorded places filled anew.
-/

namespace Jni2Hook

open Lib

/-! ## Places in a payload -/

/-- The bytes that a reference occupies. -/
def TypeAnnotationRef.width (ref : TypeAnnotationRef) : Nat := if ref.kind = .span then 4 else 2

/-- Writes the offsets of a reference into a piece of the payload that begins at `n`. -/
def putRef (n : Nat) (ref : TypeAnnotationRef) (w : Bytes) : Bytes :=
  let started := writeU2 w (ref.payloadOffset - n) (u2OfInt ref.start)
  if ref.kind = .instruction then started
  else writeU2 started (ref.payloadOffset - n + 2) (u2OfInt (ref.stop - ref.start))

/-- Writes all of them. -/
def fillRefs (n : Nat) (refs : List TypeAnnotationRef) (w : Bytes) : Bytes :=
  refs.foldl (fun w ref => putRef n ref w) w

/-- The place of a reference lies in the `length` bytes from `n` on. -/
def TypeAnnotationRef.Within (n length : Nat) (ref : TypeAnnotationRef) : Prop :=
  n ≤ ref.payloadOffset ∧ ref.payloadOffset + ref.width ≤ n + length

@[simp] theorem length_writeU2 (w : Bytes) (at_ : Nat) (v : UInt16) : (writeU2 w at_ v).length = w.length := by
  simp [writeU2]

@[simp] theorem length_putRef (n : Nat) (ref : TypeAnnotationRef) (w : Bytes) : (putRef n ref w).length = w.length := by
  unfold putRef
  dsimp only
  split <;> simp

@[simp] theorem length_fillRefs (n : Nat) : ∀ (refs : List TypeAnnotationRef) (w : Bytes),
    (fillRefs n refs w).length = w.length
  | [], _ => rfl
  | ref :: refs, w => (length_fillRefs n refs (putRef n ref w)).trans (length_putRef n ref w)

theorem fillRefs_append (n : Nat) (refs₁ refs₂ : List TypeAnnotationRef) (w : Bytes) :
    fillRefs n (refs₁ ++ refs₂) w = fillRefs n refs₂ (fillRefs n refs₁ w) := by
  simp [fillRefs]

theorem writeU2_append_left {w₁ : Bytes} {at_ : Nat} (h : at_ + 2 ≤ w₁.length) (w₂ : Bytes) (v : UInt16) :
    writeU2 (w₁ ++ w₂) at_ v = writeU2 w₁ at_ v ++ w₂ := by
  unfold writeU2
  rw [List.set_append_left _ _ (by omega), List.set_append_left _ _ (by simp; omega)]

theorem writeU2_append_right {w₁ : Bytes} {at_ : Nat} (h : w₁.length ≤ at_) (w₂ : Bytes) (v : UInt16) :
    writeU2 (w₁ ++ w₂) at_ v = w₁ ++ writeU2 w₂ (at_ - w₁.length) v := by
  unfold writeU2
  rw [List.set_append_right _ _ h, List.set_append_right _ _ (by omega),
    show at_ + 1 - w₁.length = at_ - w₁.length + 1 by omega]

theorem TypeAnnotationRef.width_cases (ref : TypeAnnotationRef) :
    (ref.kind = .span ∧ ref.width = 4) ∨ (ref.kind = .instruction ∧ ref.width = 2) := by
  cases h : ref.kind <;> simp [TypeAnnotationRef.width, h]

theorem putRef_append_left {n : Nat} {ref : TypeAnnotationRef} {w₁ : Bytes} (h : ref.Within n w₁.length) (w₂ : Bytes) :
    putRef n ref (w₁ ++ w₂) = putRef n ref w₁ ++ w₂ := by
  obtain ⟨h₁, h₂⟩ := h
  unfold putRef
  dsimp only
  rcases ref.width_cases with ⟨hk, hw⟩ | ⟨hk, hw⟩
  · rw [if_neg (by simp [hk]), if_neg (by simp [hk]), writeU2_append_left (by omega),
      writeU2_append_left (by rw [length_writeU2]; omega)]
  · rw [if_pos hk, if_pos hk, writeU2_append_left (by omega)]

theorem putRef_append_right {n : Nat} {ref : TypeAnnotationRef} {w₁ : Bytes} (h : n + w₁.length ≤ ref.payloadOffset)
    (w₂ : Bytes) : putRef n ref (w₁ ++ w₂) = w₁ ++ putRef (n + w₁.length) ref w₂ := by
  have shift : ref.payloadOffset - n - w₁.length = ref.payloadOffset - (n + w₁.length) := by omega
  have shift' : ref.payloadOffset - n + 2 - w₁.length = ref.payloadOffset - (n + w₁.length) + 2 := by omega
  unfold putRef
  dsimp only
  rw [writeU2_append_right (by omega), shift]
  split
  · rfl
  · rw [writeU2_append_right (by omega), shift']

theorem fillRefs_append_left {n : Nat} (w₂ : Bytes) : ∀ {refs : List TypeAnnotationRef} {w₁ : Bytes},
    (∀ ref ∈ refs, ref.Within n w₁.length) → fillRefs n refs (w₁ ++ w₂) = fillRefs n refs w₁ ++ w₂
  | [], _, _ => rfl
  | ref :: refs, w₁, h => by
    simp only [fillRefs, List.foldl_cons]
    rw [putRef_append_left (h ref List.mem_cons_self)]
    exact fillRefs_append_left w₂ fun r hr => by
      rw [length_putRef]
      exact h r (List.mem_cons_of_mem ref hr)

theorem fillRefs_append_right {n : Nat} {w₁ : Bytes} : ∀ {refs : List TypeAnnotationRef} (w₂ : Bytes),
    (∀ ref ∈ refs, n + w₁.length ≤ ref.payloadOffset) →
    fillRefs n refs (w₁ ++ w₂) = w₁ ++ fillRefs (n + w₁.length) refs w₂
  | [], _, _ => rfl
  | ref :: refs, w₂, h => by
    simp only [fillRefs, List.foldl_cons]
    rw [putRef_append_right (h ref List.mem_cons_self)]
    exact fillRefs_append_right (putRef (n + w₁.length) ref w₂) fun r hr => h r (List.mem_cons_of_mem ref hr)

/-! ## The law of the walk -/

/-- The same place with other offsets, which fit the fields. -/
structure Retargets (ref ref' : TypeAnnotationRef) : Prop where
  attributeIndex : ref'.attributeIndex = ref.attributeIndex
  payloadOffset : ref'.payloadOffset = ref.payloadOffset
  kind : ref'.kind = ref.kind
  nonneg : 0 ≤ ref'.start
  start : ref'.start ≤ 0xFFFF
  span : ref.kind = .span → ref'.start ≤ ref'.stop ∧ ref'.stop ≤ 0xFFFF
  instruction : ref.kind = .instruction → ref'.stop = ref.stop

theorem Retargets.width {ref ref' : TypeAnnotationRef} (h : Retargets ref ref') : ref'.width = ref.width := by
  rw [TypeAnnotationRef.width, TypeAnnotationRef.width, h.kind]

theorem Retargets.within {ref ref' : TypeAnnotationRef} (h : Retargets ref ref') {n length : Nat}
    (hw : ref.Within n length) : ref'.Within n length := by
  unfold TypeAnnotationRef.Within at *
  rw [h.payloadOffset, h.width]
  exact hw

theorem within_of_forall₂ {n length : Nat} {refs refs' : List TypeAnnotationRef} (h : List.Forall₂ Retargets refs refs')
    (hw : ∀ ref ∈ refs, ref.Within n length) : ∀ ref ∈ refs', ref.Within n length := by
  induction h with
  | nil => exact fun ref hr => absurd hr List.not_mem_nil
  | cons hr _ ih =>
    intro ref hmem
    rcases List.mem_cons.mp hmem with rfl | hmem
    · exact hr.within (hw _ List.mem_cons_self)
    · exact ih (fun r hr => hw r (List.mem_cons_of_mem _ hr)) ref hmem

theorem forall₂_append_left {α β : Type} {R : α → β → Prop} {l₂ : List α} : ∀ {l₁ : List α} {l : List β},
    List.Forall₂ R (l₁ ++ l₂) l → ∃ m₁ m₂, List.Forall₂ R l₁ m₁ ∧ List.Forall₂ R l₂ m₂ ∧ l = m₁ ++ m₂
  | [], l, h => ⟨[], l, .nil, h, rfl⟩
  | a :: l₁, l, h => by
    cases h with
    | cons hab h =>
      obtain ⟨m₁, m₂, h₁, h₂, rfl⟩ := forall₂_append_left h
      exact ⟨_ :: m₁, m₂, .cons hab h₁, h₂, rfl⟩

theorem forall₂_mem_right {α β : Type} {R : α → β → Prop} {l : List α} {m : List β} (h : List.Forall₂ R l m) :
    ∀ b ∈ m, ∃ a ∈ l, R a b := by
  induction h with
  | nil => exact fun b hb => absurd hb List.not_mem_nil
  | cons hab _ ih =>
    intro b hb
    rcases List.mem_cons.mp hb with rfl | hb
    · exact ⟨_, List.mem_cons_self, hab⟩
    · obtain ⟨a, ha, hr⟩ := ih b hb
      exact ⟨a, List.mem_cons_of_mem _ ha, hr⟩

/-- What was taken can be taken again with the recorded places filled anew; the places lie in what was taken. -/
def Refills (index : Nat) (p : Parse (List TypeAnnotationRef)) : Prop :=
  Takes p fun n w refs => (∀ ref ∈ refs, ref.Within n w.length ∧ ref.attributeIndex = index) ∧
    ∀ refs', List.Forall₂ Retargets refs refs' → Reads p n (fillRefs n refs' w) refs'

theorem Refills.throw (index : Nat) (e : ClassfileStatus) : Refills index (throw e) := Takes.throw e _

theorem Refills.nil (index : Nat) : Refills index (pure []) := by
  refine (Takes.pure _).mono ?_
  rintro n w refs ⟨rfl, rfl⟩
  refine ⟨fun ref hr => absurd hr List.not_mem_nil, fun refs' h => ?_⟩
  cases h
  exact Reads.pure _ _

theorem Refills.ite {index : Nat} {c : Prop} [Decidable c] {p q : Parse (List TypeAnnotationRef)}
    (hp : c → Refills index p) (hq : ¬c → Refills index q) : Refills index (if c then p else q) := by
  split
  · exact hp ‹_›
  · exact hq ‹_›

/-- A step in front that records nothing. -/
theorem Refills.after {α : Type} {index : Nat} {p : Parse α} {f : α → Parse (List TypeAnnotationRef)} (hp : Rereads p)
    (hf : ∀ a, Refills index (f a)) : Refills index (p >>= f) := by
  refine (Takes.bind hp hf).mono ?_
  rintro n w refs ⟨a, w₁, w₂, rfl, h₁, hin, h₂⟩
  refine ⟨fun ref hr => ?_, fun refs' h => ?_⟩
  · obtain ⟨⟨hlo, hhi⟩, hi⟩ := hin ref hr
    refine ⟨⟨by omega, ?_⟩, hi⟩
    rw [List.length_append]
    omega
  · have hin' := within_of_forall₂ h fun ref hr => (hin ref hr).1
    rw [fillRefs_append_right w₂ fun ref hr => (hin' ref hr).1]
    exact h₁.bind (h₂ refs' h)

/-- Steps behind that record nothing and hand the references on. -/
theorem Refills.before {index : Nat} {p : Parse (List TypeAnnotationRef)} {q : Parse Unit} (hp : Refills index p)
    (hq : Rereads q) : Refills index (p >>= fun refs => q >>= fun _ => pure refs) := by
  refine (Takes.bind hp fun refs => Takes.bind hq fun _ => Takes.pure refs).mono ?_
  rintro n w refs ⟨refs₁, w₁, w₂, rfl, ⟨hin, h₁⟩, _, w₃, w₄, rfl, h₂, rfl, rfl⟩
  refine ⟨fun ref hr => ?_, fun refs' h => ?_⟩
  · obtain ⟨⟨hlo, hhi⟩, hi⟩ := hin ref hr
    refine ⟨⟨hlo, ?_⟩, hi⟩
    rw [List.length_append]
    omega
  · rw [fillRefs_append_left _ (within_of_forall₂ h fun ref hr => (hin ref hr).1), List.append_nil]
    refine (h₁ refs' h).bind ?_
    rw [length_fillRefs]
    exact h₂.last (Reads.pure _ _)

/-- Two parts one behind the other; the second only knows how many references came before it. -/
theorem Refills.append {index count : Nat} {p : Parse (List TypeAnnotationRef)}
    {f : Nat → Parse (List TypeAnnotationRef)} (hp : Refills index p) (hf : ∀ k, Refills index (f k)) :
    Refills index (p >>= fun refs => f (count + refs.length) >>= fun rest => pure (refs ++ rest)) := by
  refine (Takes.bind hp fun refs => Takes.bind (hf _) fun rest => Takes.pure (refs ++ rest)).mono ?_
  rintro n w refs ⟨refs₁, w₁, w₂, rfl, ⟨hin₁, h₁⟩, refs₂, w₃, w₄, rfl, ⟨hin₂, h₂⟩, rfl, rfl⟩
  rw [List.append_nil]
  refine ⟨fun ref hr => ?_, fun refs' h => ?_⟩
  · rw [List.length_append]
    rcases List.mem_append.mp hr with hr | hr
    · obtain ⟨⟨hlo, hhi⟩, hi⟩ := hin₁ ref hr
      exact ⟨⟨hlo, by omega⟩, hi⟩
    · obtain ⟨⟨hlo, hhi⟩, hi⟩ := hin₂ ref hr
      exact ⟨⟨by omega, by omega⟩, hi⟩
  · obtain ⟨refs₁', refs₂', hr₁, hr₂, rfl⟩ := forall₂_append_left h
    have hin₁' := within_of_forall₂ hr₁ fun ref hr => (hin₁ ref hr).1
    have hin₂' := within_of_forall₂ hr₂ fun ref hr => (hin₂ ref hr).1
    rw [fillRefs_append, fillRefs_append_left _ hin₁', fillRefs_append_right _ fun ref hr => by
      rw [length_fillRefs]; exact (hin₂' ref hr).1]
    refine (h₁ refs₁' hr₁).bind ?_
    rw [← hr₁.length_eq, length_fillRefs]
    exact (h₂ refs₂' hr₂).last (Reads.pure _ _)

/-! ## Steps that record nothing -/

theorem rereads_u1 : Rereads byteCursorU1 := takes_u1.mono (by rintro n w a rfl; exact reads_u1 a n)

theorem rereads_u2 : Rereads byteCursorU2 := takes_u2.mono (by rintro n w a rfl; exact reads_u2 a n)

theorem rereads_checkOk (e : ClassfileStatus) : Rereads (checkOk e) :=
  (takes_checkOk e).mono (by rintro n w a rfl; exact reads_checkOk e n)

theorem rereads_skipU1 : Rereads skipU1 := rereads_u1.bind fun _ => Rereads.pure _

theorem rereads_skipU2 : Rereads skipU2 := rereads_u2.bind fun _ => Rereads.pure _

theorem rereads_skipMany {p : Parse Unit} (hp : Rereads p) (k : Nat) : Rereads (skipMany p k) :=
  (hp.many k).bind fun _ => Rereads.pure _

theorem rereads_skip : ∀ budget, Rereads ( skipAnnotation budget) ∧
    Rereads (skipElementValue budget)
  | 0 => ⟨by rw [ skipAnnotation]; exact Rereads.throw _, by rw [skipElementValue]; exact Rereads.throw _⟩
  | budget + 1 => by
    obtain ⟨entry, value⟩ := rereads_skip budget
    refine ⟨?_, ?_⟩
    · rw [ skipAnnotation]
      refine rereads_skipU2.bind fun _ => rereads_u2.bind fun pairs => (rereads_checkOk _).bind fun _ => ?_
      exact (rereads_skipMany (rereads_skipU2.bind fun _ => value) _).bind fun _ => rereads_checkOk _
    · rw [skipElementValue]
      refine rereads_u1.bind fun tag => (rereads_checkOk _).bind fun _ => Rereads.ite (fun _ => ?_) fun _ =>
        Rereads.ite (fun _ => ?_) fun _ => Rereads.ite (fun _ => ?_) fun _ => Rereads.ite (fun _ => ?_) fun _ =>
          Rereads.throw _
      · exact rereads_skipU2.bind fun _ => rereads_checkOk _
      · exact rereads_skipU2.bind fun _ => rereads_skipU2.bind fun _ => rereads_checkOk _
      · exact entry.bind fun _ => rereads_checkOk _
      · exact rereads_u2.bind fun values => (rereads_checkOk _).bind fun _ => (rereads_skipMany value _).bind fun _ =>
          rereads_checkOk _

/-! ## Steps that record a place -/

theorem takes_appendRef (count : Nat) (ref : TypeAnnotationRef) :
    Takes (appendRef count ref) fun _ w refs => w = [] ∧ refs = [ref] ∧ count ≠ classfileMaxCount := by
  refine Takes.ite (fun _ => Takes.throw _ _) fun h => (Takes.pure _).mono ?_
  rintro n w refs ⟨rfl, rfl⟩
  exact ⟨rfl, rfl, h⟩

theorem reads_appendRef {count : Nat} (h : count ≠ classfileMaxCount) (ref : TypeAnnotationRef) (n : Nat) :
    Reads (appendRef count ref) n [] [ref] := by
  rw [appendRef, if_neg h]
  exact Reads.pure _ _

theorem writeU2_head (v v' : UInt16) (w : Bytes) : writeU2 (byteBufferU2 v ++ w) 0 v' = byteBufferU2 v' ++ w := rfl

theorem writeU2_second (u v v' : UInt16) (w : Bytes) :
    writeU2 (byteBufferU2 u ++ (byteBufferU2 v ++ w)) 2 v' = byteBufferU2 u ++ (byteBufferU2 v' ++ w) := rfl

theorem refills_readSpan (index count : Nat) : Refills index (readSpan index count) := by
  refine (takes_offset.bind fun at_ => takes_u2.bind fun start => takes_u2.bind fun length =>
    (takes_u2.bind fun _ => Takes.pure ()).bind fun _ => (takes_checkOk _).bind fun _ =>
    takes_appendRef count _).mono ?_
  rintro n w refs ⟨at_, w₁, w₂, rfl, ⟨rfl, rfl⟩, start, w₃, w₄, rfl, rfl, length, w₅, w₆, rfl, rfl, _, w₇, w₈, rfl,
    ⟨slot, w₉, w₁₀, rfl, rfl, rfl, -⟩, _, w₁₁, w₁₂, rfl, rfl, rfl, rfl, hc⟩
  refine ⟨?_, fun refs' h => ?_⟩
  · intro ref hr
    rw [List.mem_singleton.mp hr]
    exact ⟨⟨Nat.le_refl _, by simp [TypeAnnotationRef.width]⟩, rfl⟩
  · cases h with
    | cons hr hnil =>
      cases hnil
      rename_i ref'
      obtain ⟨hi, hp, hk, h₀, h₁, hs, -⟩ := hr
      obtain ⟨h₂, h₃⟩ := hs rfl
      have filled : fillRefs at_ [ref'] (byteBufferU2 start ++ (byteBufferU2 length ++ byteBufferU2 slot)) =
          byteBufferU2 (u2OfInt ref'.start) ++ (byteBufferU2
            (u2OfInt (ref'.stop - ref'.start)) ++ byteBufferU2 slot) := by
        simp only [fillRefs, List.foldl_cons, List.foldl_nil, putRef, hp, hk, Nat.sub_self, Nat.zero_add]
        rw [if_neg (by simp), writeU2_head, writeU2_second]
      simp only [List.nil_append, List.append_nil]
      rw [filled]
      refine (reads_offset at_).skip ((reads_u2 _ _).bind ((reads_u2 _ _).bind ?_))
      refine ((reads_u2 slot _).last (Reads.pure () _) : Reads skipU2 _ _ _).last ((reads_checkOk _ _).skip ?_)
      rw [toNat_u2OfInt_of_fits h₀ h₁, toNat_u2OfInt_of_fits (by omega) (by omega),
        show ref'.start + (ref'.stop - ref'.start) = ref'.stop by omega]
      obtain ⟨i, p, k, a, b⟩ := ref'
      simp only at hi hp hk
      subst hi hp hk
      exact reads_appendRef hc _ _

/-- The offset and type argument targets: one instruction, and bytes that are passed over. -/
theorem refills_instruction (index count : Nat) {q : Parse Unit} (hq : Rereads q) : Refills index (do
    let at_ ← byteCursorOffset
    let value ← byteCursorU2
    q
    appendRef count ⟨index, at_, .instruction, value.toNat, 0⟩) := by
  refine (takes_offset.bind fun at_ => takes_u2.bind fun value => Takes.bind hq fun _ =>
    takes_appendRef count _).mono ?_
  rintro n w refs ⟨at_, w₁, w₂, rfl, ⟨rfl, rfl⟩, value, w₃, w₄, rfl, rfl, _, w₅, w₆, rfl, hw₅, rfl, rfl, hc⟩
  refine ⟨?_, fun refs' h => ?_⟩
  · intro ref hr
    rw [List.mem_singleton.mp hr]
    exact ⟨⟨Nat.le_refl _, by simp [TypeAnnotationRef.width]⟩, rfl⟩
  · cases h with
    | cons hr hnil =>
      cases hnil
      rename_i ref'
      obtain ⟨hi, hp, hk, h₀, h₁, -, hs⟩ := hr
      have filled : fillRefs at_ [ref'] (byteBufferU2 value ++ w₅) = byteBufferU2 (u2OfInt ref'.start) ++ w₅ := by
        simp only [fillRefs, List.foldl_cons, List.foldl_nil, putRef, hp, hk, Nat.sub_self]
        rw [if_pos trivial, writeU2_head]
      simp only [List.nil_append, List.append_nil]
      rw [filled]
      refine (reads_offset at_).skip ((reads_u2 _ _).bind (hw₅.last ?_))
      rw [toNat_u2OfInt_of_fits h₀ h₁]
      have hstop := hs rfl
      obtain ⟨i, p, k, a, b⟩ := ref'
      simp only at hi hp hk hstop
      subst hi hp hk hstop
      exact reads_appendRef hc _ _

/-! ## The walk -/

theorem refills_readSpans (index : Nat) : ∀ entries count, Refills index (readSpans index entries count)
  | 0, _ => Refills.nil index
  | entries + 1, count => (refills_readSpan index count).append fun k => refills_readSpans index entries k

theorem refills_readTarget (targetType : UInt8) (index count : Nat) :
    Refills index (readTarget targetType index count) := by
  refine Refills.ite (fun _ => ?_) fun _ => Refills.ite (fun _ => ?_) fun _ => Refills.ite (fun _ => ?_) fun _ =>
    Refills.ite (fun _ => ?_) fun _ => Refills.ite (fun _ => ?_) fun _ => Refills.ite (fun _ => ?_) fun _ =>
      Refills.ite (fun _ => ?_) fun _ => Refills.throw _ _
  · exact Refills.after rereads_skipU1 fun _ => Refills.after (rereads_checkOk _) fun _ => Refills.nil index
  · exact Refills.after rereads_skipU2 fun _ => Refills.after (rereads_checkOk _) fun _ => Refills.nil index
  · exact Refills.after rereads_skipU1 fun _ => Refills.after rereads_skipU1 fun _ =>
      Refills.after (rereads_checkOk _) fun _ => Refills.nil index
  · exact Refills.after (rereads_checkOk _) fun _ => Refills.nil index
  · exact Refills.after rereads_u2 fun entries => Refills.after (rereads_checkOk _) fun _ =>
      refills_readSpans index _ _
  · exact refills_instruction index count (rereads_checkOk _)
  · have := refills_instruction index count (rereads_skipU1.bind fun _ => rereads_checkOk .truncated)
    simpa only [bind_assoc] using this

theorem refills_entry (index count : Nat) : Refills index ( readTypeAnnotation index count) := by
  refine Refills.after rereads_u1 fun targetType => Refills.after (rereads_checkOk _) fun _ => ?_
  have behind : Rereads (do
      let pathLength ← byteCursorU1
      checkOk .truncated
      skipMany (do skipU1; skipU1) pathLength.toNat
      checkOk .truncated
      skipAnnotation 33) :=
    rereads_u1.bind fun pathLength => (rereads_checkOk _).bind fun _ =>
      (rereads_skipMany (rereads_skipU1.bind fun _ => rereads_skipU1) _).bind fun _ => (rereads_checkOk _).bind fun _ =>
        (rereads_skip 33).1
  have := (refills_readTarget targetType index count).before behind
  simpa only [bind_assoc] using this

theorem refills_readTypeAnnotations (index : Nat) : ∀ n count, Refills index (readTypeAnnotations index n count)
  | 0, _ => Refills.nil index
  | n + 1, count => (refills_entry index count).append fun k => refills_readTypeAnnotations index n k

theorem refills_readTypeAnnotationTable (index count : Nat) : Refills index (readTypeAnnotationTable index count) :=
  Refills.after rereads_u2 fun _ => Refills.after (rereads_checkOk _) fun _ =>
    refills_readTypeAnnotations index _ _

/-! ## The latch -/

theorem checks_skip (budget : Nat) : Checks ( skipAnnotation budget) := by
  cases budget with
  | zero => rw [ skipAnnotation]; exact Checks.throw _
  | succ budget =>
    rw [ skipAnnotation]
    exact Checks.bind fun _ => Checks.bind fun _ => Checks.bind fun _ => Checks.bind fun _ => checks_checkOk _

theorem checks_entry (index count : Nat) : Checks ( readTypeAnnotation index count) :=
  Checks.bind fun _ => Checks.bind fun _ => Checks.bind fun _ => Checks.bind fun _ => Checks.bind fun _ =>
    Checks.bind fun _ => Checks.bind fun _ => (checks_skip 33).last

theorem checks_readTypeAnnotations (index : Nat) : ∀ n count, n ≠ 0 → Checks (readTypeAnnotations index n count)
  | 0, _, h => absurd rfl h
  | 1, count, _ => by
    intro s refs s' h
    obtain ⟨found, s₁, h₁, h₂⟩ := run_bind_ok h
    cases h₂
    exact checks_entry index count s found _ h₁
  | n + 2, count, _ =>
    Checks.bind fun refs => (checks_readTypeAnnotations index (n + 1) (count + refs.length) (Nat.succ_ne_zero n)).last

theorem checks_readTypeAnnotationTable (index count : Nat) : Checks (readTypeAnnotationTable index count) := by
  intro c refs c' h
  obtain ⟨annotations, c₁, _, h₁⟩ := run_bind_ok h
  obtain ⟨_, c₂, hok, h₂⟩ := run_bind_ok h₁
  by_cases hn : annotations.toNat = 0
  · rw [hn] at h₂
    cases h₂
    exact checks_checkOk _ c₁ () _ hok
  · exact checks_readTypeAnnotations index _ _ hn c₂ refs c' h₂

/-- **A second walk finds the new offsets in the same places.** -/
theorem collect_fill {index count : Nat} {payload : Bytes} {refs : List TypeAnnotationRef}
    (h : parseAll (readTypeAnnotationTable index count) payload = .ok refs) :
    (∀ ref ∈ refs, ref.Within 0 payload.length ∧ ref.attributeIndex = index) ∧
      ∀ refs', List.Forall₂ Retargets refs refs' →
        parseAll (readTypeAnnotationTable index count) (fillRefs 0 refs' payload) = .ok refs' := by
  obtain ⟨hin, hfill⟩ :=
    takes_of_parseAll (refills_readTypeAnnotationTable index count) (checks_readTypeAnnotationTable index count) h
  exact ⟨hin, fun refs' hr => parseAll_of_reads (hfill refs' hr)⟩

end Jni2Hook
