import Jni2Hook.Code.InstructionRoundTrip
import Jni2Hook.Code.StackMapTable

/-!
# The StackMapTable: what is written is read

* `FrameKind.Fits`: the types and counts of a frame fit its form. Reading gives only such frames
  (`takes_readStackMapTable`), and `framesLength` is the number of bytes they took.
* `reads_writeFrames`: frames that are written are read back with their positions and types. Only the tag may differ,
  because a delta that outgrows a compact tag is written in the extended form.
-/

namespace Jni2Hook

open Lib

/-! ## Verification types -/

/-- An Uninitialized type names an offset that fits a `u2`. -/
def VerificationType.Fits : VerificationType → Prop
  | .uninitialized offset => 0 ≤ offset ∧ offset ≤ 0xFFFF
  | .object _ | .basic _ => True

theorem reads_readVerificationType {type : VerificationType} (h : type.Fits) (n : Nat) :
    Reads readVerificationType n (writeVerificationType type) type := by
  cases type with
  | object index =>
    refine (reads_u1 7 n).bind ?_
    exact (reads_u2 _ _).last ((reads_checkOk _ _).skip (Reads.pure _ _))
  | uninitialized offset =>
    refine (reads_u1 8 n).bind ?_
    refine (reads_u2 _ _).last ((reads_checkOk _ _).skip ?_)
    rw [toNat_u2OfInt_of_fits h.1 h.2]
    exact Reads.pure _ _
  | basic tag =>
    obtain ⟨t, h₇, h₈⟩ := tag
    refine (reads_u1 t n).last ?_
    rw [dif_neg h₇, dif_neg h₈]
    exact (reads_checkOk _ _).skip (Reads.pure _ _)

theorem takes_readVerificationType :
    Takes readVerificationType fun _ w type => w = writeVerificationType type ∧ type.Fits := by
  refine (takes_u1.bind (H := fun tag _ w type => byteBufferU1 tag ++ w = writeVerificationType type ∧ type.Fits)
    fun tag => ?_).mono (by rintro n w type ⟨tag, w₁, w₂, rfl, rfl, h⟩; exact h)
  split
  · refine (takes_u2.bind fun index => (takes_checkOk _).bind fun _ => Takes.pure _).mono ?_
    rintro n w type ⟨index, w₁, w₂, rfl, rfl, _, w₃, w₄, rfl, rfl, rfl, rfl⟩
    subst tag
    exact ⟨by simp [writeVerificationType], trivial⟩
  · split
    · refine (takes_u2.bind fun offset => (takes_checkOk _).bind fun _ => Takes.pure _).mono ?_
      rintro n w type ⟨offset, w₁, w₂, rfl, rfl, _, w₃, w₄, rfl, rfl, rfl, rfl⟩
      subst tag
      have := offset.toNat_lt
      refine ⟨?_, by simp only [VerificationType.Fits]; omega⟩
      rw [writeVerificationType, u2OfInt_natCast]
      simp
    · refine ((takes_checkOk _).bind fun _ => Takes.pure _).mono ?_
      rintro n w type ⟨_, w₁, w₂, rfl, rfl, rfl, rfl⟩
      exact ⟨by simp [writeVerificationType], trivial⟩

/-! ## Frames -/

/-- The counts and types of a frame fit its form. -/
def FrameKind.Fits : FrameKind → Prop
  | .same => True
  | .sameLocals1StackItem stack => stack.Fits
  | .chop count => 1 ≤ count.toNat ∧ count.toNat ≤ 3
  | .append locals => 1 ≤ locals.length ∧ locals.length ≤ 3 ∧ ∀ type ∈ locals, type.Fits
  | .full locals stack => locals.length ≤ classfileMaxCount ∧ stack.length ≤ classfileMaxCount ∧
      (∀ type ∈ locals, type.Fits) ∧ ∀ type ∈ stack, type.Fits

theorem reads_readDelta {delta : Int} (h₀ : 0 ≤ delta) (h : delta ≤ 0xFFFF) (n : Nat) :
    Reads readDelta n (byteBufferU2 (u2OfInt delta)) delta := by
  refine (reads_u2 _ _).last ?_
  rw [toNat_u2OfInt_of_fits h₀ h]
  exact Reads.pure _ _

theorem takes_readDelta : Takes readDelta fun _ w delta => w = byteBufferU2 (u2OfInt delta) ∧ 0 ≤ delta ∧
    delta ≤ 0xFFFF := by
  refine (takes_u2.bind fun v => Takes.pure (v.toNat : Int)).mono ?_
  rintro n w delta ⟨v, w₁, w₂, rfl, rfl, rfl, rfl⟩
  have := v.toNat_lt
  exact ⟨by simp [u2OfInt_natCast], by omega, by omega⟩

theorem reads_types {types : List VerificationType} (h : ∀ type ∈ types, type.Fits) (n : Nat) :
    Reads (readMany readVerificationType types.length) n (types.flatMap writeVerificationType) types :=
  Reads.many fun type hmem m => reads_readVerificationType (h type hmem) m

theorem toNat_u1OfInt_of_fits {x : Int} (h₀ : 0 ≤ x) (h : x ≤ 0xFF) : ((u1OfInt x).toNat : Int) = x := by
  rw [toNat_u1OfInt]
  omega

/-- The form of a frame that was written: a tag under which the body is read back. -/
theorem reads_writeFrameBody {kind : FrameKind} {delta : Int} (hk : kind.Fits) (h₀ : 0 ≤ delta) (h : delta ≤ 0xFFFF)
    (rawTag : UInt8) (n : Nat) : ∃ tag body, writeFrameBody rawTag delta kind = byteBufferU1 tag ++ body ∧
      Reads (readFrameBody tag) n body (delta, kind) := by
  cases kind with
  | same =>
    simp only [writeFrameBody]
    split
    · refine ⟨u1OfInt delta, [], by simp, ?_⟩
      have ht := toNat_u1OfInt_of_fits h₀ (by omega)
      rw [readFrameBody, if_pos (UInt8.le_iff_toNat_le.mpr (by simp; omega)), ht]
      exact Reads.pure _ _
    · exact ⟨251, _, rfl, (reads_readDelta h₀ h n).last (Reads.pure _ _)⟩
  | sameLocals1StackItem stack =>
    simp only [writeFrameBody]
    split
    · refine ⟨u1OfInt (64 + delta), _, rfl, ?_⟩
      have ht := toNat_u1OfInt_of_fits (x := 64 + delta) (by omega) (by omega)
      rw [readFrameBody, if_neg (fun hle => by have := UInt8.le_iff_toNat_le.mp hle; simp at this; omega),
        if_pos (UInt8.le_iff_toNat_le.mpr (by simp; omega)), ht, show 64 + delta - 64 = delta by omega]
      exact (reads_readVerificationType hk n).last (Reads.pure _ _)
    · exact ⟨247, _, rfl, (reads_readDelta h₀ h n).bind ((reads_readVerificationType hk _).last (Reads.pure _ _))⟩
  | chop count =>
    refine ⟨_, _, rfl, ?_⟩
    obtain ⟨h₁, h₃⟩ := hk
    have hc : count = UInt16.ofNat count.toNat := (UInt16.ofNat_toNat).symm
    generalize count.toNat = k at h₁ h₃ hc
    subst hc
    obtain rfl | rfl | rfl : k = 1 ∨ k = 2 ∨ k = 3 := by omega
    all_goals exact (reads_readDelta h₀ h n).last (Reads.pure _ _)
  | append locals =>
    refine ⟨_, _, rfl, ?_⟩
    obtain ⟨h₁, h₃, hl⟩ := hk
    have := reads_types hl
    generalize hlen : locals.length = k at h₁ h₃ this
    obtain rfl | rfl | rfl : k = 1 ∨ k = 2 ∨ k = 3 := by omega
    all_goals exact (reads_readDelta h₀ h n).bind ((this _).last (Reads.pure _ _))
  | full locals stack =>
    obtain ⟨hl, hs, htl, hts⟩ := hk
    refine ⟨255, _, rfl, (reads_readDelta h₀ h n).bind ((reads_u2 _ _).bind ?_)⟩
    rw [u2_length hl]
    refine (reads_types htl _).bind ((reads_u2 _ _).bind ?_)
    rw [u2_length hs]
    exact (reads_types hts _).last (Reads.pure _ _)

theorem takes_types (count : Nat) : Takes (readMany readVerificationType count) fun _ w types =>
    w = types.flatMap writeVerificationType ∧ types.length = count ∧ ∀ type ∈ types, type.Fits :=
  takes_readVerificationType.many count

/-- What the reader of a frame body answers, and the bytes it took behind the tag. -/
structure FrameRead (tag : UInt8) (w : Bytes) (x : Int × FrameKind) : Prop where
  nonneg : 0 ≤ x.1
  le : x.1 ≤ 0xFFFF
  fits : x.2.Fits
  bytes : byteBufferU1 tag ++ w = writeFrameBody tag x.1 x.2

theorem u1OfInt_natCast (v : UInt8) : u1OfInt v.toNat = v := by
  have := v.toNat_lt
  apply UInt8.toNat_inj.mp
  have := toNat_u1OfInt (v.toNat : Int)
  omega

theorem takes_readFrameBody (tag : UInt8) : Takes (readFrameBody tag) fun _ w x => FrameRead tag w x := by
  have htag := tag.toNat_lt
  refine Takes.ite (fun h₁ => ?_) fun h₁ => Takes.ite (fun h₂ => ?_) fun h₂ => Takes.ite (fun h₃ => ?_) fun h₃ =>
    Takes.ite (fun h₄ => ?_) fun h₄ => Takes.ite (fun h₅ => ?_) fun h₅ => Takes.ite (fun h₆ => ?_) fun h₆ =>
      Takes.ite (fun h₇ => ?_) fun h₇ => Takes.throw _ _
  · refine (Takes.pure _).mono ?_
    rintro n w x ⟨rfl, rfl⟩
    have := UInt8.le_iff_toNat_le.mp h₁
    simp only [UInt8.reduceToNat] at this
    refine ⟨by simp, by simp; omega, trivial, ?_⟩
    rw [writeFrameBody, if_pos ⟨h₁, by dsimp only; omega⟩, u1OfInt_natCast]
    rfl
  · refine (takes_readVerificationType.bind fun stack => Takes.pure _).mono ?_
    rintro n w x ⟨stack, w₁, w₂, rfl, ⟨rfl, hs⟩, rfl, rfl⟩
    have h64 : ¬tag.toNat ≤ 63 := fun h => h₁ (UInt8.le_iff_toNat_le.mpr (by simpa using h))
    have := UInt8.le_iff_toNat_le.mp h₂
    simp only [UInt8.reduceToNat] at this
    refine ⟨by simp; omega, by simp; omega, hs, ?_⟩
    rw [writeFrameBody, if_pos ⟨h₂, by dsimp only; omega⟩,
      show (64 : Int) + (tag.toNat - 64) = tag.toNat by omega, u1OfInt_natCast, List.append_nil]
  · refine (takes_readDelta.bind fun d => takes_readVerificationType.bind fun stack => Takes.pure _).mono ?_
    rintro n w x ⟨d, w₁, w₂, rfl, ⟨rfl, hd₀, hd₁⟩, stack, w₃, w₄, rfl, ⟨rfl, hs⟩, rfl, rfl⟩
    refine ⟨hd₀, hd₁, hs, ?_⟩
    rw [writeFrameBody, if_neg fun h => h₂ h.1, h₃, List.append_nil]
  · refine (takes_readDelta.bind fun d => Takes.pure _).mono ?_
    rintro n w x ⟨d, w₁, w₂, rfl, ⟨rfl, hd₀, hd₁⟩, rfl, rfl⟩
    have h248 := UInt8.le_iff_toNat_le.mp h₄.1
    have h250 := UInt8.le_iff_toNat_le.mp h₄.2
    simp only [UInt8.reduceToNat] at h248 h250
    have back : (251 : Int) - (UInt16.ofNat (251 - tag.toNat)).toNat = tag.toNat := by
      rw [UInt16.toNat_ofNat']
      omega
    refine ⟨hd₀, hd₁, ?_, ?_⟩
    · simp only [FrameKind.Fits, UInt16.toNat_ofNat']
      omega
    · rw [writeFrameBody, back, u1OfInt_natCast, List.append_nil]
  · refine (takes_readDelta.bind fun d => Takes.pure _).mono ?_
    rintro n w x ⟨d, w₁, w₂, rfl, ⟨rfl, hd₀, hd₁⟩, rfl, rfl⟩
    refine ⟨hd₀, hd₁, trivial, ?_⟩
    rw [writeFrameBody, if_neg fun h => h₁ h.1, h₅, List.append_nil]
  · refine (takes_readDelta.bind fun d => (takes_types _).bind fun locals => Takes.pure _).mono ?_
    rintro n w x ⟨d, w₁, w₂, rfl, ⟨rfl, hd₀, hd₁⟩, locals, w₃, w₄, rfl, ⟨rfl, hlen, hl⟩, rfl, rfl⟩
    have h252 := UInt8.le_iff_toNat_le.mp h₆.1
    have h254 := UInt8.le_iff_toNat_le.mp h₆.2
    simp only [UInt8.reduceToNat] at h252 h254
    refine ⟨hd₀, hd₁, ⟨by omega, by omega, hl⟩, ?_⟩
    rw [writeFrameBody, hlen, show (251 : Int) + (tag.toNat - 251 : Nat) = tag.toNat by omega, u1OfInt_natCast,
      List.append_nil]
  · refine (takes_readDelta.bind fun d => takes_u2.bind fun localsCount => (takes_types _).bind fun locals =>
      takes_u2.bind fun stackCount => (takes_types _).bind fun stack => Takes.pure _).mono ?_
    rintro n w x ⟨d, w₁, w₂, rfl, ⟨rfl, hd₀, hd₁⟩, lc, w₃, w₄, rfl, rfl, locals, w₅, w₆, rfl,
      ⟨rfl, hll, hl⟩, sc, w₇, w₈, rfl, rfl, stack, w₉, w₁₀, rfl, ⟨rfl, hsl, hs⟩, rfl, rfl⟩
    refine ⟨hd₀, hd₁, ⟨by rw [hll]; exact u2_le_maxCount lc, by rw [hsl]; exact u2_le_maxCount sc, hl, hs⟩, ?_⟩
    rw [writeFrameBody, ofNat_of_toNat hll, ofNat_of_toNat hsl, h₇, List.append_nil]

/-! ## Tables -/

/-- A frame with its types and its position in the ranges of the format. -/
structure StackMapFrame.Fits (frame : StackMapFrame) : Prop where
  kind : frame.kind.Fits
  offset : FitsI4 frame.offset

/-- The bytes that `stack_map_table_write` gives for the frames. -/
def framesLength : Option Int → List StackMapFrame → Nat
  | _, [] => 0
  | previous, frame :: rest =>
    (writeFrameBody frame.rawTag (frameDelta previous frame.offset) frame.kind).length +
      framesLength (some frame.offset) rest

/-- What `stack_map_table_parse` keeps of a frame up to the form it is written in. -/
def StackMapFrame.content (frame : StackMapFrame) : Int × FrameKind := (frame.offset, frame.kind)

/-- The distance that was read is the one that is written. -/
theorem frameDelta_frameOffset {previous : Option Int} {delta : Int} (h₀ : 0 ≤ delta) (h₁ : delta ≤ 0xFFFF) :
    frameDelta previous (frameOffset previous delta) = delta := by
  cases previous with
  | none => rfl
  | some p =>
    simp only [frameDelta, frameOffset]
    rw [Int.sub_sub, wrapI4, wrapI4, Int.bmod_sub_bmod, show p + delta + 1 - (p + 1) = delta by omega]
    exact wrapI4_of_fits ⟨by omega, by omega⟩

theorem fitsI4_frameOffset {previous : Option Int} {delta : Int} (h₀ : 0 ≤ delta) (h : delta ≤ 0xFFFF) :
    FitsI4 (frameOffset previous delta) := by
  cases previous with
  | none => constructor <;> simp only [frameOffset] <;> omega
  | some p => exact fitsI4_wrapI4 _

theorem writeFrames_of_delta {previous : Option Int} {frame : StackMapFrame} {rest : List StackMapFrame} {tail : Bytes}
    (h₀ : 0 ≤ frameDelta previous frame.offset) (h₁ : frameDelta previous frame.offset ≤ 0xFFFF)
    (ht : writeFrames (some frame.offset) rest = .ok tail) : writeFrames previous (frame :: rest) =
      .ok (writeFrameBody frame.rawTag (frameDelta previous frame.offset) frame.kind ++ tail) := by
  rw [writeFrames, if_neg (by omega), ht]
  rfl

/-- What the reader of a frame answers: it is written to the bytes it was read from. -/
structure FrameTaken (previous : Option Int) (w : Bytes) (frame : StackMapFrame) : Prop where
  fits : frame.Fits
  nonneg : 0 ≤ frameDelta previous frame.offset
  le : frameDelta previous frame.offset ≤ 0xFFFF
  bytes : w = writeFrameBody frame.rawTag (frameDelta previous frame.offset) frame.kind

theorem takes_readFrame (previous : Option Int) :
    Takes (readFrame previous) fun _ w frame => FrameTaken previous w frame := by
  refine (takes_u1.bind fun tag => (takes_readFrameBody tag).bind fun x => (takes_checkOk _).bind fun _ =>
    Takes.pure _).mono ?_
  rintro n w frame ⟨tag, w₁, w₂, rfl, rfl, x, w₃, w₄, rfl, hx, _, w₅, w₆, rfl, rfl, rfl, rfl⟩
  have hdelta := @frameDelta_frameOffset previous _ hx.nonneg hx.le
  refine ⟨⟨hx.fits, fitsI4_frameOffset hx.nonneg hx.le⟩, ?_, ?_, ?_⟩
  · rw [hdelta]
    exact hx.nonneg
  · rw [hdelta]
    exact hx.le
  · rw [hdelta, ← hx.bytes, List.append_nil, List.append_nil]

/-- Frames that were read are written to the bytes they were read from. -/
theorem takes_readFrames : ∀ (count : Nat) (previous : Option Int), Takes (readFrames count previous) fun _ w frames =>
    frames.length = count ∧ (∀ frame ∈ frames, frame.Fits) ∧ writeFrames previous frames = .ok w
  | 0, previous => (Takes.pure _).mono (by rintro n w frames ⟨rfl, rfl⟩; simp [writeFrames])
  | count + 1, previous => by
    refine ((takes_readFrame previous).bind fun frame => (takes_readFrames count (some frame.offset)).bind fun rest =>
      Takes.pure _).mono ?_
    rintro n w frames ⟨frame, w₁, w₂, rfl, hf, rest, w₃, w₄, rfl, ⟨hl, ha, hw₃⟩, rfl, rfl⟩
    refine ⟨by simp [hl], fun f hmem => ?_, ?_⟩
    · rcases List.mem_cons.mp hmem with rfl | hmem
      · exact hf.fits
      · exact ha f hmem
    · rw [writeFrames_of_delta hf.nonneg hf.le hw₃, List.append_nil, ← hf.bytes]

theorem writeFrames_cons {previous : Option Int} {frame : StackMapFrame} {rest : List StackMapFrame} {w : Bytes}
    (h : writeFrames previous (frame :: rest) = .ok w) :
    0 ≤ frameDelta previous frame.offset ∧ frameDelta previous frame.offset ≤ 0xFFFF ∧
      ∃ tail, writeFrames (some frame.offset) rest = .ok tail ∧
        w = writeFrameBody frame.rawTag (frameDelta previous frame.offset) frame.kind ++ tail := by
  rw [writeFrames] at h
  split at h
  · cases h
  · cases ht : writeFrames (some frame.offset) rest with
    | error e => rw [ht] at h; cases h
    | ok tail =>
      rw [ht] at h
      cases h
      exact ⟨by omega, by omega, tail, rfl, rfl⟩

theorem length_writeFrames : ∀ {frames : List StackMapFrame} {previous : Option Int} {w : Bytes},
    writeFrames previous frames = .ok w → w.length = framesLength previous frames
  | [], previous, w, h => by cases h; rfl
  | frame :: rest, previous, w, h => by
    obtain ⟨-, -, tail, ht, rfl⟩ := writeFrames_cons h
    rw [List.length_append, framesLength, length_writeFrames ht]

/-- What `stack_map_table_parse` gives: frames in the ranges of the format, and the bytes they took. -/
structure FramesRead (length : Nat) (frames : List StackMapFrame) : Prop where
  count : frames.length ≤ classfileMaxCount
  fits : ∀ frame ∈ frames, frame.Fits
  length : framesLength none frames + 2 = length

/-- A table that was read is written to the bytes it was read from. -/
theorem bytes_readStackMapTable : Takes readStackMapTable fun _ w frames => frames.length ≤ classfileMaxCount ∧
    (∀ frame ∈ frames, frame.Fits) ∧ ∃ bytes, writeFrames none frames = .ok bytes ∧
      w = byteBufferU2 (UInt16.ofNat frames.length) ++ bytes := by
  refine (takes_u2.bind fun count => (takes_checkOk _).bind fun _ => takes_readFrames count.toNat none).mono ?_
  rintro n w frames ⟨count, w₁, w₂, rfl, rfl, _, w₃, w₄, rfl, rfl, hl, ha, hw⟩
  refine ⟨by rw [hl]; exact u2_le_maxCount count, ha, w₄, hw, ?_⟩
  rw [ofNat_of_toNat hl, List.nil_append]

theorem takes_readStackMapTable : Takes readStackMapTable fun _ w frames => FramesRead w.length frames := by
  refine bytes_readStackMapTable.mono ?_
  rintro n w frames ⟨hcount, hfits, bytes, hwrite, rfl⟩
  refine ⟨hcount, hfits, ?_⟩
  rw [List.length_append, length_byteBufferU2, length_writeFrames hwrite, Nat.add_comm]

theorem checks_readFrame (previous : Option Int) : Checks (readFrame previous) :=
  Checks.bind fun _ => Checks.bind fun _ => (checks_checkOk _).last

theorem checks_readFrames : ∀ (count : Nat) (previous : Option Int), count ≠ 0 → Checks (readFrames count previous)
  | 0, _, h => absurd rfl h
  | 1, previous, _ => by
    intro s frames s' h
    obtain ⟨frame, s₁, h₁, h₂⟩ := run_bind_ok h
    cases h₂
    exact checks_readFrame previous s frame _ h₁
  | count + 2, previous, _ =>
    Checks.bind fun frame => (checks_readFrames (count + 1) (some frame.offset) (Nat.succ_ne_zero count)).last

theorem checks_readStackMapTable : Checks readStackMapTable := by
  intro c frames c' h
  obtain ⟨count, c₁, _, h₁⟩ := run_bind_ok h
  obtain ⟨_, c₂, hok, h₂⟩ := run_bind_ok h₁
  by_cases hn : count.toNat = 0
  · rw [hn] at h₂
    cases h₂
    exact checks_checkOk _ c₁ () _ hok
  · exact checks_readFrames _ _ hn c₂ frames c' h₂

theorem framesRead_of_parse {attr : AttributeInfo} {frames : List StackMapFrame}
    (h : stackMapTableParse attr = .ok frames) : FramesRead attr.payload.length frames :=
  takes_of_parseAll takes_readStackMapTable checks_readStackMapTable h

/-! ## Writing and reading back -/

theorem frameOffset_frameDelta {previous : Option Int} {offset : Int} (h : FitsI4 offset) :
    frameOffset previous (frameDelta previous offset) = offset := by
  cases previous with
  | none => rfl
  | some p =>
    simp only [frameOffset, frameDelta]
    rw [show p + wrapI4 (offset - p - 1) + 1 = p + 1 + wrapI4 (offset - p - 1) by omega, wrapI4_add_wrapI4,
      show p + 1 + (offset - p - 1) = offset by omega]
    exact wrapI4_of_fits h

/-- Frames that are written are read back with their positions and types. -/
theorem reads_writeFrames : ∀ {frames : List StackMapFrame} {previous : Option Int} {w : Bytes},
    writeFrames previous frames = .ok w → (∀ frame ∈ frames, frame.Fits) → ∀ n,
    ∃ back, Reads (readFrames frames.length previous) n w back ∧
      back.map StackMapFrame.content = frames.map StackMapFrame.content
  | [], previous, w, h, _, n => by
    cases h
    exact ⟨[], Reads.pure _ _, rfl⟩
  | frame :: rest, previous, w, h, hf, n => by
    obtain ⟨h₀, h₁, tail, ht, rfl⟩ := writeFrames_cons h
    have hfit := hf frame List.mem_cons_self
    obtain ⟨tag, body, hbody, hread⟩ := reads_writeFrameBody hfit.kind h₀ h₁ frame.rawTag (n + 1)
    obtain ⟨back, hback, hmap⟩ := reads_writeFrames ht (fun f hmem => hf f (List.mem_cons_of_mem frame hmem))
      (n + (byteBufferU1 tag ++ body).length)
    refine ⟨⟨tag, frame.offset, frame.kind⟩ :: back, ?_, by simp [hmap, StackMapFrame.content]⟩
    have one : Reads (readFrame previous) n (byteBufferU1 tag ++ body) ⟨tag, frame.offset, frame.kind⟩ := by
      refine (reads_u1 tag n).bind (hread.last ((reads_checkOk _ _).skip ?_))
      rw [frameOffset_frameDelta hfit.offset]
      exact Reads.pure _ _
    rw [hbody]
    exact one.bind (hback.last (Reads.pure _ _))

/-- A table that is written is read back with the positions and types of its frames. -/
theorem stackMapTable_write_parse {frames : List StackMapFrame} {nameIndex : UInt16}
    {attr : AttributeInfo} {length : Nat}
    (h : stackMapTableWrite frames nameIndex = .ok attr) (hf : FramesRead length frames) (hl : length < 2 ^ 32) :
    attr.attributeNameIndex = nameIndex ∧ attr.info.length = attr.attributeLength.toNat ∧
      ∃ back, stackMapTableParse attr = .ok back ∧
        back.map StackMapFrame.content = frames.map StackMapFrame.content := by
  rw [stackMapTableWrite] at h
  cases hw : writeFrames none frames with
  | error e => rw [hw] at h; cases h
  | ok w =>
    rw [hw] at h
    cases h
    obtain ⟨back, hback, hmap⟩ := reads_writeFrames hw hf.fits 2
    have hlen := length_writeFrames hw
    have hsize : (byteBufferU2 (UInt16.ofNat frames.length) ++ w).length < 2 ^ 32 := by
      have := hf.length
      rw [List.length_append, length_byteBufferU2]
      omega
    have hall : (UInt32.ofNat (byteBufferU2 (UInt16.ofNat frames.length) ++ w).length).toNat =
        (byteBufferU2 (UInt16.ofNat frames.length) ++ w).length := by
      rw [UInt32.toNat_ofNat', Nat.mod_eq_of_lt hsize]
    refine ⟨rfl, hall.symm, back, ?_, hmap⟩
    refine parseAll_of_reads ?_
    rw [AttributeInfo.payload, attributeInfoOf, hall, List.take_length]
    refine (reads_u2 _ _).bind ((reads_checkOk _ _).skip ?_)
    rw [u2_length hf.count]
    exact hback

end Jni2Hook
