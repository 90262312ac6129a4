import Jni2Hook.ClassFile.RoundTrip
import Jni2Hook.Code.Instruction
import Jni2Hook.Lib.Layout

/-!
# Instructions: what is encoded is decoded

* `Instruction.Encodable`: the operand belongs to the opcode and fits its field. Decoding gives only such nodes
  (`takes_instruction`), and at a position `n` a decoded node took `Instruction.size` bytes.
* `reads_instruction`: the bytes that the encoder gives for an encodable node at `n` are read back as that node.
* `reads_encodeFrom`: a whole list, and the layout that the encoder and the offsets share.

The length that the layout uses is cut in two places (a table switch past the code length limit, a `u4` sum). A list
that was encoded within the limit stays clear of both.
-/

namespace Jni2Hook

open Lib

/-! ## Signed fields -/

/-- Values of an `int8_t`. -/
def FitsI1 (x : Int) : Prop := -2 ^ 7 ≤ x ∧ x < 2 ^ 7

/-- Values of an `int16_t`. -/
def FitsI2 (x : Int) : Prop := -2 ^ 15 ≤ x ∧ x < 2 ^ 15

/-- Values of an `i4`. -/
def FitsI4 (x : Int) : Prop := -2 ^ 31 ≤ x ∧ x < 2 ^ 31

instance (x : Int) : Decidable (FitsI1 x) := inferInstanceAs (Decidable (_ ∧ _))

instance (x : Int) : Decidable (FitsI2 x) := inferInstanceAs (Decidable (_ ∧ _))

instance (x : Int) : Decidable (FitsI4 x) := inferInstanceAs (Decidable (_ ∧ _))

theorem fitsI1_wrapI1 (x : Int) : FitsI1 (wrapI1 x) := by
  have h₁ := @Int.le_bmod x (2 ^ 8) (by decide)
  have h₂ := @Int.bmod_lt x (2 ^ 8) (by decide)
  constructor <;> unfold wrapI1 <;> omega

theorem fitsI2_wrapI2 (x : Int) : FitsI2 (wrapI2 x) := by
  have h₁ := @Int.le_bmod x (2 ^ 16) (by decide)
  have h₂ := @Int.bmod_lt x (2 ^ 16) (by decide)
  constructor <;> unfold wrapI2 <;> omega

theorem fitsI4_wrapI4 (x : Int) : FitsI4 (wrapI4 x) := by
  have h₁ := @Int.le_bmod x (2 ^ 32) (by decide)
  have h₂ := @Int.bmod_lt x (2 ^ 32) (by decide)
  constructor <;> unfold wrapI4 <;> omega

theorem wrapI1_of_fits {x : Int} (h : FitsI1 x) : wrapI1 x = x := by
  obtain ⟨h₁, h₂⟩ := h
  exact Int.bmod_eq_of_le (by omega) (by omega)

theorem wrapI2_of_fits {x : Int} (h : FitsI2 x) : wrapI2 x = x := by
  obtain ⟨h₁, h₂⟩ := h
  exact Int.bmod_eq_of_le (by omega) (by omega)

theorem wrapI4_of_fits {x : Int} (h : FitsI4 x) : wrapI4 x = x := by
  obtain ⟨h₁, h₂⟩ := h
  exact Int.bmod_eq_of_le (by omega) (by omega)

theorem toNat_u1OfInt (x : Int) : ((u1OfInt x).toNat : Int) = x % 2 ^ 8 := by
  rw [u1OfInt, UInt8.toNat_ofNat']
  omega

theorem toNat_u2OfInt (x : Int) : ((u2OfInt x).toNat : Int) = x % 2 ^ 16 := by
  rw [u2OfInt, UInt16.toNat_ofNat']
  omega

theorem toNat_u4OfInt (x : Int) : ((u4OfInt x).toNat : Int) = x % 2 ^ 32 := by
  rw [u4OfInt, UInt32.toNat_ofNat']
  omega

theorem toNat_u2OfInt_of_fits {x : Int} (h₀ : 0 ≤ x) (h : x ≤ 0xFFFF) : ((u2OfInt x).toNat : Int) = x := by
  rw [toNat_u2OfInt]
  omega

theorem u2OfInt_natCast (v : UInt16) : u2OfInt v.toNat = v := by
  have := v.toNat_lt
  apply UInt16.toNat_inj.mp
  have := toNat_u2OfInt (v.toNat : Int)
  omega

theorem wrapI1_u1OfInt (x : Int) : wrapI1 (u1OfInt x).toNat = wrapI1 x := by
  rw [toNat_u1OfInt]
  exact Int.emod_bmod x (2 ^ 8)

theorem wrapI2_u2OfInt (x : Int) : wrapI2 (u2OfInt x).toNat = wrapI2 x := by
  rw [toNat_u2OfInt]
  exact Int.emod_bmod x (2 ^ 16)

theorem wrapI4_u4OfInt (x : Int) : wrapI4 (u4OfInt x).toNat = wrapI4 x := by
  rw [toNat_u4OfInt]
  exact Int.emod_bmod x (2 ^ 32)

theorem wrapI4_add_wrapI4 (x y : Int) : wrapI4 (x + wrapI4 y) = wrapI4 (x + y) := Int.add_bmod_bmod

theorem u4_of_lt {n : Nat} (h : n < 2 ^ 32) : u4 n = n := Nat.mod_eq_of_lt h

/-! ## Encodable nodes -/

/-- The values of an operand fit the fields they are encoded in. -/
def Operand.Fits (opcode : UInt8) (wide : Bool) : Operand → Prop
  | .immediate value => if opcode = Opc.sipush then FitsI2 value else FitsI1 value
  | .local_ index => wide = true ∨ index.toNat < 2 ^ 8
  | .iinc index value => if wide = true then FitsI2 value else index.toNat < 2 ^ 8 ∧ FitsI1 value
  | .constant index => opcode ≠ Opc.ldc ∨ index.toNat < 2 ^ 8
  | .branch target | .branchWide target => FitsI4 target
  | .tableSwitch defaultTarget low high targets =>
    FitsI4 defaultTarget ∧ FitsI4 low ∧ FitsI4 high ∧ low ≤ high ∧ (targets.length : Int) = high - low + 1 ∧
      ∀ t ∈ targets, FitsI4 t
  | .lookupSwitch defaultTarget pairs =>
    FitsI4 defaultTarget ∧ pairs.length < 2 ^ 31 ∧ ∀ p ∈ pairs, FitsI4 p.matchValue ∧ FitsI4 p.target
  | .none | .cpIndex _ | .invokeInterface .. | .invokeDynamic .. | .multianewarray .. => True

instance (opcode : UInt8) (wide : Bool) (operand : Operand) : Decidable (operand.Fits opcode wide) := by
  cases operand <;> unfold Operand.Fits <;> infer_instance

/-- Nodes that have an encoding: a defined opcode, an operand of its kind that fits, `wide` only where it may stand. -/
structure Instruction.Encodable (node : Instruction) : Prop where
  defined : instructionOpcodeIsDefined node.opcode = true
  notWide : node.opcode ≠ Opc.wide
  kind : node.operand.kind = instructionKindOf node.opcode
  widenable : node.wide = true → kindIsWidenable (instructionKindOf node.opcode) = true
  fits : node.operand.Fits node.opcode node.wide

/-- What the length table says, by kind. -/
def kindLength (opcode : UInt8) : OperandKind → Nat
  | .none => 1
  | .immediate => if opcode = Opc.sipush then 3 else 2
  | .local_ => 2
  | .constant => if opcode = Opc.ldc then 2 else 3
  | .iinc | .cpIndex | .branch => 3
  | .multianewarray => 4
  | .invokeInterface | .invokeDynamic | .branchWide => 5
  | .tableSwitch | .lookupSwitch => 99

theorem opcodeLengths_eq_kindLength {opcode : UInt8} (hd : instructionOpcodeIsDefined opcode = true)
    (hw : opcode ≠ Opc.wide) : opcodeLengths.getD opcode.toNat 1 = kindLength opcode (instructionKindOf opcode) := by
  have table : ∀ k < 256, instructionOpcodeIsDefined (UInt8.ofNat k) = true → UInt8.ofNat k ≠ Opc.wide →
      opcodeLengths.getD k 1 = kindLength (UInt8.ofNat k) (instructionKindOf (UInt8.ofNat k)) := by
    decide +kernel
  have := table opcode.toNat opcode.toNat_lt
  rw [UInt8.ofNat_toNat] at this
  exact this hd hw

/-- The bytes of an operand at position `m`, with no limit on a switch. -/
def Operand.size (opcode : UInt8) (wide : Bool) (m : Nat) : Operand → Nat
  | .local_ _ => if wide = true then 2 else 1
  | .iinc _ _ => if wide = true then 4 else 2
  | .tableSwitch _ _ _ targets => (4 - m % 4) % 4 + 12 + targets.length * 4
  | .lookupSwitch _ pairs => (4 - m % 4) % 4 + 8 + pairs.length * 8
  | operand => kindLength opcode operand.kind - 1

/-- The bytes of a node at position `n`. -/
def Instruction.size (node : Instruction) (n : Nat) : Nat :=
  (encodeOpcode node).length + node.operand.size node.opcode node.wide (n + (encodeOpcode node).length)

theorem length_encodeOpcode (node : Instruction) : (encodeOpcode node).length = if node.wide = true then 2 else 1 := by
  unfold encodeOpcode
  split <;> rfl

theorem Instruction.size_pos (node : Instruction) (n : Nat) : 0 < node.size n := by
  have := length_encodeOpcode node
  unfold Instruction.size
  split at this <;> omega

theorem kindLength_pos (opcode : UInt8) (kind : OperandKind) : 0 < kindLength opcode kind := by
  cases kind <;> simp only [kindLength] <;> first | omega | (split <;> omega)

/-- Only local variable accesses are widened. -/
theorem Instruction.Encodable.not_wide {node : Instruction} (h : node.Encodable)
    (hk : kindIsWidenable node.operand.kind = false) : node.wide = false := by
  rw [h.kind] at hk
  by_contra hw
  rw [h.widenable (by simpa using hw)] at hk
  cases hk

/-- Within the limit the layout uses the real size. -/
theorem Instruction.Encodable.lengthAt_eq {node : Instruction} (h : node.Encodable) {n : Nat}
    (hs : node.size n ≤ jvmMaxCodeLength) : instructionLengthAt node n = node.size n := by
  have ht := opcodeLengths_eq_kindLength h.defined h.notWide
  have hp := kindLength_pos node.opcode (instructionKindOf node.opcode)
  have hd := h.defined
  have hw := h.not_wide
  have hf := h.fits
  have hl := length_encodeOpcode node
  rw [← h.kind] at ht hp
  unfold jvmMaxCodeLength at hs
  unfold Instruction.size at hs ⊢
  obtain ⟨offset, opcode, wide, operand⟩ := node
  cases operand with
  | local_ index => rw [hl]; cases wide <;> rfl
  | iinc index value => rw [hl]; cases wide <;> rfl
  | tableSwitch defaultTarget low high targets =>
    obtain rfl : wide = false := hw rfl
    obtain ⟨-, -, -, hle, hlen, -⟩ := hf
    rw [hl] at hs ⊢
    simp only [Operand.size, instructionLengthAt, instructionSwitchEntries, switchPadding] at hs ⊢
    have entries : (if high < low then 0 else if high - low + 1 > (jvmMaxCodeLength : Int) then jvmMaxCodeLength
        else (high - low + 1).toNat) = targets.length := by
      unfold jvmMaxCodeLength
      rw [if_neg (by omega), if_neg (by simp at hs; omega)]
      omega
    rw [entries, u4_of_lt (by simp at hs; omega)]
    simp only [Bool.false_eq_true, if_false]
    omega
  | lookupSwitch defaultTarget pairs =>
    obtain rfl : wide = false := hw rfl
    rw [hl] at hs ⊢
    simp only [Operand.size, instructionLengthAt, instructionSwitchEntries, switchPadding] at hs ⊢
    rw [u4_of_lt (by simp at hs; omega)]
    simp only [Bool.false_eq_true, if_false]
    omega
  | _ =>
    obtain rfl : wide = false := hw rfl
    rw [hl]
    simp only [Operand.size, instructionLengthAt]
    rw [if_pos hd, ht]
    exact (Nat.add_sub_cancel' hp).symm

/-! ## Fields of an operand -/

theorem reads_readI4 {x : Int} (h : FitsI4 x) (n : Nat) : Reads readI4 n (byteBufferU4 (u4OfInt x)) x := by
  refine (reads_u4 _ _).last ?_
  rw [wrapI4_u4OfInt, wrapI4_of_fits h]
  exact Reads.pure _ _

theorem reads_readI2 {x : Int} (h : FitsI2 x) (n : Nat) : Reads readI2 n (byteBufferU2 (u2OfInt x)) x := by
  refine (reads_u2 _ _).last ?_
  rw [wrapI2_u2OfInt, wrapI2_of_fits h]
  exact Reads.pure _ _

theorem reads_readI1 {x : Int} (h : FitsI1 x) (n : Nat) : Reads readI1 n (byteBufferU1 (u1OfInt x)) x := by
  refine (reads_u1 _ _).last ?_
  rw [wrapI1_u1OfInt, wrapI1_of_fits h]
  exact Reads.pure _ _

theorem reads_readWidened {index : UInt16} (h : index.toNat < 2 ^ 8) (n : Nat) :
    Reads readWidened n (byteBufferU1 index.toUInt8) index := by
  have back : index.toUInt8.toUInt16 = index := by
    apply UInt16.toNat_inj.mp
    simp only [UInt8.toNat_toUInt16, UInt16.toNat_toUInt8]
    omega
  refine (reads_u1 _ _).last ?_
  rw [back]
  exact Reads.pure _ _

/-- A target is stored as its distance from the instruction. -/
theorem reads_readTarget4 {target : Int} (h : FitsI4 target) (offset n : Nat) :
    Reads (readTarget4 offset) n (byteBufferU4 (u4OfInt (target - offset))) target := by
  refine ((reads_u4 _ _).last (Reads.pure _ _) : Reads readI4 n _ _).last ?_
  rw [wrapI4_u4OfInt, wrapI4_add_wrapI4, show (offset : Int) + (target - offset) = target by omega, wrapI4_of_fits h]
  exact Reads.pure _ _

theorem reads_readSwitchPair {p : SwitchPair} (h : FitsI4 p.matchValue ∧ FitsI4 p.target) (offset n : Nat) :
    Reads (readSwitchPair offset) n (byteBufferU4 (u4OfInt p.matchValue) ++ byteBufferU4 (u4OfInt (p.target - offset)))
      p :=
  (reads_readI4 h.1 _).bind ((reads_readTarget4 h.2 offset _).last (Reads.pure _ _))

theorem takes_readI4 : Takes readI4 fun _ w x => w.length = 4 ∧ FitsI4 x := by
  refine (takes_u4.bind fun v => Takes.pure (wrapI4 v.toNat)).mono ?_
  rintro n w x ⟨v, w₁, w₂, rfl, rfl, rfl, hx⟩
  exact ⟨by simp, hx ▸ fitsI4_wrapI4 _⟩

theorem takes_readI2 : Takes readI2 fun _ w x => w.length = 2 ∧ FitsI2 x := by
  refine (takes_u2.bind fun v => Takes.pure (wrapI2 v.toNat)).mono ?_
  rintro n w x ⟨v, w₁, w₂, rfl, rfl, rfl, hx⟩
  exact ⟨by simp, hx ▸ fitsI2_wrapI2 _⟩

theorem takes_readI1 : Takes readI1 fun _ w x => w.length = 1 ∧ FitsI1 x := by
  refine (takes_u1.bind fun v => Takes.pure (wrapI1 v.toNat)).mono ?_
  rintro n w x ⟨v, w₁, w₂, rfl, rfl, rfl, hx⟩
  exact ⟨by simp, hx ▸ fitsI1_wrapI1 _⟩

theorem takes_readWidened : Takes readWidened fun _ w index => w.length = 1 ∧ index.toNat < 2 ^ 8 := by
  refine (takes_u1.bind fun v => Takes.pure _).mono ?_
  rintro n w x ⟨v, w₁, w₂, rfl, rfl, rfl, rfl⟩
  exact ⟨by simp, by rw [UInt8.toNat_toUInt16]; exact v.toNat_lt⟩

theorem takes_readTarget4 (offset : Nat) : Takes (readTarget4 offset) fun _ w x => w.length = 4 ∧ FitsI4 x := by
  refine (takes_readI4.bind fun v => Takes.pure _).mono ?_
  rintro n w x ⟨v, w₁, w₂, rfl, ⟨hw, -⟩, rfl, hx⟩
  exact ⟨by simp [hw], hx ▸ fitsI4_wrapI4 _⟩

theorem takes_readSwitchPair (offset : Nat) :
    Takes (readSwitchPair offset) fun _ w p => w.length = 8 ∧ FitsI4 p.matchValue ∧ FitsI4 p.target := by
  refine (takes_readI4.bind fun m => (takes_readTarget4 offset).bind fun t => Takes.pure _).mono ?_
  rintro n w x ⟨m, w₁, w₂, rfl, ⟨hw₁, hm⟩, t, w₃, w₄, rfl, ⟨hw₃, ht⟩, rfl, rfl⟩
  exact ⟨by simp [hw₁, hw₃], hm, ht⟩

/-! ## Switches -/

theorem reads_skipPadding : ∀ {fuel n : Nat} {w : Bytes}, w.length = (4 - n % 4) % 4 → w.length ≤ fuel →
    Reads (skipPadding fuel) n w ()
  | 0, n, w, _, h => by
    obtain rfl : w = [] := List.length_eq_zero_iff.mp (by omega)
    exact Reads.pure _ _
  | fuel + 1, n, w, hw, h => by
    refine (reads_offset n).skip ((reads_ok n).skip ?_)
    match w, hw, h with
    | [], hw, _ =>
      rw [if_neg (by simp at hw; omega)]
      exact Reads.pure _ _
    | b :: w, hw, h =>
      rw [List.length_cons] at hw h
      rw [if_pos ⟨by omega, rfl⟩]
      exact (reads_u1 b n).bind (reads_skipPadding (by rw [length_byteBufferU1]; omega) (by omega))

theorem takes_skipPadding : ∀ fuel, Takes (skipPadding fuel) fun n w _ => w.length = min fuel ((4 - n % 4) % 4)
  | 0 => (Takes.pure _).mono (by rintro n w a ⟨rfl, -⟩; simp)
  | fuel + 1 => by
    refine (takes_offset.bind fun at_ => takes_ok.bind (H := fun ok n w _ => at_ = n → ok = true →
      w.length = min (fuel + 1) ((4 - n % 4) % 4)) fun ok => ?_).mono ?_
    · refine Takes.ite (fun h => ?_) (fun h => ?_)
      · refine (takes_u1.bind fun v => takes_skipPadding fuel).mono ?_
        rintro n w a ⟨v, w₁, w₂, rfl, rfl, hw⟩ rfl rfl
        rw [length_byteBufferU1] at hw
        rw [List.length_append, hw, length_byteBufferU1]
        have := h.1
        omega
      · refine (Takes.pure _).mono ?_
        rintro n w a ⟨rfl, -⟩ rfl rfl
        have : at_ % 4 = 0 := by
          by_contra hne
          exact h ⟨hne, rfl⟩
        simp [this]
    · rintro n w a ⟨at_, w₁, w₂, rfl, ⟨rfl, rfl⟩, ok, w₃, w₄, rfl, ⟨rfl, rfl⟩, h⟩
      simpa using h rfl rfl

theorem reads_readTableSwitch {defaultTarget low high : Int} {targets : List Int} {opcode : UInt8} {wide : Bool}
    (h : (Operand.tableSwitch defaultTarget low high targets).Fits opcode wide) (offset m : Nat) :
    Reads (readTableSwitch offset) m
      (List.replicate ((4 - m % 4) % 4) 0 ++ (byteBufferU4 (u4OfInt (defaultTarget - offset)) ++
        (byteBufferU4 (u4OfInt low) ++ (byteBufferU4 (u4OfInt high) ++
          targets.flatMap fun t => byteBufferU4 (u4OfInt (t - offset))))))
      (.tableSwitch defaultTarget low high targets) := by
  obtain ⟨hd, hlow, hhigh, hle, hlen, ht⟩ := h
  have width : (targets.flatMap fun t => byteBufferU4 (u4OfInt (t - offset))).length = targets.length * 4 := by
    simp [List.length_flatMap]
  refine (reads_skipPadding (by simp) (by simp; omega)).bind ((reads_readTarget4 hd offset _).bind ?_)
  refine (reads_readI4 hlow _).bind ((reads_readI4 hhigh _).bind ((reads_checkOk _ _).skip ?_))
  rw [if_neg (by omega)]
  refine reads_remaining fun k hk => ?_
  rw [if_neg (by rw [width] at hk; omega), show (high - low + 1).toNat = targets.length by omega]
  exact (Reads.many fun t hmem n => reads_readTarget4 (ht t hmem) offset n).last (Reads.pure _ _)

theorem reads_readLookupSwitch {defaultTarget : Int} {pairs : List SwitchPair} {opcode : UInt8} {wide : Bool}
    (h : (Operand.lookupSwitch defaultTarget pairs).Fits opcode wide) (offset m : Nat) :
    Reads (readLookupSwitch offset) m
      (List.replicate ((4 - m % 4) % 4) 0 ++ (byteBufferU4 (u4OfInt (defaultTarget - offset)) ++
        (byteBufferU4 (u4OfInt pairs.length) ++
          pairs.flatMap fun p => byteBufferU4 (u4OfInt p.matchValue) ++ byteBufferU4 (u4OfInt (p.target - offset)))))
      (.lookupSwitch defaultTarget pairs) := by
  obtain ⟨hd, hlen, hp⟩ := h
  have width : (pairs.flatMap fun p =>
      byteBufferU4 (u4OfInt p.matchValue) ++ byteBufferU4 (u4OfInt (p.target - offset))).length = pairs.length * 8 := by
    simp [List.length_flatMap]
  have count : FitsI4 (pairs.length : Int) := by constructor <;> omega
  refine (reads_skipPadding (by simp) (by simp; omega)).bind ((reads_readTarget4 hd offset _).bind ?_)
  refine (reads_readI4 count _).bind ((reads_checkOk _ _).skip ?_)
  rw [if_neg (by omega)]
  refine reads_remaining fun k hk => ?_
  rw [if_neg (by rw [width] at hk; omega), Int.toNat_natCast]
  exact (Reads.many fun p hmem n => reads_readSwitchPair (hp p hmem) offset n).last (Reads.pure _ _)

/-- What the reader of an operand at `m` answers. -/
structure OperandRead (opcode : UInt8) (wide : Bool) (m : Nat) (w : Bytes) (operand : Operand) : Prop where
  kind : operand.kind = instructionKindOf opcode
  fits : operand.Fits opcode wide
  length : w.length = operand.size opcode wide m

theorem takes_readTableSwitch (offset : Nat) {opcode : UInt8} (wide : Bool)
    (hk : instructionKindOf opcode = .tableSwitch) : Takes (readTableSwitch offset) (OperandRead opcode wide) := by
  refine ((takes_skipPadding 3).bind fun _ => (takes_readTarget4 offset).bind fun d => takes_readI4.bind fun low =>
    takes_readI4.bind fun high => (takes_checkOk _).bind (H := fun _ _ w o => ∃ targets,
      o = Operand.tableSwitch d low high targets ∧ low ≤ high ∧ (targets.length : Int) = high - low + 1 ∧
        (∀ t ∈ targets, FitsI4 t) ∧ w.length = targets.length * 4) fun _ => ?_).mono ?_
  · refine Takes.ite (fun _ => Takes.throw _ _) fun hle => ?_
    refine (takes_remaining.bind fun k => Takes.ite (fun _ => Takes.throw _ _) fun _ =>
      (((takes_readTarget4 offset).many_width _).bind fun targets => Takes.pure _)).mono ?_
    rintro n w o ⟨k, w₁, w₂, rfl, rfl, targets, w₃, w₄, rfl, ⟨hw, hlen, ht⟩, rfl, rfl⟩
    exact ⟨targets, rfl, by omega, by omega, ht, by simp [hw, hlen]⟩
  · rintro m w o ⟨_, w₁, w₂, rfl, hw₁, d, w₃, w₄, rfl, ⟨hw₃, hd⟩, low, w₅, w₆, rfl, ⟨hw₅, hlow⟩, high, w₇, w₈, rfl,
      ⟨hw₇, hhigh⟩, _, w₉, w₁₀, rfl, rfl, targets, rfl, hle, hlen, ht, hw⟩
    refine ⟨hk.symm, ⟨hd, hlow, hhigh, hle, hlen, ht⟩, ?_⟩
    simp only [List.length_append, List.length_nil, Operand.size]
    omega

theorem takes_readLookupSwitch (offset : Nat) {opcode : UInt8} (wide : Bool)
    (hk : instructionKindOf opcode = .lookupSwitch) : Takes (readLookupSwitch offset) (OperandRead opcode wide) := by
  refine ((takes_skipPadding 3).bind fun _ => (takes_readTarget4 offset).bind fun d => takes_readI4.bind fun count =>
    (takes_checkOk _).bind (H := fun _ _ w o => ∃ pairs,
      o = Operand.lookupSwitch d pairs ∧ 0 ≤ count ∧ (pairs.length : Int) = count ∧
        (∀ p ∈ pairs, FitsI4 p.matchValue ∧ FitsI4 p.target) ∧ w.length = pairs.length * 8) fun _ => ?_).mono ?_
  · refine Takes.ite (fun _ => Takes.throw _ _) fun hle => ?_
    refine (takes_remaining.bind fun k => Takes.ite (fun _ => Takes.throw _ _) fun _ =>
      (((takes_readSwitchPair offset).many_width _).bind fun pairs => Takes.pure _)).mono ?_
    rintro n w o ⟨k, w₁, w₂, rfl, rfl, pairs, w₃, w₄, rfl, ⟨hw, hlen, hp⟩, rfl, rfl⟩
    exact ⟨pairs, rfl, by omega, by omega, hp, by simp [hw, hlen]⟩
  · rintro m w o ⟨_, w₁, w₂, rfl, hw₁, d, w₃, w₄, rfl, ⟨hw₃, hd⟩, count, w₅, w₆, rfl, ⟨hw₅, hcount⟩, _, w₉, w₁₀, rfl,
      rfl, pairs, rfl, hle, hlen, hp, hw⟩
    refine ⟨hk.symm, ⟨hd, by have := hcount.2; omega, hp⟩, ?_⟩
    simp only [List.length_append, List.length_nil, Operand.size]
    omega

/-! ## Operands -/

/-- An operand that is one field. -/
theorem takes_oneField {α : Type} {p : Parse α} {opcode : UInt8} {wide : Bool} {width : Nat} {P : α → Prop}
    {f : α → Operand} (hp : Takes p fun _ w a => w.length = width ∧ P a)
    (hf : ∀ m w a, w.length = width → P a → OperandRead opcode wide m w (f a)) :
    Takes (p >>= fun a => pure (f a)) (OperandRead opcode wide) := by
  refine (hp.bind fun a => Takes.pure (f a)).mono ?_
  rintro m w o ⟨a, w₁, w₂, rfl, ⟨hw, ha⟩, rfl, rfl⟩
  exact hf m _ a (by simpa using hw) ha

theorem takes_u1_width : Takes byteCursorU1 fun _ w _ => w.length = 1 ∧ True :=
  takes_u1.mono (by rintro n w a rfl; exact ⟨rfl, trivial⟩)

theorem takes_u2_width : Takes byteCursorU2 fun _ w _ => w.length = 2 ∧ True :=
  takes_u2.mono (by rintro n w a rfl; exact ⟨rfl, trivial⟩)

theorem takes_readOperand (offset : Nat) (opcode : UInt8) (wide : Bool) :
    Takes (readOperand offset opcode wide) (OperandRead opcode wide) := by
  unfold readOperand
  cases hk : instructionKindOf opcode with
  | none =>
    refine (Takes.pure _).mono ?_
    rintro m w o ⟨rfl, rfl⟩
    exact ⟨hk.symm, trivial, by simp [Operand.size, Operand.kind, kindLength]⟩
  | immediate =>
    refine Takes.ite (fun hs => ?_) (fun hs => ?_)
    · exact takes_oneField takes_readI2 fun m w a hw ha => ⟨hk.symm, by simp [Operand.Fits, hs, ha], by
        simp [Operand.size, Operand.kind, kindLength, hs, hw]⟩
    · exact takes_oneField takes_readI1 fun m w a hw ha => ⟨hk.symm, by simp [Operand.Fits, hs, ha], by
        simp [Operand.size, Operand.kind, kindLength, hs, hw]⟩
  | local_ =>
    refine Takes.ite (fun hs => ?_) (fun hs => ?_)
    · exact takes_oneField takes_u2_width fun m w a hw _ => ⟨hk.symm, Or.inl hs, by simp [Operand.size, hs, hw]⟩
    · exact takes_oneField takes_readWidened fun m w a hw ha => ⟨hk.symm, Or.inr ha, by simp [Operand.size, hs, hw]⟩
  | iinc =>
    refine Takes.ite (fun hs => ?_) (fun hs => ?_)
    · refine (takes_u2_width.bind fun i => takes_readI2.bind fun c => Takes.pure _).mono ?_
      rintro m w o ⟨i, w₁, w₂, rfl, ⟨hw₁, -⟩, c, w₃, w₄, rfl, ⟨hw₃, hc⟩, rfl, rfl⟩
      exact ⟨hk.symm, by simp [Operand.Fits, hs, hc], by simp [Operand.size, hs, hw₁, hw₃]⟩
    · refine (takes_readWidened.bind fun i => takes_readI1.bind fun c => Takes.pure _).mono ?_
      rintro m w o ⟨i, w₁, w₂, rfl, ⟨hw₁, hi⟩, c, w₃, w₄, rfl, ⟨hw₃, hc⟩, rfl, rfl⟩
      exact ⟨hk.symm, by simp [Operand.Fits, hs, hc]; omega, by simp [Operand.size, hs, hw₁, hw₃]⟩
  | constant =>
    refine Takes.ite (fun hs => ?_) (fun hs => ?_)
    · exact takes_oneField takes_readWidened fun m w a hw ha => ⟨hk.symm, Or.inr ha, by
        simp [Operand.size, Operand.kind, kindLength, hs, hw]⟩
    · exact takes_oneField takes_u2_width fun m w a hw _ => ⟨hk.symm, Or.inl hs, by
        simp [Operand.size, Operand.kind, kindLength, hs, hw]⟩
  | cpIndex => exact takes_oneField takes_u2_width fun m w a hw _ => ⟨hk.symm, trivial, hw⟩
  | invokeInterface =>
    refine (takes_u2_width.bind fun i => takes_u1_width.bind fun c => takes_u1_width.bind fun z => Takes.pure _).mono ?_
    rintro m w o ⟨i, w₁, w₂, rfl, ⟨hw₁, -⟩, c, w₃, w₄, rfl, ⟨hw₃, -⟩, z, w₅, w₆, rfl, ⟨hw₅, -⟩, rfl, rfl⟩
    exact ⟨hk.symm, trivial, by simp [Operand.size, Operand.kind, kindLength, hw₁, hw₃, hw₅]⟩
  | invokeDynamic =>
    refine (takes_u2_width.bind fun i => takes_u2_width.bind fun z => Takes.pure _).mono ?_
    rintro m w o ⟨i, w₁, w₂, rfl, ⟨hw₁, -⟩, z, w₃, w₄, rfl, ⟨hw₃, -⟩, rfl, rfl⟩
    exact ⟨hk.symm, trivial, by simp [Operand.size, Operand.kind, kindLength, hw₁, hw₃]⟩
  | multianewarray =>
    refine (takes_u2_width.bind fun i => takes_u1_width.bind fun d => Takes.pure _).mono ?_
    rintro m w o ⟨i, w₁, w₂, rfl, ⟨hw₁, -⟩, d, w₃, w₄, rfl, ⟨hw₃, -⟩, rfl, rfl⟩
    exact ⟨hk.symm, trivial, by simp [Operand.size, Operand.kind, kindLength, hw₁, hw₃]⟩
  | branch => exact takes_oneField takes_readI2 fun m w a hw _ => ⟨hk.symm, fitsI4_wrapI4 _, hw⟩
  | branchWide => exact takes_oneField (takes_readTarget4 offset) fun m w a hw ha => ⟨hk.symm, ha, hw⟩
  | tableSwitch => exact takes_readTableSwitch offset wide hk
  | lookupSwitch => exact takes_readLookupSwitch offset wide hk

theorem reads_readOperand {node : Instruction} (h : node.Encodable) {offset m : Nat} {w : Bytes}
    (he : encodeOperand offset m node = .ok w) (hw : w.length ≤ jvmMaxCodeLength) :
    Reads (readOperand offset node.opcode node.wide) m w node.operand := by
  have hk := h.kind
  have hf := h.fits
  have narrow := h.not_wide
  obtain ⟨o, opcode, wide, operand⟩ := node
  unfold readOperand
  simp only at hk hf narrow he ⊢
  rw [← hk]
  cases operand with
  | none => cases he; exact Reads.pure _ _
  | immediate value =>
    cases he
    simp only [Operand.kind, Operand.Fits] at hf ⊢
    by_cases hs : opcode = Opc.sipush
    · rw [if_pos hs] at hf
      rw [if_pos hs, if_pos hs]
      exact (reads_readI2 hf _).last (Reads.pure _ _)
    · rw [if_neg hs] at hf
      rw [if_neg hs, if_neg hs]
      exact (reads_readI1 hf _).last (Reads.pure _ _)
  | local_ index =>
    cases he
    simp only [Operand.kind, Operand.Fits] at hf ⊢
    split
    · exact (reads_u2 _ _).last (Reads.pure _ _)
    · exact (reads_readWidened (hf.resolve_left ‹_›) _).last (Reads.pure _ _)
  | iinc index value =>
    cases he
    simp only [Operand.kind, Operand.Fits] at hf ⊢
    cases wide with
    | true => exact (reads_u2 _ _).bind ((reads_readI2 hf _).last (Reads.pure _ _))
    | false => exact (reads_readWidened hf.1 _).bind ((reads_readI1 hf.2 _).last (Reads.pure _ _))
  | constant index =>
    cases he
    simp only [Operand.kind, Operand.Fits] at hf ⊢
    split
    · exact (reads_readWidened (hf.resolve_left (not_not.mpr ‹_›)) _).last (Reads.pure _ _)
    · exact (reads_u2 _ _).last (Reads.pure _ _)
  | cpIndex index => cases he; exact (reads_u2 _ _).last (Reads.pure _ _)
  | invokeInterface index count zero =>
    cases he
    exact (reads_u2 _ _).bind ((reads_u1 _ _).bind ((reads_u1 _ _).last (Reads.pure _ _)))
  | invokeDynamic index zero => cases he; exact (reads_u2 _ _).bind ((reads_u2 _ _).last (Reads.pure _ _))
  | multianewarray index dimensions => cases he; exact (reads_u2 _ _).bind ((reads_u1 _ _).last (Reads.pure _ _))
  | branch target =>
    simp only [encodeOperand] at he
    split at he
    · cases he
    · cases he
      have delta : FitsI2 (target - offset) := by constructor <;> omega
      refine (reads_readI2 delta _).last ?_
      rw [show (offset : Int) + (target - offset) = target by omega, wrapI4_of_fits hf]
      exact Reads.pure _ _
  | branchWide target =>
    simp only [encodeOperand] at he
    split at he
    · cases he
    · cases he
      exact (reads_readTarget4 hf offset _).last (Reads.pure _ _)
  | tableSwitch defaultTarget low high targets =>
    cases he
    have all : targets.take (instructionSwitchEntries (.tableSwitch defaultTarget low high targets)) = targets := by
      obtain ⟨-, -, -, hle, hlen, -⟩ := hf
      have width (entries : Nat) : ((targets.take entries).flatMap fun t =>
          byteBufferU4 (u4OfInt (t - offset))).length = (targets.take entries).length * 4 := by
        simp [List.length_flatMap]
      apply List.take_of_length_le
      simp only [List.length_append, width, List.length_take, instructionSwitchEntries, if_neg (Int.not_lt.mpr hle)]
        at hw ⊢
      unfold jvmMaxCodeLength at *
      split at hw
      · omega
      · rw [if_neg ‹_›]
        omega
    simp only [all]
    exact @reads_readTableSwitch _ _ _ _ opcode wide hf offset m
  | lookupSwitch defaultTarget pairs =>
    cases he
    exact @reads_readLookupSwitch _ _ opcode wide hf offset m

/-! ## One instruction -/

theorem takes_readOpcode : Takes readOpcode fun _ w x => w.length = if x.2 = true then 2 else 1 := by
  refine (takes_u1_width.bind (H := fun _ _ w x => w.length + 1 = if x.2 = true then 2 else 1) fun first => ?_).mono ?_
  · refine Takes.ite (fun _ => ?_) (fun _ => ?_)
    · refine (takes_u1_width.bind fun opcode => Takes.pure _).mono ?_
      rintro n w x ⟨opcode, w₁, w₂, rfl, ⟨hw, -⟩, rfl, rfl⟩
      simp [hw]
    · refine (Takes.pure _).mono ?_
      rintro n w x ⟨rfl, rfl⟩
      rfl
  · rintro n w x ⟨first, w₁, w₂, rfl, ⟨hw, -⟩, h⟩
    rw [List.length_append, hw, Nat.add_comm]
    exact h

theorem reads_readOpcode {node : Instruction} (h : node.opcode ≠ Opc.wide) (n : Nat) :
    Reads readOpcode n (encodeOpcode node) (node.opcode, node.wide) := by
  obtain ⟨offset, opcode, wide, operand⟩ := node
  cases wide with
  | true =>
    have second : Reads (do return (← byteCursorU1, true)) (n + 1) [opcode] (opcode, true) :=
      (reads_u1 opcode _).last (Reads.pure _ _)
    refine (reads_u1 Opc.wide n).bind ?_
    rw [if_pos rfl]
    exact second
  | false =>
    refine (reads_u1 opcode n).last ?_
    rw [if_neg h]
    exact Reads.pure _ _

/-- What the reader of an instruction at `n` answers. -/
structure InstructionRead (n : Nat) (w : Bytes) (node : Instruction) : Prop where
  offset : node.offset = n
  encodable : node.Encodable
  length : w.length = node.size n

theorem takes_readInstruction : Takes readInstruction InstructionRead := by
  refine (takes_offset.bind fun offset => takes_readOpcode.bind (H := fun x m w node => node.offset = offset ∧
    node.Encodable ∧ node.wide = x.2 ∧ w.length = node.operand.size node.opcode node.wide m) fun x => ?_).mono ?_
  · obtain ⟨opcode, wide⟩ := x
    refine Takes.ite (fun _ => ?_) (fun hd => Takes.ite (fun _ => Takes.throw _ _) fun hw => ?_)
    · exact ((takes_checkOk _).bind fun _ => Takes.throw _ (fun _ _ _ => False)).mono (by simp)
    · refine ((takes_readOperand offset opcode wide).bind fun operand => (takes_checkOk _).bind fun _ =>
        Takes.pure _).mono ?_
      rintro m w node ⟨operand, w₁, w₂, rfl, ⟨hk, hf, hl⟩, _, w₃, w₄, rfl, rfl, rfl, rfl⟩
      refine ⟨rfl, ⟨?_, fun h => hd (Or.inr h), hk, fun h => ?_, hf⟩, rfl, by simpa using hl⟩
      · simpa using fun h => hd (Or.inl h)
      · simpa using fun hn => hw ⟨h, hn⟩
  · rintro n w node ⟨offset, w₁, w₂, rfl, ⟨rfl, rfl⟩, x, w₃, w₄, rfl, hw₃, ho, he, hwide, hw₄⟩
    refine ⟨ho, he, ?_⟩
    have : w₃.length = (encodeOpcode node).length := by rw [hw₃, length_encodeOpcode, hwide]
    rw [List.nil_append, List.length_append, hw₄, this]
    rfl

theorem reads_readInstruction {node : Instruction} (h : node.Encodable) {n : Nat} {w : Bytes}
    (he : encodeOperand n (n + (encodeOpcode node).length) node = .ok w) (hw : w.length ≤ jvmMaxCodeLength) :
    Reads readInstruction n (encodeOpcode node ++ w) { node with offset := n } := by
  refine (reads_offset n).skip ((reads_readOpcode h.notWide n).bind ?_)
  dsimp only
  rw [if_neg, if_neg]
  · exact (reads_readOperand h he hw).last ((reads_checkOk _ _).skip (Reads.pure _ _))
  · rintro ⟨hwide, hn⟩
    rw [h.widenable hwide] at hn
    cases hn
  · rintro (hd | hn)
    · rw [h.defined] at hd
      cases hd
    · exact h.notWide hn

theorem checks_readInstruction : Checks readInstruction := by
  refine Checks.bind fun offset => Checks.bind fun x => ?_
  obtain ⟨opcode, wide⟩ := x
  refine Checks.ite (fun _ => Checks.bind fun _ => Checks.throw _) fun _ =>
    Checks.ite (fun _ => Checks.throw _) fun _ =>
    ?_
  exact Checks.bind fun operand => (checks_checkOk _).last

/-! ## Whole lists -/

/-- The nodes at the positions where they stand, with the first of them at `n`. -/
def placeFrom : Nat → List Instruction → List Instruction
  | _, [] => []
  | n, node :: rest => { node with offset := n } :: placeFrom (n + node.size n) rest

theorem run_exhausted (c : ByteCursor) : byteCursorExhausted.run c = .ok (c.rest.isEmpty, c) := rfl

/-- What decoding from an open cursor answers: encodable nodes, laid out over all that was left. -/
theorem readInstructions_ok : ∀ {fuel n : Nat} {w : Bytes} {items : List Instruction} {c : ByteCursor},
    (readInstructions fuel).run ⟨w, n, true⟩ = .ok (items, c) → w.length ≤ fuel →
    placeFrom n items = items ∧ extent Instruction.size n items = n + w.length ∧ ∀ node ∈ items, node.Encodable
  | 0, n, w, items, c, h, hw => by
    obtain rfl : w = [] := List.length_eq_zero_iff.mp (by omega)
    cases h
    simp [placeFrom]
  | fuel + 1, n, w, items, c, h, hw => by
    obtain ⟨stop, c₁, h₁, h₂⟩ := run_bind_ok h
    rw [run_exhausted] at h₁
    cases h₁
    split at h₂
    · cases h₂
      rename_i he
      obtain rfl : w = [] := by simpa using he
      simp [placeFrom]
    · obtain ⟨node, c₂, hn, h₃⟩ := run_bind_ok h₂
      obtain ⟨rest, c₃, hr, h₄⟩ := run_bind_ok h₃
      cases h₄
      obtain ⟨m, w₁, w₂, hv, hv₂, ho, he, hl⟩ := takes_readInstruction.checked checks_readInstruction hn
      rw [view_eq_some] at hv hv₂
      obtain ⟨rfl, rfl⟩ : w = w₁ ++ w₂ ∧ n = m := by simpa using hv
      subst hv₂
      have hpos := node.size_pos n
      rw [List.length_append] at hw
      obtain ⟨hp, hx, ha⟩ := readInstructions_ok hr (by omega)
      refine ⟨?_, ?_, ?_⟩
      · rw [placeFrom, ← hl, hp, ← ho]
      · rw [extent_cons, ← hl, hx, List.length_append]
        omega
      · intro x hx
        rcases List.mem_cons.mp hx with rfl | hx
        · exact he
        · exact ha x hx

/-- The bytes of a list: those of its first node and those of the rest. -/
theorem encodeFrom_cons_ok {n : Nat} {node : Instruction} {rest : List Instruction} {bytes : Bytes}
    (h : encodeFrom n (node :: rest) = .ok bytes) : ∃ operand tail,
      encodeOperand (u4 n) (n + (encodeOpcode node).length) node = .ok operand ∧
      encodeFrom (n + (encodeOpcode node).length + operand.length) rest = .ok tail ∧
      bytes = encodeOpcode node ++ (operand ++ tail) := by
  rw [encodeFrom] at h
  cases ho : encodeOperand (u4 n) (n + (encodeOpcode node).length) node with
  | error e => rw [ho] at h; cases h
  | ok operand =>
    rw [ho] at h
    dsimp only [bind, Except.bind] at h
    cases hr : encodeFrom (n + (encodeOpcode node).length + operand.length) rest with
    | error e => rw [hr] at h; cases h
    | ok tail =>
      rw [hr] at h
      cases h
      exact ⟨operand, tail, rfl, hr, rfl⟩

/-- The encoder writes as many bytes for a node as the decoder takes. -/
theorem Instruction.Encodable.length_encoded {node : Instruction} (h : node.Encodable) {n : Nat} {operand : Bytes}
    (ho : encodeOperand n (n + (encodeOpcode node).length) node = .ok operand)
    (hmax : operand.length ≤ jvmMaxCodeLength) :
    (encodeOpcode node).length + operand.length = node.size n := by
  have hread := reads_readInstruction h ho hmax
  rw [← List.length_append]
  exact (takes_readInstruction.of_reads hread (s := ⟨_, n, true⟩) rfl).length

/-- What the encoder gives is decoded to the nodes at their places, and the layout of the offsets is the same. -/
theorem encodeFrom_ok : ∀ {n : Nat} {items : List Instruction} {bytes : Bytes},
    encodeFrom n items = .ok bytes → n + bytes.length ≤ jvmMaxCodeLength → (∀ node ∈ items, node.Encodable) →
    extent Instruction.size n items = n + bytes.length ∧
      layoutFrom n items = (placeFrom n items, n + bytes.length) ∧
      ∀ fuel, bytes.length ≤ fuel →
        (readInstructions fuel).run ⟨bytes, n, true⟩ = .ok (placeFrom n items, ⟨[], n + bytes.length, true⟩)
  | n, [], bytes, h, hb, _ => by
    cases h
    refine ⟨rfl, rfl, fun fuel _ => ?_⟩
    cases fuel <;> rfl
  | n, node :: rest, bytes, h, hb, he => by
    obtain ⟨operand, tail, ho, hr, rfl⟩ := encodeFrom_cons_ok h
    simp only [List.length_append] at hb
    have hmax : jvmMaxCodeLength = 65535 := rfl
    rw [u4_of_lt (by omega)] at ho
    have hnode := he node List.mem_cons_self
    have hread := reads_readInstruction hnode ho (by omega)
    have hsize := hnode.length_encoded ho (by omega)
    rw [Nat.add_assoc, hsize] at hr
    obtain ⟨hx, hlay, hrun⟩ := encodeFrom_ok hr (by omega) fun x hx => he x (List.mem_cons_of_mem node hx)
    have stop : n + node.size n + tail.length = n + (encodeOpcode node ++ (operand ++ tail)).length := by
      simp only [List.length_append]
      omega
    rw [stop] at hx hlay hrun
    refine ⟨hx, ?_, fun fuel hf => ?_⟩
    · rw [layoutFrom, hnode.lengthAt_eq (by omega), u4_of_lt (by omega), hlay]
      rfl
    · have hlen := node.size_pos n
      simp only [List.length_append] at hf
      match fuel, hf with
      | 0, hf => omega
      | fuel + 1, hf =>
        obtain ⟨c, h₁, hv⟩ := hread ⟨encodeOpcode node ++ (operand ++ tail), n, true⟩ tail (by simp [view_eq_some])
        rw [view_eq_some, List.length_append, hsize] at hv
        subst hv
        rw [readInstructions, run_bind_of_ok (run_exhausted _), if_neg, run_bind_of_ok h₁,
          run_bind_of_ok (hrun fuel (by omega))]
        · rfl
        · have : (encodeOpcode node ++ (operand ++ tail)) ≠ [] := by
            intro h0
            have := congrArg List.length h0
            simp only [List.length_append, List.length_nil] at this
            omega
          simp [this]

/-- Within the limit the layout puts every node where the nodes before it end. -/
theorem layoutFrom_eq_placeFrom : ∀ {n : Nat} {items : List Instruction}, (∀ node ∈ items, node.Encodable) →
    extent Instruction.size n items ≤ jvmMaxCodeLength →
    layoutFrom n items = (placeFrom n items, extent Instruction.size n items)
  | n, [], _, _ => rfl
  | n, node :: rest, he, hx => by
    have hmax : jvmMaxCodeLength = 65535 := rfl
    have hle := @le_extent _ Instruction.size (n + node.size n) rest
    rw [extent_cons] at hx
    have hrest := layoutFrom_eq_placeFrom (fun x hmem => he x (List.mem_cons_of_mem node hmem)) hx
    rw [layoutFrom, (he node List.mem_cons_self).lengthAt_eq (by omega), u4_of_lt (by omega), hrest]
    rfl

/-- Every node stands at its offset, and the code ends behind the last of them. -/
structure InstructionList.Laid (list : InstructionList) : Prop where
  placed : placeFrom 0 list.items = list.items
  stop : extent Instruction.size 0 list.items = list.codeLength
  encodable : ∀ node ∈ list.items, node.Encodable

theorem laid_of_parse {code : Bytes} {list : InstructionList} (h : instructionListParse code = .ok list) :
    list.Laid ∧ list.codeLength = code.length := by
  rw [instructionListParse] at h
  cases hr : (readInstructions code.length).run (byteCursorInit code) with
  | error e => rw [hr] at h; cases h
  | ok x =>
    obtain ⟨items, c⟩ := x
    rw [hr] at h
    simp only at h
    split at h
    · cases h
      obtain ⟨hp, hx, he⟩ := readInstructions_ok (n := 0) hr (Nat.le_refl _)
      exact ⟨⟨hp, by simpa using hx, he⟩, rfl⟩
    · cases h

theorem instructionListEncode_cases {list : InstructionList} {bytes : Bytes}
    (h : instructionListEncode list = .ok bytes) :
    encodeFrom 0 list.items = .ok bytes ∧ bytes.length ≤ jvmMaxCodeLength := by
  rw [instructionListEncode] at h
  cases he : encodeFrom 0 list.items with
  | error e => rw [he] at h; cases h
  | ok w =>
    rw [he] at h
    dsimp only [bind, Except.bind] at h
    split at h
    · cases h
    · cases h
      exact ⟨rfl, by omega⟩

/-- A list that is laid out and can be stored is decoded again as it is. -/
theorem parse_of_encode {list : InstructionList} {bytes : Bytes} (hl : list.Laid)
    (h : instructionListEncode list = .ok bytes) :
    instructionListParse bytes = .ok list ∧ list.codeLength = bytes.length := by
  obtain ⟨he, hb⟩ := instructionListEncode_cases h
  obtain ⟨hx, -, hrun⟩ := encodeFrom_ok he (by omega) hl.encodable
  have hstop : list.codeLength = bytes.length := by rw [← hl.stop, hx, Nat.zero_add]
  refine ⟨?_, hstop⟩
  have hread := hrun bytes.length (Nat.le_refl _)
  rw [hl.placed] at hread
  rw [instructionListParse, byteCursorInit, hread]
  simp [← hstop]

theorem length_le_encodeFrom : ∀ {n : Nat} {items : List Instruction} {bytes : Bytes},
    encodeFrom n items = .ok bytes → items.length ≤ bytes.length
  | n, [], bytes, _ => Nat.zero_le _
  | n, node :: rest, bytes, h => by
    obtain ⟨operand, tail, -, hr, rfl⟩ := encodeFrom_cons_ok h
    have := length_le_encodeFrom hr
    have hop := length_encodeOpcode node
    simp only [List.length_cons, List.length_append]
    split at hop <;> omega

/-! ## Recomputing the offsets -/

theorem layoutFrom_layoutFrom : ∀ (n m : Nat) (items : List Instruction),
    layoutFrom m (layoutFrom n items).1 = layoutFrom m items
  | _, _, [] => rfl
  | n, m, node :: rest => by
    have same : instructionLengthAt { node with offset := n } m = instructionLengthAt node m := rfl
    simp only [layoutFrom, same]
    rw [layoutFrom_layoutFrom]

/-- The second pass changes nothing, so the loop is one pass. -/
theorem instructionListRecomputeOffsets_eq (list : InstructionList) :
    instructionListRecomputeOffsets list = ⟨(layoutFrom 0 list.items).1, (layoutFrom 0 list.items).2⟩ := by
  simp only [instructionListRecomputeOffsets, recomputeLoop, layoutFrom_layoutFrom]
  split <;> simp

end Jni2Hook
