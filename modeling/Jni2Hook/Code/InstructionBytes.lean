import Jni2Hook.Code.InstructionRoundTrip

/-!
# Decoding loses nothing but the padding of switches

* `OperandBytes`, `bytes_readOperand`: the bytes an operand was read from are those it is encoded to, but for the
  padding in front of a switch table, which is encoded as zeros.
* `encodeFrom_of_read`: the same for a whole list, by position.
* `instruction_codec_inverse`: decoding and encoding are inverse to each other.

The encoder refuses a wide branch whose distance does not fit, and decoding wraps the target of such a branch around; so
a wide branch has to stay within the `i4` range (`WideInRange`).
-/

namespace Jni2Hook

open Lib

/-! ## Fields, byte by byte -/

theorem u1OfInt_wrapI1 (v : UInt8) : u1OfInt (wrapI1 v.toNat) = v := by
  have := v.toNat_lt
  apply UInt8.toNat_inj.mp
  have heq := toNat_u1OfInt (wrapI1 v.toNat)
  have hmod : wrapI1 v.toNat % 2 ^ 8 = (v.toNat : Int) % 2 ^ 8 := Int.bmod_emod
  omega

theorem u2OfInt_wrapI2 (v : UInt16) : u2OfInt (wrapI2 v.toNat) = v := by
  have := v.toNat_lt
  apply UInt16.toNat_inj.mp
  have heq := toNat_u2OfInt (wrapI2 v.toNat)
  have hmod : wrapI2 v.toNat % 2 ^ 16 = (v.toNat : Int) % 2 ^ 16 := Int.bmod_emod
  omega

theorem u4OfInt_wrapI4 (v : UInt32) : u4OfInt (wrapI4 v.toNat) = v := by
  have := v.toNat_lt
  apply UInt32.toNat_inj.mp
  have heq := toNat_u4OfInt (wrapI4 v.toNat)
  have hmod : wrapI4 v.toNat % 2 ^ 32 = (v.toNat : Int) % 2 ^ 32 := Int.bmod_emod
  omega

/-- The distance of a target is the distance that was read, whatever wraps around. -/
theorem u4OfInt_target (offset : Nat) (delta : Int) : u4OfInt (wrapI4 (offset + delta) - offset) = u4OfInt delta := by
  apply UInt32.toNat_inj.mp
  have h₁ := toNat_u4OfInt (wrapI4 (offset + delta) - offset)
  have h₂ := toNat_u4OfInt delta
  have hmod : wrapI4 (offset + delta) % 2 ^ 32 = (offset + delta) % 2 ^ 32 := Int.bmod_emod
  omega

theorem bytes_readI4 : Takes readI4 fun _ w x => w = byteBufferU4 (u4OfInt x) ∧ FitsI4 x := by
  refine (takes_u4.bind fun v => Takes.pure (wrapI4 v.toNat)).mono ?_
  rintro n w x ⟨v, w₁, w₂, rfl, rfl, rfl, hx⟩
  rw [hx, u4OfInt_wrapI4, List.append_nil]
  exact ⟨rfl, fitsI4_wrapI4 _⟩

theorem bytes_readI2 : Takes readI2 fun _ w x => w = byteBufferU2 (u2OfInt x) ∧ FitsI2 x := by
  refine (takes_u2.bind fun v => Takes.pure (wrapI2 v.toNat)).mono ?_
  rintro n w x ⟨v, w₁, w₂, rfl, rfl, rfl, hx⟩
  rw [hx, u2OfInt_wrapI2, List.append_nil]
  exact ⟨rfl, fitsI2_wrapI2 _⟩

theorem bytes_readI1 : Takes readI1 fun _ w x => w = byteBufferU1 (u1OfInt x) := by
  refine (takes_u1.bind fun v => Takes.pure (wrapI1 v.toNat)).mono ?_
  rintro n w x ⟨v, w₁, w₂, rfl, rfl, rfl, hx⟩
  rw [hx, u1OfInt_wrapI1, List.append_nil]

theorem bytes_readWidened : Takes readWidened fun _ w index => w = byteBufferU1 index.toUInt8 := by
  refine (takes_u1.bind fun v => Takes.pure _).mono ?_
  rintro n w x ⟨v, w₁, w₂, rfl, rfl, rfl, rfl⟩
  have back : v.toUInt16.toUInt8 = v := by
    have := v.toNat_lt
    apply UInt8.toNat_inj.mp
    simp only [UInt8.toNat_toUInt16, UInt16.toNat_toUInt8]
    omega
  rw [back, List.append_nil]

theorem bytes_readTarget4 (offset : Nat) : Takes (readTarget4 offset) fun _ w x => ∃ delta,
    w = byteBufferU4 (u4OfInt delta) ∧ FitsI4 delta ∧ x = wrapI4 (offset + delta) := by
  refine (bytes_readI4.bind fun v => Takes.pure _).mono ?_
  rintro n w x ⟨v, w₁, w₂, rfl, ⟨rfl, hv⟩, rfl, rfl⟩
  exact ⟨v, by rw [List.append_nil], hv, rfl⟩

theorem bytes_switchTarget (offset : Nat) : Takes (readTarget4 offset) fun _ w x =>
    w = byteBufferU4 (u4OfInt (x - offset)) ∧ True := by
  refine (bytes_readTarget4 offset).mono ?_
  rintro n w x ⟨delta, rfl, -, rfl⟩
  exact ⟨by rw [u4OfInt_target], trivial⟩

theorem bytes_readSwitchPair (offset : Nat) : Takes (readSwitchPair offset) fun _ w p =>
    w = byteBufferU4 (u4OfInt p.matchValue) ++ byteBufferU4 (u4OfInt (p.target - offset)) ∧ True := by
  refine (bytes_readI4.bind fun m => (bytes_switchTarget offset).bind fun t => Takes.pure _).mono ?_
  rintro n w x ⟨m, w₁, w₂, rfl, ⟨rfl, -⟩, t, w₃, w₄, rfl, ⟨rfl, -⟩, rfl, rfl⟩
  exact ⟨by rw [List.append_nil], trivial⟩

/-! ## Operands, byte by byte -/

/-- The padding in front of an operand at position `m`. -/
def Operand.padding (m : Nat) : Operand → Nat
  | .tableSwitch .. | .lookupSwitch .. => (4 - m % 4) % 4
  | _ => 0

/-- The first bytes replaced by zeros. -/
def blankFirst (count : Nat) (w : Bytes) : Bytes := List.replicate count 0 ++ w.drop count

/-- The `i4` at a place of a byte string. -/
def wordAt (w : Bytes) (k : Nat) : Int :=
  wrapI4 (joinU4 (w.getD k 0) (w.getD (k + 1) 0) (w.getD (k + 2) 0) (w.getD (k + 3) 0)).toNat

/-- Within the code length limit, an operand is encoded to the bytes it was read from, with its padding blanked, or it
is a wide branch that leaves the range of an `i4` and is refused. -/
def OperandBytes (offset : Nat) (opcode : UInt8) (wide : Bool) (m : Nat) (w : Bytes) (operand : Operand) : Prop :=
  offset ≤ jvmMaxCodeLength → w.length ≤ jvmMaxCodeLength → operand.padding m ≤ w.length ∧
    (encodeOperand offset m ⟨offset, opcode, wide, operand⟩ = .ok (blankFirst (operand.padding m) w) ∨
      operand.kind = .branchWide ∧ ¬FitsI4 (offset + wordAt w 0) ∧
        ∃ e, encodeOperand offset m ⟨offset, opcode, wide, operand⟩ = .error e)

theorem wordAt_byteBufferU4 {x : Int} (h : FitsI4 x) : wordAt (byteBufferU4 (u4OfInt x)) 0 = x := by
  have : wordAt (byteBufferU4 (u4OfInt x)) 0 = wrapI4 (u4OfInt x).toNat := by
    rw [wordAt]
    simp only [byteBufferU4, List.getD_cons_zero, List.getD_cons_succ]
    rw [joinU4_split]
  rw [this, wrapI4_u4OfInt, wrapI4_of_fits h]

theorem bytes_readTableSwitch (offset : Nat) (opcode : UInt8) (wide : Bool) :
    Takes (readTableSwitch offset) (OperandBytes offset opcode wide) := by
  refine ((takes_skipPadding 3).bind fun _ => (bytes_switchTarget offset).bind fun d => bytes_readI4.bind fun low =>
    bytes_readI4.bind fun high => (takes_checkOk _).bind (H := fun _ _ w o => ∃ targets,
      o = Operand.tableSwitch d low high targets ∧ low ≤ high ∧ (targets.length : Int) = high - low + 1 ∧
        w = targets.flatMap fun t => byteBufferU4 (u4OfInt (t - offset))) fun _ => ?_).mono ?_
  · refine Takes.ite (fun _ => Takes.throw _ _) fun hle => ?_
    refine (takes_remaining.bind fun k => Takes.ite (fun _ => Takes.throw _ _) fun _ =>
      (((bytes_switchTarget offset).many _).bind fun targets => Takes.pure _)).mono ?_
    rintro n w o ⟨k, w₁, w₂, rfl, rfl, targets, w₃, w₄, rfl, ⟨rfl, hlen, -⟩, rfl, rfl⟩
    exact ⟨targets, rfl, by omega, by omega, by simp⟩
  · rintro m w o ⟨_, pad, w₂, rfl, hpad, d, w₃, w₄, rfl, ⟨rfl, -⟩, low, w₅, w₆, rfl, ⟨rfl, -⟩, high, w₇, w₈, rfl,
      ⟨rfl, -⟩, _, w₉, w₁₀, rfl, rfl, targets, rfl, hle, hlen, rfl⟩ ho hw
    have width : pad.length = (4 - m % 4) % 4 := by omega
    have entries : instructionSwitchEntries (.tableSwitch d low high targets) = targets.length := by
      have bytes : (targets.flatMap fun t => byteBufferU4 (u4OfInt (t - offset))).length = targets.length * 4 := by
        simp [List.length_flatMap]
      have hmax : jvmMaxCodeLength = 65535 := rfl
      simp only [List.length_append, bytes] at hw
      rw [instructionSwitchEntries, if_neg (Int.not_lt.mpr hle), if_neg (by omega)]
      omega
    refine ⟨by simp [Operand.padding, width], .inl ?_⟩
    simp only [encodeOperand, entries, List.take_length, blankFirst, Operand.padding, ← width, List.drop_left,
      List.nil_append]

theorem bytes_readLookupSwitch (offset : Nat) (opcode : UInt8) (wide : Bool) :
    Takes (readLookupSwitch offset) (OperandBytes offset opcode wide) := by
  refine ((takes_skipPadding 3).bind fun _ => (bytes_switchTarget offset).bind fun d => bytes_readI4.bind fun count =>
    (takes_checkOk _).bind (H := fun _ _ w o => ∃ pairs,
      o = Operand.lookupSwitch d pairs ∧ (pairs.length : Int) = count ∧ w = pairs.flatMap fun p =>
        byteBufferU4 (u4OfInt p.matchValue) ++ byteBufferU4 (u4OfInt (p.target - offset))) fun _ => ?_).mono ?_
  · refine Takes.ite (fun _ => Takes.throw _ _) fun hle => ?_
    refine (takes_remaining.bind fun k => Takes.ite (fun _ => Takes.throw _ _) fun _ =>
      (((bytes_readSwitchPair offset).many _).bind fun pairs => Takes.pure _)).mono ?_
    rintro n w o ⟨k, w₁, w₂, rfl, rfl, pairs, w₃, w₄, rfl, ⟨rfl, hlen, -⟩, rfl, rfl⟩
    exact ⟨pairs, rfl, by omega, by simp⟩
  · rintro m w o ⟨_, pad, w₂, rfl, hpad, d, w₃, w₄, rfl, ⟨rfl, -⟩, count, w₅, w₆, rfl, ⟨rfl, -⟩, _, w₉, w₁₀, rfl, rfl,
      pairs, rfl, rfl, rfl⟩ ho hw
    have width : pad.length = (4 - m % 4) % 4 := by omega
    refine ⟨by simp [Operand.padding, width], .inl ?_⟩
    simp only [encodeOperand, blankFirst, Operand.padding, ← width, List.drop_left, List.nil_append]

/-- An operand that is encoded to the bytes it was read from, whatever they are. -/
theorem operandBytes_of_eq {offset : Nat} {opcode : UInt8} {wide : Bool} {m : Nat} {w : Bytes} {operand : Operand}
    (hp : operand.padding m = 0) (h : encodeOperand offset m ⟨offset, opcode, wide, operand⟩ = .ok w) :
    OperandBytes offset opcode wide m w operand := by
  intro _ _
  rw [hp]
  exact ⟨Nat.zero_le _, .inl h⟩

/-- An operand that is one field. -/
theorem bytes_oneField {α : Type} {p : Parse α} {offset : Nat} {opcode : UInt8} {wide : Bool} {enc : α → Bytes}
    {f : α → Operand} (hp : Takes p fun _ w a => w = enc a) (hpad : ∀ m a, (f a).padding m = 0)
    (hf : ∀ m a, encodeOperand offset m ⟨offset, opcode, wide, f a⟩ = .ok (enc a)) :
    Takes (p >>= fun a => pure (f a)) (OperandBytes offset opcode wide) := by
  refine (hp.bind fun a => Takes.pure (f a)).mono ?_
  rintro m w o ⟨a, w₁, w₂, rfl, rfl, rfl, rfl⟩
  rw [List.append_nil]
  exact operandBytes_of_eq (hpad m a) (hf m a)

theorem bytes_readOperand (offset : Nat) (opcode : UInt8) (wide : Bool) :
    Takes (readOperand offset opcode wide) (OperandBytes offset opcode wide) := by
  unfold readOperand
  cases instructionKindOf opcode with
  | none =>
    refine (Takes.pure _).mono ?_
    rintro m w o ⟨rfl, rfl⟩
    exact operandBytes_of_eq rfl rfl
  | immediate =>
    refine Takes.ite (fun hs => ?_) (fun hs => ?_)
    · exact bytes_oneField (bytes_readI2.mono fun _ _ _ h => h.1) (fun _ _ => rfl) fun m a => by
        simp [encodeOperand, hs]
    · exact bytes_oneField bytes_readI1 (fun _ _ => rfl) fun m a => by simp [encodeOperand, hs]
  | local_ =>
    refine Takes.ite (fun hs => ?_) (fun hs => ?_)
    · exact bytes_oneField takes_u2 (fun _ _ => rfl) fun m a => by simp [encodeOperand, hs]
    · exact bytes_oneField bytes_readWidened (fun _ _ => rfl) fun m a => by simp [encodeOperand, hs]
  | iinc =>
    refine Takes.ite (fun hs => ?_) (fun hs => ?_)
    · refine (takes_u2.bind fun i => bytes_readI2.bind fun c => Takes.pure _).mono ?_
      rintro m w o ⟨i, w₁, w₂, rfl, rfl, c, w₃, w₄, rfl, ⟨rfl, -⟩, rfl, rfl⟩
      exact operandBytes_of_eq rfl (by simp [encodeOperand, hs])
    · refine (bytes_readWidened.bind fun i => bytes_readI1.bind fun c => Takes.pure _).mono ?_
      rintro m w o ⟨i, w₁, w₂, rfl, rfl, c, w₃, w₄, rfl, rfl, rfl, rfl⟩
      exact operandBytes_of_eq rfl (by simp [encodeOperand, hs])
  | constant =>
    refine Takes.ite (fun hs => ?_) (fun hs => ?_)
    · exact bytes_oneField bytes_readWidened (fun _ _ => rfl) fun m a => by simp [encodeOperand, hs]
    · exact bytes_oneField takes_u2 (fun _ _ => rfl) fun m a => by simp [encodeOperand, hs]
  | cpIndex => exact bytes_oneField takes_u2 (fun _ _ => rfl) fun _ _ => rfl
  | invokeInterface =>
    refine (takes_u2.bind fun i => takes_u1.bind fun c => takes_u1.bind fun z => Takes.pure _).mono ?_
    rintro m w o ⟨i, w₁, w₂, rfl, rfl, c, w₃, w₄, rfl, rfl, z, w₅, w₆, rfl, rfl, rfl, rfl⟩
    exact operandBytes_of_eq rfl (by simp [encodeOperand])
  | invokeDynamic =>
    refine (takes_u2.bind fun i => takes_u2.bind fun z => Takes.pure _).mono ?_
    rintro m w o ⟨i, w₁, w₂, rfl, rfl, z, w₃, w₄, rfl, rfl, rfl, rfl⟩
    exact operandBytes_of_eq rfl (by simp [encodeOperand])
  | multianewarray =>
    refine (takes_u2.bind fun i => takes_u1.bind fun d => Takes.pure _).mono ?_
    rintro m w o ⟨i, w₁, w₂, rfl, rfl, d, w₃, w₄, rfl, rfl, rfl, rfl⟩
    exact operandBytes_of_eq rfl (by simp [encodeOperand])
  | branch =>
    refine (bytes_readI2.bind fun delta => Takes.pure _).mono ?_
    rintro m w o ⟨delta, w₁, w₂, rfl, ⟨rfl, hd⟩, rfl, rfl⟩ ho -
    have hmax : jvmMaxCodeLength = 65535 := rfl
    obtain ⟨h₀, h₁⟩ := hd
    have target : wrapI4 (offset + delta) - offset = delta := by
      rw [wrapI4_of_fits ⟨by omega, by omega⟩]
      omega
    refine ⟨Nat.zero_le _, .inl ?_⟩
    simp only [encodeOperand, target, Operand.padding, blankFirst, List.replicate_zero, List.drop_zero,
      List.nil_append, List.append_nil]
    rw [if_neg (by omega)]
  | branchWide =>
    refine ((bytes_readTarget4 offset).bind fun target => Takes.pure _).mono ?_
    rintro m w o ⟨target, w₁, w₂, rfl, ⟨delta, rfl, hd, rfl⟩, rfl, rfl⟩ ho -
    refine ⟨Nat.zero_le _, ?_⟩
    rw [List.append_nil, wordAt_byteBufferU4 hd]
    have hmax : jvmMaxCodeLength = 65535 := rfl
    obtain ⟨h₀, h₁⟩ := hd
    by_cases hfits : FitsI4 (offset + delta)
    · have target : wrapI4 (offset + delta) - offset = delta := by
        rw [wrapI4_of_fits hfits]
        omega
      refine .inl ?_
      simp only [encodeOperand, target, Operand.padding, blankFirst, List.replicate_zero, List.drop_zero,
        List.nil_append]
      rw [if_neg (by omega)]
    · -- the target has wrapped around, and its distance with it
      have past : 2 ^ 31 ≤ offset + delta := by
        by_contra hlt
        exact hfits ⟨by omega, by omega⟩
      have target : wrapI4 (offset + delta) = offset + delta - 2 ^ 32 := by
        rw [wrapI4, Int.bmod, if_neg (by omega)]
        omega
      refine .inr ⟨rfl, hfits, .branchRange, ?_⟩
      simp only [encodeOperand, target]
      rw [if_pos (by omega)]
  | tableSwitch => exact bytes_readTableSwitch offset opcode wide
  | lookupSwitch => exact bytes_readLookupSwitch offset opcode wide

/-! ## Instructions, byte by byte -/

theorem bytes_readOpcode : Takes readOpcode fun _ w x => w = if x.2 = true then [Opc.wide, x.1] else [x.1] := by
  refine (takes_u1.bind (H := fun first _ w x => byteBufferU1 first ++ w =
    if x.2 = true then [Opc.wide, x.1] else [x.1]) fun first => ?_).mono ?_
  · refine Takes.ite (fun hf => ?_) (fun _ => ?_)
    · refine (takes_u1.bind fun opcode => Takes.pure _).mono ?_
      rintro n w x ⟨opcode, w₁, w₂, rfl, rfl, rfl, rfl⟩
      rw [hf]
      rfl
    · refine (Takes.pure _).mono ?_
      rintro n w x ⟨rfl, rfl⟩
      rfl
  · rintro n w x ⟨first, w₁, w₂, rfl, rfl, h⟩
    exact h

/-- The bytes an instruction was read from: its opcode and the bytes of its operand. -/
theorem bytes_readInstruction : Takes readInstruction fun n w node => ∃ operand, w = encodeOpcode node ++ operand ∧
    OperandBytes n node.opcode node.wide (n + (encodeOpcode node).length) operand node.operand := by
  refine (takes_offset.bind fun offset => bytes_readOpcode.bind (H := fun x m w node => node.opcode = x.1 ∧
    node.wide = x.2 ∧ OperandBytes offset node.opcode node.wide m w node.operand) fun x => ?_).mono ?_
  · obtain ⟨opcode, wide⟩ := x
    refine Takes.ite (fun _ => ?_) (fun hd => Takes.ite (fun _ => Takes.throw _ _) fun hw => ?_)
    · exact ((takes_checkOk _).bind fun _ => Takes.throw _ (fun _ _ _ => False)).mono (by simp)
    · refine ((bytes_readOperand offset opcode wide).bind fun operand => (takes_checkOk _).bind fun _ =>
        Takes.pure _).mono ?_
      rintro m w node ⟨operand, w₁, w₂, rfl, h, _, w₃, w₄, rfl, rfl, rfl, rfl⟩
      exact ⟨rfl, rfl, by simpa using h⟩
  · rintro n w node ⟨offset, w₁, w₂, rfl, ⟨rfl, rfl⟩, x, w₃, w₄, rfl, rfl, ho, hw, h⟩
    have opcode : (if x.2 = true then [Opc.wide, x.1] else [x.1]) = encodeOpcode node := by
      rw [encodeOpcode, ho, hw]
    rw [opcode] at h ⊢
    exact ⟨w₄, by simp, by simpa using h⟩

/-- The place `k` of the code is padding of this instruction. -/
def Instruction.pads (node : Instruction) (k : Nat) : Bool :=
  match node.operand with
  | .tableSwitch .. | .lookupSwitch .. => node.offset < k && k ≤ node.offset + switchPadding node.offset
  | _ => false

theorem getElem?_blankFirst {count : Nat} {w : Bytes} (h : count ≤ w.length) (k : Nat) :
    (blankFirst count w)[k]? = if k < count then w[k]?.map (fun _ => 0) else w[k]? := by
  unfold blankFirst
  split
  · rename_i hk
    rw [List.getElem?_append_left (by simpa using hk), List.getElem?_replicate, if_pos hk,
      List.getElem?_eq_getElem (Nat.lt_of_lt_of_le hk h)]
    rfl
  · rename_i hk
    rw [List.getElem?_append_right (by simpa using hk), List.getElem?_drop]
    congr 1
    simp
    omega

/-- An instruction whose padding is blanked differs from what was read in its padding only. -/
theorem getElem?_blanked {node : Instruction} {n : Nat} {operand : Bytes} (ho : node.offset = n) (he : node.Encodable)
    (hp : node.operand.padding (n + (encodeOpcode node).length) ≤ operand.length) (k : Nat) :
    (encodeOpcode node ++ blankFirst (node.operand.padding (n + (encodeOpcode node).length)) operand)[k]? =
      if node.pads (n + k) = true then (encodeOpcode node ++ operand)[k]?.map (fun _ => 0)
      else (encodeOpcode node ++ operand)[k]? := by
  have narrow := he.not_wide
  obtain ⟨o, opcode, wide, op⟩ := node
  -- a switch has one byte of opcode, and its padding behind it
  have switch (count : Nat) (hc : count ≤ operand.length) (heq : count = switchPadding n) :
      ([opcode] ++ blankFirst count operand)[k]? = if (n < n + k && n + k ≤ n + switchPadding n) = true
        then ([opcode] ++ operand)[k]?.map (fun _ => 0) else ([opcode] ++ operand)[k]? := by
    cases k with
    | zero => simp
    | succ k =>
      simp only [List.singleton_append, List.getElem?_cons_succ, getElem?_blankFirst hc, ← heq]
      by_cases hk : k < count
      · rw [if_pos hk, if_pos (by simp; omega)]
      · rw [if_neg hk, if_neg (by simp; omega)]
  cases op with
  | tableSwitch d low high targets =>
    obtain rfl : wide = false := narrow rfl
    obtain rfl : o = n := ho
    exact switch _ hp rfl
  | lookupSwitch d pairs =>
    obtain rfl : wide = false := narrow rfl
    obtain rfl : o = n := ho
    exact switch _ hp rfl
  | _ => rfl

/-! ## Whole lists, byte by byte -/

/-- The place `k` of the code is padding of a switch. -/
def inSwitchPadding (items : List Instruction) (k : Nat) : Bool := items.any (·.pads k)

/-- The wide branches of the list stay in the range of an `i4`: `w` is the code from place `n` on. -/
def WideInRange (n : Nat) (w : Bytes) (items : List Instruction) : Prop :=
  ∀ node ∈ items, node.operand.kind = .branchWide → FitsI4 (node.offset + wordAt w (node.offset + 1 - n))

theorem le_offset_of_placed : ∀ {n : Nat} {items : List Instruction}, placeFrom n items = items →
    ∀ node ∈ items, n ≤ node.offset
  | n, [], _, node, h => absurd h List.not_mem_nil
  | n, first :: rest, hp, node, h => by
    rw [placeFrom, List.cons.injEq] at hp
    rcases List.mem_cons.mp h with rfl | h
    · rw [← hp.1]
    · have := le_offset_of_placed hp.2 node h
      omega

/-- The padding of an instruction is inside of it. -/
theorem Instruction.pads_within {node : Instruction} {k : Nat} (h : node.pads k = true) :
    node.offset < k ∧ k < node.offset + node.size node.offset := by
  obtain ⟨o, opcode, wide, op⟩ := node
  have hlen := length_encodeOpcode ⟨o, opcode, wide, op⟩
  have hpos : 1 ≤ (encodeOpcode ⟨o, opcode, wide, op⟩).length := by
    rw [hlen]
    split <;> omega
  have hpad : switchPadding o ≤ 3 := by
    unfold switchPadding
    omega
  unfold Instruction.pads at h
  unfold Instruction.size
  cases op with
  | tableSwitch d low high targets =>
    simp only [Bool.and_eq_true, decide_eq_true_eq] at h
    simp only [Operand.size]
    omega
  | lookupSwitch d pairs =>
    simp only [Bool.and_eq_true, decide_eq_true_eq] at h
    simp only [Operand.size]
    omega
  | _ => cases h

theorem wordAt_append_left {a b : Bytes} {k : Nat} (h : k + 3 < a.length) : wordAt (a ++ b) k = wordAt a k := by
  unfold wordAt
  rw [List.getD_append _ _ _ _ (by omega), List.getD_append _ _ _ _ (by omega), List.getD_append _ _ _ _ (by omega),
    List.getD_append _ _ _ _ (by omega)]

theorem wordAt_append_right (a b : Bytes) (k : Nat) : wordAt (a ++ b) (a.length + k) = wordAt b k := by
  unfold wordAt
  rw [List.getD_append_right _ _ _ _ (by omega), List.getD_append_right _ _ _ _ (by omega),
    List.getD_append_right _ _ _ _ (by omega), List.getD_append_right _ _ _ _ (by omega)]
  simp only [Nat.add_assoc, Nat.add_sub_cancel_left]

/-- The word behind the opcode of the first instruction, when that is a wide branch. -/
theorem wordAt_head {n : Nat} {node : Instruction} {operand w : Bytes} (ho : node.offset = n) (he : node.Encodable)
    (hl : (encodeOpcode node ++ operand).length = node.size n) (hk : node.operand.kind = .branchWide) :
    wordAt (encodeOpcode node ++ operand ++ w) (node.offset + 1 - n) = wordAt operand 0 := by
  have narrow : node.wide = false := he.not_wide (by rw [hk]; rfl)
  have one : (encodeOpcode node).length = 1 := by rw [length_encodeOpcode, narrow]; rfl
  have four : operand.length = 4 := by
    obtain ⟨o, opcode, wide, op⟩ := node
    cases op with
    | branchWide target =>
      rw [List.length_append, Instruction.size] at hl
      simp only [Operand.size, Operand.kind, kindLength] at hl
      omega
    | _ => cases hk
  rw [List.append_assoc, show node.offset + 1 - n = (encodeOpcode node).length + 0 by omega, wordAt_append_right,
    wordAt_append_left (by omega)]

theorem WideInRange.tail {n : Nat} {node : Instruction} {rest : List Instruction} {w₁ w₂ : Bytes}
    (h : WideInRange n (w₁ ++ w₂) (node :: rest)) (hp : placeFrom (n + w₁.length) rest = rest) :
    WideInRange (n + w₁.length) w₂ rest := by
  intro x hx hk
  have fits := h x (List.mem_cons_of_mem node hx) hk
  have hle := le_offset_of_placed hp x hx
  rw [show x.offset + 1 - n = w₁.length + (x.offset + 1 - (n + w₁.length)) by omega, wordAt_append_right] at fits
  exact fits

/-- The bytes are those that were read, but for the padding of switches. -/
def SameButPadding (items : List Instruction) (n : Nat) (bytes w : Bytes) : Prop :=
  bytes.length = w.length ∧
    ∀ k, bytes[k]? = if inSwitchPadding items (n + k) = true then w[k]?.map (fun _ => 0) else w[k]?

/-- One instruction in front of others. -/
theorem SameButPadding.cons {n : Nat} {node : Instruction} {rest : List Instruction} {operand tail w : Bytes}
    (ho : node.offset = n) (he : node.Encodable) (hl : (encodeOpcode node ++ operand).length = node.size n)
    (hpad : node.operand.padding (n + (encodeOpcode node).length) ≤ operand.length)
    (hp : placeFrom (n + (encodeOpcode node ++ operand).length) rest = rest)
    (h : SameButPadding rest (n + (encodeOpcode node ++ operand).length) tail w) :
    SameButPadding (node :: rest) n (encodeOpcode node ++
      (blankFirst (node.operand.padding (n + (encodeOpcode node).length)) operand ++ tail))
      (encodeOpcode node ++ operand ++ w) := by
  obtain ⟨hlast, hbytes⟩ := h
  have hlen : (encodeOpcode node ++ operand).length = (encodeOpcode node).length + operand.length :=
    List.length_append
  have width : (blankFirst (node.operand.padding (n + (encodeOpcode node).length)) operand).length =
      operand.length := by
    simp only [blankFirst, List.length_append, List.length_replicate, List.length_drop]
    omega
  refine ⟨?_, fun k => ?_⟩
  · simp only [List.length_append, width, hlast]
    omega
  rw [← List.append_assoc]
  by_cases hk : k < (encodeOpcode node ++ operand).length
  · -- in the first instruction, where no later one has padding
    have others : rest.any (·.pads (n + k)) = false := by
      rw [List.any_eq_false]
      intro x hx hpads
      have := le_offset_of_placed hp x hx
      have := (Instruction.pads_within hpads).1
      omega
    rw [List.getElem?_append_left (by rw [List.length_append, width, ← hlen]; exact hk),
      List.getElem?_append_left hk, getElem?_blanked ho he hpad k, inSwitchPadding, List.any_cons, others,
      Bool.or_false]
  · -- behind it, where it has no padding
    have first : node.pads (n + k) = false := by
      by_contra hpads
      have := (Instruction.pads_within (Bool.not_eq_false _ ▸ hpads)).2
      rw [ho] at this
      omega
    have shift : n + (encodeOpcode node ++ operand).length + (k - (encodeOpcode node ++ operand).length) = n + k := by
      omega
    rw [List.getElem?_append_right (by rw [List.length_append, width, ← hlen]; omega),
      List.getElem?_append_right (by omega), List.length_append, width, ← hlen, hbytes, shift, inSwitchPadding,
      inSwitchPadding, List.any_cons, first, Bool.false_or]

/-- **What was decoded is encoded again**, from any place on, unless a wide branch leaves its range. -/
theorem encodeFrom_of_read : ∀ {fuel n : Nat} {w : Bytes} {items : List Instruction} {c : ByteCursor},
    (readInstructions fuel).run ⟨w, n, true⟩ = .ok (items, c) → w.length ≤ fuel → n + w.length ≤ jvmMaxCodeLength →
    (∃ bytes, encodeFrom n items = .ok bytes ∧ SameButPadding items n bytes w) ∨
      ¬WideInRange n w items ∧ ∃ e, encodeFrom n items = .error e
  | 0, n, w, items, c, h, hw, _ => by
    obtain rfl : w = [] := List.length_eq_zero_iff.mp (by omega)
    cases h
    exact .inl ⟨[], rfl, rfl, fun k => by simp⟩
  | fuel + 1, n, w, items, c, h, hw, hmax => by
    obtain ⟨stop, c₁, h₁, h₂⟩ := run_bind_ok h
    rw [run_exhausted] at h₁
    cases h₁
    split at h₂
    · cases h₂
      rename_i he
      obtain rfl : w = [] := by simpa using he
      exact .inl ⟨[], rfl, rfl, fun k => by simp⟩
    · obtain ⟨node, c₂, hn, h₃⟩ := run_bind_ok h₂
      obtain ⟨rest, c₃, hr, h₄⟩ := run_bind_ok h₃
      cases h₄
      obtain ⟨m, w₁, w₂, hv, hv₂, ⟨ho, he, hl⟩, operand, rfl, hop⟩ :=
        (takes_readInstruction.and bytes_readInstruction).checked checks_readInstruction hn
      rw [view_eq_some] at hv hv₂
      obtain ⟨rfl, rfl⟩ : w = encodeOpcode node ++ operand ++ w₂ ∧ n = m := by simpa using hv
      subst hv₂
      have hpos := node.size_pos n
      rw [List.length_append] at hw hmax
      obtain ⟨hp, -, -⟩ := readInstructions_ok hr (by omega)
      have hcode : jvmMaxCodeLength = 65535 := rfl
      have hlen : (encodeOpcode node ++ operand).length = (encodeOpcode node).length + operand.length :=
        List.length_append
      have same : (⟨n, node.opcode, node.wide, node.operand⟩ : Instruction) = node := by rw [← ho]
      obtain ⟨hpad, henc | ⟨hk, hfits, e, henc⟩⟩ := hop (by omega) (by omega)
      · rw [same] at henc
        have width : (blankFirst (node.operand.padding (n + (encodeOpcode node).length)) operand).length =
            operand.length := by
          simp only [blankFirst, List.length_append, List.length_replicate, List.length_drop]
          omega
        have step : encodeFrom n (node :: rest) = do
            let tail ← encodeFrom (n + (encodeOpcode node ++ operand).length) rest
            return encodeOpcode node ++
              (blankFirst (node.operand.padding (n + (encodeOpcode node).length)) operand ++ tail) := by
          rw [encodeFrom, u4_of_lt (by omega), bind_of_ok henc, width, Nat.add_assoc, ← hlen]
        obtain ⟨tail, htail, hsame⟩ | ⟨hwide, e, htail⟩ := encodeFrom_of_read hr (by omega) (by omega)
        · exact .inl ⟨_, by rw [step, bind_of_ok htail]; rfl, hsame.cons ho he hl hpad hp⟩
        · exact .inr ⟨fun h => hwide (h.tail hp), e, by rw [step, htail]; rfl⟩
      · rw [same] at henc
        refine .inr ⟨fun h => hfits ?_, e, by rw [encodeFrom, u4_of_lt (by omega), henc]; rfl⟩
        have fits := h node List.mem_cons_self hk
        rw [wordAt_head ho he hl hk, ho] at fits
        exact fits

/-- The code of a list that was decoded. -/
theorem encode_of_parse {code : Bytes} {list : InstructionList} (hlen : code.length ≤ jvmMaxCodeLength)
    (h : instructionListParse code = .ok list) :
    (∃ bytes, instructionListEncode list = .ok bytes ∧ SameButPadding list.items 0 bytes code) ∨
      ¬WideInRange 0 code list.items ∧ ∃ e, instructionListEncode list = .error e := by
  rw [instructionListParse] at h
  cases hr : (readInstructions code.length).run (byteCursorInit code) with
  | error e =>
    rw [hr] at h
    cases h
  | ok x =>
    obtain ⟨items, c⟩ := x
    rw [hr] at h
    simp only at h
    split at h
    · cases h
      obtain ⟨bytes, henc, hsame⟩ | ⟨hwide, e, henc⟩ := encodeFrom_of_read hr (Nat.le_refl _) (by omega)
      · refine .inl ⟨bytes, ?_, hsame⟩
        have := hsame.1
        rw [instructionListEncode, bind_of_ok henc, if_neg (by omega)]
        rfl
      · exact .inr ⟨hwide, e, by rw [instructionListEncode, henc]; rfl⟩
    · cases h

/-- A list whose offsets are recomputed to themselves and that can be stored is laid out. -/
theorem laid_of_recompute {list : InstructionList} {bytes : Bytes} (he : ∀ node ∈ list.items, node.Encodable)
    (hr : instructionListRecomputeOffsets list = list) (h : instructionListEncode list = .ok bytes) : list.Laid := by
  obtain ⟨henc, hmax⟩ := instructionListEncode_cases h
  obtain ⟨hx, hlay, -⟩ := encodeFrom_ok henc (by omega) he
  rw [instructionListRecomputeOffsets_eq, hlay] at hr
  constructor
  · exact congrArg InstructionList.items hr
  · rw [hx]
    exact congrArg InstructionList.codeLength hr
  · exact he

/-- **Decoding and encoding are inverse to each other.** Code within the length limit that is decoded is encoded to the
same bytes with the padding of its switches set to zero, provided its wide branches stay in range; and a list of
encodable nodes at their offsets that is encoded is decoded to itself. -/
theorem instruction_codec_inverse :
    (∀ (code : Bytes) (list : InstructionList), code.length ≤ jvmMaxCodeLength → instructionListParse code = .ok list →
      WideInRange 0 code list.items →
      ∃ bytes, instructionListEncode list = .ok bytes ∧ SameButPadding list.items 0 bytes code) ∧
    ∀ (list : InstructionList) (bytes : Bytes), (∀ node ∈ list.items, node.Encodable) →
      instructionListRecomputeOffsets list = list → instructionListEncode list = .ok bytes →
      instructionListParse bytes = .ok list := by
  constructor
  · intro code list hlen hparse hwide
    obtain h | ⟨hout, -⟩ := encode_of_parse hlen hparse
    · exact h
    · exact absurd hwide hout
  · intro list bytes he hr h
    exact (parse_of_encode (laid_of_recompute he hr h) h).1

/-- `nop; tableswitch 0 to 0` with two bytes of padding that are not zero. -/
def paddedSwitch : Bytes := [0, 170, 9, 9, 0, 0, 0, 19, 0, 0, 0, 0, 0, 0, 0, 0, 0, 0, 0, 19, 177]

/-- `goto_w` onto itself. -/
def wideLoop : InstructionList := ⟨[⟨0, Opc.goto_w, false, .branchWide 0⟩], 5⟩

theorem instruction_codec_inverse_samples :
    (∃ list bytes, instructionListParse paddedSwitch = .ok list ∧ instructionListEncode list = .ok bytes ∧
      bytes[2]? = some 0) ∧
    instructionListParse [200, 0, 0, 0, 0] = .ok wideLoop := by
  constructor
  · have hparse : instructionListParse paddedSwitch = .ok ⟨[⟨0, Opc.nop, false, .none⟩,
        ⟨1, Opc.tableswitch, false, .tableSwitch 20 0 0 [20]⟩, ⟨20, Opc.return_, false, .none⟩], 21⟩ := by
      decide +kernel
    have hwide : WideInRange 0 paddedSwitch [⟨0, Opc.nop, false, .none⟩,
        ⟨1, Opc.tableswitch, false, .tableSwitch 20 0 0 [20]⟩, ⟨20, Opc.return_, false, .none⟩] := by
      intro node hnode hk
      simp only [List.mem_cons, List.not_mem_nil, or_false] at hnode
      rcases hnode with rfl | rfl | rfl <;> cases hk
    obtain ⟨bytes, henc, -, hk⟩ := instruction_codec_inverse.1 _ _ (by decide) hparse hwide
    refine ⟨_, bytes, hparse, henc, ?_⟩
    have second := hk 2
    rw [second]
    decide +kernel
  · refine instruction_codec_inverse.2 _ _ (fun node hnode => ?_) (by decide +kernel) (by decide +kernel)
    simp only [wideLoop, List.mem_cons, List.not_mem_nil, or_false] at hnode
    subst hnode
    exact ⟨by decide, by decide, by decide, by decide, by decide⟩

end Jni2Hook
