import Mathlib.Algebra.Group.Nat.Defs
import Mathlib.Data.List.Basic

/-!
# A few x86-64 instructions

Instructions with their bytes and what they do. Registers are numbered as in the encoding: `rax` is 0 and `rsp` is 4. Of
the flags only the zero flag is kept. Data is read wherever it is; an instruction is fetched from executable bytes only.

* `decode_encode`: the bytes of an instruction are decoded to it, whatever is behind them.
* `X64.step_of_code`: what is done where an instruction stands.
-/

namespace Lib

/-! ## Little-endian numbers -/

def leBytes : Nat → Nat → List UInt8
  | 0, _ => []
  | n + 1, w => UInt8.ofNat w :: leBytes n (w / 256)

def leValue : List UInt8 → Nat
  | [] => 0
  | b :: bs => b.toNat + 256 * leValue bs

@[simp] theorem length_leBytes (n w : Nat) : (leBytes n w).length = n := by
  induction n generalizing w with
  | zero => rfl
  | succ n ih => simp [leBytes, ih]

theorem leValue_leBytes {n w : Nat} (h : w < 256 ^ n) : leValue (leBytes n w) = w := by
  induction n generalizing w with
  | zero => simp at h; simp [leBytes, leValue, h]
  | succ n ih =>
    have hrest := @ih (w / 256) (by rw [Nat.pow_succ] at h; omega)
    have hbyte : (UInt8.ofNat w).toNat = w % 256 := by simp
    rw [leBytes, leValue, hrest, hbyte]
    omega

/-! ## Instructions -/

/-- The displacements are those of the encoding, from the end of the instruction. -/
inductive X64Instr
  | endbr64
  | cmpMem (disp : BitVec 32) (imm : BitVec 8)
  | je (disp : BitVec 8)
  | jmpMem (disp : BitVec 32)
  | ret
  | xorRax
  | xorEax
  | xorps
  | xorpd
  deriving DecidableEq, Repr

def X64Instr.encode : X64Instr → List UInt8
  | endbr64 => [0xF3, 0x0F, 0x1E, 0xFA]
  | cmpMem disp imm => [0x48, 0x83, 0x3D] ++ leBytes 4 disp.toNat ++ [⟨imm⟩]
  | je disp => [0x74, ⟨disp⟩]
  | jmpMem disp => [0xFF, 0x25] ++ leBytes 4 disp.toNat
  | ret => [0xC3]
  | xorRax => [0x48, 0x31, 0xC0]
  | xorEax => [0x31, 0xC0]
  | xorps => [0x0F, 0x57, 0xC0]
  | xorpd => [0x66, 0x0F, 0x57, 0xC0]

/-- The instruction at the front, and the bytes behind it. -/
def decodeX64 : List UInt8 → Option (X64Instr × List UInt8)
  | 0xF3 :: 0x0F :: 0x1E :: 0xFA :: rest => some (.endbr64, rest)
  | 0x48 :: 0x83 :: 0x3D :: a :: b :: c :: d :: imm :: rest =>
    some (.cmpMem (BitVec.ofNat 32 (leValue [a, b, c, d])) imm.toBitVec, rest)
  | 0x74 :: disp :: rest => some (.je disp.toBitVec, rest)
  | 0xFF :: 0x25 :: a :: b :: c :: d :: rest => some (.jmpMem (BitVec.ofNat 32 (leValue [a, b, c, d])), rest)
  | 0xC3 :: rest => some (.ret, rest)
  | 0x48 :: 0x31 :: 0xC0 :: rest => some (.xorRax, rest)
  | 0x31 :: 0xC0 :: rest => some (.xorEax, rest)
  | 0x0F :: 0x57 :: 0xC0 :: rest => some (.xorps, rest)
  | 0x66 :: 0x0F :: 0x57 :: 0xC0 :: rest => some (.xorpd, rest)
  | _ => none

theorem disp_leBytes (disp : BitVec 32) : BitVec.ofNat 32 (leValue (leBytes 4 disp.toNat)) = disp := by
  rw [leValue_leBytes (by have := disp.isLt; omega), BitVec.ofNat_toNat]
  simp

theorem decode_encode (i : X64Instr) (rest : List UInt8) : decodeX64 (i.encode ++ rest) = some (i, rest) := by
  cases i with
  | cmpMem disp imm =>
    have h := disp_leBytes disp
    simp only [leBytes] at h
    simp only [X64Instr.encode, leBytes, List.cons_append, List.nil_append, decodeX64, h]
  | jmpMem disp =>
    have h := disp_leBytes disp
    simp only [leBytes] at h
    simp only [X64Instr.encode, leBytes, List.cons_append, List.nil_append, decodeX64, h]
  | _ => rfl

/-- What is decoded are the bytes before the rest. -/
theorem length_of_decode {bytes rest : List UInt8} {i : X64Instr} (h : decodeX64 bytes = some (i, rest)) :
    bytes.length = i.encode.length + rest.length := by
  unfold decodeX64 at h
  split at h <;> cases h <;> simp only [X64Instr.encode, List.length_cons, List.length_append, length_leBytes,
    List.length_nil] <;> omega

/-- An instruction has at least one byte. -/
theorem length_encode_pos (i : X64Instr) : 0 < i.encode.length := by
  cases i <;> simp [X64Instr.encode]

/-- An instruction has at most 15 bytes. -/
theorem length_encode_le (i : X64Instr) : i.encode.length ≤ 15 := by
  cases i <;> simp [X64Instr.encode]

/-! ## The machine -/

structure X64 where
  rip : BitVec 64
  regs : Fin 16 → BitVec 64
  xmm : Fin 16 → BitVec 128
  zf : Bool
  memory : BitVec 64 → UInt8
  executable : BitVec 64 → Bool

namespace X64

/-- The bytes from an address on. -/
def bytesAt (memory : BitVec 64 → UInt8) (a : BitVec 64) (n : Nat) : List UInt8 :=
  (List.range n).map fun k => memory (a + BitVec.ofNat 64 k)

def read64 (s : X64) (a : BitVec 64) : BitVec 64 := BitVec.ofNat 64 (leValue (bytesAt s.memory a 8))

def setReg (s : X64) (r : Fin 16) (v : BitVec 64) : X64 := { s with regs := fun q => if q = r then v else s.regs q }

def setXmm (s : X64) (r : Fin 16) (v : BitVec 128) : X64 := { s with xmm := fun q => if q = r then v else s.xmm q }

/-- What an instruction does, when `rip` is already behind it. -/
def exec (s : X64) : X64Instr → X64
  | .endbr64 => s
  | .cmpMem disp imm => { s with zf := s.read64 (s.rip + disp.signExtend 64) == imm.signExtend 64 }
  | .je disp => if s.zf then { s with rip := s.rip + disp.signExtend 64 } else s
  | .jmpMem disp => { s with rip := s.read64 (s.rip + disp.signExtend 64) }
  | .ret => { s.setReg 4 (s.regs 4 + 8) with rip := s.read64 (s.regs 4) }
  | .xorRax => { s.setReg 0 (s.regs 0 ^^^ s.regs 0) with zf := s.regs 0 ^^^ s.regs 0 == 0 }
  | .xorEax =>
    let low := (s.regs 0).setWidth 32
    { s.setReg 0 ((low ^^^ low).setWidth 64) with zf := low ^^^ low == 0 }
  | .xorps | .xorpd => s.setXmm 0 (s.xmm 0 ^^^ s.xmm 0)

theorem read64_congr {s t : X64} (h : s.memory = t.memory) (a : BitVec 64) : s.read64 a = t.read64 a := by
  rw [read64, read64, h]

/-- One step; there is none when the bytes are no instruction or may not be executed. -/
def step (s : X64) : Option X64 :=
  match decodeX64 (bytesAt s.memory s.rip 15) with
  | none => none
  | some (i, rest) =>
    if (List.range (15 - rest.length)).all fun k => s.executable (s.rip + BitVec.ofNat 64 k) then
      some ({ s with rip := s.rip + BitVec.ofNat 64 (15 - rest.length) }.exec i)
    else none

def run : Nat → X64 → Option X64
  | 0, s => some s
  | n + 1, s => s.step.bind (run n)

/-! ## Code -/

/-- The instruction stands there, and may be executed. -/
def InstrAt (s : X64) (a : BitVec 64) (i : X64Instr) : Prop :=
  ∀ k b, i.encode[k]? = some b →
    s.memory (a + BitVec.ofNat 64 k) = b ∧ s.executable (a + BitVec.ofNat 64 k) = true

theorem length_bytesAt (memory : BitVec 64 → UInt8) (a : BitVec 64) (n : Nat) : (bytesAt memory a n).length = n := by
  simp [bytesAt]

/-- Bytes that stand at an address are read from there. -/
theorem bytesAt_eq {memory : BitVec 64 → UInt8} {a : BitVec 64} {bytes : List UInt8}
    (h : ∀ k b, bytes[k]? = some b → memory (a + BitVec.ofNat 64 k) = b) : bytesAt memory a bytes.length = bytes := by
  refine List.ext_getElem? fun k => ?_
  rw [bytesAt, List.getElem?_map]
  rcases Nat.lt_or_ge k bytes.length with hk | hk
  · rw [List.getElem?_range hk, List.getElem?_eq_getElem hk, Option.map_some, h k _ (List.getElem?_eq_getElem hk)]
  · rw [List.getElem?_eq_none hk, List.getElem?_eq_none (by rw [List.length_range]; exact hk), Option.map_none]

theorem bytesAt_add (memory : BitVec 64 → UInt8) (a : BitVec 64) (m n : Nat) :
    bytesAt memory a (m + n) = bytesAt memory a m ++ bytesAt memory (a + BitVec.ofNat 64 m) n := by
  simp only [bytesAt, List.range_add, List.map_append, List.map_map, List.append_cancel_left_eq]
  refine List.map_congr_left fun k _ => ?_
  simp only [Function.comp_apply, BitVec.ofNat_add, BitVec.add_assoc]

/-- The step where an instruction stands. -/
theorem step_of_code {s : X64} {i : X64Instr} (h : s.InstrAt s.rip i) :
    s.step = some ({ s with rip := s.rip + BitVec.ofNat 64 i.encode.length }.exec i) := by
  have hsplit : bytesAt s.memory s.rip 15 = i.encode ++
      bytesAt s.memory (s.rip + BitVec.ofNat 64 i.encode.length) (15 - i.encode.length) := by
    have hbytes := bytesAt_eq fun k b hb => (h k b hb).1
    have hadd := bytesAt_add s.memory s.rip i.encode.length (15 - i.encode.length)
    rw [hbytes, Nat.add_sub_cancel' (length_encode_le i)] at hadd
    exact hadd
  have hsize : 15 - (15 - i.encode.length) = i.encode.length := by
    have := length_encode_le i
    omega
  have hexecutable : (List.range i.encode.length).all (fun k => s.executable (s.rip + BitVec.ofNat 64 k)) = true := by
    rw [List.all_eq_true]
    intro k hk
    exact (h k _ (List.getElem?_eq_getElem (List.mem_range.mp hk))).2
  rw [step, hsplit, decode_encode]
  simp only [length_bytesAt, hsize, hexecutable, if_true]

theorem step_jmpMem {s : X64} {disp : BitVec 32} (h : s.InstrAt s.rip (.jmpMem disp)) :
    s.step = some { s with rip := s.read64 (s.rip + 6 + disp.signExtend 64) } := by
  rw [step_of_code h]
  have hread := @read64_congr { s with rip := s.rip + 6 } s rfl (s.rip + 6 + disp.signExtend 64)
  exact congrArg (fun v => some { s with rip := v }) hread

theorem step_ret {s : X64} (h : s.InstrAt s.rip .ret) : s.step =
    some { s with rip := s.read64 (s.regs 4), regs := fun r => if r = 4 then s.regs 4 + 8 else s.regs r } := by
  rw [step_of_code h]
  have hread := @read64_congr { s with rip := s.rip + 1 } s rfl (s.regs 4)
  exact congrArg (fun v => some { s with rip := v, regs := fun r => if r = 4 then s.regs 4 + 8 else s.regs r }) hread

theorem run_add (m n : Nat) (s : X64) : s.run (m + n) = (s.run m).bind (run n) := by
  induction m generalizing s with
  | zero => rw [Nat.zero_add, run, Option.bind_some]
  | succ m ih =>
    rw [Nat.add_right_comm, run, run, Option.bind_assoc]
    exact congrArg (Option.bind s.step) (funext ih)

theorem run_one (s : X64) : s.run 1 = s.step := by
  rw [run]
  cases s.step <;> rfl

/-- Where the first byte may not be executed there is no step. -/
theorem step_none {s : X64} (h : s.executable s.rip = false) : s.step = none := by
  rw [step]
  split
  · rfl
  · rename_i i rest hdecode
    have hlength := length_of_decode hdecode
    have hsome := length_encode_pos i
    rw [length_bytesAt] at hlength
    rw [if_neg]
    rw [List.all_eq_true]
    intro hall
    have hfirst := hall 0 (List.mem_range.mpr (by omega))
    rw [BitVec.add_zero, h] at hfirst
    cases hfirst

end X64

end Lib
