import Jni2Hook.Lib.X64
import Jni2Hook.Transform.ForwardedArguments
import Mathlib.Data.List.Induction

/-!
# Trampolines

`hook/trampoline.c` on x86-64: the page that stands between the VM and the function of a hook. What the system answers
to a request for memory or for its protection is an argument.

* `trampolineCreate`, `trampolineDisarm`: the calls; `entryReturnKind`: the return type they are called with.
* `TrampolineBytes`: what every page holds that came from the one and went through any number of the others.
* `trampoline_calls`: what a call of the page does.
-/

namespace Jni2Hook

open Lib

/-! ## Pages -/

/-- `TRAMPOLINE_PAGE`. -/
def trampolinePage : Nat := 4096

/-- `TRAMPOLINE_ARMED`. -/
def trampolineArmed : Nat := 64

/-- `TRAMPOLINE_TARGET`. -/
def trampolineTarget : Nat := 72

/-- `k_prologue`. -/
def kPrologue : List UInt8 :=
  [0xF3, 0x0F, 0x1E, 0xFA,
    0x48, 0x83, 0x3D, 0x34, 0x00, 0x00, 0x00, 0x00,
    0x74, 0x06,
    0xFF, 0x25, 0x34, 0x00, 0x00, 0x00]

def emitZeroReturn (returnKind : UInt8) : List UInt8 :=
  if returnKind = 0x56 then [0xC3]
  else if returnKind ∈ [0x4A, 0x4C, 0x5B] then [0x48, 0x31, 0xC0, 0xC3]
  else if returnKind = 0x46 then [0x0F, 0x57, 0xC0, 0xC3]
  else if returnKind = 0x44 then [0x66, 0x0F, 0x57, 0xC0, 0xC3]
  else [0x31, 0xC0, 0xC3]

/-- A page of memory. It can be read, and is written or executed. -/
structure Page where
  bytes : List UInt8
  executable : Bool
  deriving DecidableEq, Repr

/-- `memcpy` to an offset of the page. -/
def Page.copy (page : Page) (offset : Nat) (data : List UInt8) : Page :=
  { page with bytes := page.bytes.take offset ++ (data ++ page.bytes.drop (offset + data.length)) }

/-- `reserve_page`, when there is memory. -/
def reservePage : Page := ⟨List.replicate trampolinePage 0, false⟩

/-- `trampoline_create`. -/
def trampolineCreate (target : BitVec 64) (returnKind : UInt8) (reserved protects : Bool) : Option Page :=
  if target = 0 then none
  else if reserved = false then none
  else
    let page := (reservePage.copy 0 kPrologue).copy kPrologue.length (emitZeroReturn returnKind)
    let page := (page.copy trampolineArmed (leBytes 8 1)).copy trampolineTarget (leBytes 8 target.toNat)
    if protects then some { page with executable := true } else none

/-- `trampoline_disarm` on a page: `unprotects` is the answer to the request to write, `reprotects` that to the request
to execute again. -/
def trampolineDisarm (page : Page) (unprotects reprotects : Bool) : Page :=
  if unprotects = false then page
  else { page.copy trampolineArmed (leBytes 8 0) with executable := reprotects }

/-- The return type that `install` reads off a signature. -/
def entryReturnKind (signature : List UInt8) : UInt8 :=
  match signature.dropWhile (· != 0x29) with
  | [] => 0x56
  | _ :: returns => returns.headD 0

theorem entryReturnKind_text {d : MethodDescriptor} (hparameters : 0x29 ∉ d.parameters.flatMap FieldType.text) :
    entryReturnKind d.text = (resultText d.result).headD 0 := by
  have hpos : ∀ c ∈ d.parameters.flatMap FieldType.text, (c != 0x29) = true := by
    intro c hc
    have : c ≠ 0x29 := fun heq => hparameters (heq ▸ hc)
    simpa using this
  rw [entryReturnKind, MethodDescriptor.text, List.dropWhile_cons_of_pos (by decide), List.dropWhile_append_of_pos hpos,
    List.dropWhile_cons_of_neg (by decide)]

/-! ## What a page holds -/

/-- The instructions of the page. -/
def zeroReturn (returnKind : UInt8) : List X64Instr :=
  if returnKind = 0x56 then [.ret]
  else if returnKind ∈ [0x4A, 0x4C, 0x5B] then [.xorRax, .ret]
  else if returnKind = 0x46 then [.xorps, .ret]
  else if returnKind = 0x44 then [.xorpd, .ret]
  else [.xorEax, .ret]

theorem emitZeroReturn_eq (returnKind : UInt8) :
    emitZeroReturn returnKind = (zeroReturn returnKind).flatMap X64Instr.encode := by
  unfold emitZeroReturn zeroReturn
  split
  · rfl
  split
  · rfl
  split
  · rfl
  split <;> rfl

theorem length_emitZeroReturn_le (returnKind : UInt8) : (emitZeroReturn returnKind).length ≤ 5 := by
  unfold emitZeroReturn
  split
  · decide
  split
  · decide
  split
  · decide
  split <;> decide

theorem getElem?_copy {page : Page} {offset : Nat} {data : List UInt8} (h : offset + data.length ≤ page.bytes.length)
    (k : Nat) : (page.copy offset data).bytes[k]? =
      if offset ≤ k ∧ k < offset + data.length then data[k - offset]? else page.bytes[k]? := by
  have hlen : (page.bytes.take offset).length = offset := by rw [List.length_take]; omega
  simp only [Page.copy]
  rcases Nat.lt_or_ge k offset with hk | hk
  · rw [List.getElem?_append_left (by rw [hlen]; exact hk), List.getElem?_take_of_lt hk, if_neg (by omega)]
  rw [List.getElem?_append_right (by rw [hlen]; exact hk), hlen]
  rcases Nat.lt_or_ge k (offset + data.length) with hk' | hk'
  · rw [List.getElem?_append_left (by omega), if_pos ⟨hk, hk'⟩]
  · rw [List.getElem?_append_right (by omega), List.getElem?_drop, if_neg (by omega)]
    congr 1
    omega

theorem length_copy {page : Page} {offset : Nat} {data : List UInt8} (h : offset + data.length ≤ page.bytes.length) :
    (page.copy offset data).bytes.length = page.bytes.length := by
  simp only [Page.copy, List.length_append, List.length_take, List.length_drop]
  omega

/-- The page of a hook: the code, whether it is armed, and the function. -/
structure TrampolineBytes (target : BitVec 64) (returnKind : UInt8) (armed : Bool) (page : Page) : Prop where
  length : page.bytes.length = trampolinePage
  code : ∀ k < (kPrologue ++ emitZeroReturn returnKind).length,
    page.bytes[k]? = (kPrologue ++ emitZeroReturn returnKind)[k]?
  flag : ∀ k < 8, page.bytes[trampolineArmed + k]? = (leBytes 8 (if armed then 1 else 0))[k]?
  function : ∀ k < 8, page.bytes[trampolineTarget + k]? = (leBytes 8 target.toNat)[k]?

theorem trampolineBytes_of_create {target : BitVec 64} {returnKind : UInt8} {reserved protects : Bool} {page : Page}
    (h : trampolineCreate target returnKind reserved protects = some page) :
    TrampolineBytes target returnKind true page ∧ page.executable = true := by
  unfold trampolineCreate at h
  split at h
  · cases h
  split at h
  · cases h
  dsimp only at h
  split at h
  swap
  · cases h
  cases h
  have hzero := length_emitZeroReturn_le returnKind
  have hprologue : kPrologue.length = 20 := rfl
  have hflag : (leBytes 8 1).length = 8 := length_leBytes 8 1
  have hfunction : (leBytes 8 target.toNat).length = 8 := length_leBytes 8 _
  have h₀ : reservePage.bytes.length = 4096 := List.length_replicate
  have fits₁ : 0 + kPrologue.length ≤ reservePage.bytes.length := by omega
  have h₁ := length_copy fits₁
  have fits₂ : kPrologue.length + (emitZeroReturn returnKind).length ≤ (reservePage.copy 0 kPrologue).bytes.length := by
    omega
  have h₂ := length_copy fits₂
  have fits₃ : trampolineArmed + (leBytes 8 1).length ≤
      ((reservePage.copy 0 kPrologue).copy kPrologue.length (emitZeroReturn returnKind)).bytes.length := by
    unfold trampolineArmed
    omega
  have h₃ := length_copy fits₃
  have fits₄ : trampolineTarget + (leBytes 8 target.toNat).length ≤
      (((reservePage.copy 0 kPrologue).copy kPrologue.length (emitZeroReturn returnKind)).copy trampolineArmed
        (leBytes 8 1)).bytes.length := by
    unfold trampolineTarget
    omega
  have h₄ := length_copy fits₄
  refine ⟨⟨?_, fun k hk => ?_, fun k hk => ?_, fun k hk => ?_⟩, rfl⟩
  · show (Page.bytes (Page.copy ..)).length = trampolinePage
    rw [h₄, h₃, h₂, h₁, h₀]
    rfl
  · rw [List.length_append] at hk
    show (Page.bytes (Page.copy ..))[k]? = _
    rw [getElem?_copy fits₄, if_neg (by unfold trampolineTarget; omega), getElem?_copy fits₃,
      if_neg (by unfold trampolineArmed; omega), getElem?_copy fits₂]
    split
    · rw [List.getElem?_append_right (by omega)]
    · rw [getElem?_copy fits₁, if_pos (by omega), List.getElem?_append_left (by omega), Nat.sub_zero]
  · show (Page.bytes (Page.copy ..))[trampolineArmed + k]? = _
    rw [getElem?_copy fits₄, if_neg (by unfold trampolineTarget trampolineArmed; omega), getElem?_copy fits₃,
      if_pos (by omega), Nat.add_sub_cancel_left]
    rfl
  · show (Page.bytes (Page.copy ..))[trampolineTarget + k]? = _
    rw [getElem?_copy fits₄, if_pos (by omega), Nat.add_sub_cancel_left]

/-- A disarmed page stays what it is but for the flag. -/
theorem TrampolineBytes.disarm {target : BitVec 64} {returnKind : UInt8} {armed : Bool} {page : Page}
    (h : TrampolineBytes target returnKind armed page) (unprotects reprotects : Bool) :
    TrampolineBytes target returnKind (armed && !unprotects) (trampolineDisarm page unprotects reprotects) ∧
      (trampolineDisarm page unprotects reprotects).executable = if unprotects then reprotects
        else page.executable := by
  cases unprotects with
  | false =>
    rw [Bool.not_false, Bool.and_true]
    exact ⟨h, rfl⟩
  | true =>
    have hzero := length_emitZeroReturn_le returnKind
    have hprologue : kPrologue.length = 20 := rfl
    have hflag : (leBytes 8 0).length = 8 := length_leBytes 8 0
    have fits : trampolineArmed + (leBytes 8 0).length ≤ page.bytes.length := by
      rw [h.length, hflag]
      decide
    rw [Bool.not_true, Bool.and_false]
    refine ⟨⟨(length_copy fits).trans h.length, fun k hk => ?_, fun k hk => ?_, fun k hk => ?_⟩, rfl⟩
    · have hsmall : k < 64 := by
        rw [List.length_append] at hk
        omega
      show (Page.bytes (page.copy ..))[k]? = _
      rw [getElem?_copy fits, if_neg (by unfold trampolineArmed; omega)]
      exact h.code k hk
    · show (Page.bytes (page.copy ..))[trampolineArmed + k]? = _
      rw [getElem?_copy fits, if_pos (by omega), Nat.add_sub_cancel_left]
      rfl
    · show (Page.bytes (page.copy ..))[trampolineTarget + k]? = _
      rw [getElem?_copy fits, if_neg (by unfold trampolineTarget trampolineArmed; omega)]
      exact h.function k hk

/-- A page through any number of calls, each with its two answers. -/
def disarmAll (page : Page) (answers : List (Bool × Bool)) : Page :=
  answers.foldl (fun p a => trampolineDisarm p a.1 a.2) page

/-- The answers to the last call that could write to the page. -/
def lastDisarm (answers : List (Bool × Bool)) : Option (Bool × Bool) := (answers.filter (·.1)).getLast?

theorem TrampolineBytes.disarmAll {target : BitVec 64} {returnKind : UInt8} {page : Page}
    (h : TrampolineBytes target returnKind true page) (hexecutable : page.executable = true)
    (answers : List (Bool × Bool)) :
    TrampolineBytes target returnKind (lastDisarm answers).isNone (Jni2Hook.disarmAll page answers) ∧
      (Jni2Hook.disarmAll page answers).executable = (lastDisarm answers).all (·.2) := by
  induction answers using List.reverseRecOn with
  | nil => exact ⟨h, hexecutable⟩
  | append_singleton answers a ih =>
    obtain ⟨unprotects, reprotects⟩ := a
    obtain ⟨hbytes, hexec⟩ := ih.1.disarm unprotects reprotects
    have hlast : Jni2Hook.disarmAll page (answers ++ [(unprotects, reprotects)]) =
        trampolineDisarm (Jni2Hook.disarmAll page answers) unprotects reprotects := by
      rw [Jni2Hook.disarmAll, List.foldl_append]
      rfl
    rw [hlast, hexec, ih.2]
    cases unprotects with
    | false =>
      have hsame : lastDisarm (answers ++ [(false, reprotects)]) = lastDisarm answers := by
        rw [lastDisarm, List.filter_append]
        simp [lastDisarm]
      rw [hsame]
      rw [Bool.not_false, Bool.and_true] at hbytes
      exact ⟨hbytes, rfl⟩
    | true =>
      have hnew : lastDisarm (answers ++ [(true, reprotects)]) = some (true, reprotects) := by
        rw [lastDisarm, List.filter_append]
        simp
      rw [hnew]
      rw [Bool.not_true, Bool.and_false] at hbytes
      exact ⟨hbytes, rfl⟩

/-! ## Calling a page -/

/-- The page stands at an address. -/
def Mapped (s : X64) (base : BitVec 64) (page : Page) : Prop :=
  ∀ k b, page.bytes[k]? = some b →
    s.memory (base + BitVec.ofNat 64 k) = b ∧ s.executable (base + BitVec.ofNat 64 k) = page.executable

/-- The call has gone on to the function, with everything as it was. -/
structure Forwards (target : BitVec 64) (s s' : X64) : Prop where
  rip : s'.rip = target
  regs : s'.regs = s.regs
  xmm : s'.xmm = s.xmm
  memory : s'.memory = s.memory

/-- Where a caller looks for the value holds a zero. -/
structure ValueType.ZeroIn (s : X64) (type : ValueType) : Prop where
  floating : type ∈ [.float, .double] → s.xmm 0 = 0
  integer : type ∉ [.float, .double] → s.regs 0 = 0

theorem ValueType.ZeroIn.congr {type : ValueType} {s s' : X64} (h : type.ZeroIn s) (hregs : s'.regs 0 = s.regs 0)
    (hxmm : s'.xmm 0 = s.xmm 0) : type.ZeroIn s' :=
  ⟨fun htype => hxmm.trans (h.floating htype), fun htype => hregs.trans (h.integer htype)⟩

/-- The call has returned a zero of the type, and kept everything else. -/
structure ReturnsZero (result : Option FieldType) (s s' : X64) : Prop where
  rip : s'.rip = s.read64 (s.regs 4)
  stack : s'.regs 4 = s.regs 4 + 8
  regs : ∀ r, r ≠ 0 → r ≠ 4 → s'.regs r = s.regs r
  xmm : ∀ r, r ≠ 0 → s'.xmm r = s.xmm r
  memory : s'.memory = s.memory
  zero : ∀ type ∈ result, type.valueType.ZeroIn s'

section Calls

variable {target base : BitVec 64} {returnKind : UInt8} {armed : Bool} {page : Page} {s : X64}

theorem instrAt_of_mapped (hmapped : Mapped s base page) (hexecutable : page.executable = true) {offset : Nat}
    {i : X64Instr} (hbytes : ∀ k b, i.encode[k]? = some b → page.bytes[offset + k]? = some b) :
    s.InstrAt (base + BitVec.ofNat 64 offset) i := by
  intro k b hb
  have h := hmapped (offset + k) b (hbytes k b hb)
  rw [BitVec.ofNat_add, ← BitVec.add_assoc, hexecutable] at h
  exact h

/-- An instruction of the code of the page. -/
theorem TrampolineBytes.instrAt (h : TrampolineBytes target returnKind armed page) (hmapped : Mapped s base page)
    (hexecutable : page.executable = true) (offset : Nat) {i : X64Instr}
    (hcode : i.encode <+: (kPrologue ++ emitZeroReturn returnKind).drop offset) :
    s.InstrAt (base + BitVec.ofNat 64 offset) i := by
  refine instrAt_of_mapped hmapped hexecutable fun k b hb => ?_
  have hat : (kPrologue ++ emitZeroReturn returnKind)[offset + k]? = some b := by
    obtain ⟨rest, hrest⟩ := hcode
    rw [← List.getElem?_drop, ← hrest, List.getElem?_append_left (List.getElem?_eq_some_iff.mp hb).1, hb]
  rw [h.code (offset + k) (List.getElem?_eq_some_iff.mp hat).1]
  exact hat

/-- A number that stands in the page. -/
theorem read64_of_mapped (hmapped : Mapped s base page) (offset : Nat) {value : Nat} (hvalue : value < 2 ^ 64)
    (hbytes : ∀ k < 8, page.bytes[offset + k]? = (leBytes 8 value)[k]?) :
    s.read64 (base + BitVec.ofNat 64 offset) = BitVec.ofNat 64 value := by
  have hread := @X64.bytesAt_eq s.memory (base + BitVec.ofNat 64 offset) (leBytes 8 value) fun k b hb => by
    have hk : k < 8 := by
      have := (List.getElem?_eq_some_iff.mp hb).1
      rwa [length_leBytes] at this
    have h := (hmapped (offset + k) b ((hbytes k hk).trans hb)).1
    rw [BitVec.ofNat_add, ← BitVec.add_assoc] at h
    exact h
  rw [length_leBytes] at hread
  rw [X64.read64, hread, leValue_leBytes (by omega)]

variable (h : TrampolineBytes target returnKind armed page) (hmapped : Mapped s base page)
  (hexecutable : page.executable = true) (hrip : s.rip = base)

include h hmapped hexecutable hrip

/-- The prologue looks at the flag, and decides. -/
theorem TrampolineBytes.run_prologue : s.run 3 =
    some { s with rip := base + BitVec.ofNat 64 (if armed then 14 else 20), zf := !armed } := by
  subst hrip
  have hendbr := h.instrAt hmapped hexecutable 0 (i := .endbr64) ⟨_, rfl⟩
  have hcmp := h.instrAt hmapped hexecutable 4 (i := .cmpMem 0x34 0) ⟨_, rfl⟩
  have hje := h.instrAt hmapped hexecutable 12 (i := .je 6) ⟨_, rfl⟩
  have hflag := read64_of_mapped hmapped trampolineArmed (by split <;> decide) h.flag
  rw [BitVec.add_zero] at hendbr
  let s₁ : X64 := { s with rip := s.rip + BitVec.ofNat 64 4 }
  let s₂ : X64 := { s with rip := s.rip + BitVec.ofNat 64 12, zf := !armed }
  have step₁ : s.step = some s₁ := X64.step_of_code hendbr
  have step₂ : s₁.step = some s₂ := by
    have hnext : s₁.rip + BitVec.ofNat 64 (X64Instr.cmpMem 0x34 0).encode.length = s.rip + BitVec.ofNat 64 12 :=
      BitVec.add_assoc _ _ _
    have hdata : s.rip + BitVec.ofNat 64 12 + (0x34 : BitVec 32).signExtend 64 = s.rip +
      BitVec.ofNat 64 trampolineArmed :=
      BitVec.add_assoc _ _ _
    have hzero : (BitVec.ofNat 64 (if armed then 1 else 0) == (0 : BitVec 8).signExtend 64) = !armed := by
      cases armed <;> decide
    rw [X64.step_of_code (s := s₁) hcmp, hnext]
    simp only [X64.exec, hdata]
    rw [show X64.read64 { s₁ with rip := s.rip + BitVec.ofNat 64 12 }
      (s.rip + BitVec.ofNat 64 trampolineArmed) = _ from hflag, hzero]
  have step₃ : s₂.step = some { s with rip := s.rip + BitVec.ofNat 64 (if armed then 14 else 20), zf := !armed } := by
    have hnext : s₂.rip + BitVec.ofNat 64 (X64Instr.je 6).encode.length = s.rip + BitVec.ofNat 64 14 :=
      BitVec.add_assoc _ _ _
    have htaken : s.rip + BitVec.ofNat 64 14 + (6 : BitVec 8).signExtend 64 = s.rip + BitVec.ofNat 64 20 :=
      BitVec.add_assoc _ _ _
    rw [X64.step_of_code (s := s₂) hje, hnext]
    cases armed with
    | true => rfl
    | false =>
      simp only [X64.exec, htaken]
      rfl
  rw [X64.run, step₁, Option.bind_some, X64.run, step₂, Option.bind_some, X64.run, step₃]
  rfl

/-- An armed page goes on to the function. -/
theorem TrampolineBytes.forwards (harmed : armed = true) : ∃ n s', s.run n = some s' ∧ Forwards target s s' := by
  have hprologue := h.run_prologue hmapped hexecutable hrip
  have hjmp := h.instrAt hmapped hexecutable 14 (i := .jmpMem 0x34) ⟨_, rfl⟩
  have hfunction := read64_of_mapped hmapped trampolineTarget target.isLt h.function
  rw [harmed, if_pos rfl, Bool.not_true] at hprologue
  let s₃ : X64 := { s with rip := base + BitVec.ofNat 64 14, zf := false }
  have hstep := X64.step_jmpMem (s := s₃) hjmp
  have hnext : s₃.rip + 6 + (0x34 : BitVec 32).signExtend 64 = base + BitVec.ofNat 64 trampolineTarget := by
    rw [BitVec.add_assoc, BitVec.add_assoc]
    rfl
  have hread : s₃.read64 (base + BitVec.ofNat 64 trampolineTarget) = target := by
    rw [@X64.read64_congr s₃ s rfl, hfunction, BitVec.ofNat_toNat, BitVec.setWidth_eq]
  rw [hnext, hread] at hstep
  refine ⟨3 + 1, { s₃ with rip := target }, ?_, rfl, rfl, rfl, rfl⟩
  rw [X64.run_add, hprologue, Option.bind_some, X64.run_one]
  exact hstep

omit h hmapped hexecutable hrip

/-- What an instruction that makes a zero leaves alone. -/
structure Zeroes (result : Option FieldType) (s s' : X64) : Prop where
  rip : s'.rip = s.rip
  regs : ∀ r, r ≠ 0 → s'.regs r = s.regs r
  xmm : ∀ r, r ≠ 0 → s'.xmm r = s.xmm r
  memory : s'.memory = s.memory
  executable : s'.executable = s.executable
  zero : ∀ type ∈ result, type.valueType.ZeroIn s'

theorem zeroes_integer {result : Option FieldType}
    (hresult : ∀ type ∈ result, type.valueType ∉ [ValueType.float, .double]) {zero : X64Instr}
    (hzero : zero ∈ [X64Instr.xorRax, .xorEax]) (s : X64) : Zeroes result s (s.exec zero) := by
  have hrax : (s.exec zero).regs 0 = 0 := by
    simp only [List.mem_cons, List.not_mem_nil, or_false] at hzero
    obtain rfl | rfl := hzero <;> simp [X64.exec, X64.setReg]
  have hin : ∀ type ∈ result, type.valueType.ZeroIn (s.exec zero) := by
    intro type htype
    exact ⟨fun hfloating => absurd hfloating (hresult type htype), fun _ => hrax⟩
  simp only [List.mem_cons, List.not_mem_nil, or_false] at hzero
  obtain rfl | rfl := hzero
  · exact ⟨rfl, fun r hr => if_neg hr, fun _ _ => rfl, rfl, rfl, hin⟩
  · exact ⟨rfl, fun r hr => if_neg hr, fun _ _ => rfl, rfl, rfl, hin⟩

theorem zeroes_float {result : Option FieldType}
    (hresult : ∀ type ∈ result, type.valueType ∈ [ValueType.float, .double])
    {zero : X64Instr} (hzero : zero ∈ [X64Instr.xorps, .xorpd]) (s : X64) : Zeroes result s (s.exec zero) := by
  have hxmm : (s.exec zero).xmm 0 = 0 := by
    simp only [List.mem_cons, List.not_mem_nil, or_false] at hzero
    obtain rfl | rfl := hzero <;> simp [X64.exec, X64.setXmm]
  have hin : ∀ type ∈ result, type.valueType.ZeroIn (s.exec zero) := by
    intro type htype
    exact ⟨fun _ => hxmm, fun hinteger => absurd (hresult type htype) hinteger⟩
  simp only [List.mem_cons, List.not_mem_nil, or_false] at hzero
  obtain rfl | rfl := hzero
  · exact ⟨rfl, fun _ _ => rfl, fun r hr => if_neg hr, rfl, rfl, hin⟩
  · exact ⟨rfl, fun _ _ => rfl, fun r hr => if_neg hr, rfl, rfl, hin⟩

/-- The code behind the prologue, by the type. -/
theorem zeroReturn_cases (result : Option FieldType) :
    (result = none ∧ zeroReturn ((resultText result).headD 0) = [.ret]) ∨
    ∃ zero, zeroReturn ((resultText result).headD 0) = [zero, .ret] ∧ ∀ s, Zeroes result s (s.exec zero) := by
  rcases result with _ | type
  · exact .inl ⟨rfl, rfl⟩
  have integer {type : FieldType} (htype : type.valueType ∉ [ValueType.float, .double]) {zero : X64Instr}
      (hzero : zero ∈ [X64Instr.xorRax, .xorEax]) (s : X64) : Zeroes (some type) s (s.exec zero) := by
    refine zeroes_integer (fun t ht => ?_) hzero s
    obtain rfl := Option.mem_some.mp ht
    exact htype
  have floating {type : FieldType} (htype : type.valueType ∈ [ValueType.float, .double]) {zero : X64Instr}
      (hzero : zero ∈ [X64Instr.xorps, .xorpd]) (s : X64) : Zeroes (some type) s (s.exec zero) := by
    refine zeroes_float (fun t ht => ?_) hzero s
    obtain rfl := Option.mem_some.mp ht
    exact htype
  right
  cases type with
  | object name => exact ⟨.xorRax, rfl, integer (by simp [FieldType.valueType]) (by decide)⟩
  | array component => exact ⟨.xorRax, rfl, integer (by simp [FieldType.valueType]) (by decide)⟩
  | base type =>
    cases type with
    | byte => exact ⟨.xorEax, rfl, integer (by decide) (by decide)⟩
    | char => exact ⟨.xorEax, rfl, integer (by decide) (by decide)⟩
    | double => exact ⟨.xorpd, rfl, floating (by decide) (by decide)⟩
    | float => exact ⟨.xorps, rfl, floating (by decide) (by decide)⟩
    | int => exact ⟨.xorEax, rfl, integer (by decide) (by decide)⟩
    | long => exact ⟨.xorRax, rfl, integer (by decide) (by decide)⟩
    | short => exact ⟨.xorEax, rfl, integer (by decide) (by decide)⟩
    | boolean => exact ⟨.xorEax, rfl, integer (by decide) (by decide)⟩

/-- The return behind a zero. -/
theorem Zeroes.returns {result : Option FieldType} {s₁ s₂ : X64} (hzero : Zeroes result s₁ s₂)
    (hregs : s₁.regs = s.regs)
    (hxmm : s₁.xmm = s.xmm) (hmemory : s₁.memory = s.memory) (hret : s₂.InstrAt s₂.rip .ret) :
    ∃ s', s₂.step = some s' ∧ ReturnsZero result s s' := by
  have hstack : s₂.regs 4 = s.regs 4 := by rw [hzero.regs 4 (by decide), hregs]
  have hread : s₂.read64 (s₂.regs 4) = s.read64 (s.regs 4) := by
    rw [hstack]
    exact X64.read64_congr (hzero.memory.trans hmemory) _
  have hstep := X64.step_ret hret
  rw [hread] at hstep
  refine ⟨_, hstep, rfl, ?_, fun r hr hr4 => ?_, fun r hr => ?_, hzero.memory.trans hmemory, fun type htype => ?_⟩
  · show (if (4 : Fin 16) = 4 then s₂.regs 4 + 8 else s₂.regs 4) = _
    rw [if_pos rfl, hstack]
  · show (if r = 4 then s₂.regs 4 + 8 else s₂.regs r) = _
    rw [if_neg hr4, hzero.regs r hr, hregs]
  · show s₂.xmm r = _
    rw [hzero.xmm r hr, hxmm]
  · -- the stack pointer is not where the value is
    have hrax : (if (0 : Fin 16) = 4 then s₂.regs 4 + 8 else s₂.regs 0) = s₂.regs 0 := if_neg (by decide)
    exact (hzero.zero type htype).congr hrax rfl

include h hmapped hexecutable hrip

/-- A page that is not armed returns. -/
theorem TrampolineBytes.returns (harmed : armed = false) {result : Option FieldType}
    (hkind : returnKind = (resultText result).headD 0) : ∃ n s', s.run n = some s' ∧ ReturnsZero result s s' := by
  have hprologue := h.run_prologue hmapped hexecutable hrip
  rw [harmed, if_neg Bool.false_ne_true, Bool.not_false] at hprologue
  let s₃ : X64 := { s with rip := base + BitVec.ofNat 64 20, zf := true }
  have hcode : (kPrologue ++ emitZeroReturn returnKind).drop 20 = (zeroReturn returnKind).flatMap X64Instr.encode := by
    rw [← emitZeroReturn_eq]
    rfl
  rcases zeroReturn_cases result with ⟨hvoid, hreturn⟩ | ⟨zero, hreturn, hzero⟩
  · rw [← hkind] at hreturn
    rw [hreturn] at hcode
    have hret := h.instrAt hmapped hexecutable 20 (i := .ret) ⟨[], by rw [hcode]; rfl⟩
    have hnone : Zeroes result s₃ s₃ := by
      refine ⟨rfl, fun _ _ => rfl, fun _ _ => rfl, rfl, rfl, fun type htype => ?_⟩
      rw [hvoid] at htype
      cases htype
    obtain ⟨s', hlast, hreturns⟩ := hnone.returns (s := s) rfl rfl rfl hret
    refine ⟨3 + 1, s', ?_, hreturns⟩
    rw [X64.run_add, hprologue, Option.bind_some, X64.run_one]
    exact hlast
  · rw [← hkind] at hreturn
    rw [hreturn] at hcode
    have hfirst := h.instrAt hmapped hexecutable 20 (i := zero) ⟨_, by rw [hcode]; rfl⟩
    have hsecond := h.instrAt hmapped hexecutable (20 + zero.encode.length) (i := .ret) ⟨[], by
      rw [← List.drop_drop, hcode, List.flatMap_cons, List.drop_left]
      rfl⟩
    have hstep := X64.step_of_code (s := s₃) hfirst
    have hzeroes := hzero { s₃ with rip := s₃.rip + BitVec.ofNat 64 zero.encode.length }
    obtain ⟨s', hlast, hreturns⟩ := hzeroes.returns (s := s) rfl rfl rfl (by
      intro k b hb
      rw [hzeroes.rip, hzeroes.memory, hzeroes.executable]
      have := hsecond k b hb
      rw [BitVec.ofNat_add, ← BitVec.add_assoc] at this
      exact this)
    refine ⟨3 + 2, s', ?_, hreturns⟩
    rw [X64.run_add, hprologue, Option.bind_some, X64.run_add 1 1, X64.run_one, hstep, Option.bind_some, X64.run_one]
    exact hlast

end Calls

/-- **A trampoline never calls a function that it was told to forget.** For every function and every method without a
`)` in the class names of its parameters, every page that was made for them, and every number of calls of
`trampoline_disarm` with every answer of the system: as long as none of them could write to the page, a call of the page
goes on to the function with every register and the stack as they were. From the first that could write on, the function
is never called: a call returns to its caller a zero of what the method returns and keeps every other register, or, when
the last one could not make the page executable again, it faults at once. -/
theorem trampoline_calls {target base : BitVec 64} {d : MethodDescriptor} {reserved protects : Bool} {page : Page}
    (answers : List (Bool × Bool)) {s : X64} (hparameters : 0x29 ∉ d.parameters.flatMap FieldType.text)
    (hcreate : trampolineCreate target (entryReturnKind d.text) reserved protects = some page)
    (hmapped : Mapped s base (disarmAll page answers)) (hrip : s.rip = base) :
    match lastDisarm answers with
    | none => ∃ n s', s.run n = some s' ∧ Forwards target s s'
    | some (_, true) => ∃ n s', s.run n = some s' ∧ ReturnsZero d.result s s'
    | some (_, false) => s.step = none := by
  obtain ⟨hbytes, hexecutable⟩ := trampolineBytes_of_create hcreate
  obtain ⟨hafter, hexec⟩ := hbytes.disarmAll hexecutable answers
  cases hlast : lastDisarm answers with
  | none =>
    rw [hlast] at hafter hexec
    exact hafter.forwards hmapped hexec hrip rfl
  | some a =>
    obtain ⟨unprotects, reprotects⟩ := a
    rw [hlast] at hafter hexec
    cases reprotects with
    | true => exact hafter.returns hmapped hexec hrip rfl (entryReturnKind_text hparameters)
    | false =>
      refine X64.step_none ?_
      have hfirst := hafter.code 0 (by simp [kPrologue])
      have hmap := (hmapped 0 _ hfirst).2
      rw [BitVec.add_zero, ← hrip, hexec] at hmap
      exact hmap

/-- A machine whose memory is a page. -/
def pageMachine (page : Page) : X64 :=
  ⟨0, fun _ => 0, fun _ => 0, false, fun a => page.bytes.getD a.toNat 0, fun _ => page.executable⟩

theorem mapped_pageMachine {page : Page} (hlength : page.bytes.length = 4096) : Mapped (pageMachine page) 0 page := by
  intro k b hb
  have hk := (List.getElem?_eq_some_iff.mp hb).1
  refine ⟨?_, rfl⟩
  show page.bytes.getD (BitVec.ofNat 64 0 + BitVec.ofNat 64 k).toNat 0 = b
  rw [BitVec.zero_add, BitVec.toNat_ofNat, Nat.mod_eq_of_lt (by omega), List.getD_eq_getElem?_getD, hb]
  rfl

/-- `(I)J` -/
def longDescriptor : MethodDescriptor := ⟨[.base .int], some (.base .long)⟩

def longPage : Page := (trampolineCreate 0x1234 (entryReturnKind longDescriptor.text) true true).getD reservePage

theorem trampolineCreate_longPage :
    trampolineCreate 0x1234 (entryReturnKind longDescriptor.text) true true = some longPage := by
  rw [longPage, trampolineCreate, if_neg (by decide), if_neg (by decide)]
  rfl

theorem length_longPage (answers : List (Bool × Bool)) : (disarmAll longPage answers).bytes.length = 4096 := by
  obtain ⟨hbytes, hexecutable⟩ := trampolineBytes_of_create trampolineCreate_longPage
  exact (hbytes.disarmAll hexecutable answers).1.length

theorem trampoline_calls_long :
    ∃ n s', (pageMachine (disarmAll longPage [(false, true), (true, true)])).run n = some s' ∧
    ReturnsZero longDescriptor.result (pageMachine (disarmAll longPage [(false, true), (true, true)])) s' :=
  trampoline_calls [(false, true), (true, true)] (by decide) trampolineCreate_longPage
    (mapped_pageMachine (length_longPage _)) rfl

end Jni2Hook
