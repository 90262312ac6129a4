import Mathlib.Data.Nat.Bitwise
import Jni2Hook.Lib.Reader

/-!
# The byte stream

The bounds-checked big-endian cursor of `byte_stream.c` and the bytes its buffer appends. A read past the end latches
the cursor: it answers zero from then on and does not move, and the caller asks `byteCursorOk` when it wants to know.
The buffer is modelled by the bytes it receives (its allocations succeed).
-/

namespace Jni2Hook

abbrev Bytes := List UInt8

/-- Byte strings of a known length. -/
abbrev FixedBytes (n : Nat) := {b : Bytes // b.length = n}

/-- `classfile_status`, without `CLASSFILE_OK`. -/
inductive ClassfileStatus
  | truncated | magic | version | constantTag | constantIndex | trailingBytes | limitExceeded | outOfMemory | opcode
  | badOffset | branchRange | codeTooLarge | unsupported
  deriving DecidableEq, Repr

/-- Every count in a class file is a `u2`. -/
def classfileMaxCount : Nat := 0xFFFF

/-- `JVM_MAX_CODE_LENGTH`. -/
def jvmMaxCodeLength : Nat := 65535

/-- The bytes of a C string literal. -/
def text (s : String) : Bytes := s.toList.map fun c => UInt8.ofNat c.toNat

/-! ## The cursor -/

/-- `byte_cursor`: what is left to read, how far it has come, and the latch. -/
structure ByteCursor where
  rest : Bytes
  offset : Nat
  ok : Bool
  deriving DecidableEq, Repr

/-- Readers of the class file formats. -/
abbrev Parse := StateT ByteCursor (Except ClassfileStatus)

def byteCursorInit (data : Bytes) : ByteCursor := ⟨data, 0, true⟩

def byteCursorOk : Parse Bool := do return (← get).ok

def byteCursorExhausted : Parse Bool := do return (← get).rest.isEmpty

def byteCursorOffset : Parse Nat := do return (← get).offset

def byteCursorRemaining : Parse Nat := do
  let c ← get
  return if c.ok then c.rest.length else 0

/-- `cursor_need` and the step over `n` bytes: `none` latches the cursor. -/
def cursorTake (n : Nat) (c : ByteCursor) : Option (FixedBytes n) × ByteCursor :=
  if h : c.ok = true ∧ n ≤ c.rest.length then
    (some ⟨c.rest.take n, by simp [h.2]⟩, ⟨c.rest.drop n, c.offset + n, true⟩)
  else (none, { c with ok := false })

def byteCursorBytes (length : Nat) : Parse (Option (FixedBytes length)) := modifyGet (cursorTake length)

/-- Two bytes as a big-endian `u2`. -/
def joinU2 (a b : UInt8) : UInt16 := (a.toUInt16 <<< 8) ||| b.toUInt16

/-- Four bytes as a big-endian `u4`. -/
def joinU4 (a b c d : UInt8) : UInt32 :=
  (a.toUInt32 <<< 24) ||| (b.toUInt32 <<< 16) ||| (c.toUInt32 <<< 8) ||| d.toUInt32

def byteCursorU1 : Parse UInt8 := do
  match ← byteCursorBytes 1 with
  | some ⟨[a], _⟩ => return a
  | none => return 0

def byteCursorU2 : Parse UInt16 := do
  match ← byteCursorBytes 2 with
  | some ⟨[a, b], _⟩ => return joinU2 a b
  | none => return 0

def byteCursorU4 : Parse UInt32 := do
  match ← byteCursorBytes 4 with
  | some ⟨[a, b, c, d], _⟩ => return joinU4 a b c d
  | none => return 0

/-- `if (!byte_cursor_ok(c)) return status;` -/
def checkOk (status : ClassfileStatus) : Parse Unit := do
  if ← byteCursorOk then return () else throw status

/-- `byte_cursor_bytes` with the `NULL` answer reported as a truncated input. -/
def requireBytes (length : Nat) : Parse (FixedBytes length) := do
  match ← byteCursorBytes length with
  | some b => return b
  | none => throw .truncated

/-! ## The buffer -/

def byteBufferU1 (v : UInt8) : Bytes := [v]

def byteBufferU2 (v : UInt16) : Bytes := [(v >>> 8).toUInt8, v.toUInt8]

def byteBufferU4 (v : UInt32) : Bytes := [(v >>> 24).toUInt8, (v >>> 16).toUInt8, (v >>> 8).toUInt8, v.toUInt8]

/-- `byte_buffer_bytes`: the first `length` bytes of `data`. -/
def byteBufferBytes (data : Bytes) (length : Nat) : Bytes := data.take length

@[simp] theorem length_byteBufferU1 (v : UInt8) : (byteBufferU1 v).length = 1 := rfl

@[simp] theorem length_byteBufferU2 (v : UInt16) : (byteBufferU2 v).length = 2 := rfl

@[simp] theorem length_byteBufferU4 (v : UInt32) : (byteBufferU4 v).length = 4 := rfl

/-! ## Words and their bytes -/

theorem toNat_joinU2 (a b : UInt8) : (joinU2 a b).toNat = a.toNat * 256 + b.toNat := by
  have ha := a.toNat_lt
  have hb := b.toNat_lt
  simp only [joinU2, UInt16.toNat_or, UInt16.toNat_shiftLeft, UInt8.toNat_toUInt16]
  rw [show (8 : UInt16).toNat % 16 = 8 from rfl, Nat.mod_eq_of_lt (by rw [Nat.shiftLeft_eq]; omega),
    ← Nat.shiftLeft_add_eq_or_of_lt (by omega : b.toNat < 2 ^ 8), Nat.shiftLeft_eq]

theorem toNat_joinU4 (a b c d : UInt8) :
    (joinU4 a b c d).toNat = ((a.toNat * 256 + b.toNat) * 256 + c.toNat) * 256 + d.toNat := by
  have ha := a.toNat_lt
  have hb := b.toNat_lt
  have hc := c.toNat_lt
  have hd := d.toNat_lt
  simp only [joinU4, UInt32.toNat_or, UInt32.toNat_shiftLeft, UInt8.toNat_toUInt32]
  rw [show (24 : UInt32).toNat % 32 = 24 from rfl, show (16 : UInt32).toNat % 32 = 16 from rfl,
    show (8 : UInt32).toNat % 32 = 8 from rfl]
  simp only [Nat.shiftLeft_eq]
  rw [Nat.mod_eq_of_lt (by omega), Nat.mod_eq_of_lt (by omega), Nat.mod_eq_of_lt (by omega)]
  -- the shifted bytes occupy disjoint bits, so each `or` is a sum
  have h₁ : a.toNat * 2 ^ 24 ||| b.toNat * 2 ^ 16 = 2 ^ 16 * (a.toNat * 256 + b.toNat) := by
    rw [Nat.mul_comm a.toNat, ← Nat.two_pow_add_eq_or_of_lt (by omega)]; omega
  have h₂ : 2 ^ 16 * (a.toNat * 256 + b.toNat) ||| c.toNat * 2 ^ 8 =
      2 ^ 8 * ((a.toNat * 256 + b.toNat) * 256 + c.toNat) := by
    rw [← Nat.two_pow_add_eq_or_of_lt (by omega)]; omega
  rw [h₁, h₂, ← Nat.two_pow_add_eq_or_of_lt (by omega)]
  omega

theorem byteBufferU2_joinU2 (a b : UInt8) : byteBufferU2 (joinU2 a b) = [a, b] := by
  have ha := a.toNat_lt
  have hb := b.toNat_lt
  have := toNat_joinU2 a b
  simp only [byteBufferU2, List.cons.injEq, and_true]
  constructor
  · apply UInt8.toNat_inj.mp; simp [Nat.shiftRight_eq_div_pow, this]; omega
  · apply UInt8.toNat_inj.mp; simp [this]

theorem byteBufferU4_joinU4 (a b c d : UInt8) : byteBufferU4 (joinU4 a b c d) = [a, b, c, d] := by
  have ha := a.toNat_lt
  have hb := b.toNat_lt
  have hc := c.toNat_lt
  have hd := d.toNat_lt
  have := toNat_joinU4 a b c d
  simp only [byteBufferU4, List.cons.injEq, and_true]
  refine ⟨?_, ?_, ?_, ?_⟩
  · apply UInt8.toNat_inj.mp; simp [Nat.shiftRight_eq_div_pow, this]; omega
  · apply UInt8.toNat_inj.mp; simp [Nat.shiftRight_eq_div_pow, this]; omega
  · apply UInt8.toNat_inj.mp; simp [Nat.shiftRight_eq_div_pow, this]; omega
  · apply UInt8.toNat_inj.mp; simp [this]

theorem joinU2_split (v : UInt16) : joinU2 (v >>> 8).toUInt8 v.toUInt8 = v := by
  have := v.toNat_lt
  apply UInt16.toNat_inj.mp
  rw [toNat_joinU2]
  simp [Nat.shiftRight_eq_div_pow]
  omega

theorem joinU4_split (v : UInt32) :
    joinU4 (v >>> 24).toUInt8 (v >>> 16).toUInt8 (v >>> 8).toUInt8 v.toUInt8 = v := by
  have := v.toNat_lt
  apply UInt32.toNat_inj.mp
  rw [toNat_joinU4]
  simp [Nat.shiftRight_eq_div_pow]
  omega

/-! ## The laws of the primitive reads -/

open Lib

instance : Input ByteCursor UInt8 where
  view c := if c.ok then some (c.offset, c.rest) else none

theorem view_eq_some {c : ByteCursor} {n : Nat} {w : Bytes} :
    Input.view c = some (n, w) ↔ c = ⟨w, n, true⟩ := by
  obtain ⟨rest, offset, ok⟩ := c
  cases ok <;> simp [Input.view, and_comm]

@[simp] theorem view_init (data : Bytes) : Input.view (byteCursorInit data) = some (0, data) := rfl

/-- What a read of `n` bytes answers. -/
theorem run_byteCursorBytes (n : Nat) (c : ByteCursor) :
    (byteCursorBytes n).run c = .ok (cursorTake n c) := rfl

theorem cursorTake_append {n k : Nat} {w r : Bytes} (h : w.length = n) :
    cursorTake n ⟨w ++ r, k, true⟩ = (some ⟨w, h⟩, ⟨r, k + n, true⟩) := by
  subst h
  simp [cursorTake]

/-- A read either takes its bytes from an open cursor or closes the latch. -/
theorem cursorTake_cases (n : Nat) (c : ByteCursor) :
    (∃ w r, ∃ h : w.length = n, c = ⟨w ++ r, c.offset, true⟩ ∧
      cursorTake n c = (some ⟨w, h⟩, ⟨r, c.offset + n, true⟩)) ∨
    cursorTake n c = (none, { c with ok := false }) := by
  by_cases h : c.ok = true ∧ n ≤ c.rest.length
  · refine Or.inl ⟨c.rest.take n, c.rest.drop n, by simp [h.2], ?_, by simp [cursorTake, h]⟩
    obtain ⟨rest, offset, ok⟩ := c
    simp_all
  · exact Or.inr (by simp [cursorTake, h])

theorem reads_bytes {n m : Nat} (w : FixedBytes n) : Reads (byteCursorBytes n) m w.1 (some w) := by
  intro c r h
  rw [view_eq_some] at h
  subst h
  exact ⟨⟨r, m + n, true⟩, by rw [run_byteCursorBytes, cursorTake_append w.2], by simp [view_eq_some, w.2]⟩

theorem takes_bytes (n : Nat) : Takes (byteCursorBytes n) fun _ w a => ∃ h : w.length = n, a = some ⟨w, h⟩ := by
  intro c a c' n' r h v
  rw [run_byteCursorBytes] at h
  rcases cursorTake_cases n c with ⟨w, r', hw, hc, ht⟩ | ht
  · rw [ht] at h
    cases h
    rw [view_eq_some] at v
    cases v
    exact ⟨c.offset, w, by rw [hc]; rfl, by rw [hw], hw, rfl⟩
  · rw [ht] at h
    cases h
    simp [Input.view] at v

theorem reads_u1 (v : UInt8) (m : Nat) : Reads byteCursorU1 m (byteBufferU1 v) v :=
  (reads_bytes ⟨[v], rfl⟩).last (Reads.pure _ _)

theorem reads_u2 (v : UInt16) (m : Nat) : Reads byteCursorU2 m (byteBufferU2 v) v := by
  refine (reads_bytes ⟨byteBufferU2 v, rfl⟩).last ?_
  show Reads (pure (joinU2 _ _)) _ [] v
  rw [joinU2_split]
  exact Reads.pure _ _

theorem reads_u4 (v : UInt32) (m : Nat) : Reads byteCursorU4 m (byteBufferU4 v) v := by
  refine (reads_bytes ⟨byteBufferU4 v, rfl⟩).last ?_
  show Reads (pure (joinU4 _ _ _ _)) _ [] v
  rw [joinU4_split]
  exact Reads.pure _ _

theorem takes_u1 : Takes byteCursorU1 fun _ w a => w = byteBufferU1 a := by
  refine ((takes_bytes 1).bind (H := fun o _ w a => w = [] ∧ ∀ b, o = some b → b.1 = byteBufferU1 a)
    fun o => ?_).mono ?_
  · match o with
    | none => exact (Takes.pure _).mono (by rintro _ _ _ ⟨rfl, rfl⟩; simp)
    | some ⟨[a], h⟩ =>
      exact (Takes.pure _).mono (by rintro _ _ _ ⟨rfl, rfl⟩; exact ⟨rfl, by rintro b ⟨⟩; rfl⟩)
  · rintro n w a ⟨o, w₁, w₂, rfl, ⟨h, rfl⟩, rfl, h'⟩
    simpa using h' _ rfl

theorem takes_u2 : Takes byteCursorU2 fun _ w a => w = byteBufferU2 a := by
  refine ((takes_bytes 2).bind (H := fun o _ w a => w = [] ∧ ∀ b, o = some b → b.1 = byteBufferU2 a)
    fun o => ?_).mono ?_
  · match o with
    | none => exact (Takes.pure _).mono (by rintro _ _ _ ⟨rfl, rfl⟩; simp)
    | some ⟨[a, b], h⟩ =>
      refine (Takes.pure _).mono ?_
      rintro _ _ _ ⟨rfl, rfl⟩
      exact ⟨rfl, by rintro b ⟨⟩; exact (byteBufferU2_joinU2 _ _).symm⟩
  · rintro n w a ⟨o, w₁, w₂, rfl, ⟨h, rfl⟩, rfl, h'⟩
    simpa using h' _ rfl

theorem takes_u4 : Takes byteCursorU4 fun _ w a => w = byteBufferU4 a := by
  refine ((takes_bytes 4).bind (H := fun o _ w a => w = [] ∧ ∀ b, o = some b → b.1 = byteBufferU4 a)
    fun o => ?_).mono ?_
  · match o with
    | none => exact (Takes.pure _).mono (by rintro _ _ _ ⟨rfl, rfl⟩; simp)
    | some ⟨[a, b, c, d], h⟩ =>
      refine (Takes.pure _).mono ?_
      rintro _ _ _ ⟨rfl, rfl⟩
      exact ⟨rfl, by rintro b ⟨⟩; exact (byteBufferU4_joinU4 _ _ _ _).symm⟩
  · rintro n w a ⟨o, w₁, w₂, rfl, ⟨h, rfl⟩, rfl, h'⟩
    simpa using h' _ rfl

/-! ## Looking without reading -/

theorem reads_offset (m : Nat) : Reads byteCursorOffset m [] m := by
  intro c r h
  rw [view_eq_some] at h
  subst h
  exact ⟨_, rfl, rfl⟩

theorem takes_offset : Takes byteCursorOffset fun n w a => w = [] ∧ a = n := by
  intro c a c' n r h v
  rw [view_eq_some] at v
  subst v
  cases h
  exact ⟨n, [], rfl, rfl, rfl, rfl⟩

theorem reads_ok (m : Nat) : Reads byteCursorOk m [] true := by
  intro c r h
  rw [view_eq_some] at h
  subst h
  exact ⟨_, rfl, rfl⟩

theorem takes_ok : Takes byteCursorOk fun _ w a => w = [] ∧ a = true := by
  intro c a c' n r h v
  rw [view_eq_some] at v
  subst v
  cases h
  exact ⟨n, [], rfl, rfl, rfl, rfl⟩

/-- A reader that first asks how much is left; what it is about to take is left at least. -/
theorem reads_remaining {α : Type} {f : Nat → Parse α} {m : Nat} {w : Bytes} {a : α}
    (hf : ∀ k, w.length ≤ k → Reads (f k) m w a) : Reads (byteCursorRemaining >>= f) m w a := by
  intro c r h
  rw [view_eq_some] at h
  subst h
  exact hf (w ++ r).length (by simp) ⟨w ++ r, m, true⟩ r rfl

theorem takes_remaining : Takes byteCursorRemaining fun _ w _ => w = [] := by
  intro c a c' n r h v
  rw [view_eq_some] at v
  subst v
  cases h
  exact ⟨n, [], rfl, rfl, rfl⟩

/-! ## Checks -/

theorem run_checkOk (e : ClassfileStatus) (c : ByteCursor) :
    (checkOk e).run c = if c.ok then .ok ((), c) else .error e := by
  obtain ⟨rest, offset, ok⟩ := c
  cases ok <;> rfl

theorem checks_checkOk (e : ClassfileStatus) : Checks (checkOk e) := by
  intro c a c' h
  rw [run_checkOk] at h
  split at h
  · cases h; simp_all [Input.view]
  · cases h

theorem reads_checkOk (e : ClassfileStatus) (m : Nat) : Reads (checkOk e) m [] () := by
  intro c r h
  rw [view_eq_some] at h
  subst h
  exact ⟨_, rfl, rfl⟩

theorem takes_checkOk (e : ClassfileStatus) : Takes (checkOk e) fun _ w _ => w = [] := by
  intro c a c' n r h v
  rw [run_checkOk] at h
  split at h
  · cases h; exact ⟨n, [], by simpa using v, by simp, rfl⟩
  · cases h

theorem reads_requireBytes {n m : Nat} (w : FixedBytes n) : Reads (requireBytes n) m w.1 w :=
  (reads_bytes w).last (Reads.pure _ _)

theorem takes_requireBytes (n : Nat) : Takes (requireBytes n) fun _ w a => w = a.1 := by
  refine ((takes_bytes n).bind (H := fun o _ w a => w = [] ∧ o = some a) fun o => ?_).mono ?_
  · cases o with
    | none => exact Takes.throw _ _
    | some b => exact (Takes.pure _).mono (by rintro _ _ _ ⟨rfl, rfl⟩; exact ⟨rfl, rfl⟩)
  · rintro m w a ⟨o, w₁, w₂, rfl, ⟨h, rfl⟩, rfl, h'⟩
    cases h'
    simp

theorem checks_requireBytes (n : Nat) : Checks (requireBytes n) := by
  intro c a c' h
  obtain ⟨o, c₁, h₁, h₂⟩ := run_bind_ok h
  rw [run_byteCursorBytes] at h₁
  rcases cursorTake_cases n c with ⟨w, r, hw, -, ht⟩ | ht
  · rw [ht] at h₁
    cases h₁
    cases h₂
    rfl
  · rw [ht] at h₁
    cases h₁
    cases h₂

end Jni2Hook
