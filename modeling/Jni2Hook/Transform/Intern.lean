import Jni2Hook.ClassFile.Node
import Jni2Hook.Lib.Program

/-!
# Interning constants

The interning functions of `visitors/class_file.c`. An edit of a class file tree is a state transformer whose state
survives a failure, as the tree does.
-/

namespace Jni2Hook

open Lib

/-- Edits of a tree that may fail with a class file error. -/
abbrev Edit := EStateM ClassfileStatus ClassFile

/-- Appends a constant to the pool of the tree. -/
def appendConstant (entry : CpInfo) : Edit UInt16 := do
  let cf ← get
  match constantPoolAppend cf.constantPool entry with
  | .error e => throw e
  | .ok (index, pool) => do
    set { cf with constantPool := pool }
    return index

/-- The loop shared by the interning functions: the first equal constant, or a new one. -/
def internConstant (entry : CpInfo) : Edit UInt16 := do
  match constantPoolFind (← get).constantPool (· == entry) with
  | some index => return index
  | none => appendConstant entry

theorem constantPoolFind_none {pool : ConstantPool} {entry : CpInfo} (h : constantPoolFind pool (· == entry) = none) :
    entry ∉ pool.entries := by
  intro hmem
  have hnone := List.findIdx?_eq_none_iff.mp (Option.map_eq_none_iff.mp h) entry hmem
  rw [beq_self_eq_true] at hnone
  cases hnone

theorem constantPoolFind_added {pool : ConstantPool} {entry : CpInfo} (h : constantPoolFind pool (· == entry) = none) :
    constantPoolFind ⟨pool.entries ++ [entry]⟩ (· == entry) = some (UInt16.ofNat pool.count) := by
  have hnone : pool.entries.findIdx? (· == entry) = none := Option.map_eq_none_iff.mp h
  unfold constantPoolFind
  rw [List.findIdx?_append, hnone]
  simp [ConstantPool.count]

/-- Interning a constant of one slot finds it, has no room for it, or puts it at the end. -/
theorem internConstant_cases {entry : CpInfo} (hslot : entry.slots = 1) (cf : ClassFile) :
    (∃ index, constantPoolFind cf.constantPool (· == entry) = some index ∧ internConstant entry cf = .ok index cf) ∨
    (classfileMaxCount < cf.constantPool.count + 1 ∧ internConstant entry cf = .error .limitExceeded cf) ∨
    (constantPoolFind cf.constantPool (· == entry) = none ∧ cf.constantPool.count + 1 ≤ classfileMaxCount ∧
      internConstant entry cf = .ok (UInt16.ofNat cf.constantPool.count)
        { cf with constantPool := ⟨cf.constantPool.entries ++ [entry]⟩ }) := by
  cases hfind : constantPoolFind cf.constantPool (· == entry) with
  | some index =>
    refine .inl ⟨index, rfl, ?_⟩
    simp only [internConstant, run_bind, run_get, hfind, run_pure]
  | none =>
    have hrun : internConstant entry cf = appendConstant entry cf := by
      simp only [internConstant, run_bind, run_get, hfind]
    have hpadding : entry.withPadding = [entry] := by simp [CpInfo.withPadding, hslot]
    rw [hrun]
    by_cases hfull : cf.constantPool.count + 1 > classfileMaxCount
    · refine .inr (.inl ⟨hfull, ?_⟩)
      simp only [appendConstant, run_bind, run_get, constantPoolAppend, hslot, if_pos hfull, run_throw]
    · refine .inr (.inr ⟨rfl, Nat.not_lt.mp hfull, ?_⟩)
      simp only [appendConstant, run_bind, run_get, constantPoolAppend, hslot, hpadding, if_neg hfull]
      rfl

def classFileInternUtf8 (text : Bytes) : Edit UInt16 := do
  if text.length > classfileMaxCount then throw .limitExceeded
  else internConstant (.utf8 text)

def classFileInternClass (name : Bytes) : Edit UInt16 := do
  let nameIndex ← classFileInternUtf8 name
  internConstant (.classInfo nameIndex)

def classFileInternNameAndType (name descriptor : Bytes) : Edit UInt16 := do
  let nameIndex ← classFileInternUtf8 name
  let descriptorIndex ← classFileInternUtf8 descriptor
  internConstant (.nameAndType nameIndex descriptorIndex)

def classFileInternMethodref (classIndex : UInt16) (name descriptor : Bytes) : Edit UInt16 := do
  let natIndex ← classFileInternNameAndType name descriptor
  internConstant (.methodref classIndex natIndex)

end Jni2Hook
