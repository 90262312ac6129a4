import Jni2Hook.ClassFile.Node

/-!
# Pools that grow

The interning functions append a constant only when the pool does not have it. So what a constant says never changes
(`Grows.at_`), and a text that the pool has is the text of no new constant (`Grows.utf8Equals`).
-/

namespace Jni2Hook

/-! ## Entries -/

theorem constantPoolAt_eq_some {pool : ConstantPool} {index : UInt16} {entry : CpInfo} :
    constantPoolAt pool index = some entry ↔
      index ≠ 0 ∧ entry ≠ .empty ∧ pool.entries[index.toNat - 1]? = some entry := by
  unfold constantPoolAt
  by_cases hindex : index = 0
  · simp [hindex]
  · simp only [hindex, if_false, ne_eq, not_false_eq_true, true_and]
    split
    · rename_i hempty
      rw [hempty]
      constructor
      · intro h
        cases h
      · rintro ⟨hne, hsome⟩
        cases hsome
        exact (hne rfl).elim
    · rename_i hne
      constructor
      · intro h
        refine ⟨?_, h⟩
        rintro rfl
        exact hne h
      · intro h
        exact h.2

theorem constantPoolUtf8_eq_some {pool : ConstantPool} {index : UInt16} {bytes : Bytes} :
    constantPoolUtf8 pool index = some bytes ↔ constantPoolAt pool index = some (.utf8 bytes) := by
  unfold constantPoolUtf8
  split
  · rename_i h
    rw [h]
    simp
  · rename_i h
    constructor
    · intro hno
      cases hno
    · intro hat
      exact (h _ hat).elim

theorem mem_of_constantPoolUtf8Equals {pool : ConstantPool} {index : UInt16} {bytes : Bytes}
    (h : constantPoolUtf8Equals pool index bytes = true) : .utf8 bytes ∈ pool.entries :=
  List.mem_of_getElem? (constantPoolAt_eq_some.mp (constantPoolUtf8_eq_some.mp
    (by simpa [constantPoolUtf8Equals] using h))).2.2

/-! ## What indices stand for -/

/-- The two texts of a NameAndType. -/
def nameAndTypeAt (pool : ConstantPool) (index : UInt16) : Option (Bytes × Bytes) :=
  match constantPoolAt pool index with
  | some (.nameAndType nameIndex descriptorIndex) => do
    let name ← constantPoolUtf8 pool nameIndex
    let descriptor ← constantPoolUtf8 pool descriptorIndex
    return (name, descriptor)
  | _ => none

/-- The name of a class constant. -/
def classNameAt (pool : ConstantPool) (index : UInt16) : Option Bytes :=
  match constantPoolAt pool index with
  | some (.classInfo nameIndex) => constantPoolUtf8 pool nameIndex
  | _ => none

theorem nameAndTypeAt_eq_some {pool : ConstantPool} {index : UInt16} {name descriptor : Bytes} :
    nameAndTypeAt pool index = some (name, descriptor) ↔ ∃ nameIndex descriptorIndex,
      constantPoolAt pool index = some (.nameAndType nameIndex descriptorIndex) ∧
        constantPoolUtf8 pool nameIndex = some name ∧ constantPoolUtf8 pool descriptorIndex = some descriptor := by
  unfold nameAndTypeAt
  split
  · rename_i nameIndex descriptorIndex h
    rw [h]
    simp only [Option.bind_eq_bind, Option.bind_eq_some_iff, Option.pure_def, Option.some.injEq, Prod.mk.injEq,
      CpInfo.nameAndType.injEq]
    constructor
    · rintro ⟨_, hname, _, hdescriptor, rfl, rfl⟩
      exact ⟨nameIndex, descriptorIndex, ⟨rfl, rfl⟩, hname, hdescriptor⟩
    · rintro ⟨_, _, ⟨rfl, rfl⟩, hname, hdescriptor⟩
      exact ⟨name, hname, descriptor, hdescriptor, rfl, rfl⟩
  · rename_i h
    constructor
    · intro hno
      cases hno
    · rintro ⟨_, _, hat, -⟩
      exact (h _ _ hat).elim

theorem classNameAt_eq_some {pool : ConstantPool} {index : UInt16} {name : Bytes} :
    classNameAt pool index = some name ↔ ∃ nameIndex, constantPoolAt pool index = some (.classInfo nameIndex) ∧
      constantPoolUtf8 pool nameIndex = some name := by
  unfold classNameAt
  split
  · rename_i nameIndex h
    rw [h]
    constructor
    · intro hname
      exact ⟨nameIndex, rfl, hname⟩
    · rintro ⟨_, heq, hname⟩
      cases heq
      exact hname
  · rename_i h
    constructor
    · intro hno
      cases hno
    · rintro ⟨_, hat, -⟩
      exact (h _ hat).elim

/-- The entry at the place `constantPoolFind` answers. -/
theorem constantPoolFind_eq_some {pool : ConstantPool} {entry : CpInfo} {index : UInt16}
    (hcount : pool.count ≤ classfileMaxCount) : constantPoolFind pool (· == entry) = some index ↔
      index ≠ 0 ∧ pool.entries[index.toNat - 1]? = some entry ∧
        ∀ k < index.toNat - 1, pool.entries[k]? ≠ some entry := by
  unfold constantPoolFind
  rw [Option.map_eq_some_iff]
  unfold ConstantPool.count classfileMaxCount at hcount
  constructor
  · rintro ⟨position, hposition, rfl⟩
    obtain ⟨hlength, hhere, hbefore⟩ := List.findIdx?_eq_some_iff_getElem.mp hposition
    have hindex : (UInt16.ofNat (position + 1)).toNat = position + 1 := by
      rw [UInt16.toNat_ofNat']
      omega
    refine ⟨fun hzero => ?_, ?_, fun k hk => ?_⟩
    · rw [hzero] at hindex
      cases hindex
    · rw [hindex, Nat.add_sub_cancel, List.getElem?_eq_getElem hlength]
      rw [eq_of_beq hhere]
    · rw [hindex] at hk
      intro hsome
      obtain ⟨hk', heq⟩ := List.getElem?_eq_some_iff.mp hsome
      exact hbefore k (by omega) (by rw [heq]; exact beq_self_eq_true entry)
  · rintro ⟨hne, hhere, hbefore⟩
    obtain ⟨hlength, heq⟩ := List.getElem?_eq_some_iff.mp hhere
    refine ⟨index.toNat - 1, List.findIdx?_eq_some_iff_getElem.mpr ⟨hlength, by rw [heq]; exact beq_self_eq_true entry,
      fun k hk hbeq => ?_⟩, ?_⟩
    · refine hbefore k hk ?_
      rw [List.getElem?_eq_getElem (by omega), eq_of_beq hbeq]
    · have hpos : 0 < index.toNat := by
        rcases Nat.eq_zero_or_pos index.toNat with hzero | hpos
        · exact absurd (UInt16.toNat_inj.mp hzero) hne
        · exact hpos
      apply UInt16.toNat_inj.mp
      rw [UInt16.toNat_ofNat']
      have := UInt16.toNat_lt index
      omega

theorem constantPoolAt_of_find {pool : ConstantPool} {entry : CpInfo} {index : UInt16}
    (hcount : pool.count ≤ classfileMaxCount) (hne : entry ≠ .empty)
    (h : constantPoolFind pool (· == entry) = some index) : constantPoolAt pool index = some entry := by
  obtain ⟨hindex, hhere, -⟩ := (constantPoolFind_eq_some hcount).mp h
  exact constantPoolAt_eq_some.mpr ⟨hindex, hne, hhere⟩

theorem utf8_of_find {pool : ConstantPool} (hcount : pool.count ≤ classfileMaxCount) {bytes : Bytes} {index : UInt16}
    (hfind : constantPoolFind pool (· == .utf8 bytes) = some index) : constantPoolUtf8 pool index = some bytes :=
  constantPoolUtf8_eq_some.mpr (constantPoolAt_of_find hcount (by simp) hfind)

/-! ## Growth -/

/-- The second pool starts with the first, and a text that the first has stands nowhere new. -/
structure Grows (pool pool' : ConstantPool) : Prop where
  kept : pool.entries <+: pool'.entries
  fresh : ∀ {bytes : Bytes} {k : Nat}, .utf8 bytes ∈ pool.entries → pool'.entries[k]? = some (.utf8 bytes) →
    pool.entries[k]? = some (.utf8 bytes)

namespace Grows

variable {pool pool' pool'' : ConstantPool}

theorem refl (pool : ConstantPool) : Grows pool pool := ⟨List.prefix_refl _, fun _ h => h⟩

theorem trans (h : Grows pool pool') (h' : Grows pool' pool'') : Grows pool pool'' :=
  ⟨h.kept.trans h'.kept, fun hmem hat => h.fresh hmem (h'.fresh (h.kept.subset hmem) hat)⟩

/-- What a constant says never changes. -/
theorem at_ (h : Grows pool pool') {index : UInt16} {entry : CpInfo} (hat : constantPoolAt pool index = some entry) :
    constantPoolAt pool' index = some entry := by
  obtain ⟨hindex, hne, hentry⟩ := constantPoolAt_eq_some.mp hat
  obtain ⟨added, hadded⟩ := h.kept
  refine constantPoolAt_eq_some.mpr ⟨hindex, hne, ?_⟩
  rw [← hadded, List.getElem?_append_left (List.getElem?_eq_some_iff.mp hentry).1]
  exact hentry

theorem utf8 (h : Grows pool pool') {index : UInt16} {bytes : Bytes} (hat : constantPoolUtf8 pool index = some bytes) :
    constantPoolUtf8 pool' index = some bytes :=
  constantPoolUtf8_eq_some.mpr (h.at_ (constantPoolUtf8_eq_some.mp hat))

theorem nameAndType (h : Grows pool pool') {index : UInt16} {pair : Bytes × Bytes}
    (hat : nameAndTypeAt pool index = some pair) : nameAndTypeAt pool' index = some pair := by
  obtain ⟨nameIndex, descriptorIndex, hentry, hname, hdescriptor⟩ := nameAndTypeAt_eq_some.mp hat
  exact nameAndTypeAt_eq_some.mpr ⟨nameIndex, descriptorIndex, h.at_ hentry, h.utf8 hname, h.utf8 hdescriptor⟩

theorem className (h : Grows pool pool') {index : UInt16} {name : Bytes} (hat : classNameAt pool index = some name) :
    classNameAt pool' index = some name := by
  obtain ⟨nameIndex, hentry, hname⟩ := classNameAt_eq_some.mp hat
  exact classNameAt_eq_some.mpr ⟨nameIndex, h.at_ hentry, h.utf8 hname⟩

/-- A text that the pool has stands where it stood. -/
theorem utf8Equals (h : Grows pool pool') {bytes : Bytes} (hmem : .utf8 bytes ∈ pool.entries) (index : UInt16) :
    constantPoolUtf8Equals pool' index bytes = constantPoolUtf8Equals pool index bytes := by
  simp only [constantPoolUtf8Equals]
  rw [Bool.eq_iff_iff, beq_iff_eq, beq_iff_eq]
  refine ⟨fun hat => ?_, h.utf8⟩
  obtain ⟨hindex, hne, hentry⟩ := constantPoolAt_eq_some.mp (constantPoolUtf8_eq_some.mp hat)
  exact constantPoolUtf8_eq_some.mpr (constantPoolAt_eq_some.mpr ⟨hindex, hne, h.fresh hmem hentry⟩)

/-- The first place of a constant stays its first place. -/
theorem find (h : Grows pool pool') {p : CpInfo → Bool} {index : UInt16}
    (hfind : constantPoolFind pool p = some index) :
    constantPoolFind pool' p = some index := by
  obtain ⟨i, hi, rfl⟩ := Option.map_eq_some_iff.mp hfind
  obtain ⟨added, hadded⟩ := h.kept
  unfold constantPoolFind
  rw [← hadded, List.findIdx?_append, hi]
  rfl

end Grows

end Jni2Hook
