import Jni2Hook.ClassFile.Parser

/-!
# The class file reader and writer are mutually inverse

Each part of the format has two laws: the reader takes exactly the bytes the writer gives for a well-formed part
(`reads_*`), and an answer of the reader with the latch open is well formed and was read from exactly the bytes the
writer gives for it (`takes_*`). The reader of a whole class file only succeeds with the latch open
(`checks_readClassFile`), so it accepts exactly the encodings of well-formed trees.
-/

namespace Jni2Hook

open Lib

theorem u2_length {n : Nat} (h : n ≤ classfileMaxCount) : (UInt16.ofNat n).toNat = n := by
  unfold classfileMaxCount at h
  rw [UInt16.toNat_ofNat']
  exact Nat.mod_eq_of_lt (by omega)

theorem ofNat_of_toNat {n : Nat} {count : UInt16} (h : n = count.toNat) : UInt16.ofNat n = count := by
  rw [h, UInt16.ofNat_toNat]

theorem u2_le_maxCount (count : UInt16) : count.toNat ≤ classfileMaxCount := by
  have := count.toNat_lt
  unfold classfileMaxCount
  omega

/-! ## Counted lists -/

/-- A counted list: a `u2` count and that many items. -/
theorem reads_counted {α : Type} {p : Parse α} {enc : α → Bytes} {l : List α} {n : Nat} (e : ClassfileStatus)
    (hl : l.length ≤ classfileMaxCount) (hp : ∀ a ∈ l, ∀ m, Reads p m (enc a) a) :
    Reads (do
      let count ← byteCursorU2
      checkOk e
      readMany p count.toNat) n (byteBufferU2 (UInt16.ofNat l.length) ++ l.flatMap enc) l := by
  refine (reads_u2 _ _).bind ((reads_checkOk _ _).skip ?_)
  rw [u2_length hl]
  exact Reads.many hp

theorem takes_counted {α : Type} {p : Parse α} {enc : α → Bytes} {P : α → Prop} (e : ClassfileStatus)
    (hp : Takes p fun _ w a => w = enc a ∧ P a) :
    Takes (do
      let count ← byteCursorU2
      checkOk e
      readMany p count.toNat) fun _ w l => w = byteBufferU2 (UInt16.ofNat l.length) ++ l.flatMap enc ∧
        l.length ≤ classfileMaxCount ∧ ∀ a ∈ l, P a := by
  refine (takes_u2.bind fun count => (takes_checkOk e).bind fun _ => Takes.many hp count.toNat).mono ?_
  rintro n w l ⟨count, w₁, w₂, rfl, rfl, _, w₃, w₄, rfl, rfl, rfl, hl, hP⟩
  exact ⟨by rw [ofNat_of_toNat hl]; rfl, by rw [hl]; exact u2_le_maxCount count, hP⟩

theorem checks_counted {α : Type} {p : Parse α} (e : ClassfileStatus) (hp : Checks p) :
    Checks (do
      let count ← byteCursorU2
      checkOk e
      readMany p count.toNat) := by
  intro c l c' h
  obtain ⟨count, c₁, _, h₁⟩ := run_bind_ok h
  obtain ⟨_, c₂, hok, h₂⟩ := run_bind_ok h₁
  by_cases hn : count.toNat = 0
  · rw [hn] at h₂
    cases h₂
    exact checks_checkOk e c₁ () _ hok
  · exact Checks.many hp hn c₂ l c' h₂

/-! ## Constants -/

theorem reads_cpInfo {entry : CpInfo} {w : Bytes} (hk : entry.tagIsKnown = true) (hf : entry.Fits)
    (hw : writeCpInfo entry = .ok w) (n : Nat) : Reads constantPoolReadEntry n w entry := by
  cases entry <;> cases hw <;> try (cases hk; done)
  case utf8 bytes =>
    have hl : bytes.length = (UInt16.ofNat bytes.length).toNat := (u2_length hf).symm
    refine (reads_u1 1 _).bind ?_
    exact (reads_u2 _ _).bind ((reads_requireBytes ⟨bytes, hl⟩).last (Reads.pure _ _))
  case integer b =>
    refine (reads_u1 3 _).bind ?_
    exact (reads_requireBytes b).last (Reads.pure _ _)
  case float b =>
    refine (reads_u1 4 _).bind ?_
    exact (reads_requireBytes b).last (Reads.pure _ _)
  case long b =>
    refine (reads_u1 5 _).bind ?_
    exact (reads_requireBytes b).last (Reads.pure _ _)
  case double b =>
    refine (reads_u1 6 _).bind ?_
    exact (reads_requireBytes b).last (Reads.pure _ _)
  case classInfo i =>
    refine (reads_u1 7 _).bind ?_
    exact (reads_u2 i _).last (Reads.pure _ _)
  case string i =>
    refine (reads_u1 8 _).bind ?_
    exact (reads_u2 i _).last (Reads.pure _ _)
  case methodType i =>
    refine (reads_u1 16 _).bind ?_
    exact (reads_u2 i _).last (Reads.pure _ _)
  case module i =>
    refine (reads_u1 19 _).bind ?_
    exact (reads_u2 i _).last (Reads.pure _ _)
  case package i =>
    refine (reads_u1 20 _).bind ?_
    exact (reads_u2 i _).last (Reads.pure _ _)
  case fieldref c i =>
    refine (reads_u1 9 _).bind ?_
    exact (reads_u2 c _).bind ((reads_u2 i _).last (Reads.pure _ _))
  case methodref c i =>
    refine (reads_u1 10 _).bind ?_
    exact (reads_u2 c _).bind ((reads_u2 i _).last (Reads.pure _ _))
  case interfaceMethodref c i =>
    refine (reads_u1 11 _).bind ?_
    exact (reads_u2 c _).bind ((reads_u2 i _).last (Reads.pure _ _))
  case nameAndType c i =>
    refine (reads_u1 12 _).bind ?_
    exact (reads_u2 c _).bind ((reads_u2 i _).last (Reads.pure _ _))
  case methodHandle k i =>
    refine (reads_u1 15 _).bind ?_
    exact (reads_u1 k _).bind ((reads_u2 i _).last (Reads.pure _ _))
  case dynamic c i =>
    refine (reads_u1 17 _).bind ?_
    exact (reads_u2 c _).bind ((reads_u2 i _).last (Reads.pure _ _))
  case invokeDynamic c i =>
    refine (reads_u1 18 _).bind ?_
    exact (reads_u2 c _).bind ((reads_u2 i _).last (Reads.pure _ _))

/-- What the reader of one constant answers: a known constant that fits, and its encoding. -/
def EntryRead (w : Bytes) (entry : CpInfo) : Prop :=
  writeCpInfo entry = .ok w ∧ entry.tagIsKnown = true ∧ entry.Fits

theorem takes_cpInfo : Takes constantPoolReadEntry fun _ w entry => EntryRead w entry := by
  refine (takes_u1.bind (H := fun tag _ w entry => EntryRead (byteBufferU1 tag ++ w) entry) fun tag => ?_).mono
    (by rintro n w entry ⟨tag, w₁, w₂, rfl, rfl, h⟩; exact h)
  -- the two shapes that most constants have: one field, or two
  have one {tag : UInt8} {f : UInt16 → CpInfo} (hf : ∀ i, EntryRead (byteBufferU1 tag ++ byteBufferU2 i) (f i)) :
      Takes (do return f (← byteCursorU2) : Parse CpInfo)
        fun _ w entry => EntryRead (byteBufferU1 tag ++ w) entry := by
    refine (takes_u2.bind fun i => Takes.pure (f i)).mono ?_
    rintro n w entry ⟨i, w₁, w₂, rfl, rfl, rfl, rfl⟩
    simpa using hf i
  have two {tag : UInt8} {f : UInt16 → UInt16 → CpInfo}
      (hf : ∀ i j, EntryRead (byteBufferU1 tag ++ (byteBufferU2 i ++ byteBufferU2 j)) (f i j)) :
      Takes (do return f (← byteCursorU2) (← byteCursorU2) : Parse CpInfo)
        fun _ w entry => EntryRead (byteBufferU1 tag ++ w) entry := by
    refine (takes_u2.bind fun i => takes_u2.bind fun j => Takes.pure (f i j)).mono ?_
    rintro n w entry ⟨i, w₁, w₂, rfl, rfl, j, w₃, w₄, rfl, rfl, rfl, rfl⟩
    simpa using hf i j
  have fixed {tag : UInt8} {k : Nat} {f : FixedBytes k → CpInfo}
      (hf : ∀ b, EntryRead (byteBufferU1 tag ++ b.1) (f b)) :
      Takes (do return f (← requireBytes k) : Parse CpInfo)
        fun _ w entry => EntryRead (byteBufferU1 tag ++ w) entry := by
    refine ((takes_requireBytes k).bind fun b => Takes.pure (f b)).mono ?_
    rintro n w entry ⟨b, w₁, w₂, rfl, rfl, rfl, rfl⟩
    simpa using hf b
  split
  case h_1 =>
    refine (takes_u2.bind fun len => (takes_requireBytes len.toNat).bind fun b => Takes.pure _).mono ?_
    rintro n w entry ⟨len, w₁, w₂, rfl, rfl, b, w₃, w₄, rfl, rfl, rfl, rfl⟩
    refine ⟨?_, rfl, by rw [CpInfo.Fits, b.2]; exact u2_le_maxCount len⟩
    simp [writeCpInfo, ofNat_of_toNat b.2]
  case h_17 => exact two fun i j => ⟨rfl, rfl, trivial⟩
  case h_18 => exact (takes_checkOk _).bind (fun _ => Takes.throw _ (fun _ _ _ => False)) |>.mono (by simp)
  case h_14 =>
    refine (takes_u1.bind fun k => takes_u2.bind fun i => Takes.pure _).mono ?_
    rintro n w entry ⟨k, w₁, w₂, rfl, rfl, i, w₃, w₄, rfl, rfl, rfl, rfl⟩
    exact ⟨by simp [writeCpInfo], rfl, trivial⟩
  all_goals first
    | exact one fun i => ⟨rfl, rfl, trivial⟩
    | exact two fun i j => ⟨rfl, rfl, trivial⟩
    | exact fixed fun b => ⟨rfl, rfl, trivial⟩

/-! ## The constant pool -/

theorem writeCpInfos_cons {entry : CpInfo} {rest : List CpInfo} {w : Bytes}
    (h : writeCpInfos (entry :: rest) = .ok w) :
    ∃ w₁ w₂, writeCpInfo entry = .ok w₁ ∧ writeCpInfos rest = .ok w₂ ∧ w = w₁ ++ w₂ := by
  rw [writeCpInfos] at h
  cases he : writeCpInfo entry with
  | error e => rw [he] at h; cases h
  | ok w₁ =>
    rw [he] at h
    cases hr : writeCpInfos rest with
    | error e => rw [hr] at h; cases h
    | ok w₂ => rw [hr] at h; cases h; exact ⟨w₁, w₂, rfl, rfl, rfl⟩

/-- What is read back for the slots of a well-formed pool. -/
theorem reads_poolLoop {entries : List CpInfo} (hs : PoolSlots entries) : ∀ {w : Bytes} (n : Nat),
    (∀ entry ∈ entries, entry.Fits) → writeCpInfos entries = .ok w →
    Reads (constantPoolReadLoop entries.length) n w entries := by
  induction hs with
  | nil => intro w n _ hw; cases hw; exact Reads.pure _ _
  | one hk h2 _ ih =>
    intro w n hf hw
    obtain ⟨w₁, w₂, he, hr, rfl⟩ := writeCpInfos_cons hw
    rw [List.length_cons, constantPoolReadLoop]
    refine (reads_cpInfo hk (hf _ List.mem_cons_self) he n).bind ?_
    rw [if_neg h2]
    exact (reads_checkOk _ _).skip ((ih _ (fun e h => hf e (by simp [h])) hr).last (Reads.pure _ _))
  | wide hk h2 _ ih =>
    intro w n hf hw
    obtain ⟨w₁, w', he, hr', rfl⟩ := writeCpInfos_cons hw
    obtain ⟨_, w₂, ⟨⟩, hr, rfl⟩ := writeCpInfos_cons hr'
    refine (reads_cpInfo hk (hf _ List.mem_cons_self) he n).bind ?_
    rw [if_pos h2]
    exact (reads_checkOk _ _).skip ((ih _ (fun e h => hf e (by simp [h])) hr).last (Reads.pure _ _))

/-- What the reader of the pool answers for `k` slots. -/
def SlotsRead (k : Nat) (w : Bytes) (entries : List CpInfo) : Prop :=
  writeCpInfos entries = .ok w ∧ entries.length = k ∧ PoolSlots entries ∧ ∀ entry ∈ entries, entry.Fits

theorem SlotsRead.cons {k : Nat} {w₁ w₂ : Bytes} {entry : CpInfo} {rest : List CpInfo} (he : EntryRead w₁ entry)
    (h2 : entry.slots ≠ 2) (hr : SlotsRead k w₂ rest) : SlotsRead (k + 1) (w₁ ++ w₂) (entry :: rest) := by
  obtain ⟨hw, hl, hs, hf⟩ := hr
  refine ⟨by rw [writeCpInfos, he.1, hw]; rfl, by simp [hl], .one he.2.1 h2 hs, fun e h => ?_⟩
  rcases List.mem_cons.mp h with rfl | h
  · exact he.2.2
  · exact hf e h

theorem SlotsRead.cons_wide {k : Nat} {w₁ w₂ : Bytes} {entry : CpInfo} {rest : List CpInfo}
    (he : EntryRead w₁ entry) (h2 : entry.slots = 2) (hr : SlotsRead k w₂ rest) :
    SlotsRead (k + 2) (w₁ ++ w₂) (entry :: .empty :: rest) := by
  obtain ⟨hw, hl, hs, hf⟩ := hr
  refine ⟨by rw [writeCpInfos, writeCpInfos, he.1, hw]; rfl, by simp [hl], .wide he.2.1 h2 hs, fun e h => ?_⟩
  rcases List.mem_cons.mp h with rfl | h
  · exact he.2.2
  rcases List.mem_cons.mp h with rfl | h
  · trivial
  · exact hf e h

theorem takes_poolLoop : ∀ k, Takes (constantPoolReadLoop k) fun _ w entries => SlotsRead k w entries
  | 0 => (Takes.pure _).mono (by
      rintro n w entries ⟨rfl, rfl⟩
      exact ⟨rfl, rfl, .nil, fun e h => by cases h⟩)
  | k + 1 => by
    rw [constantPoolReadLoop]
    refine (takes_cpInfo.bind (H := fun entry _ w entries =>
      ∀ w₁, EntryRead w₁ entry → SlotsRead (k + 1) (w₁ ++ w) entries) fun entry => ?_).mono ?_
    · refine Takes.ite (fun h2 => ?_) (fun h2 => ?_)
      · match k with
        | 0 => exact Takes.throw _ _
        | m + 1 =>
          refine ((takes_checkOk _).bind fun _ => (takes_poolLoop m).bind fun rest => Takes.pure _).mono ?_
          rintro n w entries ⟨_, w₁, w₂, rfl, rfl, rest, w₃, w₄, rfl, hr, rfl, rfl⟩ w₁ he
          simpa using hr.cons_wide he h2
      · refine ((takes_checkOk _).bind fun _ => (takes_poolLoop k).bind fun rest => Takes.pure _).mono ?_
        rintro n w entries ⟨_, w₁, w₂, rfl, rfl, rest, w₃, w₄, rfl, hr, rfl, rfl⟩ w₁ he
        simpa using hr.cons he h2
    · rintro n w entries ⟨entry, w₁, w₂, rfl, he, h⟩
      exact h w₁ he

theorem reads_constantPool {pool : ConstantPool} {w : Bytes} (h : pool.WellFormed)
    (hw : writeConstantPool pool = .ok w) (n : Nat) : Reads constantPoolRead n w pool := by
  rw [writeConstantPool] at hw
  cases he : writeCpInfos pool.entries with
  | error e => rw [he] at hw; cases hw
  | ok w' =>
    rw [he] at hw
    cases hw
    have hc := u2_length h.count
    refine (reads_u2 _ _).bind ((reads_checkOk _ _).skip ?_)
    have h1 : ¬UInt16.ofNat pool.count < 1 := by
      rw [UInt16.lt_iff_toNat_lt, hc]; simp [ConstantPool.count]
    rw [if_neg h1, hc]
    exact (reads_poolLoop h.slots _ h.fits he).last (Reads.pure _ _)

theorem takes_constantPool : Takes constantPoolRead fun _ w pool =>
    writeConstantPool pool = .ok w ∧ pool.WellFormed := by
  refine (takes_u2.bind (H := fun count _ w pool => SlotsRead (count.toNat - 1) w pool.entries ∧ ¬count < 1)
    fun count => ?_).mono ?_
  · refine ((takes_checkOk _).bind (H := fun _ _ w pool => SlotsRead (count.toNat - 1) w pool.entries ∧ ¬count < 1)
      fun _ => ?_).mono (by rintro n w pool ⟨_, w₁, w₂, rfl, rfl, h⟩; exact h)
    refine Takes.ite (fun _ => Takes.throw _ _) fun h1 => ?_
    refine ((takes_poolLoop _).bind fun entries => Takes.pure _).mono ?_
    rintro n w pool ⟨entries, w₁, w₂, rfl, hr, rfl, rfl⟩
    exact ⟨by simpa using hr, h1⟩
  · rintro n w pool ⟨count, w₁, w₂, rfl, rfl, ⟨hw, hl, hs, hf⟩, h1⟩
    rw [UInt16.lt_iff_toNat_lt] at h1
    have hc : pool.count = count.toNat := by
      rw [ConstantPool.count, hl]; simp at h1; omega
    refine ⟨by simp [writeConstantPool, hw, ofNat_of_toNat hc], hs, hf, by rw [hc]; exact u2_le_maxCount count⟩

/-! ## Attributes and members -/

theorem reads_attribute {a : AttributeInfo} (h : a.WellFormed) (n : Nat) :
    Reads readAttribute n (writeAttribute a) a := by
  have ht : a.info.take a.attributeLength.toNat = a.info := List.take_of_length_le (by rw [h])
  refine (reads_u2 _ _).bind ((reads_u4 _ _).bind ?_)
  rw [byteBufferBytes, ht]
  exact (reads_requireBytes ⟨a.info, h.symm⟩).last (Reads.pure _ _)

theorem takes_attribute : Takes readAttribute fun _ w a => w = writeAttribute a ∧ a.WellFormed := by
  refine (takes_u2.bind fun name => takes_u4.bind fun len => (takes_requireBytes len.toNat).bind fun b =>
    Takes.pure _).mono ?_
  rintro n w a ⟨name, w₁, w₂, rfl, rfl, len, w₃, w₄, rfl, rfl, b, w₅, w₆, rfl, rfl, rfl, rfl⟩
  refine ⟨?_, b.2.symm⟩
  simp [writeAttribute, byteBufferBytes, List.take_of_length_le (Nat.le_of_eq b.2)]

theorem checks_attribute : Checks readAttribute :=
  Checks.bind fun _ => Checks.bind fun _ => (checks_requireBytes _).last

theorem reads_attributes {l : List AttributeInfo} (h : AttributesWellFormed l) (n : Nat) :
    Reads readAttributes n (writeAttributes l) l :=
  reads_counted _ h.count fun a ha m => reads_attribute (h.items a ha) m

theorem takes_attributes : Takes readAttributes fun _ w l => w = writeAttributes l ∧ AttributesWellFormed l :=
  (takes_counted _ takes_attribute).mono fun _ _ _ ⟨hw, hc, hi⟩ => ⟨hw, hc, hi⟩

theorem checks_attributes : Checks readAttributes := checks_counted _ checks_attribute

theorem reads_member {m : MemberInfo} (h : AttributesWellFormed m.attributes) (n : Nat) :
    Reads readMember n (writeMember m) m :=
  (reads_u2 _ _).bind ((reads_u2 _ _).bind ((reads_u2 _ _).bind ((reads_checkOk _ _).skip
    ((reads_attributes h _).last (Reads.pure _ _)))))

theorem takes_member : Takes readMember fun _ w m => w = writeMember m ∧ AttributesWellFormed m.attributes := by
  refine (takes_u2.bind fun flags => takes_u2.bind fun name => takes_u2.bind fun descriptor =>
    (takes_checkOk _).bind fun _ => takes_attributes.bind fun attributes => Takes.pure _).mono ?_
  rintro n w m ⟨f, w₁, w₂, rfl, rfl, i, w₃, w₄, rfl, rfl, d, w₅, w₆, rfl, rfl, _, w₇, w₈, rfl, rfl, as, w₉, w₁₀, rfl,
    ⟨rfl, has⟩, rfl, rfl⟩
  exact ⟨by simp [writeMember], has⟩

theorem reads_members {l : List MemberInfo} (h : MembersWellFormed l) (n : Nat) :
    Reads readMembers n (writeMembers l) l :=
  reads_counted _ h.count fun m hm k => reads_member (h.items m hm) k

theorem takes_members : Takes readMembers fun _ w l => w = writeMembers l ∧ MembersWellFormed l :=
  (takes_counted _ takes_member).mono fun _ _ _ ⟨hw, hc, hi⟩ => ⟨hw, hc, hi⟩

theorem reads_interfaces {l : List UInt16} (h : l.length ≤ classfileMaxCount) (n : Nat) :
    Reads readInterfaces n (writeInterfaces l) l := by
  refine (reads_u2 _ _).bind ((reads_checkOk _ _).skip ?_)
  rw [u2_length h]
  exact (Reads.many fun a _ m => reads_u2 a m).last ((reads_checkOk _ _).skip (Reads.pure _ _))

theorem takes_interfaces : Takes readInterfaces fun _ w l => w = writeInterfaces l ∧ l.length ≤ classfileMaxCount := by
  refine (takes_u2.bind fun count => (takes_checkOk _).bind fun _ =>
    (Takes.many (P := fun _ => True) (takes_u2.mono fun _ _ _ h => ⟨h, trivial⟩) count.toNat).bind fun l =>
      (takes_checkOk _).bind fun _ => Takes.pure l).mono ?_
  rintro n w l ⟨count, w₁, w₂, rfl, rfl, _, w₃, w₄, rfl, rfl, l', w₅, w₆, rfl, ⟨rfl, hl, -⟩, _, w₇, w₈, rfl, rfl,
    rfl, rfl⟩
  exact ⟨by simp [writeInterfaces, ofNat_of_toNat hl], by rw [hl]; exact u2_le_maxCount count⟩

/-! ## The whole file -/

theorem reads_version {minorVersion majorVersion : UInt16} (h : javaMinSupportedVersion ≤ majorVersion) (n : Nat) :
    Reads readVersion n (byteBufferU4 javaClassfileMagic ++ (byteBufferU2 minorVersion ++ byteBufferU2 majorVersion))
      (minorVersion, majorVersion) := by
  refine (reads_u4 _ _).bind ?_
  rw [if_neg (fun hne => hne rfl)]
  refine (reads_u2 _ _).bind ((reads_u2 _ _).last ((reads_checkOk _ _).skip ?_))
  rw [if_neg (UInt16.not_lt.mpr h)]
  exact Reads.pure _ _

theorem takes_version : Takes readVersion fun _ w v =>
    w = byteBufferU4 javaClassfileMagic ++ (byteBufferU2 v.1 ++ byteBufferU2 v.2) ∧ javaMinSupportedVersion ≤ v.2 := by
  refine (takes_u4.bind (H := fun magic _ w v => magic = javaClassfileMagic ∧
    w = byteBufferU2 v.1 ++ byteBufferU2 v.2 ∧ javaMinSupportedVersion ≤ v.2) fun magic => ?_).mono ?_
  · refine Takes.ite (fun _ => ?_) (fun hm => ?_)
    · exact ((takes_checkOk _).bind fun _ => Takes.throw _ (fun _ _ _ => False)).mono (by simp)
    · refine (takes_u2.bind fun minorVersion => takes_u2.bind fun majorVersion => (takes_checkOk _).bind
        (H := fun _ _ w v => w = [] ∧ v = (minorVersion, majorVersion) ∧ javaMinSupportedVersion ≤ majorVersion)
        fun _ => ?_).mono ?_
      · refine Takes.ite (fun _ => Takes.throw _ _) fun hv => (Takes.pure _).mono ?_
        rintro n w v ⟨rfl, rfl⟩
        exact ⟨rfl, rfl, UInt16.not_lt.mp hv⟩
      · rintro n w v ⟨mi, w₁, w₂, rfl, rfl, ma, w₃, w₄, rfl, rfl, _, w₅, w₆, rfl, rfl, rfl, rfl, hv⟩
        exact ⟨not_not.mp hm, by simp, hv⟩
  · rintro n w v ⟨magic, w₁, w₂, rfl, rfl, rfl, rfl, hv⟩
    exact ⟨rfl, hv⟩

theorem reads_classFile {cf : ClassFile} {w : Bytes} (h : cf.WellFormed) (hw : classfileSerialize cf = .ok w) :
    Reads readClassFile 0 w cf := by
  rw [classfileSerialize] at hw
  cases hp : writeConstantPool cf.constantPool with
  | error e => rw [hp] at hw; cases hw
  | ok pool =>
    rw [hp] at hw
    cases hw
    simp only [← List.append_assoc (byteBufferU4 _), ← List.append_assoc (byteBufferU2 cf.minorVersion)]
    rw [← List.append_assoc]
    refine (reads_version h.version _).bind ((reads_constantPool h.pool hp _).bind ?_)
    refine (reads_u2 _ _).bind ((reads_u2 _ _).bind ((reads_u2 _ _).bind ((reads_checkOk _ _).skip ?_)))
    refine (reads_interfaces h.interfaces _).bind ((reads_members h.fields _).bind ?_)
    exact (reads_members h.methods _).bind ((reads_attributes h.attributes _).last (Reads.pure _ _))

theorem takes_classFile : Takes readClassFile fun _ w cf => classfileSerialize cf = .ok w ∧ cf.WellFormed := by
  refine (takes_version.bind fun v => takes_constantPool.bind fun pool => takes_u2.bind fun flags =>
    takes_u2.bind fun this => takes_u2.bind fun super => (takes_checkOk _).bind fun _ =>
      takes_interfaces.bind fun interfaces => takes_members.bind fun fields => takes_members.bind fun methods =>
        takes_attributes.bind fun attributes => Takes.pure _).mono ?_
  rintro n w cf ⟨⟨mi, ma⟩, w₁, w₂, rfl, ⟨rfl, hv⟩, pool, w₃, w₄, rfl, ⟨hp, hpw⟩, fl, w₅, w₆, rfl, rfl, th, w₇, w₈, rfl,
    rfl, su, w₉, w₁₀, rfl, rfl, _, w₁₁, w₁₂, rfl, rfl, is, w₁₃, w₁₄, rfl, ⟨rfl, hi⟩, fs, w₁₅, w₁₆, rfl, ⟨rfl, hfs⟩, ms,
    w₁₇, w₁₈, rfl, ⟨rfl, hms⟩, as, w₁₉, w₂₀, rfl, ⟨rfl, has⟩, rfl, rfl⟩
  exact ⟨by simp [classfileSerialize, hp], hv, hpw, hi, hfs, hms, has⟩

/-- The class file reader only succeeds with the latch open: its last step is checked. -/
theorem checks_readClassFile : Checks readClassFile :=
  Checks.bind fun _ => Checks.bind fun _ => Checks.bind fun _ => Checks.bind fun _ => Checks.bind fun _ =>
    Checks.bind fun _ => Checks.bind fun _ => Checks.bind fun _ => Checks.bind fun _ => checks_attributes.last

/-! ## Whole inputs -/

theorem parseAll_of_reads {α : Type} {p : Parse α} {data : Bytes} {a : α} (h : Reads p 0 data a) :
    parseAll p data = .ok a := by
  obtain ⟨c, hc, hv⟩ := h (byteCursorInit data) [] (by simp)
  rw [view_eq_some] at hv
  simp [parseAll, hc, hv]

theorem takes_of_parseAll {α : Type} {p : Parse α} {G : Nat → Bytes → α → Prop} (ht : Takes p G) (hc : Checks p)
    {data : Bytes} {a : α} (h : parseAll p data = .ok a) : G 0 data a := by
  rw [parseAll] at h
  cases hr : p.run (byteCursorInit data) with
  | error e => rw [hr] at h; cases h
  | ok x =>
    obtain ⟨a', c⟩ := x
    rw [hr] at h
    simp only at h
    split at h
    · cases h
      rename_i he
      obtain ⟨n, w, r, hv, hv', hG⟩ := ht.checked hc hr
      rw [view_init] at hv
      cases hv
      rw [view_eq_some] at hv'
      subst hv'
      obtain rfl : r = [] := by simpa using he
      simpa using hG
    · cases h

theorem writeCpInfo_ok {entry : CpInfo} (h : entry.tagIsKnown = true) : ∃ w, writeCpInfo entry = .ok w := by
  cases entry <;> first | exact ⟨_, rfl⟩ | cases h

/-- A well-formed pool can be written. -/
theorem writeCpInfos_ok {entries : List CpInfo} (h : PoolSlots entries) : ∃ w, writeCpInfos entries = .ok w := by
  induction h with
  | nil => exact ⟨[], rfl⟩
  | one hk _ _ ih =>
    obtain ⟨w₁, h₁⟩ := writeCpInfo_ok hk
    obtain ⟨w₂, h₂⟩ := ih
    exact ⟨w₁ ++ w₂, by rw [writeCpInfos, h₁, h₂]; rfl⟩
  | wide hk _ _ ih =>
    obtain ⟨w₁, h₁⟩ := writeCpInfo_ok hk
    obtain ⟨w₂, h₂⟩ := ih
    exact ⟨w₁ ++ w₂, by rw [writeCpInfos, writeCpInfos, h₁, h₂]; rfl⟩

theorem classfileSerialize_ok {cf : ClassFile} (h : cf.WellFormed) : ∃ w, classfileSerialize cf = .ok w := by
  obtain ⟨w, hw⟩ := writeCpInfos_ok h.pool.slots
  rw [classfileSerialize, writeConstantPool, hw]
  exact ⟨_, rfl⟩

theorem classfileParse_serialize {cf : ClassFile} {w : Bytes} (h : cf.WellFormed)
    (hw : classfileSerialize cf = .ok w) : classfileParse w = .ok cf :=
  parseAll_of_reads (reads_classFile h hw)

/-- An accepted file parses to a well-formed tree that serializes to the same bytes. -/
theorem classfileParse_sound {d : Bytes} {cf : ClassFile} (h : classfileParse d = .ok cf) :
    classfileSerialize cf = .ok d ∧ cf.WellFormed :=
  takes_of_parseAll takes_classFile checks_readClassFile h

/-- **The reader and the writer are mutually inverse**, and the reader accepts exactly the encodings of well-formed
trees. -/
theorem classfile_parse_serialize_inverse :
    (∀ d cf, classfileParse d = .ok cf → classfileSerialize cf = .ok d) ∧
    (∀ cf : ClassFile, cf.WellFormed → ∃ d, classfileSerialize cf = .ok d ∧ classfileParse d = .ok cf) ∧
    (∀ d, (∃ cf, classfileParse d = .ok cf) ↔ ∃ cf : ClassFile, cf.WellFormed ∧ classfileSerialize cf = .ok d) := by
  have back (cf : ClassFile) (h : cf.WellFormed) : ∃ d, classfileSerialize cf = .ok d ∧ classfileParse d = .ok cf := by
    obtain ⟨w, hw⟩ := classfileSerialize_ok h
    exact ⟨w, hw, classfileParse_serialize h hw⟩
  refine ⟨fun d cf h => (classfileParse_sound h).1, back, fun d => ⟨?_, ?_⟩⟩
  · rintro ⟨cf, h⟩
    exact ⟨cf, (classfileParse_sound h).2, (classfileParse_sound h).1⟩
  · rintro ⟨cf, h, hd⟩
    exact ⟨cf, classfileParse_serialize h hd⟩

/-- A class with a `long` and a `double` constant, a constant field, a native method and an attribute of its own. -/
def wideClassBytes : Bytes :=
  [0xCA, 0xFE, 0xBA, 0xBE, 0, 0, 0, 52, 0, 13, 1, 0, 1, 0x41, 7, 0, 1, 5, 0, 0, 0, 1, 0, 0, 0, 2,
    6, 0x3F, 0xF0, 0, 0, 0, 0, 0, 0, 1, 0, 1, 0x78, 1, 0, 1, 0x4A] ++
  1 :: 0 :: 13 :: text "ConstantValue" ++ [1, 0, 1, 0x66, 1, 0, 3, 0x28, 0x29, 0x56, 1, 0, 10] ++ text "Deprecated" ++
  [0, 0x21, 0, 2, 0, 0, 0, 1, 0, 2, 0, 1, 0, 0x19, 0, 7, 0, 8, 0, 1, 0, 9, 0, 0, 0, 2, 0, 3,
    0, 1, 1, 1, 0, 10, 0, 11, 0, 1, 0, 12, 0, 0, 0, 0, 0, 1, 0, 12, 0, 0, 0, 0]

/-- The tree of `wideClassBytes`. -/
def wideClass : ClassFile where
  minorVersion := 0
  majorVersion := 52
  constantPool := ⟨[.utf8 (text "A"), .classInfo 1, .long ⟨[0, 0, 0, 1, 0, 0, 0, 2], rfl⟩, .empty,
    .double ⟨[0x3F, 0xF0, 0, 0, 0, 0, 0, 0], rfl⟩, .empty, .utf8 (text "x"), .utf8 (text "J"),
    .utf8 (text "ConstantValue"), .utf8 (text "f"), .utf8 (text "()V"), .utf8 (text "Deprecated")]⟩
  accessFlags := 0x21
  thisClass := 2
  superClass := 0
  interfaces := [2]
  fields := [⟨0x19, 7, 8, [attributeInfoOf 9 [0, 3]]⟩]
  methods := [⟨0x101, 10, 11, [attributeInfoOf 12 []]⟩]
  attributes := [attributeInfoOf 12 []]

theorem parse_wideClass : classfileParse wideClassBytes = .ok wideClass := by decide +kernel

theorem wideClass_wellFormed : wideClass.WellFormed := (classfileParse_sound parse_wideClass).2

theorem classfile_parse_serialize_inverse_wideClass :
    classfileSerialize wideClass = .ok wideClassBytes ∧
      (∃ d, classfileSerialize wideClass = .ok d ∧ classfileParse d = .ok wideClass) ∧
      ∃ cf : ClassFile, cf.WellFormed ∧ classfileSerialize cf = .ok wideClassBytes :=
  ⟨classfile_parse_serialize_inverse.1 wideClassBytes wideClass parse_wideClass,
    classfile_parse_serialize_inverse.2.1 wideClass wideClass_wellFormed,
    (classfile_parse_serialize_inverse.2.2 wideClassBytes).1 ⟨wideClass, parse_wideClass⟩⟩

end Jni2Hook
