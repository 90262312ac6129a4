import Jni2Hook.Transform.InsertedCall

/-!
# Sequences of interning calls

* `InternCall.Resolves`: an index stands for what a call asks for.
* `after_internCall`: what a call has done when it succeeds and when it fails.
* `InternCall.Found.again`: a call that finds everything in the pool answers from it and changes nothing.
* `interning_correct`: after any sequence of calls on a parsed file, a further call is correct, stable and idempotent.
-/

namespace Jni2Hook

open Lib

/-! ## The calls -/

/-- A call of one of the four interning functions. -/
inductive InternCall
  | utf8 (text : Bytes)
  | class_ (name : Bytes)
  | nameAndType (name descriptor : Bytes)
  | methodref (classIndex : UInt16) (name descriptor : Bytes)

def InternCall.run : InternCall → Edit UInt16
  | .utf8 text => classFileInternUtf8 text
  | .class_ name => classFileInternClass name
  | .nameAndType name descriptor => classFileInternNameAndType name descriptor
  | .methodref classIndex name descriptor => classFileInternMethodref classIndex name descriptor

/-- The texts that a call is given. -/
def InternCall.texts : InternCall → List Bytes
  | .utf8 text => [text]
  | .class_ name => [name]
  | .nameAndType name descriptor | .methodref _ name descriptor => [name, descriptor]

/-- The index is that of a constant of the kind that is asked for, and it says what is asked for. -/
def InternCall.Resolves (call : InternCall) (pool : ConstantPool) (index : UInt16) : Prop :=
  match call with
  | .utf8 text => constantPoolUtf8 pool index = some text
  | .class_ name => classNameAt pool index = some name
  | .nameAndType name descriptor => nameAndTypeAt pool index = some (name, descriptor)
  | .methodref classIndex name descriptor => ∃ natIndex,
      constantPoolAt pool index = some (.methodref classIndex natIndex) ∧
        nameAndTypeAt pool natIndex = some (name, descriptor)

/-- The tree after a sequence of calls, whether they succeed or not. -/
def internRun (cf : ClassFile) (calls : List InternCall) : ClassFile :=
  runEvents (fun cf call => endState (InternCall.run call) cf) cf calls

/-- What an index stands for, it stands for in a pool that has grown. -/
theorem Grows.resolves {pool pool' : ConstantPool} (h : Grows pool pool') {call : InternCall} {index : UInt16}
    (hat : call.Resolves pool index) : call.Resolves pool' index := by
  cases call with
  | utf8 text => exact h.utf8 hat
  | class_ name => exact h.className hat
  | nameAndType name descriptor => exact h.nameAndType hat
  | methodref classIndex name descriptor =>
    obtain ⟨natIndex, hentry, hnat⟩ := hat
    exact ⟨natIndex, h.at_ hentry, h.nameAndType hnat⟩

/-! ## The constants a call finds -/

/-- Where the interning loops find what a call asks for. -/
def InternCall.Found (call : InternCall) (pool : ConstantPool) (index : UInt16) : Prop :=
  match call with
  | .utf8 text => constantPoolFind pool (· == .utf8 text) = some index
  | .class_ name => ∃ nameIndex, constantPoolFind pool (· == .utf8 name) = some nameIndex ∧
      constantPoolFind pool (· == .classInfo nameIndex) = some index
  | .nameAndType name descriptor => ∃ nameIndex descriptorIndex,
      constantPoolFind pool (· == .utf8 name) = some nameIndex ∧
      constantPoolFind pool (· == .utf8 descriptor) = some descriptorIndex ∧
      constantPoolFind pool (· == .nameAndType nameIndex descriptorIndex) = some index
  | .methodref classIndex name descriptor => ∃ nameIndex descriptorIndex natIndex,
      constantPoolFind pool (· == .utf8 name) = some nameIndex ∧
      constantPoolFind pool (· == .utf8 descriptor) = some descriptorIndex ∧
      constantPoolFind pool (· == .nameAndType nameIndex descriptorIndex) = some natIndex ∧
      constantPoolFind pool (· == .methodref classIndex natIndex) = some index

theorem Grows.found {pool pool' : ConstantPool} (h : Grows pool pool') {call : InternCall} {index : UInt16}
    (hfound : call.Found pool index) : call.Found pool' index := by
  cases call with
  | utf8 text => exact h.find hfound
  | class_ name =>
    obtain ⟨nameIndex, hname, hclass⟩ := hfound
    exact ⟨nameIndex, h.find hname, h.find hclass⟩
  | nameAndType name descriptor =>
    obtain ⟨nameIndex, descriptorIndex, hname, hdescriptor, hnat⟩ := hfound
    exact ⟨nameIndex, descriptorIndex, h.find hname, h.find hdescriptor, h.find hnat⟩
  | methodref classIndex name descriptor =>
    obtain ⟨nameIndex, descriptorIndex, natIndex, hname, hdescriptor, hnat, hmethod⟩ := hfound
    exact ⟨nameIndex, descriptorIndex, natIndex, h.find hname, h.find hdescriptor, h.find hnat, h.find hmethod⟩

theorem InternCall.Found.resolves {call : InternCall} {pool : ConstantPool} {index : UInt16}
    (h : call.Found pool index) (hcount : pool.count ≤ classfileMaxCount) : call.Resolves pool index := by
  cases call with
  | utf8 text => exact utf8_of_find hcount h
  | class_ name =>
    obtain ⟨nameIndex, hname, hclass⟩ := h
    exact classNameAt_eq_some.mpr ⟨nameIndex, constantPoolAt_of_find hcount (by simp) hclass, utf8_of_find hcount hname⟩
  | nameAndType name descriptor =>
    obtain ⟨nameIndex, descriptorIndex, hname, hdescriptor, hnat⟩ := h
    exact nameAndTypeAt_eq_some.mpr ⟨nameIndex, descriptorIndex, constantPoolAt_of_find hcount (by simp) hnat,
      utf8_of_find hcount hname, utf8_of_find hcount hdescriptor⟩
  | methodref classIndex name descriptor =>
    obtain ⟨nameIndex, descriptorIndex, natIndex, hname, hdescriptor, hnat, hmethod⟩ := h
    refine ⟨natIndex, constantPoolAt_of_find hcount (by simp) hmethod, nameAndTypeAt_eq_some.mpr ?_⟩
    exact ⟨nameIndex, descriptorIndex, constantPoolAt_of_find hcount (by simp) hnat, utf8_of_find hcount hname,
      utf8_of_find hcount hdescriptor⟩

theorem InternCall.Found.lt {call : InternCall} {pool : ConstantPool} {index : UInt16} (h : call.Found pool index)
    (hcount : pool.count ≤ classfileMaxCount) : index.toNat < pool.count := by
  have below {entry : CpInfo} (hfind : constantPoolFind pool (· == entry) = some index) : index.toNat < pool.count := by
    obtain ⟨-, hhere, -⟩ := (constantPoolFind_eq_some hcount).mp hfind
    have := (List.getElem?_eq_some_iff.mp hhere).1
    unfold ConstantPool.count
    omega
  cases call with
  | utf8 text => exact below h
  | class_ name =>
    obtain ⟨_, -, hclass⟩ := h
    exact below hclass
  | nameAndType name descriptor =>
    obtain ⟨_, _, -, -, hnat⟩ := h
    exact below hnat
  | methodref classIndex name descriptor =>
    obtain ⟨_, _, _, -, -, -, hmethod⟩ := h
    exact below hmethod

/-! ## What a call has done -/

/-- The pool has no room for one more constant. -/
def ConstantPool.Full (pool : ConstantPool) : Prop := pool.count + 1 > classfileMaxCount

/-- A failure: a text is too long, or the pool is full. The constants that were appended before stay. -/
def InternFailure (cf : ClassFile) (texts : List Bytes) (e : ClassfileStatus) (cf' : ClassFile) : Prop :=
  Interns cf cf' ∧ e = .limitExceeded ∧ ((∃ t ∈ texts, t.length > classfileMaxCount) ∨ cf'.constantPool.Full)

theorem InternFailure.after {cf cf₁ cf' : ClassFile} {texts texts' : List Bytes} {e : ClassfileStatus}
    (h : InternFailure cf₁ texts e cf') (hinterns : Interns cf cf₁) (hsub : texts ⊆ texts') :
    InternFailure cf texts' e cf' := by
  obtain ⟨hi, he, hwhy⟩ := h
  refine ⟨hinterns.trans hi, he, ?_⟩
  rcases hwhy with ⟨t, ht, hlong⟩ | hfull
  · exact .inl ⟨t, hsub ht, hlong⟩
  · exact .inr hfull

theorem limits_internConstant {entry : CpInfo} (hslot : entry.slots = 1) (cf : ClassFile) :
    After (internConstant entry) cf
      (fun index cf' => Interns cf cf' ∧ constantPoolFind cf'.constantPool (· == entry) = some index)
      (InternFailure cf []) := by
  cases h : internConstant entry cf with
  | ok index cf' =>
    unfold After
    rw [h]
    exact internConstant_ok hslot h
  | error e cf' =>
    unfold After
    rw [h]
    obtain ⟨index, -, hrun⟩ | ⟨hfull, hrun⟩ | ⟨-, -, hrun⟩ := internConstant_cases hslot cf
    · rw [hrun] at h
      cases h
    · rw [hrun] at h
      cases h
      exact ⟨.refl cf, rfl, .inr hfull⟩
    · rw [hrun] at h
      cases h

theorem limits_internUtf8 (t : Bytes) (cf : ClassFile) :
    After (classFileInternUtf8 t) cf
      (fun index cf' => Interns cf cf' ∧ constantPoolFind cf'.constantPool (· == .utf8 t) = some index ∧
        t.length ≤ classfileMaxCount)
      (InternFailure cf [t]) := by
  unfold classFileInternUtf8
  split
  · rename_i hlong
    exact ⟨.refl cf, rfl, .inl ⟨t, List.mem_singleton_self t, hlong⟩⟩
  · rename_i hshort
    exact (limits_internConstant rfl cf).mono (fun index cf' h => ⟨h.1, h.2, Nat.not_lt.mp hshort⟩)
      fun e cf' h => h.after (.refl cf) (List.nil_subset _)

theorem limits_internNameAndType (name descriptor : Bytes) (cf : ClassFile) :
    After (classFileInternNameAndType name descriptor) cf
      (fun index cf' => Interns cf cf' ∧ (InternCall.nameAndType name descriptor).Found cf'.constantPool index ∧
        ∀ t ∈ [name, descriptor], t.length ≤ classfileMaxCount)
      (InternFailure cf [name, descriptor]) := by
  unfold classFileInternNameAndType
  rw [after_bind]
  refine (limits_internUtf8 name cf).mono (fun nameIndex cf₁ h₁ => ?_) fun e cf' h => h.after (.refl cf) (by simp)
  obtain ⟨hi₁, hname, hnameLength⟩ := h₁
  rw [after_bind]
  refine (limits_internUtf8 descriptor cf₁).mono (fun descriptorIndex cf₂ h₂ => ?_) fun e cf' h => h.after hi₁ (by simp)
  obtain ⟨hi₂, hdescriptor, hdescriptorLength⟩ := h₂
  refine (limits_internConstant rfl cf₂).mono (fun index cf₃ h₃ => ?_) fun e cf' h =>
    h.after (hi₁.trans hi₂) (List.nil_subset _)
  obtain ⟨hi₃, hnat⟩ := h₃
  refine ⟨(hi₁.trans hi₂).trans hi₃, ⟨nameIndex, descriptorIndex, (hi₂.grows.trans hi₃.grows).find hname,
    hi₃.grows.find hdescriptor, hnat⟩, ?_⟩
  simp only [List.mem_cons, List.not_mem_nil, or_false]
  rintro t (rfl | rfl)
  · exact hnameLength
  · exact hdescriptorLength

/-- A call appends what it does not find, and fails only over a limit. -/
theorem after_internCall (call : InternCall) (cf : ClassFile) :
    After call.run cf
      (fun index cf' => Interns cf cf' ∧ call.Found cf'.constantPool index ∧
        ∀ t ∈ call.texts, t.length ≤ classfileMaxCount)
      (InternFailure cf call.texts) := by
  cases call with
  | utf8 t =>
    refine (limits_internUtf8 t cf).mono (fun index cf' h => ⟨h.1, h.2.1, fun t' ht' => ?_⟩) fun e cf' h => h
    rw [List.mem_singleton.mp ht']
    exact h.2.2
  | class_ name =>
    simp only [InternCall.run, classFileInternClass]
    rw [after_bind]
    refine (limits_internUtf8 name cf).mono (fun nameIndex cf₁ h₁ => ?_) fun e cf' h => h
    obtain ⟨hi₁, hname, hlength⟩ := h₁
    refine (limits_internConstant rfl cf₁).mono (fun index cf₂ h₂ => ?_) fun e cf' h => h.after hi₁ (List.nil_subset _)
    refine ⟨hi₁.trans h₂.1, ⟨nameIndex, h₂.1.grows.find hname, h₂.2⟩, fun t ht => ?_⟩
    rw [List.mem_singleton.mp ht]
    exact hlength
  | nameAndType name descriptor => exact limits_internNameAndType name descriptor cf
  | methodref classIndex name descriptor =>
    simp only [InternCall.run, classFileInternMethodref]
    rw [after_bind]
    refine (limits_internNameAndType name descriptor cf).mono (fun natIndex cf₁ h₁ => ?_) fun e cf' h => h
    obtain ⟨hi₁, ⟨nameIndex, descriptorIndex, hname, hdescriptor, hnat⟩, hlengths⟩ := h₁
    refine (limits_internConstant rfl cf₁).mono (fun index cf₂ h₂ => ?_) fun e cf' h => h.after hi₁ (List.nil_subset _)
    obtain ⟨hi₂, hmethod⟩ := h₂
    exact ⟨hi₁.trans hi₂, ⟨nameIndex, descriptorIndex, natIndex, hi₂.grows.find hname, hi₂.grows.find hdescriptor,
      hi₂.grows.find hnat, hmethod⟩, hlengths⟩

theorem interns_endState (call : InternCall) (cf : ClassFile) : Interns cf (endState call.run cf) :=
  ((after_internCall call cf).mono (fun _ _ h => h.1) fun _ _ h => h.1).endState

/-- A whole sequence appends to the pool, and changes nothing else. -/
theorem interns_internRun (cf : ClassFile) (calls : List InternCall) : Interns cf (internRun cf calls) := by
  have hstep : ∀ cf' call, Interns cf cf' → True → Interns cf (endState (InternCall.run call) cf') :=
    fun cf' call h _ => h.trans (interns_endState call cf')
  exact invariant_run hstep (.refl cf) (AllMeet.of_forall (fun _ _ => trivial) _ _)

/-- A call whose constants are all there answers from the pool. -/
theorem InternCall.Found.again {call : InternCall} {cf : ClassFile} {index : UInt16}
    (h : call.Found cf.constantPool index) (htexts : ∀ t ∈ call.texts, t.length ≤ classfileMaxCount) :
    call.run cf = .ok index cf := by
  have constant {entry : CpInfo} {i : UInt16} (hfind : constantPoolFind cf.constantPool (· == entry) = some i) :
      internConstant entry cf = .ok i cf := by
    simp only [internConstant, run_bind, run_get, hfind, run_pure]
  have utf8 {t : Bytes} {i : UInt16} (ht : t ∈ call.texts)
      (hfind : constantPoolFind cf.constantPool (· == .utf8 t) = some i) : classFileInternUtf8 t cf = .ok i cf := by
    unfold classFileInternUtf8
    rw [if_neg (Nat.not_lt.mpr (htexts t ht))]
    exact constant hfind
  cases call with
  | utf8 t => exact utf8 (List.mem_singleton_self t) h
  | class_ name =>
    obtain ⟨nameIndex, hname, hclass⟩ := h
    simp only [InternCall.run, classFileInternClass, run_bind,
      utf8 (List.mem_singleton_self name) hname, constant hclass]
  | nameAndType name descriptor =>
    obtain ⟨nameIndex, descriptorIndex, hname, hdescriptor, hnat⟩ := h
    simp only [InternCall.run, classFileInternNameAndType, run_bind, utf8 (by simp [InternCall.texts]) hname,
      utf8 (by simp [InternCall.texts]) hdescriptor, constant hnat]
  | methodref classIndex name descriptor =>
    obtain ⟨nameIndex, descriptorIndex, natIndex, hname, hdescriptor, hnat, hmethod⟩ := h
    simp only [InternCall.run, classFileInternMethodref, classFileInternNameAndType, run_bind,
      utf8 (by simp [InternCall.texts]) hname, utf8 (by simp [InternCall.texts]) hdescriptor, constant hnat,
      constant hmethod]

/-! ## The result -/

/-- **Interning is correct, stable and idempotent.** After any sequence of interning calls on a parsed file, for every
further call:

* when it succeeds, the index lies in the pool and stands for what was asked for, and the same call after any more calls
  answers the same index and leaves the tree as it is;
* when it fails, a text is longer than 65535 bytes or one more constant would take the pool past 65535;
* either way the entries that were there are the same and every index stands for what it stood for, and nothing but the
  pool has changed. -/
theorem interning_correct {data : Bytes} {cf : ClassFile} (hparse : classfileParse data = .ok cf)
    (before : List InternCall) (call : InternCall) :
    (∀ index tree, call.run (internRun cf before) = .ok index tree →
      index.toNat < tree.constantPool.count ∧ call.Resolves tree.constantPool index ∧
      ∀ more, call.run (internRun tree more) = .ok index (internRun tree more)) ∧
    (∀ e tree, call.run (internRun cf before) = .error e tree →
      e = .limitExceeded ∧ ((∃ t ∈ call.texts, t.length > classfileMaxCount) ∨ tree.constantPool.Full)) ∧
    (internRun cf before).constantPool.entries <+: (endState call.run (internRun cf before)).constantPool.entries ∧
    (∀ (earlier : InternCall) (index : UInt16), earlier.Resolves (internRun cf before).constantPool index →
      earlier.Resolves (endState call.run (internRun cf before)).constantPool index) ∧
    endState call.run (internRun cf before) =
      { internRun cf before with constantPool := (endState call.run (internRun cf before)).constantPool } := by
  have hwell := (classfileParse_sound hparse).2
  have hcount := (interns_internRun cf before).count hwell.pool.count
  have hstep := interns_endState call (internRun cf before)
  refine ⟨fun index tree h => ?_, fun e tree h => ?_, hstep.grows.kept,
    fun earlier index hat => hstep.grows.resolves hat, hstep.rest⟩
  · obtain ⟨hinterns, hfound, htexts⟩ := (after_internCall call (internRun cf before)).of_ok h
    have htree := hinterns.count hcount
    refine ⟨hfound.lt htree, hfound.resolves htree, fun more => ?_⟩
    exact ((interns_internRun tree more).grows.found hfound).again htexts
  · exact ((after_internCall call (internRun cf before)).of_error h).2

/-- A call that names a hook, in a file that has the two texts already after the call before. -/
theorem interning_correct_hook : ∃ cf index tree, classfileParse plainClassBytes = .ok cf ∧
    (InternCall.methodref 2 (text "h") (text "()V")).run (internRun cf [.nameAndType (text "h") (text "()V")]) =
      .ok index tree ∧
    (InternCall.methodref 2 (text "h") (text "()V")).Resolves tree.constantPool index := by
  have hruns : (classfileParse plainClassBytes).toOption.any (fun cf => match (InternCall.methodref 2 (text "h")
      (text "()V")).run (internRun cf [.nameAndType (text "h") (text "()V")]) with
    | .ok _ _ => true
    | .error _ _ => false) = true := by decide +kernel
  cases hcf : classfileParse plainClassBytes with
  | error e =>
    rw [hcf] at hruns
    cases hruns
  | ok cf =>
    rw [hcf] at hruns
    simp only [Except.toOption, Option.any_some] at hruns
    obtain ⟨hok, -⟩ := interning_correct hcf [.nameAndType (text "h") (text "()V")]
      (.methodref 2 (text "h") (text "()V"))
    split at hruns
    · rename_i index tree hrun
      exact ⟨cf, index, tree, rfl, hrun, (hok index tree hrun).2.1⟩
    · cases hruns

end Jni2Hook
