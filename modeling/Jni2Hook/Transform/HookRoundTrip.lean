import Jni2Hook.Code.TypeAnnotationRoundTrip
import Jni2Hook.Transform.InsertedCall

/-!
# Replacing methods and putting them back

`class_transform_make_native` on several methods of a class, and `class_transform_restore` on them in any order.

* `methodKey`: the name and the descriptor by which a method is found. Among methods with keys of their own, a method is
  found exactly by its key (`findMethod_iff_key`).
* `Hooking`: the tree while some hooks are pending and others are undone. One call keeps it (`Hooking.make`,
  `Hooking.restore`), and so does every run.
* `restore_undoes_make_native`: when no hook is pending any more, the tree is the original up to new Utf8 constants and
  the place of the Code attributes.
-/

namespace Jni2Hook

open Lib

/-! ## Flags -/

theorem and_or_distrib (a b c : UInt16) : (a ||| b) &&& c = a &&& c ||| b &&& c := by
  apply UInt16.toBitVec_inj.1
  simp only [UInt16.toBitVec_and, UInt16.toBitVec_or]
  exact BitVec.and_or_distrib_right

/-- The flags that the copy takes over. -/
def inheritedFlags : List UInt16 :=
  [Acc.static_, Acc.synchronized_, Acc.bridge, Acc.varargs, Acc.strict, Acc.synthetic]

theorem hasFlag_copyFlags {flag : UInt16} (h : flag ∈ inheritedFlags) (flags : UInt16) :
    hasFlag (copyFlags flags) flag = hasFlag flags flag := by
  obtain ⟨hfixed, hmask⟩ : (Acc.private_ ||| Acc.final_) &&& flag = 0 ∧
      (Acc.static_ ||| Acc.synchronized_ ||| Acc.bridge ||| Acc.varargs ||| Acc.strict ||| Acc.synthetic) &&& flag =
        flag := by
    revert flag
    simp only [inheritedFlags, List.forall_mem_cons, List.not_mem_nil, false_imp_iff, implies_true, and_true]
    decide
  rw [hasFlag, hasFlag, copyFlags, and_or_distrib, hfixed, UInt16.zero_or, UInt16.and_assoc, hmask]

/-- A flag that is set first is set in the end. -/
theorem hasFlag_or {flags flag : UInt16} (h : hasFlag flags flag = true) (other : UInt16) :
    hasFlag (flags ||| other) flag = true := by
  simp only [hasFlag, bne_iff_ne, ne_eq] at h ⊢
  rw [and_or_distrib]
  exact fun hzero => h (UInt16.or_eq_zero_iff.mp hzero).1

theorem copyFlags_private (flags : UInt16) : hasFlag (copyFlags flags) Acc.private_ = true :=
  hasFlag_or (by decide) _

theorem copyFlags_final (flags : UInt16) : hasFlag (copyFlags flags) Acc.final_ = true :=
  hasFlag_or (by decide) _

/-- Taking the native flag away again gives the flags back. -/
theorem clear_native {flags : UInt16} (h : hasFlag flags Acc.native = false) :
    (flags ||| Acc.native) &&& ~~~Acc.native = flags := by
  simp only [hasFlag, bne_eq_false_iff_eq] at h
  have hsplit : flags &&& (Acc.native ||| ~~~Acc.native) = flags := by
    rw [UInt16.or_not_self]
    simp
  rw [and_or_distrib, UInt16.and_not_self, UInt16.or_zero]
  rw [UInt16.and_comm, and_or_distrib, UInt16.and_comm, h, UInt16.zero_or, UInt16.and_comm] at hsplit
  exact hsplit

/-! ## Keys -/

/-- The name and the descriptor of a method. -/
def methodKey (pool : ConstantPool) (m : MemberInfo) : Option (Bytes × Bytes) := do
  let name ← constantPoolUtf8 pool m.nameIndex
  let descriptor ← constantPoolUtf8 pool m.descriptorIndex
  return (name, descriptor)

theorem methodKey_eq_some {pool : ConstantPool} {m : MemberInfo} {name descriptor : Bytes} :
    methodKey pool m = some (name, descriptor) ↔
      constantPoolUtf8 pool m.nameIndex = some name ∧ constantPoolUtf8 pool m.descriptorIndex = some descriptor := by
  simp only [methodKey, Option.bind_eq_bind, Option.bind_eq_some_iff]
  constructor
  · rintro ⟨n, hn, d, hd, heq⟩
    cases heq
    exact ⟨hn, hd⟩
  · rintro ⟨hn, hd⟩
    exact ⟨name, hn, descriptor, hd, rfl⟩

theorem memberMatches_iff_key {pool : ConstantPool} {m : MemberInfo} {name descriptor : Bytes} :
    memberMatches pool name (some descriptor) m = true ↔ methodKey pool m = some (name, descriptor) := by
  simp [memberMatches, constantPoolUtf8Equals, methodKey_eq_some]

theorem methodKey_grows {pool pool' : ConstantPool} (h : Grows pool pool') {m : MemberInfo}
    (hm : (methodKey pool m).isSome) : methodKey pool' m = methodKey pool m := by
  obtain ⟨⟨name, descriptor⟩, hkey⟩ := Option.isSome_iff_exists.mp hm
  obtain ⟨hname, hdescriptor⟩ := methodKey_eq_some.mp hkey
  rw [hkey, methodKey_eq_some]
  exact ⟨h.utf8 hname, h.utf8 hdescriptor⟩

section Keys

variable {cf : ClassFile} {name descriptor : Bytes}

theorem eq_of_key (h : (cf.methods.map (methodKey cf.constantPool)).Nodup) {i j : Nat} {m m' : MemberInfo}
    (hi : cf.methods[i]? = some m) (hj : cf.methods[j]? = some m')
    (hkey : methodKey cf.constantPool m = methodKey cf.constantPool m') : i = j := by
  have hlt : i < (cf.methods.map (methodKey cf.constantPool)).length := by
    rw [List.length_map]
    exact (List.getElem?_eq_some_iff.mp hi).1
  refine (List.getElem?_inj hlt h).mp ?_
  rw [List.getElem?_map, List.getElem?_map, hi, hj, Option.map_some, Option.map_some, hkey]

/-- Among methods with keys of their own, a method is found by its key. -/
theorem findMethod_iff_key (h : (cf.methods.map (methodKey cf.constantPool)).Nodup) {i : Nat} {m : MemberInfo} :
    findMethod cf name descriptor = some (i, m) ↔
      cf.methods[i]? = some m ∧ methodKey cf.constantPool m = some (name, descriptor) := by
  rw [findMethod_eq_some]
  constructor
  · rintro ⟨hindex, hm⟩
    obtain ⟨hlt, hmatch, -⟩ := List.findIdx?_eq_some_iff_getElem.mp hindex
    rw [List.getElem?_eq_getElem hlt] at hm
    cases hm
    exact ⟨List.getElem?_eq_getElem hlt, memberMatches_iff_key.mp hmatch⟩
  · rintro ⟨hm, hkey⟩
    refine ⟨?_, hm⟩
    obtain ⟨hlt, hget⟩ := List.getElem?_eq_some_iff.mp hm
    refine List.findIdx?_eq_some_iff_getElem.mpr ⟨hlt, ?_, fun j hj hmatch => ?_⟩
    · rw [hget]
      exact memberMatches_iff_key.mpr hkey
    · have hsame := eq_of_key h (List.getElem?_eq_getElem (by omega)) hm
        ((memberMatches_iff_key.mp hmatch).trans hkey.symm)
      omega

theorem findMethod_none_key (h : findMethod cf name descriptor = none) :
    ∀ m ∈ cf.methods, methodKey cf.constantPool m ≠ some (name, descriptor) := by
  intro m hmem hkey
  obtain ⟨i, hi⟩ := List.getElem?_of_mem hmem
  have hany : (cf.methods.findIdx? (memberMatches cf.constantPool name (some descriptor))).isSome := by
    rw [List.findIdx?_isSome, List.any_eq_true]
    exact ⟨m, hmem, memberMatches_iff_key.mpr hkey⟩
  obtain ⟨index, hindex⟩ := Option.isSome_iff_exists.mp hany
  obtain ⟨hlt, -⟩ := List.findIdx?_eq_some_iff_getElem.mp hindex
  have hfound : findMethod cf name descriptor = some (index, cf.methods[index]) :=
    findMethod_eq_some.mpr ⟨hindex, List.getElem?_eq_getElem hlt⟩
  rw [h] at hfound
  cases hfound

end Keys

/-! ## Hooked methods -/

/-- The arguments by which a method is made native and restored. -/
structure NativeHook where
  name : Bytes
  descriptor : Bytes
  copyName : Bytes
  deriving DecidableEq

/-- The key of the method that is hooked. -/
def NativeHook.method (h : NativeHook) : Bytes × Bytes := (h.name, h.descriptor)

/-- The key of the copy. -/
def NativeHook.copy (h : NativeHook) : Bytes × Bytes := (h.copyName, h.descriptor)

def makeAll : List NativeHook → Transform Unit
  | [] => return ()
  | h :: rest => do
    makeNative h.name h.descriptor h.copyName
    makeAll rest

def restoreAll : List NativeHook → Transform Unit
  | [] => return ()
  | h :: rest => do
    restore h.name h.descriptor h.copyName
    restoreAll rest

/-- The classes whose methods can be told apart, with at most one Code attribute each. -/
structure HookableClass (cf : ClassFile) : Prop where
  pool : cf.constantPool.count ≤ classfileMaxCount
  named : ∀ m ∈ cf.methods, (methodKey cf.constantPool m).isSome
  distinct : (cf.methods.map (methodKey cf.constantPool)).Nodup
  attributes : ∀ m ∈ cf.methods, m.attributes.length ≤ classfileMaxCount
  code : ∀ m ∈ cf.methods, m.attributes.countP (isCode cf.constantPool) ≤ 1

/-- A method while it is hooked. -/
def nativeMethod (pool : ConstantPool) (m : MemberInfo) : MemberInfo :=
  { m with
    accessFlags := m.accessFlags ||| Acc.native
    attributes := m.attributes.filter fun a => !isCode pool a }

/-- A method with its Code attribute as the last one. -/
def codeLast (pool : ConstantPool) (m : MemberInfo) : MemberInfo :=
  { m with attributes := (m.attributes.filter fun a => !isCode pool a) ++ m.attributes.filter (isCode pool) }

/-- The copy of a method. -/
def copyOf (m : MemberInfo) (nameIndex : UInt16) : MemberInfo :=
  { m with nameIndex := nameIndex, accessFlags := copyFlags m.accessFlags }

/-- A method of the class while some hooks are pending and others are undone. -/
def hookedMethod (pool : ConstantPool) (pending done : List NativeHook) (m : MemberInfo) : MemberInfo :=
  if ∃ h ∈ pending, methodKey pool m = some h.method then nativeMethod pool m
  else if ∃ h ∈ done, methodKey pool m = some h.method then codeLast pool m
  else m

@[simp] theorem methodKey_native (pool pool' : ConstantPool) (m : MemberInfo) :
    methodKey pool (nativeMethod pool' m) = methodKey pool m := rfl

@[simp] theorem methodKey_codeLast (pool pool' : ConstantPool) (m : MemberInfo) :
    methodKey pool (codeLast pool' m) = methodKey pool m := rfl

@[simp] theorem methodKey_hooked (pool pool' : ConstantPool) (pending done : List NativeHook) (m : MemberInfo) :
    methodKey pool (hookedMethod pool' pending done m) = methodKey pool m := by
  unfold hookedMethod
  split
  · rfl
  · split <;> rfl

/-- The copy that belongs to a hook. -/
def Copied (cf : ClassFile) (pool : ConstantPool) (h : NativeHook) (copy : MemberInfo) : Prop :=
  ∃ m ∈ cf.methods, methodKey cf.constantPool m = some h.method ∧ hasFlag m.accessFlags Acc.native = false ∧
    (findCode cf m).isSome ∧ copy = copyOf m copy.nameIndex ∧ constantPoolUtf8 pool copy.nameIndex = some h.copyName

/-- The tree while some hooks are pending and others are undone. -/
structure Hooking (cf : ClassFile) (pending done : List NativeHook) (state : ClassFile) : Prop where
  rest : state = { cf with constantPool := state.constantPool, methods := state.methods }
  added : ∃ texts : List Bytes, state.constantPool.entries = cf.constantPool.entries ++ texts.map .utf8
  grows : Grows cf.constantPool state.constantPool
  count : state.constantPool.count ≤ classfileMaxCount
  methods : ∃ copies, state.methods = cf.methods.map (hookedMethod cf.constantPool pending done) ++ copies ∧
    List.Forall₂ (Copied cf state.constantPool) pending copies
  keys : (state.methods.map (methodKey state.constantPool)).Nodup
  named : state = cf ∨ .utf8 (text "Code") ∈ cf.constantPool.entries

theorem Hooking.start {cf : ClassFile} (h : HookableClass cf) : Hooking cf [] [] cf where
  rest := rfl
  added := ⟨[], by simp⟩
  grows := .refl _
  count := h.pool
  methods := by
    refine ⟨[], ?_, .nil⟩
    rw [List.append_nil]
    exact (List.map_id'' (fun m => by simp [hookedMethod]) cf.methods).symm
  keys := h.distinct
  named := .inl rfl

/-! ## Steps -/

/-- What interning a text does to the pool. -/
theorem internUtf8_entries {bytes : Bytes} {cf cf' : ClassFile} {index : UInt16}
    (h : classFileInternUtf8 bytes cf = .ok index cf') (hcount : cf.constantPool.count ≤ classfileMaxCount) :
    (∃ texts : List Bytes, cf'.constantPool.entries = cf.constantPool.entries ++ texts.map .utf8) ∧
      cf'.constantPool.count ≤ classfileMaxCount ∧ constantPoolUtf8 cf'.constantPool index = some bytes := by
  have hfound := (internUtf8_ok h).2
  have hentries : (∃ texts : List Bytes, cf'.constantPool.entries = cf.constantPool.entries ++ texts.map .utf8) ∧
      cf'.constantPool.count ≤ classfileMaxCount := by
    unfold classFileInternUtf8 at h
    split at h
    · cases h
    have hslots : (CpInfo.utf8 bytes).slots = 1 := rfl
    obtain ⟨found, -, hrun⟩ | ⟨-, hrun⟩ | ⟨-, hroom, hrun⟩ := internConstant_cases hslots cf
    · rw [hrun] at h
      cases h
      exact ⟨⟨[], by simp⟩, hcount⟩
    · rw [hrun] at h
      cases h
    · rw [hrun] at h
      cases h
      refine ⟨⟨[bytes], rfl⟩, ?_⟩
      simp only [ConstantPool.count, List.length_append, List.length_singleton] at hroom ⊢
      omega
  obtain ⟨hadded, hle⟩ := hentries
  refine ⟨hadded, hle, ?_⟩
  obtain ⟨i, hi, rfl⟩ := Option.map_eq_some_iff.mp hfound
  obtain ⟨hlt, heq, -⟩ := List.findIdx?_eq_some_iff_getElem.mp hi
  rw [ConstantPool.count, classfileMaxCount] at hle
  have htoNat : (UInt16.ofNat (i + 1)).toNat = i + 1 := by
    rw [UInt16.toNat_ofNat', Nat.mod_eq_of_lt (by omega)]
  refine constantPoolUtf8_eq_some.mpr (constantPoolAt_eq_some.mpr ⟨fun hzero => ?_, CpInfo.noConfusion, ?_⟩)
  · rw [hzero] at htoNat
    cases htoNat
  · rw [htoNat, Nat.add_sub_cancel, List.getElem?_eq_getElem hlt]
    exact congrArg some (eq_of_beq heq)

/-- At most one Code attribute: taking the first away takes all away. -/
theorem eraseP_code {p : AttributeInfo → Bool} : ∀ {attributes : List AttributeInfo}, attributes.countP p ≤ 1 →
    attributes.eraseP p = attributes.filter fun a => !p a
  | [], _ => rfl
  | a :: rest, h => by
    rw [List.countP_cons] at h
    cases ha : p a with
    | true =>
      have hnone : rest.countP p = 0 := by
        rw [ha, if_pos rfl] at h
        omega
      have hrest : ∀ b ∈ rest, (!p b) = true := by
        intro b hb
        simpa using List.countP_eq_zero.mp hnone b hb
      rw [List.eraseP_cons_of_pos ha, List.filter_cons_of_neg (by simp [ha]), List.filter_eq_self.mpr hrest]
    | false =>
      rw [ha] at h
      rw [List.eraseP_cons_of_neg (by simp [ha]), List.filter_cons_of_pos (by simp [ha]),
        eraseP_code (by simpa using h)]

theorem filter_code {p : AttributeInfo → Bool} : ∀ {attributes : List AttributeInfo} {code : AttributeInfo},
    attributes.countP p ≤ 1 → attributes.find? p = some code → attributes.filter p = [code]
  | [], _, _, hfind => by cases hfind
  | a :: rest, code, h, hfind => by
    rw [List.countP_cons] at h
    cases ha : p a with
    | true =>
      rw [List.find?_cons_of_pos ha] at hfind
      cases hfind
      have hnone : rest.countP p = 0 := by
        rw [ha, if_pos rfl] at h
        omega
      rw [List.filter_cons_of_pos ha, List.filter_eq_nil_iff.mpr (List.countP_eq_zero.mp hnone)]
    | false =>
      rw [List.find?_cons_of_neg (by simp [ha])] at hfind
      rw [ha] at h
      rw [List.filter_cons_of_neg (by simp [ha]), filter_code (by simpa using h) hfind]

/-- The guards of `class_transform_make_native` have passed. -/
structure Replaceable (cf : ClassFile) (h : NativeHook) (index : Nat) (method : MemberInfo) : Prop where
  free : findMethod cf h.copyName h.descriptor = none
  found : findMethod cf h.name h.descriptor = some (index, method)
  native : hasFlag method.accessFlags Acc.native = false
  code : (findCode cf method).isSome

theorem replaceable_of_ok {cf : ClassFile} {h : NativeHook} {found : Nat × MemberInfo}
    (hok : replaceableMethod cf h.name h.descriptor h.copyName = .ok found) : Replaceable cf h found.1 found.2 := by
  have hfound := replaceableMethod_ok hok
  unfold replaceableMethod at hok
  split at hok
  · cases hok
  split at hok
  · cases hok
  rename_i hfree
  rw [hfound] at hok
  simp only at hok
  split at hok
  · cases hok
  split at hok
  · cases hok
  rename_i hnative
  split at hok
  · cases hok
  split at hok
  · cases hok
  rename_i hcode
  refine ⟨?_, hfound, by simpa using hnative, ?_⟩
  · simpa using hfree
  · simpa [Option.isSome_iff_ne_none, Option.isNone_iff_eq_none] using hcode

/-- What `class_transform_make_native` has done when it succeeds. -/
theorem makeNative_ok {cf cf' : ClassFile} {h : NativeHook}
    (hok : makeNative h.name h.descriptor h.copyName cf = .ok () cf')
    (hcount : cf.constantPool.count ≤ classfileMaxCount) : ∃ index method nameIndex,
      Replaceable cf h index method ∧ Grows cf.constantPool cf'.constantPool ∧
      (∃ texts : List Bytes, cf'.constantPool.entries = cf.constantPool.entries ++ texts.map .utf8) ∧
      cf'.constantPool.count ≤ classfileMaxCount ∧ constantPoolUtf8 cf'.constantPool nameIndex = some h.copyName ∧
      cf' = { cf with
        constantPool := cf'.constantPool
        methods := (cf.methods ++ [copyOf method nameIndex]).modify index fun original =>
          { memberInfoSetNative original true with
            attributes := original.attributes.eraseP (isCode cf'.constantPool) } } := by
  obtain ⟨⟨index, method⟩, cf₀, hlookup, hrest⟩ := exists_of_bind_ok hok
  obtain ⟨hreplaceable, rfl⟩ := lookup_ok hlookup
  obtain ⟨nameIndex, cf₁, hwith, hrest⟩ := exists_of_bind_ok hrest
  have hintern := withCause_ok hwith
  obtain ⟨_, cf₂, happend, hmodify⟩ := exists_of_bind_ok hrest
  obtain ⟨hadded, hle, hname⟩ := internUtf8_entries hintern hcount
  have hinterns := (internUtf8_ok hintern).1
  have hmethods := appendMethod_ok happend
  cases hmodify
  refine ⟨index, method, nameIndex, replaceable_of_ok hreplaceable, ?_, ?_, ?_, ?_, ?_⟩
  all_goals rw [hmethods]
  · exact hinterns.grows
  · exact hadded
  · exact hle
  · exact hname
  · rw [hinterns.rest]
    rfl

/-! ## One call -/

section Calls

variable {cf state : ClassFile} {pending done : List NativeHook} {h : NativeHook}

/-- A method of the class keeps its place and its key. -/
theorem Hooking.original (hs : Hooking cf pending done state) (hc : HookableClass cf) {i : Nat} {m : MemberInfo}
    (hm : cf.methods[i]? = some m) :
    state.methods[i]? = some (hookedMethod cf.constantPool pending done m) ∧
      methodKey state.constantPool (hookedMethod cf.constantPool pending done m) = methodKey cf.constantPool m := by
  obtain ⟨copies, hmethods, -⟩ := hs.methods
  have hlt := (List.getElem?_eq_some_iff.mp hm).1
  refine ⟨?_, ?_⟩
  · rw [hmethods, List.getElem?_append_left (by rw [List.length_map]; exact hlt), List.getElem?_map,
      hm, Option.map_some]
  · rw [methodKey_hooked]
    exact methodKey_grows hs.grows (hc.named m (List.mem_of_getElem? hm))

theorem mem_of_findCode {m : MemberInfo} (hcode : (findCode cf m).isSome) :
    .utf8 (text "Code") ∈ cf.constantPool.entries := by
  obtain ⟨code, hfind⟩ := Option.isSome_iff_exists.mp hcode
  exact mem_of_constantPoolUtf8Equals (List.find?_some (p := Jni2Hook.isCode cf.constantPool) hfind)

/-- The name of the Code attributes stands nowhere new. -/
theorem Hooking.isCode (hs : Hooking cf pending done state) :
    Jni2Hook.isCode state.constantPool = Jni2Hook.isCode cf.constantPool := by
  rcases hs.named with rfl | hmem
  · rfl
  · funext a
    exact hs.grows.utf8Equals hmem a.attributeNameIndex

theorem Hooking.findCode (hs : Hooking cf pending done state) (m : MemberInfo) :
    Jni2Hook.findCode state m = Jni2Hook.findCode cf m := by
  show m.attributes.find? (Jni2Hook.isCode state.constantPool) = m.attributes.find? (Jni2Hook.isCode cf.constantPool)
  rw [hs.isCode]

/-- Changing the method with one key. -/
theorem map_modify_key (hc : HookableClass cf) {i : Nat} {m : MemberInfo} {f f' g : MemberInfo → MemberInfo}
    (hm : cf.methods[i]? = some m) (hhere : g (f m) = f' m)
    (helse : ∀ m' ∈ cf.methods, methodKey cf.constantPool m' ≠ methodKey cf.constantPool m → f' m' = f m') :
    (cf.methods.map f).modify i g = cf.methods.map f' := by
  apply List.ext_getElem?
  intro j
  rw [List.getElem?_modify, List.getElem?_map, List.getElem?_map]
  by_cases hj : i = j
  · subst hj
    simp [hm, hhere]
  · cases hm' : cf.methods[j]? with
    | none => rfl
    | some m' =>
      have hkey : methodKey cf.constantPool m' ≠ methodKey cf.constantPool m := fun heq =>
        hj (eq_of_key hc.distinct hm hm' heq.symm)
      simp [hj, helse m' (List.mem_of_getElem? hm') hkey]

theorem keys_of_originals {pool : ConstantPool} (hgrows : Grows cf.constantPool pool) (hc : HookableClass cf)
    (pending done : List NativeHook) :
    (cf.methods.map (hookedMethod cf.constantPool pending done)).map (methodKey pool) =
      cf.methods.map (methodKey cf.constantPool) := by
  rw [List.map_map]
  refine List.map_congr_left fun m hm => ?_
  rw [Function.comp_apply, methodKey_hooked]
  exact methodKey_grows hgrows (hc.named m hm)

theorem Copied.key {pool : ConstantPool} (hgrows : Grows cf.constantPool pool) {copy : MemberInfo}
    (hcopy : Copied cf pool h copy) : methodKey pool copy = some h.copy := by
  obtain ⟨m, -, hkey, -, -, heq, hname⟩ := hcopy
  refine methodKey_eq_some.mpr ⟨hname, ?_⟩
  rw [heq]
  exact hgrows.utf8 (methodKey_eq_some.mp hkey).2

theorem Copied.grows {pool pool' : ConstantPool} (hgrows : Grows pool pool') {copy : MemberInfo}
    (hcopy : Copied cf pool h copy) : Copied cf pool' h copy := by
  obtain ⟨m, hm, hkey, hnative, hcode, heq, hname⟩ := hcopy
  exact ⟨m, hm, hkey, hnative, hcode, heq, hgrows.utf8 hname⟩

theorem keys_of_copies {pool : ConstantPool} (hgrows : Grows cf.constantPool pool) {pending : List NativeHook}
    {copies : List MemberInfo} (hcopies : List.Forall₂ (Copied cf pool) pending copies) :
    copies.map (methodKey pool) = pending.map fun h => some h.copy := by
  induction hcopies with
  | nil => rfl
  | cons hcopy _ ih => rw [List.map_cons, List.map_cons, hcopy.key hgrows, ih]

/-- The keys of the tree: those of the class, and those of the copies. -/
theorem keys_of_state {pool : ConstantPool} (hgrows : Grows cf.constantPool pool) (hc : HookableClass cf)
    {pending done : List NativeHook} {copies : List MemberInfo}
    (hcopies : List.Forall₂ (Copied cf pool) pending copies) :
    (cf.methods.map (hookedMethod cf.constantPool pending done) ++ copies).map (methodKey pool) =
      cf.methods.map (methodKey cf.constantPool) ++ pending.map fun h => some h.copy := by
  rw [List.map_append, keys_of_originals hgrows hc, keys_of_copies hgrows hcopies]

/-- A hook that is not among the ones so far makes the copy of its method and the method native. -/
theorem Hooking.make (hs : Hooking cf pending [] state) (hc : HookableClass cf)
    (hmethod : ∃ m ∈ cf.methods, methodKey cf.constantPool m = some h.method)
    (hnew : ∀ h' ∈ pending, h'.method ≠ h.method) {state' : ClassFile}
    (hok : makeNative h.name h.descriptor h.copyName state = .ok () state') :
    Hooking cf (pending ++ [h]) [] state' := by
  obtain ⟨index, method, nameIndex, hreplace, hgrows, ⟨texts', htexts'⟩, hcount, hname, hstate⟩ :=
    makeNative_ok hok hs.count
  obtain ⟨copies, hmethods, hcopies⟩ := hs.methods
  obtain ⟨m, hmem, hkey⟩ := hmethod
  obtain ⟨i, hi⟩ := List.getElem?_of_mem hmem
  obtain ⟨hat, hatKey⟩ := hs.original hc hi
  -- no hook so far is on the method, so it is the original one
  have huntouched : hookedMethod cf.constantPool pending [] m = m := by
    rw [hookedMethod, if_neg, if_neg (by simp)]
    rintro ⟨h', hmem', heq⟩
    rw [hkey] at heq
    exact hnew h' hmem' (Option.some.inj heq).symm
  rw [huntouched] at hat hatKey
  have hfound : findMethod state h.name h.descriptor = some (i, m) :=
    (findMethod_iff_key hs.keys).mpr ⟨hat, hatKey.trans hkey⟩
  obtain ⟨rfl, rfl⟩ : i = index ∧ m = method := by
    have hsame := hreplace.found
    rw [hfound] at hsame
    cases hsame
    exact ⟨rfl, rfl⟩
  have hall := hs.grows.trans hgrows
  have hcode : (Jni2Hook.findCode cf m).isSome := by
    rw [← hs.findCode]
    exact hreplace.code
  have hisCode : Jni2Hook.isCode state'.constantPool = Jni2Hook.isCode cf.constantPool := by
    funext a
    exact hall.utf8Equals (mem_of_findCode hcode) a.attributeNameIndex
  have hlt : i < (cf.methods.map (hookedMethod cf.constantPool pending [])).length := by
    rw [List.length_map]
    exact (List.getElem?_eq_some_iff.mp hi).1
  have hnewMethods : state'.methods =
      cf.methods.map (hookedMethod cf.constantPool (pending ++ [h]) []) ++ (copies ++ [copyOf m nameIndex]) := by
    rw [hstate, hmethods, List.append_assoc]
    dsimp only
    rw [modify_append_left hlt]
    refine congrArg (· ++ _) (map_modify_key hc hi ?_ fun m' hm' hne => ?_)
    · rw [huntouched, hookedMethod, if_pos ⟨h, by simp, hkey⟩, nativeMethod, hisCode, eraseP_code (hc.code m hmem)]
      rfl
    · rw [hkey] at hne
      simp [hookedMethod, hne]
  have hnewCopies : List.Forall₂ (Copied cf state'.constantPool) (pending ++ [h]) (copies ++ [copyOf m nameIndex]) := by
    refine List.rel_append (hcopies.imp fun h' copy hcopy => hcopy.grows hgrows) (.cons ?_ .nil)
    exact ⟨m, hmem, hkey, hreplace.native, hcode, rfl, hname⟩
  have hkeys := hs.keys
  rw [hmethods, keys_of_state hs.grows hc hcopies] at hkeys
  refine ⟨?_, ?_, hall, hcount, ⟨copies ++ [copyOf m nameIndex], hnewMethods, hnewCopies⟩, ?_,
    .inr (mem_of_findCode hcode)⟩
  · rw [hstate, hs.rest]
  · obtain ⟨texts, htexts⟩ := hs.added
    refine ⟨texts ++ texts', ?_⟩
    rw [htexts', htexts, List.map_append, List.append_assoc]
  · -- the key of the copy was free
    rw [hnewMethods, keys_of_state hall hc hnewCopies, List.map_append, ← List.append_assoc, List.map_singleton]
    refine List.nodup_append.mpr ⟨hkeys, List.nodup_singleton _, fun key hmemKey key' hsingle => ?_⟩
    rw [List.mem_singleton.mp hsingle]
    rintro rfl
    rw [← keys_of_state hs.grows hc hcopies, ← hmethods] at hmemKey
    obtain ⟨m', hm', hkey'⟩ := List.mem_map.mp hmemKey
    exact findMethod_none_key hreplace.free m' hm' hkey'

/-- What `class_transform_restore` does when it finds the copy, the method and the code. -/
theorem restore_of_found {i j : Nat} {copy method : MemberInfo} {code : AttributeInfo}
    (hcopy : findMethod state h.copyName h.descriptor = some (j, copy))
    (hmethod : findMethod state h.name h.descriptor = some (i, method))
    (hcode : Jni2Hook.findCode state copy = some code)
    (hroom : method.attributes.length ≠ classfileMaxCount) :
    restore h.name h.descriptor h.copyName state = .ok () { state with
      methods := (state.methods.modify i fun original =>
        memberInfoSetNative { original with attributes := method.attributes ++ [code] } false).eraseIdx j } := by
  have happend : listAppend method.attributes code = .ok (method.attributes ++ [code]) := by
    rw [listAppend, if_neg hroom]
  unfold restore
  rw [run_bind, run_get]
  simp only [hcopy, hmethod, hcode, happend]
  rfl

theorem length_filter_lt {p : AttributeInfo → Bool} {attributes : List AttributeInfo} {code : AttributeInfo}
    (hcode : attributes.find? p = some code) : (attributes.filter fun a => !p a).length < attributes.length := by
  have hmem := List.mem_of_find?_eq_some hcode
  have hp := List.find?_some hcode
  rw [List.length_filter_lt_length_iff_exists]
  exact ⟨code, hmem, by simp [hp]⟩

/-- A pending hook is undone. -/
theorem Hooking.restore {before after : List NativeHook} (hs : Hooking cf (before ++ h :: after) done state)
    (hc : HookableClass cf) (hdistinct : ((before ++ h :: after).map NativeHook.method).Nodup) : ∃ state',
      Jni2Hook.restore h.name h.descriptor h.copyName state = .ok () state' ∧
      Hooking cf (before ++ after) (h :: done) state' := by
  obtain ⟨copies, hmethods, hcopies⟩ := hs.methods
  obtain ⟨copies₁, copies', hbefore, hrest, rfl⟩ := forall₂_append_left hcopies
  obtain ⟨copy, copies₂, hcopied, hafter, rfl⟩ := List.forall₂_cons_left_iff.mp hrest
  have hcopyKey := hcopied.key hs.grows
  obtain ⟨m, hmem, hkey, hnative, hsome, hcopy, -⟩ := hcopied
  obtain ⟨code, hcode⟩ := Option.isSome_iff_exists.mp hsome
  have hfind : m.attributes.find? (Jni2Hook.isCode cf.constantPool) = some code := hcode
  obtain ⟨i, hi⟩ := List.getElem?_of_mem hmem
  obtain ⟨hat, hatKey⟩ := hs.original hc hi
  rw [hookedMethod, if_pos ⟨h, by simp, hkey⟩] at hat hatKey
  -- the copy stands behind the methods of the class and the copies made before it
  have hcopyAt : state.methods[(cf.methods.map (hookedMethod cf.constantPool (before ++ h :: after) done)).length +
      copies₁.length]? = some copy := by
    rw [hmethods, List.getElem?_append_right (by omega), Nat.add_sub_cancel_left,
      List.getElem?_append_right (Nat.le_refl _), Nat.sub_self, List.getElem?_cons_zero]
  have hlt : i < (cf.methods.map (hookedMethod cf.constantPool (before ++ h :: after) done)).length := by
    rw [List.length_map]
    exact (List.getElem?_eq_some_iff.mp hi).1
  refine ⟨_, @restore_of_found _ _ _ _ _ _ code ((findMethod_iff_key hs.keys).mpr ⟨hcopyAt, hcopyKey⟩)
    ((findMethod_iff_key hs.keys).mpr ⟨hat, hatKey.trans hkey⟩) ?_ ?_, ?_⟩
  · rw [hs.findCode, hcopy]
    exact hcode
  · have := length_filter_lt hfind
    have := hc.attributes m hmem
    rw [nativeMethod]
    dsimp only
    omega
  have hnewMethods : ((state.methods.modify i fun original => memberInfoSetNative { original with
        attributes := (nativeMethod cf.constantPool m).attributes ++ [code] } false).eraseIdx
      ((cf.methods.map (hookedMethod cf.constantPool (before ++ h :: after) done)).length + copies₁.length)) =
      cf.methods.map (hookedMethod cf.constantPool (before ++ after) (h :: done)) ++ (copies₁ ++ copies₂) := by
    rw [hmethods, modify_append_left hlt, @map_modify_key _ hc _ _ _ (hookedMethod cf.constantPool (before ++ after)
      (h :: done)) _ hi ?_ fun m' hm' hne => ?_]
    · rw [List.length_map, List.eraseIdx_append_of_length_le (by rw [List.length_map]; omega), List.length_map,
        Nat.add_sub_cancel_left, List.eraseIdx_append_of_length_le (Nat.le_refl _), Nat.sub_self,
          List.eraseIdx_cons_zero]
    · rw [hookedMethod, if_pos ⟨h, by simp, hkey⟩, hookedMethod, if_neg, if_pos ⟨h, by simp, hkey⟩]
      · simp only [nativeMethod, codeLast, memberInfoSetNative, Bool.false_eq_true, if_false, clear_native hnative,
          filter_code (hc.code m hmem) hfind]
      · -- the keys of the hooks are distinct, so none of the others is on this method
        rintro ⟨h', hmem', heq⟩
        rw [hkey, Option.some.injEq] at heq
        rw [List.map_append, List.map_cons] at hdistinct
        have hnot := (List.nodup_middle.mp hdistinct)
        rw [List.nodup_cons, ← List.map_append] at hnot
        exact hnot.1 (heq ▸ List.mem_map_of_mem hmem')
    · rw [hkey] at hne
      simp only [hookedMethod, List.mem_append, List.mem_cons, or_and_right, exists_or, exists_eq_left, hne, false_or]
  have hcopies' : List.Forall₂ (Copied cf state.constantPool) (before ++ after) (copies₁ ++ copies₂) :=
    List.rel_append hbefore hafter
  refine ⟨?_, hs.added, hs.grows, hs.count, ⟨copies₁ ++ copies₂, hnewMethods, hcopies'⟩, ?_,
    .inr (mem_of_findCode hsome)⟩
  · rw [hs.rest]
  · have hkeys := hs.keys
    rw [hmethods, keys_of_state hs.grows hc hcopies] at hkeys
    dsimp only
    rw [hnewMethods, keys_of_state hs.grows hc hcopies']
    refine hkeys.sublist (List.Sublist.append_left (List.Sublist.map _ ?_) _)
    exact List.Sublist.append_left (List.sublist_cons_self _ _) _

end Calls

/-! ## While a hook is pending -/

/-- A method of the class, what it has become, and its copy. -/
structure HookedPair (cf state : ClassFile) (h : NativeHook) (m native copy : MemberInfo) : Prop where
  original : m ∈ cf.methods
  key : methodKey cf.constantPool m = some h.method
  found : ∃ i, findMethod state h.name h.descriptor = some (i, native)
  nativeFlags : native.accessFlags = m.accessFlags ||| Acc.native
  withoutCode : findCode state native = none
  others : native.attributes = m.attributes.filter fun a => !isCode cf.constantPool a
  copied : ∃ j, findMethod state h.copyName h.descriptor = some (j, copy)
  isPrivate : hasFlag copy.accessFlags Acc.private_ = true
  isFinal : hasFlag copy.accessFlags Acc.final_ = true
  inherited : ∀ flag ∈ inheritedFlags, hasFlag copy.accessFlags flag = hasFlag m.accessFlags flag
  descriptor : copy.descriptorIndex = m.descriptorIndex
  attributes : copy.attributes = m.attributes
  code : (findCode cf m).isSome ∧ findCode state copy = findCode cf m

/-- What holds of a hook while it is pending. -/
def WhileHooked (cf state : ClassFile) (h : NativeHook) : Prop := ∃ m native copy, HookedPair cf state h m native copy

theorem Hooking.whileHooked {cf state : ClassFile} {pending done : List NativeHook} (hs : Hooking cf pending done state)
    (hc : HookableClass cf) {h : NativeHook} (hmem : h ∈ pending) : WhileHooked cf state h := by
  obtain ⟨copies, hmethods, hcopies⟩ := hs.methods
  obtain ⟨before, after, rfl⟩ := List.append_of_mem hmem
  obtain ⟨copies₁, copies', hbefore, hrest, rfl⟩ := forall₂_append_left hcopies
  obtain ⟨copy, copies₂, hcopied, hafter, rfl⟩ := List.forall₂_cons_left_iff.mp hrest
  have hcopyKey := hcopied.key hs.grows
  obtain ⟨m, hm, hkey, -, hsome, hcopy, -⟩ := hcopied
  obtain ⟨i, hi⟩ := List.getElem?_of_mem hm
  obtain ⟨hat, hatKey⟩ := hs.original hc hi
  rw [hookedMethod, if_pos ⟨h, by simp, hkey⟩] at hat hatKey
  have hcopyMem : copy ∈ state.methods := by
    rw [hmethods]
    simp
  obtain ⟨j, hj⟩ := List.getElem?_of_mem hcopyMem
  refine ⟨m, nativeMethod cf.constantPool m, copy, ?_⟩
  refine ⟨hm, hkey, ?_, rfl, ?_, rfl, ?_, ?_, ?_, ?_, ?_, ?_, ?_⟩
  · exact ⟨i, (findMethod_iff_key hs.keys).mpr ⟨hat, hatKey.trans hkey⟩⟩
  · rw [hs.findCode]
    show List.find? (Jni2Hook.isCode cf.constantPool)
      (m.attributes.filter fun a => !Jni2Hook.isCode cf.constantPool a) = none
    rw [List.find?_eq_none]
    intro a ha
    simpa using (List.mem_filter.mp ha).2
  · exact ⟨j, (findMethod_iff_key hs.keys).mpr ⟨hj, hcopyKey⟩⟩
  all_goals rw [hcopy]
  · exact copyFlags_private _
  · exact copyFlags_final _
  · exact fun flag hflag => hasFlag_copyFlags hflag _
  · rfl
  · rfl
  · exact ⟨hsome, hs.findCode _⟩

/-! ## Runs -/

section Runs

variable {cf : ClassFile}

theorem makeAll_append {made more : List NativeHook} : ∀ {state hooked : ClassFile},
    makeAll (made ++ more) state = .ok () hooked →
    ∃ middle, makeAll made state = .ok () middle ∧ makeAll more middle = .ok () hooked := by
  induction made with
  | nil => exact fun hok => ⟨_, rfl, hok⟩
  | cons h rest ih =>
    intro state hooked hok
    obtain ⟨_, next, hmake, hrest⟩ := exists_of_bind_ok hok
    obtain ⟨middle, hmade, hmore⟩ := ih hrest
    refine ⟨middle, ?_, hmore⟩
    rw [makeAll, run_bind, hmake]
    exact hmade

/-- Hooks on distinct methods of the class are all pending. -/
theorem Hooking.makeAll (hc : HookableClass cf) {hooks : List NativeHook} : ∀ {pending : List NativeHook}
    {state hooked : ClassFile}, Hooking cf pending [] state →
    (∀ h ∈ hooks, ∃ m ∈ cf.methods, methodKey cf.constantPool m = some h.method) →
    ((pending ++ hooks).map NativeHook.method).Nodup → Jni2Hook.makeAll hooks state = .ok () hooked →
    Hooking cf (pending ++ hooks) [] hooked := by
  induction hooks with
  | nil =>
    intro pending state hooked hs _ _ hok
    cases hok
    rw [List.append_nil]
    exact hs
  | cons h rest ih =>
    intro pending state hooked hs hmethods hdistinct hok
    obtain ⟨_, next, hmake, hrest⟩ := exists_of_bind_ok hok
    have hnew : ∀ h' ∈ pending, h'.method ≠ h.method := by
      intro h' hmem heq
      rw [List.map_append, List.map_cons] at hdistinct
      have hnot := List.nodup_middle.mp hdistinct
      rw [List.nodup_cons] at hnot
      exact hnot.1 (List.mem_append_left _ (heq ▸ List.mem_map_of_mem hmem))
    have hnext := hs.make hc (hmethods h List.mem_cons_self) hnew hmake
    rw [List.append_cons] at hdistinct ⊢
    exact ih hnext (fun h' hmem => hmethods h' (List.mem_cons_of_mem h hmem)) hdistinct hrest

/-- Pending hooks are undone in any order. -/
theorem Hooking.restoreAll (hc : HookableClass cf) {rest : List NativeHook} :
    ∀ {restored pending done : List NativeHook}
    {state : ClassFile}, Hooking cf pending done state → (pending.map NativeHook.method).Nodup →
    (restored ++ rest).Perm pending → ∃ state' pending', Jni2Hook.restoreAll restored state = .ok () state' ∧
      rest.Perm pending' ∧ Hooking cf pending' (restored.reverse ++ done) state'
  | [], pending, done, state, hs, _, hperm => ⟨state, pending, rfl, hperm, hs⟩
  | h :: restored, pending, done, state, hs, hdistinct, hperm => by
    obtain ⟨before, after, rfl⟩ := List.append_of_mem (hperm.subset List.mem_cons_self)
    obtain ⟨next, hok, hnext⟩ := hs.restore hc hdistinct
    have hperm' : (restored ++ rest).Perm (before ++ after) :=
      List.Perm.cons_inv (hperm.trans List.perm_middle)
    have hdistinct' : ((before ++ after).map NativeHook.method).Nodup :=
      hdistinct.sublist (List.Sublist.map _ (List.Sublist.append_left (List.sublist_cons_self _ _) _))
    obtain ⟨state', pending', hrest, hpending, hlast⟩ := Hooking.restoreAll hc hnext hdistinct' hperm'
    refine ⟨state', pending', ?_, hpending, ?_⟩
    · rw [Jni2Hook.restoreAll, run_bind, hok]
      exact hrest
    · rw [List.reverse_cons, List.append_assoc]
      exact hlast

end Runs

/-- The tree up to new Utf8 constants and the place of the Code attribute in the methods that were hooked. -/
def Undone (cf : ClassFile) (hooks : List NativeHook) (final : ClassFile) : Prop :=
  ∃ texts : List Bytes, final = { cf with
    constantPool := ⟨cf.constantPool.entries ++ texts.map .utf8⟩
    methods := cf.methods.map fun m =>
      if ∃ h ∈ hooks, methodKey cf.constantPool m = some h.method then codeLast cf.constantPool m else m }

/-- **Restoring undoes making native**, in any order of the hooks. -/
theorem restore_undoes_make_native (cf hooked : ClassFile) (hooks order : List NativeHook) (hc : HookableClass cf)
    (hmethods : ∀ h ∈ hooks, ∃ m ∈ cf.methods, methodKey cf.constantPool m = some h.method)
    (hdistinct : (hooks.map NativeHook.method).Nodup) (hmake : makeAll hooks cf = .ok () hooked)
    (horder : order.Perm hooks) :
    (∀ made more, hooks = made ++ more → ∃ state, makeAll made cf = .ok () state ∧ ∀ h ∈ made, WhileHooked cf state h) ∧
    (∀ restored rest, order = restored ++ rest → ∃ state, restoreAll restored hooked = .ok () state ∧
      ∀ h ∈ rest, WhileHooked cf state h) ∧
    ∃ final, restoreAll order hooked = .ok () final ∧ Undone cf hooks final := by
  have hall : Hooking cf hooks [] hooked := (Hooking.start hc).makeAll hc hmethods hdistinct hmake
  refine ⟨fun made more hsplit => ?_, fun restored rest hsplit => ?_, ?_⟩
  · subst hsplit
    obtain ⟨state, hmade, -⟩ := makeAll_append hmake
    have hstate : Hooking cf made [] state := (Hooking.start hc).makeAll hc
      (fun h hmem => hmethods h (List.mem_append_left _ hmem))
      (hdistinct.sublist (List.Sublist.map _ (List.sublist_append_left _ _))) hmade
    exact ⟨state, hmade, fun h hmem => hstate.whileHooked hc hmem⟩
  · subst hsplit
    obtain ⟨state, pending, hok, hperm, hstate⟩ := hall.restoreAll hc hdistinct horder
    exact ⟨state, hok, fun h hmem => hstate.whileHooked hc (hperm.subset hmem)⟩
  · obtain ⟨final, pending, hok, hperm, hstate⟩ :=
      @Hooking.restoreAll _ hc [] order _ _ _ hall hdistinct ((List.append_nil order).symm ▸ horder)
    refine ⟨final, hok, ?_⟩
    obtain rfl : pending = [] := List.nil_perm.mp hperm
    obtain ⟨texts, htexts⟩ := hstate.added
    obtain ⟨copies, hcopies, hnone⟩ := hstate.methods
    cases hnone
    refine ⟨texts, ?_⟩
    rw [hstate.rest, hcopies, ← htexts, List.append_nil]
    have hdone : ∀ m, hookedMethod cf.constantPool [] (order.reverse ++ []) m =
        if ∃ h ∈ hooks, methodKey cf.constantPool m = some h.method then codeLast cf.constantPool m else m := by
      intro m
      simp only [hookedMethod, List.append_nil, List.mem_reverse, horder.mem_iff, List.not_mem_nil,
        false_and, exists_false, if_false]
    rw [funext hdone]

/-- A class with the methods `a` and `b`; the Code attribute of `a` is followed by another one. -/
def twoMethods : ClassFile where
  minorVersion := 0
  majorVersion := 52
  constantPool := ⟨[.utf8 (text "a"), .utf8 (text "()V"), .utf8 (text "Code"), .utf8 (text "b"),
    .utf8 (text "Deprecated")]⟩
  accessFlags := 0x21
  thisClass := 0
  superClass := 0
  interfaces := []
  fields := []
  methods := [⟨0x29, 1, 2, [attributeInfoOf 3 [0xB1], attributeInfoOf 5 []]⟩, ⟨0x1, 4, 2, [attributeInfoOf 3 [0xB1]]⟩]
  attributes := []

def twoHooks : List NativeHook := [⟨text "a", text "()V", text "c"⟩, ⟨text "b", text "()V", text "d"⟩]

/-- The class while both of its methods are hooked. -/
def twoHooked : ClassFile := { twoMethods with
  constantPool := ⟨twoMethods.constantPool.entries ++ [.utf8 (text "c"), .utf8 (text "d")]⟩
  methods := [⟨0x129, 1, 2, [attributeInfoOf 5 []]⟩, ⟨0x101, 4, 2, []⟩,
    ⟨0x3A, 6, 2, [attributeInfoOf 3 [0xB1], attributeInfoOf 5 []]⟩, ⟨0x12, 7, 2, [attributeInfoOf 3 [0xB1]]⟩] }

theorem restore_undoes_make_native_two : makeAll twoHooks twoMethods = .ok () twoHooked ∧
    (∀ h ∈ twoHooks, WhileHooked twoMethods twoHooked h) ∧
    ∃ final, restoreAll twoHooks.reverse twoHooked = .ok () final ∧ Undone twoMethods twoHooks final := by
  have hmake : makeAll twoHooks twoMethods = .ok () twoHooked := by rfl
  have hclass : HookableClass twoMethods :=
    ⟨by decide, by decide +kernel, by decide +kernel, by decide +kernel, by decide +kernel⟩
  obtain ⟨-, hpending, hfinal⟩ := restore_undoes_make_native twoMethods twoHooked twoHooks twoHooks.reverse
    hclass (by decide +kernel) (by decide +kernel) hmake (List.reverse_perm _)
  obtain ⟨state, hstate, hwhile⟩ := hpending [] twoHooks.reverse rfl
  cases hstate
  exact ⟨hmake, fun h hmem => hwhile h (List.mem_reverse.mpr hmem), hfinal⟩

end Jni2Hook
