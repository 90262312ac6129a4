import Jni2Hook.Hook.RebuiltExecution

/-!
# The methods of a rebuilt class

`JNI2Hook_ReadMethodLayout` reads the names and descriptors of the methods of a class file. A rebuild keeps the methods
that were there where they were, and adds those that natives are registered for, or that hold the old bodies, behind
them.

* `readMethodLayout`: the call.
* `rebuilt_layout`: the layout of a rebuild.
-/

namespace Jni2Hook

open Lib

/-! ## The source -/

/-- The loop of `JNI2Hook_ReadMethodLayout` from method `i` on; `alloc` says which of the allocations succeed. -/
def readMethods (pool : ConstantPool) (alloc : Nat → Bool) (i : Nat) :
    List MemberInfo → Except Jni2HookStatus (List (Bytes × Bytes))
  | [] => .ok []
  | m :: rest =>
    match constantPoolUtf8 pool m.nameIndex, constantPoolUtf8 pool m.descriptorIndex with
    | some name, some descriptor =>
      if alloc (2 * i + 1) && alloc (2 * i + 2) then
        match readMethods pool alloc (i + 1) rest with
        | .ok layout => .ok ((name, descriptor) :: layout)
        | .error e => .error e
      else .error .outOfMemory
    | _, _ => .error .classFile

/-- `JNI2Hook_ReadMethodLayout`. -/
def readMethodLayout (classBytes : Option Bytes) (outLayout : Bool) (alloc : Nat → Bool) :
    Except Jni2HookStatus (List (Bytes × Bytes)) :=
  match classBytes with
  | none => .error .classFile
  | some bytes =>
    if bytes.isEmpty || !outLayout then .error .classFile
    else
      match classfileParse bytes with
      | .error _ => .error .classFile
      | .ok cf =>
        if !cf.methods.isEmpty && !alloc 0 then .error .outOfMemory
        else readMethods cf.constantPool alloc 0 cf.methods

/-! ## Layouts and keys -/

/-- The names and descriptors of the methods of a tree. -/
def methodKeys (cf : ClassFile) : List (Option (Bytes × Bytes)) := cf.methods.map (methodKey cf.constantPool)

section Layout

variable {cf cf' : ClassFile} {pool : ConstantPool} {alloc : Nat → Bool} {layout : List (Bytes × Bytes)} {bytes : Bytes}

theorem readMethods_eq_ok {methods : List MemberInfo} {i : Nat} (h : readMethods pool alloc i methods = .ok layout) :
    methods.map (methodKey pool) = layout.map some := by
  induction methods generalizing i layout with
  | nil =>
    cases h
    rfl
  | cons m rest ih =>
    unfold readMethods at h
    split at h
    · rename_i name descriptor hname hdescriptor
      split at h
      · split at h
        · rename_i more hmore
          cases h
          rw [List.map_cons, List.map_cons, ih hmore, methodKey_eq_some.mpr ⟨hname, hdescriptor⟩]
        · cases h
      · cases h
    · cases h

theorem readMethods_of_keys {methods : List MemberInfo} (i : Nat) (h : methods.map (methodKey pool) = layout.map some) :
    readMethods pool (fun _ => true) i methods = .ok layout := by
  induction methods generalizing i layout with
  | nil =>
    obtain rfl := List.map_eq_nil_iff.mp h.symm
    rfl
  | cons m rest ih =>
    rcases layout with _ | ⟨⟨name, descriptor⟩, layout⟩
    · cases h
    rw [List.map_cons, List.map_cons, List.cons.injEq] at h
    obtain ⟨hname, hdescriptor⟩ := methodKey_eq_some.mp h.1
    simp [readMethods, hname, hdescriptor, ih (i + 1) h.2]

/-- A layout that is read is that of the tree. -/
theorem readMethodLayout_eq_ok {outLayout : Bool} (hparse : classfileParse bytes = .ok cf)
    (h : readMethodLayout (some bytes) outLayout alloc = .ok layout) : methodKeys cf = layout.map some := by
  unfold readMethodLayout at h
  simp only [hparse] at h
  split at h
  · cases h
  split at h
  · cases h
  exact readMethods_eq_ok h

/-- A layout is read of a class file only. -/
theorem parses_of_readMethodLayout {outLayout : Bool} (h : readMethodLayout (some bytes) outLayout alloc = .ok layout) :
    ∃ cf, classfileParse bytes = .ok cf := by
  unfold readMethodLayout at h
  dsimp only at h
  split at h
  · cases h
  split at h
  · cases h
  · rename_i cf hparse
    exact ⟨cf, hparse⟩

/-- And with enough memory that of a tree is read. -/
theorem readMethodLayout_of_keys (hparse : classfileParse bytes = .ok cf) (h : methodKeys cf = layout.map some) :
    readMethodLayout (some bytes) true (fun _ => true) = .ok layout := by
  have hmore : bytes ≠ [] := by
    rintro rfl
    cases hparse
  simp [readMethodLayout, hparse, hmore, readMethods_of_keys 0 h]

end Layout

/-! ## One transform -/

/-- The name and the descriptor of the method that a hook adds. -/
def HookEntry.added (h : HookEntry) : Bytes × Bytes :=
  match h.kind with
  | .makeNative => (h.addedName, h.signature)
  | .insertCall => (h.addedName, text "()V")

section Transform

variable {cf cf' tree : ClassFile} {name descriptor hookName copyName : Bytes} {atOffset index : Nat}

theorem some_notMem_methodKeys (h : findMethod cf name descriptor = none) :
    some (name, descriptor) ∉ methodKeys cf := by
  intro hmem
  obtain ⟨m, hm, hkey⟩ := List.mem_map.mp hmem
  exact findMethod_none_key h m hm hkey

/-- A method is added and another one is changed, but for its name and descriptor. -/
theorem methodKeys_of_modify {f : MemberInfo → MemberInfo} {added : MemberInfo} {key : Bytes × Bytes}
    (hnamed : ∀ key ∈ methodKeys cf, key.isSome = true) (hgrows : Grows cf.constantPool cf'.constantPool)
    (hmethods : cf'.methods = (cf.methods ++ [added]).modify index f)
    (hname : ∀ m, (f m).nameIndex = m.nameIndex) (hdescriptor : ∀ m, (f m).descriptorIndex = m.descriptorIndex)
    (hadded : methodKey cf'.constantPool added = some key) : methodKeys cf' = methodKeys cf ++ [some key] := by
  have hkept (m : MemberInfo) : methodKey cf'.constantPool (f m) = methodKey cf'.constantPool m := by
    rw [methodKey, methodKey, hname, hdescriptor]
  have hmodified : cf'.methods.map (methodKey cf'.constantPool) =
      (cf.methods ++ [added]).map (methodKey cf'.constantPool) := by
    rw [hmethods]
    apply List.ext_getElem?
    intro i
    rw [List.getElem?_map, List.getElem?_map, List.getElem?_modify]
    split
    · rw [Option.map_eq_map, Option.map_map]
      exact congrArg (fun g => Option.map g _) (funext hkept)
    · rw [Option.map_eq_map, Option.map_id_fun']
      rfl
  rw [methodKeys, methodKeys, hmodified, List.map_append, List.map_singleton, hadded]
  congr 1
  exact List.map_congr_left fun m hm => methodKey_grows hgrows (hnamed _ (List.mem_map_of_mem hm))

/-- A replacement adds a copy under its new name. -/
theorem methodKeys_makeNative (hcount : cf.constantPool.count ≤ classfileMaxCount)
    (hnamed : ∀ key ∈ methodKeys cf, key.isSome = true) (h : makeNative name descriptor copyName cf = .ok () cf') :
    methodKeys cf' = methodKeys cf ++ [some (copyName, descriptor)] ∧ some (copyName, descriptor) ∉ methodKeys cf := by
  obtain ⟨index, method, nameIndex, hreplaceable, hgrows, -, -, hcopyName, hcf'⟩ :=
    makeNative_ok (h := ⟨name, descriptor, copyName⟩) h hcount
  refine ⟨methodKeys_of_modify hnamed hgrows (congrArg ClassFile.methods hcf') (fun _ => rfl) (fun _ => rfl) ?_,
    some_notMem_methodKeys hreplaceable.free⟩
  have hdescriptor := (findMethod_names hreplaceable.found).2
  rw [constantPoolUtf8Equals, beq_iff_eq] at hdescriptor
  exact methodKey_eq_some.mpr ⟨hcopyName, hgrows.utf8 hdescriptor⟩

/-- A hook is declared by its name, and nothing of the class had that name. -/
theorem prepareHook_declares {method : MemberInfo} (hcount : cf.constantPool.count ≤ classfileMaxCount)
    (hprepare : prepareHook name descriptor hookName cf = .ok (index, method) tree) :
    ∃ hook, tree.methods = cf.methods ++ [hook] ∧ methodKey tree.constantPool hook = some (hookName, text "()V") ∧
      findMethod cf hookName (text "()V") = none := by
  obtain ⟨⟨index', method'⟩, cf₀, hlookup, h⟩ := exists_of_bind_ok hprepare
  obtain ⟨hguards, rfl⟩ := lookup_ok hlookup
  obtain ⟨hookNameIndex, cf₁, hname, h⟩ := exists_of_bind_ok h
  obtain ⟨voidIndex, cf₂, hvoid, h⟩ := exists_of_bind_ok h
  obtain ⟨_, _, hget, h⟩ := exists_of_bind_ok h
  cases hget
  obtain ⟨methodref, cf₃, href, h⟩ := exists_of_bind_ok h
  obtain ⟨_, cf₄, happend, h⟩ := exists_of_bind_ok h
  cases h
  obtain ⟨hnames, hfindName⟩ := internUtf8_ok (withCause_ok hname)
  obtain ⟨hvoids, hfindVoid⟩ := internUtf8_ok (withCause_ok hvoid)
  have hrefs := (internMethodref_ok (withCause_ok href)).1
  have hnameAt := utf8_of_find (hnames.count hcount) hfindName
  have hvoidAt := utf8_of_find (hvoids.count (hnames.count hcount)) hfindVoid
  refine ⟨hookMethod (hasFlag method.accessFlags Acc.static_) hookNameIndex voidIndex, ?_, ?_, ?_⟩
  · rw [appendMethod_ok happend, ((hnames.trans hvoids).trans hrefs).rest]
  · rw [appendMethod_ok happend]
    exact methodKey_eq_some.mpr ⟨(hvoids.trans hrefs).grows.utf8 hnameAt, hrefs.grows.utf8 hvoidAt⟩
  · split at hguards
    · cases hguards
    split at hguards
    · cases hguards
    · rename_i hfree
      simpa using hfree

/-- An insert adds the native method that it calls. -/
theorem methodKeys_insertCall (hcount : cf.constantPool.count ≤ classfileMaxCount)
    (hnamed : ∀ key ∈ methodKeys cf, key.isSome = true)
    (h : insertCall name descriptor atOffset hookName cf = .ok () cf') :
    methodKeys cf' = methodKeys cf ++ [some (hookName, text "()V")] ∧ some (hookName, text "()V") ∉ methodKeys cf := by
  obtain ⟨index, method, tree, code, stored, editor, point, methodref, hinserted⟩ := insertCall_ok h
  obtain ⟨hook, hmethods, hkey, hfree⟩ := prepareHook_declares hcount hinserted.prepared
  have hstores : (storedAt tree index stored).methods = (cf.methods ++ [hook]).modify index fun method =>
      { method with attributes := replaceCode tree.constantPool stored method.attributes } := by
    rw [storedAt, hmethods]
  refine ⟨?_, some_notMem_methodKeys hfree⟩
  rw [hinserted.stores]
  exact methodKeys_of_modify hnamed hinserted.edits.grows hstores (fun _ => rfl) (fun _ => rfl) hkey

/-- **A hook adds one method**, which the class did not have, behind those it had. -/
theorem methodKeys_transform {h : HookEntry} (hcount : cf.constantPool.count ≤ classfileMaxCount)
    (hnamed : ∀ key ∈ methodKeys cf, key.isSome = true) (hrun : h.transform cf = .ok () cf') :
    methodKeys cf' = methodKeys cf ++ [some h.added] ∧ some h.added ∉ methodKeys cf := by
  cases hkind : h.kind with
  | makeNative =>
    simp only [HookEntry.transform, hkind, classTransformMakeNative] at hrun
    simp only [HookEntry.added, hkind]
    exact methodKeys_makeNative hcount hnamed hrun
  | insertCall =>
    simp only [HookEntry.transform, hkind, classTransformInsertCall] at hrun
    simp only [HookEntry.added, hkind]
    exact methodKeys_insertCall hcount hnamed hrun

end Transform

/-! ## A rebuild -/

theorem applicationOrder_perm (hooks : List HookEntry) : (applicationOrder hooks).Perm hooks := by
  have hsorted := (stablySorted_sortInserts (hooks.filter (·.kind == .insertCall))).perm
  have hkinds : hooks.filter (·.kind == .insertCall) = hooks.filter fun h => !(h.kind == .makeNative) := by
    refine List.filter_congr fun h _ => ?_
    cases h.kind <;> rfl
  refine (hsorted.append_left _).trans ?_
  rw [hkinds]
  exact List.filter_append_perm _ hooks

section Rebuild

variable {cf tree : ClassFile} {list hooks : List HookEntry} {layout : List (Bytes × Bytes)} {bytes rebuilt : Bytes}

/-- The methods behind a list of transforms. -/
theorem methodKeys_transformAll (hw : cf.WellFormed) (hkeys : methodKeys cf = layout.map some)
    (hrun : transformAll list cf = .ok () tree) :
    methodKeys tree = (layout ++ list.map HookEntry.added).map some ∧ (list.map HookEntry.added).Nodup ∧
      ∀ h ∈ list, h.added ∉ layout := by
  induction list generalizing cf layout with
  | nil =>
    cases hrun
    simp [hkeys]
  | cons h list ih =>
    obtain ⟨_, cf', hfirst, hrest⟩ := exists_of_bind_ok hrun
    have hnamed : ∀ key ∈ methodKeys cf, key.isSome = true := by
      rw [hkeys]
      intro key hmem
      obtain ⟨key', -, rfl⟩ := List.mem_map.mp hmem
      rfl
    obtain ⟨hmore, hfree⟩ := methodKeys_transform hw.pool.count hnamed hfirst
    rw [hkeys] at hmore hfree
    have hkeys' : methodKeys cf' = (layout ++ [h.added]).map some := by
      rw [hmore, List.map_append, List.map_singleton]
    obtain ⟨hall, hnodup, hnew⟩ := ih (wellFormed_transform hw hfirst) hkeys' hrest
    have hnot : h.added ∉ layout := fun hmem => hfree (List.mem_map_of_mem hmem)
    refine ⟨?_, ?_, ?_⟩
    · rw [hall, List.append_assoc, List.map_cons, List.singleton_append]
    · -- a later hook adds nothing that this one has added
      refine List.nodup_cons.mpr ⟨fun hmem => ?_, hnodup⟩
      obtain ⟨later, hlater, heq⟩ := List.mem_map.mp hmem
      exact hnew later hlater (List.mem_append_right _ (List.mem_singleton.mpr heq))
    · intro later hlater
      rcases List.mem_cons.mp hlater with rfl | hlater
      · exact hnot
      · exact fun hmem => hnew later hlater (List.mem_append_left _ hmem)

/-- **The layout of a rebuild** of fewer than 2^31 bytes: the methods of the class, in their order, and behind them one
for each hook, in the order in which the hooks are applied. None of these has the name and the descriptor of a method of
the class or of another hook. -/
theorem rebuilt_layout {outLayout : Bool} {alloc : Nat → Bool} (hrebuild : rebuild bytes hooks = .ok rebuilt)
    (hread : readMethodLayout (some bytes) outLayout alloc = .ok layout)
    (hsize : ∀ cf tree written, classfileParse bytes = .ok cf → transformAll (applicationOrder hooks) cf = .ok () tree →
      classfileSerialize tree = .ok written → written.length < 2 ^ 31) :
    readMethodLayout (some rebuilt) true (fun _ => true) =
        .ok (layout ++ (applicationOrder hooks).map HookEntry.added) ∧
      (hooks.map HookEntry.added).Nodup ∧ ∀ h ∈ hooks, h.added ∉ layout := by
  obtain ⟨cf, hparse⟩ := parses_of_readMethodLayout hread
  obtain ⟨hserial, hw⟩ := classfileParse_sound hparse
  obtain ⟨tree, hrun, hwritten⟩ := rebuild_ok hparse hrebuild
  obtain ⟨written, hserialize⟩ := classfileSerialize_ok (wellFormed_transformAll hw hrun)
  have hback := hwritten written hserialize (hsize cf tree written hparse hrun hserialize)
  obtain ⟨hkeys, hnodup, hnew⟩ := methodKeys_transformAll hw (readMethodLayout_eq_ok hparse hread) hrun
  refine ⟨readMethodLayout_of_keys hback hkeys, ?_, fun h hmem => hnew h (mem_applicationOrder.mpr hmem)⟩
  exact ((applicationOrder_perm hooks).map _).nodup_iff.mp hnodup

end Rebuild

theorem rebuilt_layout_plain : ∃ rebuilt, rebuild (constructorBytes plainConstructor) plainHooks = .ok rebuilt ∧
    readMethodLayout (some rebuilt) true (fun _ => true) = .ok [(text "<init>", text "()V"),
      (text "$jni2hook$1", text "()V"), (text "$jni2hook$0", text "()V")] := by
  obtain ⟨rebuilt, hrebuild⟩ := rebuild_plainHooks
  have hread : readMethodLayout (some (constructorBytes plainConstructor)) true (fun _ => true) =
      .ok [(text "<init>", text "()V")] := by decide +kernel
  have hshort : (EStateM.run' (transformAll (applicationOrder plainHooks) >>= fun _ => get)
      (constructorClass plainConstructor)).all (fun tree =>
        (classfileSerialize tree).toOption.all (·.length < 2 ^ 31)) =
      true := by decide +kernel
  refine ⟨rebuilt, hrebuild, (rebuilt_layout hrebuild hread fun cf tree written hparse hrun hwritten => ?_).1⟩
  rw [parse_plainConstructor] at hparse
  cases hparse
  delta EStateM.run' at hshort
  rw [EStateM.run, run_bind, hrun] at hshort
  simpa [run_get, hwritten, Except.toOption] using hshort

end Jni2Hook
