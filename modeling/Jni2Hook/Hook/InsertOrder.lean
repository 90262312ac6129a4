import Jni2Hook.Hook.Registry
import Jni2Hook.Lib.StableOrder
import Mathlib.Data.List.Induction

/-!
# The order of the inserts

The insertion sort of `reapply` is a stable sort by `compare_insert_entries` (`stablySorted_sortInserts`): by method,
the larger offsets first, and hooks at one offset in the order in which they were recorded.

* `RunsInOrder`, `runsInOrder_hooksAt`: the order in which the hooks before one instruction then run.
* `rebuild_congr`: the order of hooks of different methods or at different offsets does not matter.
-/

namespace Jni2Hook

open Lib

/-! ## The comparison -/

theorem strcmp_eq_compare (a b : Bytes) : strcmp a b = compare a b := by
  induction a generalizing b with
  | nil => cases b <;> rfl
  | cons x xs ih =>
    cases b with
    | nil => rfl
    | cons y ys =>
      rw [strcmp, ih, List.compare_eq_compareLex, List.compareLex_cons_cons]

/-- The larger offset is the smaller entry. -/
instance : Std.TransCmp fun left right : HookEntry => compare right.bytecodeOffset left.bytecodeOffset where
  eq_swap := Std.OrientedOrd.eq_swap
  isLE_trans hab hbc := Std.TransOrd.isLE_trans hbc hab

theorem compareInsertEntries_eq : compareInsertEntries =
    compareLex (compareLex (compareOn (·.name)) (compareOn (·.signature)))
      fun left right => compare right.bytecodeOffset left.bytecodeOffset := by
  funext left right
  simp only [compareInsertEntries, strcmp_eq_compare]
  rfl

instance : Std.TransCmp compareInsertEntries := by
  rw [compareInsertEntries_eq]
  infer_instance

theorem compareInsertEntries_eq_eq {left right : HookEntry} : compareInsertEntries left right = .eq ↔
    left.name = right.name ∧ left.signature = right.signature ∧ left.bytecodeOffset = right.bytecodeOffset := by
  simp only [compareInsertEntries, Ordering.then_eq_eq, strcmp_eq_compare, Std.LawfulEqOrd.compare_eq_iff_eq, and_assoc]
  exact and_congr_right fun _ => and_congr_right fun _ => eq_comm

/-- Of two hooks of one method, the one that comes first has the larger offset. -/
theorem offset_le_of_isLE {left right : HookEntry} (h : (compareInsertEntries left right).isLE)
    (hname : left.name = right.name) (hsignature : left.signature = right.signature) :
    right.bytecodeOffset ≤ left.bytecodeOffset := by
  have same (a : Bytes) : strcmp a a = .eq := by rw [strcmp_eq_compare, Std.ReflOrd.compare_self]
  rw [compareInsertEntries, hname, hsignature, same, same] at h
  exact (Std.LawfulOrderOrd.isLE_compare _ _).mp h

/-! ## The sort -/

theorem mem_placeInsert {entry x : HookEntry} {sorted : List HookEntry} :
    x ∈ placeInsert entry sorted ↔ x = entry ∨ x ∈ sorted := by
  induction sorted with
  | nil => simp [placeInsert]
  | cons last earlier ih =>
    rw [placeInsert]
    split
    · rw [List.mem_cons, ih, List.mem_cons]
      tauto
    · rw [List.mem_cons]

/-- The sorted part is read backwards, so its order is that of the larger before the smaller. -/
theorem ordered_placeInsert {entry : HookEntry} {sorted : List HookEntry}
    (h : sorted.Pairwise fun a b => (compareInsertEntries b a).isLE) :
    (placeInsert entry sorted).Pairwise fun a b => (compareInsertEntries b a).isLE := by
  induction sorted with
  | nil => exact List.pairwise_singleton _ _
  | cons last earlier ih =>
    rw [placeInsert]
    split
    · rename_i hlt
      refine List.pairwise_cons.mpr ⟨fun x hx => ?_, ih h.of_cons⟩
      rcases mem_placeInsert.mp hx with rfl | hx
      · simp [hlt]
      · exact List.rel_of_pairwise_cons h hx
    · rename_i hge
      have hlast : (compareInsertEntries last entry).isLE := by
        rw [@Std.OrientedCmp.eq_swap _ compareInsertEntries, Ordering.isLE_swap]
        cases hc : compareInsertEntries entry last with
        | lt => exact absurd hc hge
        | eq => rfl
        | gt => rfl
      refine List.pairwise_cons.mpr ⟨fun x hx => ?_, h⟩
      rcases List.mem_cons.mp hx with rfl | hx
      · exact hlast
      · exact Std.TransCmp.isLE_trans (List.rel_of_pairwise_cons h hx) hlast

/-- An entry only passes entries that it does not compare equal to. -/
theorem sameClass_placeInsert (x entry : HookEntry) (sorted : List HookEntry) :
    sameClass compareInsertEntries x (placeInsert entry sorted) =
      sameClass compareInsertEntries x (entry :: sorted) := by
  induction sorted with
  | nil => rfl
  | cons last earlier ih =>
    rw [placeInsert]
    split
    · rename_i hlt
      rw [sameClass_cons, ih, sameClass_cons, sameClass_cons, sameClass_cons]
      by_cases he : compareInsertEntries x entry = .eq
      · have hl : compareInsertEntries x last ≠ .eq := fun hl => by
          have := Std.TransCmp.eq_trans (Std.OrientedCmp.eq_symm he) hl
          rw [this] at hlt
          cases hlt
        rw [if_pos he, if_pos he, if_neg hl, if_neg hl]
      · rw [if_neg he, if_neg he]
    · rfl

theorem sorted_inserts (inserts : List HookEntry) :
    (inserts.foldl (fun sorted entry => placeInsert entry sorted) []).Pairwise
      (fun a b => (compareInsertEntries b a).isLE) ∧
    ∀ x, sameClass compareInsertEntries x (inserts.foldl (fun sorted entry => placeInsert entry sorted) []) =
      (sameClass compareInsertEntries x inserts).reverse := by
  induction inserts using List.reverseRecOn with
  | nil => exact ⟨.nil, fun _ => rfl⟩
  | append_singleton inserts entry ih =>
    rw [List.foldl_append]
    refine ⟨ordered_placeInsert ih.1, fun x => ?_⟩
    rw [List.foldl_cons, List.foldl_nil, sameClass_placeInsert, sameClass_cons, ih.2 x]
    simp only [sameClass, List.filter_append, List.filter_cons, List.filter_nil, beq_iff_eq]
    split <;> simp

theorem stablySorted_sortInserts (inserts : List HookEntry) :
    StablySorted compareInsertEntries inserts (sortInserts inserts) := by
  obtain ⟨hordered, hstable⟩ := sorted_inserts inserts
  refine ⟨List.pairwise_reverse.mpr hordered, fun x => ?_⟩
  have := hstable x
  rw [sameClass] at this ⊢
  rw [sortInserts, List.filter_reverse, this, List.reverse_reverse]

/-- The order of hooks of different methods or at different offsets does not matter. -/
theorem sortInserts_congr {inserts inserts' : List HookEntry}
    (h : ∀ x, sameClass compareInsertEntries x inserts = sameClass compareInsertEntries x inserts') :
    sortInserts inserts = sortInserts inserts' :=
  (stablySorted_sortInserts inserts).unique (stablySorted_sortInserts inserts') h

/-! ## The hooks of a method -/

/-- The hook inserts a call into the method of that name and signature. -/
def HookEntry.callsIn (name signature : Bytes) (h : HookEntry) : Bool :=
  h.kind == .insertCall && h.name == name && h.signature == signature

theorem callsIn_iff {name signature : Bytes} {h : HookEntry} :
    h.callsIn name signature = true ↔ h.kind = .insertCall ∧ h.name = name ∧ h.signature = signature := by
  simp [HookEntry.callsIn, and_assoc]

/-- The offset at which a hook ends up: in a constructor, the end of the initialising call when that is larger. -/
def hookPosition (isConstructor : Bool) (callEnd : Nat) (h : HookEntry) : Nat :=
  if isConstructor then max h.bytecodeOffset.toNat callEnd else h.bytecodeOffset.toNat

/-- The hooks run in increasing order of the offsets that were asked for, at equal offsets the one recorded last
first. -/
structure RunsInOrder (recorded block : List HookEntry) : Prop where
  increasing : block.Pairwise fun a b => a.bytecodeOffset ≤ b.bytecodeOffset
  latest : ∀ offset, block.filter (·.bytecodeOffset == offset) = (recorded.filter (·.bytecodeOffset == offset)).reverse

/-- The hooks of a method that end up at an offset. -/
def hooksAt (name signature : Bytes) (callEnd offset : Nat) (list : List HookEntry) : List HookEntry :=
  list.filter fun h => h.callsIn name signature && hookPosition (name == text "<init>") callEnd h == offset

/-! ## The order of the transforms -/

section Order

variable {name signature : Bytes} {callEnd offset : Nat} {hooks : List HookEntry}

theorem hookPosition_mono {isConstructor : Bool} {a b : HookEntry} (h : a.bytecodeOffset ≤ b.bytecodeOffset) :
    hookPosition isConstructor callEnd a ≤ hookPosition isConstructor callEnd b := by
  have hle := UInt32.le_iff_toNat_le.mp h
  unfold hookPosition
  split <;> omega

/-- Only the inserts of a rebuild are hooks in a method. -/
theorem filter_applicationOrder {p : HookEntry → Bool} (hp : ∀ h, p h = true → h.callsIn name signature = true) :
    (applicationOrder hooks).filter p = (sortInserts (hooks.filter (·.kind == .insertCall))).filter p := by
  have hnatives : (hooks.filter (·.kind == .makeNative)).filter p = [] :=
    List.filter_eq_nil_iff.mpr fun h hmem htrue => by
      have hkind := (callsIn_iff.mp (hp h htrue)).1
      rw [List.mem_filter, hkind] at hmem
      cases hmem.2
  rw [applicationOrder, List.filter_append, hnatives, List.nil_append]

/-- The hooks of one method are applied from the largest offset down. -/
theorem descending_applicationOrder (name signature : Bytes) (hooks : List HookEntry) : ((applicationOrder hooks).filter
    (·.callsIn name signature)).Pairwise fun a b => b.bytecodeOffset ≤ a.bytecodeOffset := by
  rw [filter_applicationOrder fun _ h => h]
  have hordered := (stablySorted_sortInserts (hooks.filter (·.kind == .insertCall))).ordered.filter
    (·.callsIn name signature)
  refine hordered.imp_of_mem fun ha hb hle => ?_
  obtain ⟨-, haname, hasignature⟩ := callsIn_iff.mp (List.mem_filter.mp ha).2
  obtain ⟨-, hbname, hbsignature⟩ := callsIn_iff.mp (List.mem_filter.mp hb).2
  exact offset_le_of_isLE hle (haname.trans hbname.symm) (hasignature.trans hbsignature.symm)

/-- The calls before an instruction run in the order of the offsets. -/
theorem runsInOrder_hooksAt (name signature : Bytes) (callEnd offset : Nat) (hooks : List HookEntry) :
    RunsInOrder (hooksAt name signature callEnd offset hooks)
      (hooksAt name signature callEnd offset (applicationOrder hooks)).reverse := by
  refine ⟨List.pairwise_reverse.mpr ?_, fun asked => ?_⟩
  · have hdescending := (descending_applicationOrder name signature hooks).filter
      fun h => hookPosition (name == text "<init>") callEnd h == offset
    rw [List.filter_filter] at hdescending
    rw [hooksAt]
    simp only [Bool.and_comm]
    exact hdescending
  · let p (h : HookEntry) : Bool :=
      h.bytecodeOffset == asked && (h.callsIn name signature &&
        hookPosition (name == text "<init>") callEnd h == offset)
    have hp (h : HookEntry) (htrue : p h = true) : h.callsIn name signature = true ∧ h.bytecodeOffset = asked := by
      simp only [p, Bool.and_eq_true, beq_iff_eq] at htrue
      exact ⟨htrue.2.1, htrue.1⟩
    have hstable := (stablySorted_sortInserts (hooks.filter (·.kind == .insertCall))).filter_eq (p := p)
      fun x y hx hy => by
        obtain ⟨hx, hxat⟩ := hp x hx
        obtain ⟨hy, hyat⟩ := hp y hy
        obtain ⟨-, hxname, hxsignature⟩ := callsIn_iff.mp hx
        obtain ⟨-, hyname, hysignature⟩ := callsIn_iff.mp hy
        exact compareInsertEntries_eq_eq.mpr
          ⟨hxname.trans hyname.symm, hxsignature.trans hysignature.symm, hxat.trans hyat.symm⟩
    have hinserts : (hooks.filter (·.kind == .insertCall)).filter p = hooks.filter p := by
      rw [List.filter_filter]
      refine List.filter_congr fun h _ => ?_
      cases htrue : p h with
      | false => rfl
      | true => simp [(callsIn_iff.mp (hp h htrue).1).1]
    rw [List.filter_reverse, hooksAt, hooksAt, List.filter_filter, List.filter_filter,
      filter_applicationOrder fun h htrue => (hp h htrue).1, hstable, hinserts]

theorem RunsInOrder.mem {recorded block : List HookEntry} (h : RunsInOrder recorded block) {x : HookEntry}
    (hx : x ∈ block) : x ∈ recorded := by
  have hmem : x ∈ block.filter (·.bytecodeOffset == x.bytecodeOffset) := List.mem_filter.mpr ⟨hx, by simp⟩
  rw [h.latest, List.mem_reverse] at hmem
  exact (List.mem_filter.mp hmem).1

/-- At one offset, the hooks run from the last to the first. -/
theorem RunsInOrder.eq_reverse {recorded block : List HookEntry} (h : RunsInOrder recorded block) (asked : UInt32)
    (hone : ∀ x ∈ recorded, x.bytecodeOffset = asked) : block = recorded.reverse := by
  have hrecorded : recorded.filter (·.bytecodeOffset == asked) = recorded :=
    List.filter_eq_self.mpr fun x hx => by simp [hone x hx]
  have hblock : block.filter (·.bytecodeOffset == asked) = block :=
    List.filter_eq_self.mpr fun x hx => by simp [hone x (h.mem hx)]
  rw [← hblock, h.latest, hrecorded]

/-- The order in which hooks were recorded matters for replacements, and within one offset of one method. -/
theorem applicationOrder_congr {hooks hooks' : List HookEntry}
    (hnatives : hooks.filter (·.kind == .makeNative) = hooks'.filter (·.kind == .makeNative))
    (hsame : ∀ name signature offset, hooks.filter (fun h => h.callsIn name signature && h.bytecodeOffset == offset) =
      hooks'.filter fun h => h.callsIn name signature && h.bytecodeOffset == offset) :
    applicationOrder hooks = applicationOrder hooks' := by
  have hclass (x : HookEntry) (hooks : List HookEntry) :
      sameClass compareInsertEntries x (hooks.filter (·.kind == .insertCall)) =
        hooks.filter fun h => h.callsIn x.name x.signature && h.bytecodeOffset == x.bytecodeOffset := by
    rw [sameClass, List.filter_filter]
    refine List.filter_congr fun h _ => ?_
    rw [Bool.eq_iff_iff]
    simp only [Bool.and_eq_true, beq_iff_eq, compareInsertEntries_eq_eq, callsIn_iff]
    tauto
  have hsort : sortInserts (hooks.filter (·.kind == .insertCall)) =
    sortInserts (hooks'.filter (·.kind == .insertCall)) :=
    sortInserts_congr fun x => by rw [hclass, hclass, hsame]
  rw [applicationOrder, applicationOrder, hnatives, hsort]

theorem mem_applicationOrder {h : HookEntry} : h ∈ applicationOrder hooks ↔ h ∈ hooks := by
  have hsorted := stablySorted_sortInserts (hooks.filter (·.kind == .insertCall))
  rw [applicationOrder, List.mem_append, hsorted.mem_iff, List.mem_filter, List.mem_filter, ← and_or_left]
  refine and_iff_left_of_imp fun _ => ?_
  cases h.kind with
  | makeNative => exact .inl rfl
  | insertCall => exact .inr rfl

/-- Hooks in another order make the same definition. -/
theorem rebuild_congr (bytes : Bytes) {hooks hooks' : List HookEntry}
    (hnatives : hooks.filter (·.kind == .makeNative) = hooks'.filter (·.kind == .makeNative))
    (hsame : ∀ name signature offset, hooks.filter (fun h => h.callsIn name signature && h.bytecodeOffset == offset) =
      hooks'.filter fun h => h.callsIn name signature && h.bytecodeOffset == offset) :
    rebuild bytes hooks = rebuild bytes hooks' := by
  have hrun := applicationOrder_congr hnatives hsame
  have hempty : hooks.isEmpty = hooks'.isEmpty := by
    have hmem (h : HookEntry) : h ∈ hooks ↔ h ∈ hooks' := by
      rw [← mem_applicationOrder, hrun, mem_applicationOrder]
    rw [Bool.eq_iff_iff, List.isEmpty_iff, List.isEmpty_iff, List.eq_nil_iff_forall_not_mem,
      List.eq_nil_iff_forall_not_mem]
    simp only [hmem]
  rw [rebuild, rebuild, hempty, hrun]

end Order

end Jni2Hook
