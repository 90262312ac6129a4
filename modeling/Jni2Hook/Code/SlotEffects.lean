import Jni2Hook.Code.ConstructorInit
import Jni2Hook.Lib.SlotFrame

/-!
# The effect of an instruction on slots

`execute` of `constructor_init.c` as data: what an opcode does to the locals and the operand stack, apart from the
counts that stand in its operand or in the descriptor of a member.

* `SlotShape`: the kinds of effects, and `SlotShape.effect`, the effect itself.
* `codeShape`: the shape of each opcode, as the source has it.
* `executeSlots_eq`: executing an instruction applies the effect of its shape.
-/

namespace Jni2Hook

open Lib

/-! ## Shapes -/

/-- What an opcode does to slots. Without an `index`, a local is named in the operand; `dimensions` pops as many slots
as its operand says, and the members pop and push what their descriptors say. -/
inductive SlotShape
  | replace (popped pushed : Nat)
  | load (index : Option Nat) (width : Nat) (reference : Bool)
  | store (index : Option Nat) (width : Nat) (reference : Bool)
  | duplicate (copied below : Nat)
  | swap
  | keep
  | dimensions
  | field (receiver : Nat) (write : Bool)
  | invoke (receiver : Nat)
  deriving DecidableEq, Repr

/-- Pops slots, and pushes others. -/
def replaceEffect (popped pushed : Nat) : SlotEffect where
  popped := popped
  pushed := List.replicate pushed .other

/-- The effect of a shape; `members` are the slots of the arguments and of the result of the member that is named. -/
def SlotShape.effect (operand : Operand) (members : Option (Nat × Nat)) : SlotShape → Option SlotEffect
  | .replace popped pushed => some (replaceEffect popped pushed)
  | .load index width reference =>
    let i := index.getD operand.localIndex
    some { pushed := if reference then [.localSlot i] else List.replicate width .other, room := i + width }
  | .store index width reference =>
    let i := index.getD operand.localIndex
    some {
      popped := width, index := i
      stored := List.replicate width (if reference then .popped (width - 1) else .other) }
  | .duplicate copied below =>
    some {
      popped := copied + below
      pushed := (List.range copied).map (fun k => .popped (below + k)) ++ (List.range (copied + below)).map .popped }
  | .swap => some { popped := 2, pushed := [.popped 1, .popped 0] }
  | .keep => some { popped := 1, pushed := [.popped 0] }
  | .dimensions => some (replaceEffect operand.dimensions 1)
  | .field receiver write =>
    members.map fun m => if write then replaceEffect (m.2 + receiver) 0 else replaceEffect receiver m.2
  | .invoke receiver => members.map fun m => replaceEffect (m.1 + receiver) m.2

/-- The shapes of `execute`, in the order of its tests. -/
def codeShape (opcode : Nat) : Option SlotShape :=
  if opcode = 0 ∨ opcode = 132 then some (.replace 0 0)
  else if (1 ≤ opcode ∧ opcode ≤ 8) ∨ (11 ≤ opcode ∧ opcode ≤ 13) ∨ (16 ≤ opcode ∧ opcode ≤ 19) then
    some (.replace 0 1)
  else if opcode ∈ [9, 10, 14, 15, 20] then some (.replace 0 2)
  else if 21 ≤ opcode ∧ opcode ≤ 25 then
    some (.load none (if opcode = 22 ∨ opcode = 24 then 2 else 1) (opcode = 25))
  else if 26 ≤ opcode ∧ opcode ≤ 45 then
    some (.load (shortLocal (opcode - 26)).1 (shortLocal (opcode - 26)).2.1 (shortLocal (opcode - 26)).2.2)
  else if 54 ≤ opcode ∧ opcode ≤ 58 then
    some (.store none (if opcode = 55 ∨ opcode = 57 then 2 else 1) (opcode = 58))
  else if 59 ≤ opcode ∧ opcode ≤ 78 then
    some (.store (shortLocal (opcode - 59)).1 (shortLocal (opcode - 59)).2.1 (shortLocal (opcode - 59)).2.2)
  else if opcode = 47 ∨ opcode = 49 then some (.replace 2 2)
  else if 46 ≤ opcode ∧ opcode ≤ 53 then some (.replace 2 1)
  else if opcode = 80 ∨ opcode = 82 then some (.replace 4 0)
  else if 79 ≤ opcode ∧ opcode ≤ 86 then some (.replace 3 0)
  else if opcode = 87 then some (.replace 1 0)
  else if opcode = 88 then some (.replace 2 0)
  else if opcode = 89 then some (.duplicate 1 0)
  else if opcode = 90 then some (.duplicate 1 1)
  else if opcode = 91 then some (.duplicate 1 2)
  else if opcode = 92 then some (.duplicate 2 0)
  else if opcode = 93 then some (.duplicate 2 1)
  else if opcode = 94 then some (.duplicate 2 2)
  else if opcode = 95 then some .swap
  else if 96 ≤ opcode ∧ opcode ≤ 115 then
    if (opcode - 96) % 4 = 1 ∨ (opcode - 96) % 4 = 3 then some (.replace 4 2) else some (.replace 2 1)
  else if 116 ≤ opcode ∧ opcode ≤ 119 then some (.replace 0 0)
  else if opcode ∈ [120, 122, 124] then some (.replace 2 1)
  else if opcode ∈ [121, 123, 125] then some (.replace 3 2)
  else if 126 ≤ opcode ∧ opcode ≤ 131 then
    if opcode % 2 = 1 then some (.replace 4 2) else some (.replace 2 1)
  else if opcode ∈ [133, 135, 140, 141] then some (.replace 1 2)
  else if opcode ∈ [136, 137, 142, 144] then some (.replace 2 1)
  else if opcode ∈ [138, 143] then some (.replace 2 2)
  else if (134 ≤ opcode ∧ opcode ≤ 147) ∨ opcode = 139 then some (.replace 0 0)
  else if opcode ∈ [148, 151, 152] then some (.replace 4 1)
  else if opcode ∈ [149, 150] then some (.replace 2 1)
  else if 153 ≤ opcode ∧ opcode ≤ 158 then some (.replace 1 0)
  else if 159 ≤ opcode ∧ opcode ≤ 166 then some (.replace 2 0)
  else if opcode ∈ [170, 171, 198, 199] then some (.replace 1 0)
  else if opcode = 167 ∨ opcode = 200 then some (.replace 0 0)
  else if opcode ∈ [168, 201, 169] then none
  else if 172 ≤ opcode ∧ opcode ≤ 177 then
    some (.replace (if opcode = 173 ∨ opcode = 175 then 2 else if opcode = 177 then 0 else 1) 0)
  else if 178 ≤ opcode ∧ opcode ≤ 181 then
    some (.field (if opcode = 178 ∨ opcode = 179 then 0 else 1) (opcode ≠ 178 ∧ opcode ≠ 180))
  else if 182 ≤ opcode ∧ opcode ≤ 186 then some (.invoke (if opcode = 184 ∨ opcode = 186 then 0 else 1))
  else if opcode = 187 then some (.replace 0 1)
  else if opcode = 188 ∨ opcode = 189 then some (.replace 1 1)
  else if opcode = 197 then some .dimensions
  else if opcode = 190 ∨ opcode = 193 then some (.replace 1 1)
  else if opcode = 191 then some (.replace 1 0)
  else if opcode = 192 then some .keep
  else if opcode = 194 ∨ opcode = 195 then some (.replace 1 0)
  else none

/-! ## Executing a shape -/

/-- The slots of a round's work. -/
def TraceWork.frame (work : TraceWork) : SlotFrame UInt8 := ⟨work.locals, work.stack⟩

/-- The work with other slots. -/
def TraceWork.withFrame (work : TraceWork) (f : SlotFrame UInt8) : TraceWork := ⟨f.locals, f.stack, work.maxStack⟩

/-- A step does what a shape says, on stacks within their bound. -/
def Realises (operand : Operand) (members : Option (Nat × Nat)) (shape : Option SlotShape)
    (step : TraceWork → Option TraceWork) : Prop :=
  ∀ w : TraceWork, w.stack.length ≤ w.maxStack → step w =
    ((shape.bind (·.effect operand members)).bind fun e => e.apply w.maxStack traceOther w.frame).map w.withFrame

section Realises

variable {operand : Operand} {members : Option (Nat × Nat)}

theorem Realises.ite {c : Prop} [Decidable c] {a b : Option SlotShape} {f g : TraceWork → Option TraceWork}
    (hf : c → Realises operand members a f) (hg : ¬c → Realises operand members b g) :
    Realises operand members (if c then a else b) fun w => if c then f w else g w := by
  intro w hw
  dsimp only
  split
  · rename_i hc
    exact hf hc w hw
  · rename_i hc
    exact hg hc w hw

theorem realises_none : Realises operand members none fun _ => none := fun _ _ => rfl

theorem pushOther_eq (w : TraceWork) (count : Nat) : pushOther w count =
    if count = 0 ∨ w.stack.length + count ≤ w.maxStack then
      some { w with stack := w.stack ++ List.replicate count traceOther }
    else none := by
  induction count generalizing w with
  | zero => simp [pushOther]
  | succ count ih =>
    simp only [pushOther, pushSlot]
    by_cases hfull : w.maxStack ≤ w.stack.length
    · rw [if_pos hfull, if_neg (by omega)]
      rfl
    · rw [if_neg hfull, Option.bind_eq_bind, Option.bind_some, ih]
      simp only [List.length_append, List.length_singleton, List.append_assoc, List.singleton_append]
      by_cases hroom : w.stack.length + (count + 1) ≤ w.maxStack
      · rw [if_pos (by omega), if_pos (by omega), List.replicate_succ]
      · rw [if_neg (by omega), if_neg (by omega)]

/-- What a shape without a member and without a local does. -/
theorem apply_replaceEffect (popped pushed : Nat) (w : TraceWork) (hw : w.stack.length ≤ w.maxStack) :
    ((replaceEffect popped pushed).apply w.maxStack traceOther w.frame).map w.withFrame =
      replaceSlots w popped pushed := by
  have hfits : (replaceEffect popped pushed).Fits w.maxStack w.frame ↔
      popped ≤ w.stack.length ∧ w.stack.length - popped + pushed ≤ w.maxStack := by
    simp only [SlotEffect.Fits, replaceEffect, TraceWork.frame, List.length_replicate, List.length_nil]
    omega
  unfold replaceSlots popSlots
  by_cases hpop : popped > w.stack.length
  · rw [if_pos hpop, SlotEffect.apply_of_not_fits _ _ _ (by rw [hfits]; omega)]
    rfl
  · rw [if_neg hpop, Option.bind_eq_bind, Option.bind_some, pushOther_eq]
    simp only [List.length_take]
    by_cases hroom : w.stack.length - popped + pushed ≤ w.maxStack
    · rw [SlotEffect.apply_of_fits _ _ _ (by rw [hfits]; omega), if_pos (by omega)]
      simp [TraceWork.withFrame, TraceWork.frame, replaceEffect, SlotEffect.value]
    · rw [SlotEffect.apply_of_not_fits _ _ _ (by rw [hfits]; omega), if_neg (by omega)]
      rfl

theorem realises_replace (popped pushed : Nat) :
    Realises operand members (some (.replace popped pushed)) fun w => replaceSlots w popped pushed :=
  fun w hw => (apply_replaceEffect popped pushed w hw).symm

theorem replaceSlots_zero (w : TraceWork) (pushed : Nat) : replaceSlots w 0 pushed = pushOther w pushed := by
  simp [replaceSlots, popSlots]

theorem replaceSlots_none (w : TraceWork) (popped : Nat) : replaceSlots w popped 0 = popSlots w popped := by
  unfold replaceSlots
  cases popSlots w popped <;> rfl

theorem realises_push (pushed : Nat) :
    Realises operand members (some (.replace 0 pushed)) fun w => pushOther w pushed := by
  intro w hw
  dsimp only
  rw [← replaceSlots_zero]
  exact realises_replace 0 pushed w hw

theorem realises_pop (popped : Nat) :
    Realises operand members (some (.replace popped 0)) fun w => popSlots w popped := by
  intro w hw
  dsimp only
  rw [← replaceSlots_none]
  exact realises_replace popped 0 w hw

theorem realises_some : Realises operand members (some (.replace 0 0)) some := by
  intro w hw
  exact realises_push 0 w hw

theorem realises_dimensions :
    Realises operand members (some .dimensions) fun w => replaceSlots w operand.dimensions 1 :=
  fun w hw => (apply_replaceEffect operand.dimensions 1 w hw).symm

theorem realises_load (index : Option Nat) {width : Nat} (hwidth : 0 < width) (reference : Bool) :
    Realises operand members (some (.load index width reference)) fun w =>
      loadLocal w (index.getD operand.localIndex) width reference := by
  intro w hw
  generalize hi : index.getD operand.localIndex = i
  simp only [loadLocal, SlotShape.effect, Option.bind_some, hi]
  by_cases hin : i ≥ w.locals.length ∨ width > w.locals.length - i
  · rw [if_pos hin, SlotEffect.apply_of_not_fits _ _ _ (by simp only [SlotEffect.Fits, TraceWork.frame]; omega)]
    rfl
  rw [if_neg hin]
  cases reference with
  | true =>
    simp only [if_true, pushSlot]
    by_cases hfull : w.stack.length ≥ w.maxStack
    · rw [if_pos hfull, SlotEffect.apply_of_not_fits _ _ _
        (by simp only [SlotEffect.Fits, TraceWork.frame, List.length_singleton]; omega)]
      rfl
    · rw [if_neg hfull, SlotEffect.apply_of_fits _ _ _
        (by simp only [SlotEffect.Fits, TraceWork.frame, List.length_singleton, List.length_nil]; omega)]
      have hlt : i < w.locals.length := by omega
      simp [TraceWork.withFrame, TraceWork.frame, SlotEffect.value, hlt]
  | false =>
    simp only [Bool.false_eq_true, if_false, pushOther_eq]
    by_cases hroom : w.stack.length + width ≤ w.maxStack
    · rw [if_pos (by omega), SlotEffect.apply_of_fits _ _ _
        (by simp only [SlotEffect.Fits, TraceWork.frame, List.length_replicate, List.length_nil]; omega)]
      simp [TraceWork.withFrame, TraceWork.frame, SlotEffect.value]
    · rw [if_neg (by omega), SlotEffect.apply_of_not_fits _ _ _
        (by simp only [SlotEffect.Fits, TraceWork.frame, List.length_replicate]; omega)]
      rfl

theorem realises_store (index : Option Nat) {width : Nat} (hwidth : 0 < width) (reference : Bool) :
    Realises operand members (some (.store index width reference)) fun w =>
      storeLocal w (index.getD operand.localIndex) width reference := by
  intro w hw
  generalize hi : index.getD operand.localIndex = i
  simp only [storeLocal, SlotShape.effect, Option.bind_some, hi]
  by_cases hin : i ≥ w.locals.length ∨ width > w.locals.length - i ∨ width > w.stack.length
  · rw [if_pos hin, SlotEffect.apply_of_not_fits _ _ _
      (by simp only [SlotEffect.Fits, TraceWork.frame, List.length_replicate]; omega)]
    rfl
  · rw [if_neg hin, SlotEffect.apply_of_fits _ _ _
      (by simp only [SlotEffect.Fits, TraceWork.frame, List.length_nil, List.length_replicate]; omega), popSlots,
        if_neg (by omega)]
    have hvalue : w.stack.length - width + (width - 1) = w.stack.length - 1 := by omega
    have hlt : w.stack.length - 1 < w.stack.length := by omega
    cases reference with
    | true => simp [TraceWork.withFrame, TraceWork.frame, SlotEffect.value, hvalue, hlt]
    | false => simp [TraceWork.withFrame, TraceWork.frame, SlotEffect.value]

/-- The popped slots in their order, by their places. -/
theorem map_popped (e : SlotEffect) (f : SlotFrame UInt8) (first count : Nat)
    (h : first + count ≤ (f.stack.drop (f.stack.length - e.popped)).length) :
    ((List.range count).map fun k => e.value traceOther f (.popped (first + k))) =
      ((f.stack.drop (f.stack.length - e.popped)).drop first).take count := by
  refine List.ext_getElem ?_ fun k hk hk' => ?_
  · simp only [List.length_map, List.length_range, List.length_take, List.length_drop] at h ⊢
    omega
  · have hlt : first + k < (f.stack.drop (f.stack.length - e.popped)).length := by
      simp only [List.length_map, List.length_range] at hk
      omega
    rw [List.getElem_map, List.getElem_range, List.getElem_take, List.getElem_drop]
    exact List.getD_eq_getElem _ _ hlt

theorem realises_duplicate (copied below : Nat) :
    Realises operand members (some (.duplicate copied below)) fun w => duplicateSlots w copied below := by
  intro w hw
  simp only [duplicateSlots, SlotShape.effect, Option.bind_some]
  generalize he : SlotEffect.mk (copied + below) _ 0 0 [] = e
  have hpopped : e.popped = copied + below := by rw [← he]
  have hpushed : e.pushed = (List.range copied).map (fun k => SlotSource.popped (below + k)) ++
      (List.range (copied + below)).map .popped := by rw [← he]
  have hrest : e.room = 0 ∧ e.index = 0 ∧ e.stored = [] := by rw [← he]; exact ⟨rfl, rfl, rfl⟩
  have hfits : e.Fits w.maxStack w.frame ↔
      ¬(copied + below > w.stack.length ∨ w.stack.length + copied > w.maxStack) := by
    simp only [SlotEffect.Fits, hpopped, hpushed, hrest, TraceWork.frame, List.length_append, List.length_map,
      List.length_range, List.length_nil]
    omega
  by_cases hin : copied + below > w.stack.length ∨ w.stack.length + copied > w.maxStack
  · rw [if_pos hin, e.apply_of_not_fits _ _ (fun h => hfits.mp h hin)]
    rfl
  · rw [if_neg hin, e.apply_of_fits _ _ (hfits.mpr hin)]
    have hdrop : (w.stack.drop (w.stack.length - e.popped)).length = copied + below := by
      rw [List.length_drop]
      omega
    have htop := map_popped e w.frame below copied (by simp only [TraceWork.frame, hdrop]; omega)
    have hall := map_popped e w.frame 0 (copied + below) (by simp only [TraceWork.frame, hdrop]; omega)
    simp only [TraceWork.frame, Nat.zero_add] at htop hall
    have hpushed' : e.pushed.map (e.value traceOther w.frame) =
        w.stack.drop (w.stack.length - copied) ++ w.stack.drop (w.stack.length - copied - below) := by
      rw [hpushed, List.map_append, List.map_map, List.map_map, Function.comp_def, Function.comp_def, TraceWork.frame,
        htop, hall, List.drop_zero, List.drop_drop, List.take_of_length_le (by rw [List.length_drop]; omega),
        List.take_of_length_le (by omega), hpopped]
      congr 2 <;> omega
    have hbase : w.stack.length - (copied + below) = w.stack.length - copied - below := by omega
    rw [hpushed']
    simp only [Option.map_some, TraceWork.withFrame, TraceWork.frame, hrest, hpopped, hbase,
      List.map_nil, List.take_zero, List.nil_append, List.length_nil, Nat.add_zero, List.drop_zero]

theorem realises_swap : Realises operand members (some .swap) swapSlots := by
  intro w hw
  simp only [swapSlots, SlotShape.effect, Option.bind_some]
  by_cases htwo : w.stack.length < 2
  · rw [if_pos htwo, SlotEffect.apply_of_not_fits _ _ _ (by simp only [SlotEffect.Fits, TraceWork.frame]; omega)]
    rfl
  · rw [if_neg htwo, SlotEffect.apply_of_fits _ _ _
      (by simp only [SlotEffect.Fits, TraceWork.frame, List.length_cons, List.length_nil]; omega)]
    have hlen : (w.stack.drop (w.stack.length - 2)).length = 2 := by
      rw [List.length_drop]
      omega
    obtain ⟨a, b, hab⟩ := List.length_eq_two.mp hlen
    simp [TraceWork.withFrame, TraceWork.frame, SlotEffect.value, hab]

theorem realises_keep : Realises operand members (some .keep) fun w =>
    if w.stack.length ≠ 0 then some w else none := by
  intro w hw
  simp only [SlotShape.effect, Option.bind_some]
  by_cases hone : w.stack.length = 0
  · rw [if_neg (by omega), SlotEffect.apply_of_not_fits _ _ _ (by simp only [SlotEffect.Fits, TraceWork.frame]; omega)]
    rfl
  · rw [if_pos hone, SlotEffect.apply_of_fits _ _ _
      (by simp only [SlotEffect.Fits, TraceWork.frame, List.length_cons, List.length_nil]; omega)]
    have hlen : (w.stack.drop (w.stack.length - 1)).length = 1 := by
      rw [List.length_drop]
      omega
    obtain ⟨a, ha⟩ := List.length_eq_one_iff.mp hlen
    have hstack : w.stack.take (w.stack.length - 1) ++ [a] = w.stack := by
      rw [← ha, List.take_append_drop]
    simp [TraceWork.withFrame, TraceWork.frame, SlotEffect.value, ha, hstack]

end Realises

/-! ## Members -/

/-- The slots that the descriptor of a member has for the trace. -/
def codeMembers (cf : ClassFile) (node : Instruction) : Option (Nat × Nat) :=
  (memberDescriptor cf.constantPool node.operand.memberIndex).map fun slots => (slots.1.toNat, slots.2.toNat)

theorem resultSlots_le {bytes : Bytes} {slots : UInt16} (h : resultSlots bytes = some slots) : slots.toNat ≤ 2 := by
  unfold resultSlots at h
  split at h
  · cases h
  · cases h
    split
    · decide
    · split <;> decide

theorem descriptorSlots_le {pool : ConstantPool} {index : UInt16} {slots : UInt16 × UInt16}
    (h : descriptorSlots pool index = some slots) : slots.2.toNat ≤ 2 := by
  unfold descriptorSlots at h
  split at h
  · cases h
  · cases h
  · obtain ⟨arguments, -, h⟩ := Option.bind_eq_some_iff.mp h
    obtain ⟨result, hresult, h⟩ := Option.bind_eq_some_iff.mp h
    cases h
    exact resultSlots_le hresult
  · obtain ⟨result, hresult, h⟩ := Option.bind_eq_some_iff.mp h
    cases h
    exact resultSlots_le hresult

theorem memberDescriptor_le {pool : ConstantPool} {index : UInt16} {slots : UInt16 × UInt16}
    (h : memberDescriptor pool index = some slots) : slots.2.toNat ≤ 2 := by
  obtain ⟨entry, -, h⟩ := Option.bind_eq_some_iff.mp h
  obtain ⟨natIndex, -, h⟩ := Option.bind_eq_some_iff.mp h
  obtain ⟨nat, -, h⟩ := Option.bind_eq_some_iff.mp h
  split at h
  · exact descriptorSlots_le h
  · cases h

section Execute

variable {cf : ClassFile} {node : Instruction}

theorem realises_field (opcode : Nat) : Realises node.operand (codeMembers cf node)
    (some (.field (if opcode = 178 ∨ opcode = 179 then 0 else 1) (opcode ≠ 178 ∧ opcode ≠ 180)))
    (executeField cf opcode node) := by
  intro w hw
  simp only [executeField, codeMembers, SlotShape.effect, Option.bind_some]
  cases hslots : memberDescriptor cf.constantPool node.operand.memberIndex with
  | none => rfl
  | some slots =>
    have hwidth := memberDescriptor_le hslots
    have hnext : (slots.2 + 1).toNat = slots.2.toNat + 1 := by
      rw [UInt16.toNat_add, show (1 : UInt16).toNat = 1 from rfl, Nat.mod_eq_of_lt (by omega)]
    simp only [Option.map_some, Option.bind_some, Option.bind_eq_bind, hnext]
    by_cases h178 : opcode = 178
    · simp [h178, apply_replaceEffect _ _ w hw, replaceSlots_zero]
    by_cases h179 : opcode = 179
    · simp [h179, apply_replaceEffect _ _ w hw, replaceSlots_none]
    by_cases h180 : opcode = 180
    · simp [h180, apply_replaceEffect _ _ w hw]
    · simp [h178, h179, h180, apply_replaceEffect _ _ w hw, replaceSlots_none]

theorem realises_invoke (hfits : ∀ slots, codeMembers cf node = some slots → slots.1 + 1 < 2 ^ 16) (opcode : Nat) :
    Realises node.operand (codeMembers cf node) (some (.invoke (if opcode = 184 ∨ opcode = 186 then 0 else 1)))
      (executeInvoke cf opcode node) := by
  intro w hw
  simp only [executeInvoke, codeMembers, SlotShape.effect, Option.bind_some] at hfits ⊢
  cases hslots : memberDescriptor cf.constantPool node.operand.memberIndex with
  | none => rfl
  | some slots =>
    have hlt := hfits _ (by rw [hslots]; rfl)
    have hnext : (slots.1 + 1).toNat = slots.1.toNat + 1 := by
      rw [UInt16.toNat_add, show (1 : UInt16).toNat = 1 from rfl, Nat.mod_eq_of_lt (by omega)]
    simp only [Option.map_some, Option.bind_some, Option.bind_eq_bind, apply_replaceEffect _ _ w hw]
    by_cases hstatic : opcode = 184 ∨ opcode = 186
    · simp [hstatic]
    · simp [hstatic, hnext]

/-- The effect of an instruction, as the trace has it. -/
def codeEffect (cf : ClassFile) (node : Instruction) : Option SlotEffect :=
  (codeShape node.opcode.toNat).bind (·.effect node.operand (codeMembers cf node))

theorem realises_executeSlots (hfits : 182 ≤ node.opcode.toNat ∧ node.opcode.toNat ≤ 186 →
      ∀ slots, codeMembers cf node = some slots → slots.1 + 1 < 2 ^ 16) :
    Realises node.operand (codeMembers cf node) (codeShape node.opcode.toNat) (executeSlots cf node) := by
  have width (c : Prop) [Decidable c] : 0 < if c then 2 else 1 := by split <;> omega
  unfold executeSlots codeShape
  dsimp only [shortLocal]
  repeat' refine Realises.ite (fun _ => ?_) fun _ => ?_
  all_goals first
    | exact realises_some
    | exact realises_none
    | exact realises_push _
    | exact realises_pop _
    | exact realises_replace _ _
    | exact realises_load _ (width _) _
    | exact realises_store _ (width _) _
    | exact realises_duplicate _ _
    | exact realises_swap
    | exact realises_field _
    | exact realises_invoke (hfits (by assumption)) _
    | exact realises_dimensions
    | exact realises_keep

/-- Executing an instruction applies its effect, unless the arguments of a call overflow the count of the source. -/
theorem executeSlots_eq (hfits : 182 ≤ node.opcode.toNat ∧ node.opcode.toNat ≤ 186 →
      ∀ slots, codeMembers cf node = some slots → slots.1 + 1 < 2 ^ 16) {w : TraceWork}
    (hw : w.stack.length ≤ w.maxStack) : executeSlots cf node w =
      ((codeEffect cf node).bind fun e => e.apply w.maxStack traceOther w.frame).map w.withFrame :=
  realises_executeSlots hfits w hw

/-- Every instruction has one effect on all stacks within their bound, also a call whose arguments `u2` cannot count. -/
theorem executeSlots_effect (cf : ClassFile) (node : Instruction) : ∃ effect : Option SlotEffect, ∀ w : TraceWork,
    w.stack.length ≤ w.maxStack →
      executeSlots cf node w = (effect.bind fun e => e.apply w.maxStack traceOther w.frame).map w.withFrame := by
  by_cases hinvoke : 182 ≤ node.opcode.toNat ∧ node.opcode.toNat ≤ 186
  · have hexecute (w : TraceWork) : executeSlots cf node w = executeInvoke cf node.opcode.toNat node w := by
      unfold executeSlots
      generalize node.opcode.toNat = opcode at hinvoke
      obtain rfl | rfl | rfl | rfl | rfl :
        opcode = 182 ∨ opcode = 183 ∨ opcode = 184 ∨ opcode = 185 ∨ opcode = 186 := by omega
      all_goals rfl
    cases hslots : memberDescriptor cf.constantPool node.operand.memberIndex with
    | none =>
      refine ⟨none, fun w _ => ?_⟩
      rw [hexecute, executeInvoke, hslots]
      rfl
    | some slots =>
      let receiver : UInt16 := if node.opcode.toNat = 184 ∨ node.opcode.toNat = 186 then 0 else 1
      refine ⟨some (replaceEffect (slots.1 + receiver).toNat slots.2.toNat), fun w hw => ?_⟩
      rw [hexecute, executeInvoke, hslots, Option.bind_some, apply_replaceEffect _ _ w hw]
      rfl
  · exact ⟨codeEffect cf node, fun w hw => executeSlots_eq (fun h => absurd h hinvoke) hw⟩

end Execute

end Jni2Hook
