import Mathlib.Data.List.GetD

/-!
# Frames of a stack machine

A frame holds local slots and operand slots. An effect says which slots an instruction takes off the stack and where
each slot that it writes comes from: from one of those, from a local, or from nowhere in the frame. So an effect moves
slots without looking at them, and what it does to frames over one type it does to frames over any other.

* `SlotEffect.apply`: a frame after the instruction.
* `SlotEffect.apply_map`, `SlotEffect.apply_zipWith`: effects commute with maps of the slots, and with combining two
  frames slot by slot.
-/

namespace Lib

/-- The local slots, and the operand slots from the bottom of the stack to its top. -/
structure SlotFrame (α : Type) where
  locals : List α
  stack : List α
  deriving DecidableEq, Repr

/-- Where a slot that is written gets its value: `popped k` is the `k`-th of the slots taken off the stack, the deepest
of them first. -/
inductive SlotSource
  | other
  | popped (k : Nat)
  | localSlot (index : Nat)
  deriving DecidableEq, Repr

/-- Takes `popped` operands, pushes `pushed`, and writes `stored` to the locals from `index` on; it reads the first
`room` locals at most. All sources are read before anything is written. -/
structure SlotEffect where
  popped : Nat := 0
  pushed : List SlotSource := []
  room : Nat := 0
  index : Nat := 0
  stored : List SlotSource := []
  deriving DecidableEq, Repr

section Frame

variable {α β γ : Type}

def SlotFrame.map (g : α → β) (f : SlotFrame α) : SlotFrame β := ⟨f.locals.map g, f.stack.map g⟩

def SlotFrame.zipWith (op : α → β → γ) (f : SlotFrame α) (g : SlotFrame β) : SlotFrame γ :=
  ⟨List.zipWith op f.locals g.locals, List.zipWith op f.stack g.stack⟩

/-- As many locals and as many operands. -/
structure SlotFrame.SameShape (f : SlotFrame α) (g : SlotFrame β) : Prop where
  locals : f.locals.length = g.locals.length
  stack : f.stack.length = g.stack.length

theorem SlotFrame.SameShape.symm {f : SlotFrame α} {g : SlotFrame β} (h : f.SameShape g) : g.SameShape f :=
  ⟨h.locals.symm, h.stack.symm⟩

theorem SlotFrame.SameShape.trans {f : SlotFrame α} {g : SlotFrame β} {k : SlotFrame γ} (h : f.SameShape g)
    (h' : g.SameShape k) : f.SameShape k :=
  ⟨h.locals.trans h'.locals, h.stack.trans h'.stack⟩

theorem SlotFrame.sameShape_map (g : α → β) (f : SlotFrame α) : (f.map g).SameShape f := by
  constructor <;> simp [SlotFrame.map]

theorem SlotFrame.SameShape.zipWith {f : SlotFrame α} {g : SlotFrame β} (h : f.SameShape g) (op : α → β → γ) :
    (f.zipWith op g).SameShape f := by
  constructor
  · simp [SlotFrame.zipWith, h.locals]
  · simp [SlotFrame.zipWith, h.stack]

/-- Frames of one shape are the two sides of a frame of pairs. -/
theorem SlotFrame.SameShape.exists_pairs {f : SlotFrame α} {g : SlotFrame β} (h : f.SameShape g) :
    ∃ pairs : SlotFrame (α × β), f = pairs.map Prod.fst ∧ g = pairs.map Prod.snd := by
  refine ⟨⟨f.locals.zip g.locals, f.stack.zip g.stack⟩, ?_, ?_⟩
  · simp only [SlotFrame.map, List.map_fst_zip (Nat.le_of_eq h.locals), List.map_fst_zip (Nat.le_of_eq h.stack)]
  · simp only [SlotFrame.map, List.map_snd_zip (Nat.le_of_eq h.locals.symm),
      List.map_snd_zip (Nat.le_of_eq h.stack.symm)]

theorem zipWith_map_fst_snd (op : α → β → γ) (l : List (α × β)) :
    List.zipWith op (l.map Prod.fst) (l.map Prod.snd) = l.map fun p => op p.1 p.2 := by
  induction l with
  | nil => rfl
  | cons p l ih => simp [ih]

theorem SlotFrame.zipWith_pairs (op : α → β → γ) (pairs : SlotFrame (α × β)) :
    (pairs.map Prod.fst).zipWith op (pairs.map Prod.snd) = pairs.map fun p => op p.1 p.2 := by
  simp only [SlotFrame.zipWith, SlotFrame.map, zipWith_map_fst_snd]

end Frame

section Effect

variable {α β γ : Type} (e : SlotEffect) (limit : Nat)

/-- The value that a source names; `other` stands for what comes from nowhere in the frame. -/
def SlotEffect.value (other : α) (f : SlotFrame α) : SlotSource → α
  | .other => other
  | .popped k => (f.stack.drop (f.stack.length - e.popped)).getD k other
  | .localSlot index => f.locals.getD index other

/-- The effect fits a frame, whose stack may grow up to the limit. -/
def SlotEffect.Fits (f : SlotFrame α) : Prop :=
  e.popped ≤ f.stack.length ∧ f.stack.length - e.popped + e.pushed.length ≤ limit ∧ e.room ≤ f.locals.length ∧
    e.index + e.stored.length ≤ f.locals.length

instance (f : SlotFrame α) : Decidable (e.Fits limit f) := by
  unfold SlotEffect.Fits
  infer_instance

/-- The frame after the instruction. -/
def SlotEffect.apply (other : α) (f : SlotFrame α) : Option (SlotFrame α) :=
  if e.Fits limit f then
    some {
      locals := f.locals.take e.index ++ (e.stored.map (e.value other f) ++ f.locals.drop (e.index + e.stored.length))
      stack := f.stack.take (f.stack.length - e.popped) ++ e.pushed.map (e.value other f) }
  else none

theorem SlotEffect.apply_of_fits {f : SlotFrame α} (other : α) (h : e.Fits limit f) : e.apply limit other f = some {
    locals := f.locals.take e.index ++ (e.stored.map (e.value other f) ++ f.locals.drop (e.index + e.stored.length))
    stack := f.stack.take (f.stack.length - e.popped) ++ e.pushed.map (e.value other f) } :=
  if_pos h

theorem SlotEffect.apply_of_not_fits {f : SlotFrame α} (other : α) (h : ¬e.Fits limit f) :
    e.apply limit other f = none :=
  if_neg h

/-- An effect that fits a limit fits a larger one. -/
theorem SlotEffect.apply_mono {limit' : Nat} {f g : SlotFrame α} {other : α} (hle : limit ≤ limit')
    (h : e.apply limit other f = some g) : e.apply limit' other f = some g := by
  by_cases hfits : e.Fits limit f
  · have hfits' : e.Fits limit' f := ⟨hfits.1, Nat.le_trans hfits.2.1 hle, hfits.2.2⟩
    rw [e.apply_of_fits limit other hfits] at h
    rw [e.apply_of_fits limit' other hfits', h]
  · rw [e.apply_of_not_fits limit other hfits] at h
    cases h

/-- The locals stay as many as they are, and the stack within its limit. -/
theorem SlotEffect.length_apply {f g : SlotFrame α} {other : α} (h : e.apply limit other f = some g) :
    g.locals.length = f.locals.length ∧ g.stack.length ≤ limit := by
  by_cases hfits : e.Fits limit f
  · rw [e.apply_of_fits limit other hfits] at h
    cases h
    obtain ⟨hpop, hpush, -, hstore⟩ := hfits
    simp only [List.length_append, List.length_take, List.length_map, List.length_drop]
    omega
  · rw [e.apply_of_not_fits limit other hfits] at h
    cases h

theorem SlotEffect.value_map (g : α → β) (other : α) (f : SlotFrame α) (source : SlotSource) :
    e.value (g other) (f.map g) source = g (e.value other f source) := by
  cases source with
  | other => rfl
  | popped k => simp only [SlotEffect.value, SlotFrame.map, List.length_map, ← List.map_drop, List.getD_map]
  | localSlot index => simp only [SlotEffect.value, SlotFrame.map, List.getD_map]

theorem SlotEffect.fits_map (g : α → β) (f : SlotFrame α) : e.Fits limit (f.map g) ↔ e.Fits limit f := by
  simp [SlotEffect.Fits, SlotFrame.map]

/-- Effects do not look at the slots they move. -/
theorem SlotEffect.apply_map (g : α → β) (other : α) (f : SlotFrame α) :
    e.apply limit (g other) (f.map g) = (e.apply limit other f).map (SlotFrame.map g) := by
  have values (sources : List SlotSource) :
      sources.map (e.value (g other) (f.map g)) = (sources.map (e.value other f)).map g := by
    rw [List.map_map]
    exact List.map_congr_left fun source _ => e.value_map g other f source
  unfold SlotEffect.apply
  simp only [e.fits_map limit g f]
  split
  · simp only [values]
    simp only [Option.map_some, SlotFrame.map, List.length_map, List.map_append, List.map_take, List.map_drop]
  · rfl

/-- What holds of all slots of a frame holds of all slots after the instruction, if it holds of new ones. -/
theorem SlotEffect.apply_forall {P : α → Prop} {f g : SlotFrame α} {other : α} (hother : P other)
    (hlocals : ∀ x ∈ f.locals, P x) (hstack : ∀ x ∈ f.stack, P x) (h : e.apply limit other f = some g) :
    (∀ x ∈ g.locals, P x) ∧ ∀ x ∈ g.stack, P x := by
  have hf : f = SlotFrame.map Subtype.val ⟨f.locals.attachWith P hlocals, f.stack.attachWith P hstack⟩ := by
    simp [SlotFrame.map]
  have hmap := e.apply_map limit Subtype.val ⟨other, hother⟩
    ⟨f.locals.attachWith P hlocals, f.stack.attachWith P hstack⟩
  rw [← hf, h] at hmap
  obtain ⟨g', -, rfl⟩ := Option.map_eq_some_iff.mp hmap.symm
  constructor
  · intro x hx
    obtain ⟨y, -, rfl⟩ := List.mem_map.mp hx
    exact y.2
  · intro x hx
    obtain ⟨y, -, rfl⟩ := List.mem_map.mp hx
    exact y.2

/-- Two frames of one shape combined slot by slot make the step that each of them makes. -/
theorem SlotEffect.apply_zipWith (op : α → β → γ) {f : SlotFrame α} {g : SlotFrame β}
    (h : f.SameShape g) (a : α) (b : β) :
    e.apply limit (op a b) (f.zipWith op g) =
      (e.apply limit a f).bind fun f' => (e.apply limit b g).map fun g' => f'.zipWith op g' := by
  obtain ⟨pairs, rfl, rfl⟩ := h.exists_pairs
  rw [SlotFrame.zipWith_pairs, e.apply_map limit (fun p : α × β => op p.1 p.2) (a, b) pairs,
    e.apply_map limit Prod.fst (a, b) pairs, e.apply_map limit Prod.snd (a, b) pairs]
  cases e.apply limit (a, b) pairs with
  | none => rfl
  | some pairs' => simp [SlotFrame.zipWith_pairs]

/-- Frames of one shape make a step together, to frames of one shape. -/
theorem SlotEffect.apply_sameShape {f f' : SlotFrame α} {g : SlotFrame β} (h : f.SameShape g) {a : α} (b : β)
    (hf : e.apply limit a f = some f') : ∃ g', e.apply limit b g = some g' ∧ f'.SameShape g' := by
  obtain ⟨pairs, rfl, rfl⟩ := h.exists_pairs
  rw [e.apply_map limit Prod.fst (a, b) pairs] at hf
  obtain ⟨pairs', hpairs, rfl⟩ := Option.map_eq_some_iff.mp hf
  refine ⟨pairs'.map Prod.snd, ?_, (SlotFrame.sameShape_map _ _).trans (SlotFrame.sameShape_map _ _).symm⟩
  rw [e.apply_map limit Prod.snd (a, b) pairs, hpairs]
  rfl

end Effect

end Lib
