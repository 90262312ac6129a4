import Jni2Hook.Code.Body

/-!
# Flushing the type annotations

`type_annotation_flush` writes the offsets of the references back into the opaque attributes.

* `typeAnnotationFlush_ok`: a flush that succeeds is `fillOthers`, and every offset fits its place.
* `annotationsFrom_fill`: a walk over the result finds the references that were flushed.
* `blankOthers_fill`: outside the places of the references the attributes are unchanged.
-/

namespace Jni2Hook

open Lib

/-! ## The flush as a fill -/

/-- The opaque attributes from `index` on, with the offsets of their references written into them. -/
def fillOthers (refs : List TypeAnnotationRef) : Nat → List AttributeInfo → List AttributeInfo
  | _, [] => []
  | index, a :: rest =>
    { a with info := fillRefs 0 (refs.filter (·.attributeIndex = index)) a.info } :: fillOthers refs (index + 1) rest

theorem getElem?_fillOthers (refs : List TypeAnnotationRef) : ∀ (index : Nat) (others : List AttributeInfo) (k : Nat),
    (fillOthers refs index others)[k]? = others[k]?.map fun a =>
      { a with info := fillRefs 0 (refs.filter (·.attributeIndex = index + k)) a.info }
  | _, [], _ => rfl
  | index, a :: rest, 0 => rfl
  | index, a :: rest, k + 1 => by
    rw [fillOthers, List.getElem?_cons_succ, List.getElem?_cons_succ, getElem?_fillOthers]
    simp only [Nat.add_assoc, Nat.add_comm 1]

/-- The offsets of a reference fit the places they are written to. -/
def TypeAnnotationRef.Flushed (ref : TypeAnnotationRef) : Prop :=
  0 ≤ ref.start ∧ ref.start ≤ 0xFFFF ∧ (ref.kind = .span → ref.start ≤ ref.stop ∧ ref.stop ≤ 0xFFFF)

theorem flushRef_ok {ref : TypeAnnotationRef} {attributes written : List AttributeInfo}
    (h : flushRef ref attributes = (.ok (), written)) : ref.Flushed ∧
      written = attributes.modify ref.attributeIndex fun a => { a with info := putRef 0 ref a.info } := by
  have set {a : AttributeInfo} (ha : attributes[ref.attributeIndex]? = some a) {payload : Bytes}
      (hp : payload = putRef 0 ref a.info) : setPayload attributes ref.attributeIndex payload =
        attributes.modify ref.attributeIndex fun a => { a with info := putRef 0 ref a.info } := by
    subst hp
    apply List.ext_getElem?
    intro k
    simp only [setPayload, List.getElem?_modify]
    split
    · rename_i hk
      subst hk
      rw [ha]
      rfl
    · rfl
  unfold flushRef at h
  split at h
  · cases h
  · rename_i a ha
    by_cases hlen : u4 (ref.payloadOffset + if ref.kind = .span then 4 else 2) > a.attributeLength.toNat
    · rw [if_pos hlen] at h
      cases h
    rw [if_neg hlen] at h
    by_cases hs : ref.start < 0 ∨ ref.start > jvmMaxCodeLength
    · rw [if_pos hs] at h
      cases h
    rw [if_neg hs] at h
    unfold jvmMaxCodeLength at hs
    by_cases hk : ref.kind = .instruction
    · rw [if_pos hk] at h
      cases h
      exact ⟨⟨by omega, by omega, fun hsp => by rw [hk] at hsp; cases hsp⟩, set ha (by simp [putRef, hk])⟩
    rw [if_neg hk] at h
    by_cases ht : ref.stop < ref.start ∨ ref.stop > jvmMaxCodeLength
    · rw [if_pos ht] at h
      cases h
    rw [if_neg ht] at h
    unfold jvmMaxCodeLength at ht
    cases h
    exact ⟨⟨by omega, by omega, fun _ => ⟨by omega, by omega⟩⟩, set ha (by simp [putRef, hk])⟩

theorem typeAnnotationFlush_ok : ∀ {refs : List TypeAnnotationRef} {attributes written : List AttributeInfo},
    typeAnnotationFlush refs attributes = (.ok (), written) →
    (∀ ref ∈ refs, ref.Flushed) ∧ written = fillOthers refs 0 attributes
  | [], attributes, written, h => by
    cases h
    refine ⟨fun ref hr => absurd hr List.not_mem_nil, List.ext_getElem? fun k => ?_⟩
    rw [getElem?_fillOthers]
    simp [fillRefs]
  | ref :: rest, attributes, written, h => by
    rw [typeAnnotationFlush] at h
    split at h
    · cases h
    · rename_i x next hf
      obtain ⟨hfl, rfl⟩ := flushRef_ok hf
      obtain ⟨hall, rfl⟩ := typeAnnotationFlush_ok h
      refine ⟨fun r hr => ?_, List.ext_getElem? fun k => ?_⟩
      · rcases List.mem_cons.mp hr with rfl | hr
        · exact hfl
        · exact hall r hr
      · rw [getElem?_fillOthers, getElem?_fillOthers, List.getElem?_modify]
        by_cases hk : ref.attributeIndex = k
        · simp [hk, fillRefs, Function.comp_def]
        · simp [hk, fillRefs]

/-! ## Walking again -/

theorem wellFormed_fill {a : AttributeInfo} (h : a.WellFormed) (refs : List TypeAnnotationRef) :
    ({ a with info := fillRefs 0 refs a.info } : AttributeInfo).WellFormed := by
  rw [AttributeInfo.WellFormed, length_fillRefs]
  exact h

theorem others_fill {pool : ConstantPool} {refs : List TypeAnnotationRef} :
    ∀ {index : Nat} {others : List AttributeInfo}, (∀ a ∈ others, OtherAttribute pool a) →
      ∀ a ∈ fillOthers refs index others, OtherAttribute pool a
  | _, [], h => h
  | index, b :: rest, h => by
    intro a ha
    rcases List.mem_cons.mp ha with rfl | ha
    · have hb := h b List.mem_cons_self
      exact ⟨wellFormed_fill hb.wellFormed _, hb.name⟩
    · exact others_fill (fun c hc => h c (List.mem_cons_of_mem b hc)) a ha

theorem length_fillOthers (refs : List TypeAnnotationRef) : ∀ (index : Nat) (others : List AttributeInfo),
    (fillOthers refs index others).length = others.length
  | _, [] => rfl
  | index, _ :: rest => congrArg (· + 1) (length_fillOthers refs (index + 1) rest)

/-- References to attributes that came before write nothing. -/
theorem fillOthers_append_of_lt {refs refs' : List TypeAnnotationRef} : ∀ {index : Nat} {others : List AttributeInfo},
    (∀ ref ∈ refs, ref.attributeIndex < index) → fillOthers (refs ++ refs') index others = fillOthers refs' index others
  | _, [], _ => rfl
  | index, a :: rest, h => by
    have none : refs.filter (·.attributeIndex = index) = [] := by
      rw [List.filter_eq_nil_iff]
      intro ref hr
      have := h ref hr
      simp only [decide_eq_true_eq]
      omega
    rw [fillOthers, fillOthers, List.filter_append, none, List.nil_append,
      fillOthers_append_of_lt fun ref hr => Nat.lt_succ_of_lt (h ref hr)]

theorem annotationsIn_ok {pool : ConstantPool} {index count : Nat} {a : AttributeInfo} {refs : List TypeAnnotationRef}
    (ha : a.WellFormed) (h : annotationsIn pool index count a = .ok refs) :
    (∀ ref ∈ refs, ref.attributeIndex = index) ∧ ∀ refs', List.Forall₂ Retargets refs refs' →
      annotationsIn pool index count { a with info := fillRefs 0 refs' a.info } = .ok refs' := by
  rw [annotationsIn] at h
  split at h
  · rename_i hcar
    rw [payload_of_wellFormed ha] at h
    obtain ⟨hin, hfill⟩ := collect_fill h
    refine ⟨fun ref hr => (hin ref hr).2, fun refs' hr => ?_⟩
    rw [annotationsIn, if_pos hcar, payload_of_wellFormed (wellFormed_fill ha refs')]
    exact hfill refs' hr
  · rename_i hcar
    cases h
    refine ⟨fun ref hr => absurd hr List.not_mem_nil, fun refs' hr => ?_⟩
    cases hr
    rw [annotationsIn, if_neg hcar]

theorem annotationsFrom_index {pool : ConstantPool} : ∀ {others : List AttributeInfo} {index count : Nat}
    {refs : List TypeAnnotationRef}, (∀ a ∈ others, a.WellFormed) → annotationsFrom pool index count others = .ok refs →
    ∀ ref ∈ refs, index ≤ ref.attributeIndex
  | [], index, count, refs, _, h => by
    cases h
    exact fun ref hr => absurd hr List.not_mem_nil
  | a :: rest, index, count, refs, hw, h => by
    rw [annotationsFrom] at h
    obtain ⟨found, h₁, h₂⟩ := bind_ok h
    obtain ⟨more, h₃, h₄⟩ := bind_ok h₂
    cases h₄
    intro ref hr
    rcases List.mem_append.mp hr with hr | hr
    · exact Nat.le_of_eq ((annotationsIn_ok (hw a List.mem_cons_self) h₁).1 ref hr).symm
    · exact Nat.le_of_succ_le (annotationsFrom_index (fun b hb => hw b (List.mem_cons_of_mem a hb)) h₃ ref hr)

/-- A walk over the attributes with other offsets in the same places finds these. -/
theorem annotationsFrom_fill {pool : ConstantPool} : ∀ {others : List AttributeInfo} {index count : Nat}
    {refs refs' : List TypeAnnotationRef}, (∀ a ∈ others, a.WellFormed) →
    annotationsFrom pool index count others = .ok refs → List.Forall₂ Retargets refs refs' →
    annotationsFrom pool index count (fillOthers refs' index others) = .ok refs'
  | [], index, count, refs, refs', _, h, hr => by
    cases h
    cases hr
    rfl
  | a :: rest, index, count, refs, refs', hw, h, hr => by
    rw [annotationsFrom] at h
    obtain ⟨found, h₁, h₂⟩ := bind_ok h
    obtain ⟨more, h₃, h₄⟩ := bind_ok h₂
    cases h₄
    obtain ⟨found', more', hr₁, hr₂, rfl⟩ := forall₂_append_left hr
    have hrest : ∀ b ∈ rest, b.WellFormed := fun b hb => hw b (List.mem_cons_of_mem a hb)
    obtain ⟨hindex, hfill⟩ := annotationsIn_ok (hw a List.mem_cons_self) h₁
    have hfound : ∀ ref ∈ found', ref.attributeIndex = index := by
      intro ref hmem
      obtain ⟨old, hold, hret⟩ := forall₂_mem_right hr₁ ref hmem
      rw [hret.attributeIndex, hindex old hold]
    have hmore : ∀ ref ∈ more', index < ref.attributeIndex := by
      intro ref hmem
      obtain ⟨old, hold, hret⟩ := forall₂_mem_right hr₂ ref hmem
      rw [hret.attributeIndex]
      exact annotationsFrom_index hrest h₃ old hold
    have here : (found' ++ more').filter (·.attributeIndex = index) = found' := by
      rw [List.filter_append, List.filter_eq_self.mpr (by simpa using hfound),
        List.filter_eq_nil_iff.mpr, List.append_nil]
      intro ref hmem
      have := hmore ref hmem
      simp only [decide_eq_true_eq]
      omega
    rw [fillOthers, here, fillOthers_append_of_lt (fun ref hmem => by rw [hfound ref hmem]; omega), annotationsFrom,
      bind_of_ok (hfill found' hr₁), ← hr₁.length_eq, bind_of_ok (annotationsFrom_fill hrest h₃ hr₂)]
    rfl

/-! ## What the flush leaves alone -/

theorem getElem?_writeU2_of_ne {w : Bytes} {at_ k : Nat} {v : UInt16} (h₀ : at_ ≠ k) (h₁ : at_ + 1 ≠ k) :
    (writeU2 w at_ v)[k]? = w[k]? := by
  rw [writeU2, List.getElem?_set_ne h₁, List.getElem?_set_ne h₀]

theorem getElem?_fillRefs {k : Nat} : ∀ {refs : List TypeAnnotationRef} {w : Bytes},
    (∀ ref ∈ refs, ¬(ref.payloadOffset ≤ k ∧ k < ref.payloadOffset + ref.width)) → (fillRefs 0 refs w)[k]? = w[k]?
  | [], _, _ => rfl
  | ref :: refs, w, h => by
    have one : (putRef 0 ref w)[k]? = w[k]? := by
      have hout := h ref List.mem_cons_self
      unfold putRef
      dsimp only
      rcases ref.width_cases with ⟨hk, hw⟩ | ⟨hk, hw⟩
      · rw [if_neg (by simp [hk]), getElem?_writeU2_of_ne (by omega) (by omega),
          getElem?_writeU2_of_ne (by omega) (by omega)]
      · rw [if_pos hk, getElem?_writeU2_of_ne (by omega) (by omega)]
    rw [← one]
    exact getElem?_fillRefs fun r hr => h r (List.mem_cons_of_mem ref hr)

/-- Outside the places of the references the opaque attributes are unchanged. -/
theorem blankOthers_fill (refs : List TypeAnnotationRef) (others : List AttributeInfo) :
    blankOthers refs (fillOthers refs 0 others) = blankOthers refs others := by
  apply List.ext_getElem?
  intro index
  simp only [blankOthers, List.getElem?_mapIdx, getElem?_fillOthers, Nat.zero_add, Option.map_map]
  refine Option.map_congr fun a _ => ?_
  simp only [Function.comp_apply, AttributeInfo.mk.injEq, true_and]
  apply List.ext_getElem?
  intro k
  simp only [List.getElem?_mapIdx]
  by_cases hc : covered refs index k = true
  · have hlen := length_fillRefs 0 (refs.filter (·.attributeIndex = index)) a.info
    simp only [hc, if_true]
    by_cases hk : k < a.info.length
    · rw [List.getElem?_eq_getElem hk, List.getElem?_eq_getElem (by omega)]
      rfl
    · rw [List.getElem?_eq_none (by omega), List.getElem?_eq_none (by omega)]
  · simp only [hc]
    rw [getElem?_fillRefs]
    intro ref hr hin
    apply hc
    simp only [covered, List.any_eq_true, Bool.and_eq_true, decide_eq_true_eq]
    simp only [List.mem_filter, decide_eq_true_eq] at hr
    exact ⟨ref, hr.1, ⟨hr.2, hin.1⟩, hin.2⟩

end Jni2Hook
