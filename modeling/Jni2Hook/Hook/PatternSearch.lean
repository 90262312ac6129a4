import Jni2Hook.Code.Instruction
import Jni2Hook.Hook.PatternWatch

/-!
# What patterns mean and where they are found

* `compileLoops`: the two passes of `bytecode_pattern_compile`, with the arrays that the first one allocates; the second
  one fills them exactly (`compileLoops_eq`).
* `compile_iff`: a text is accepted when its words are wildcards and bytes, and each word gives one position.
* `findInClassFile_iff`, `scanPreparedClass_eq`: both searches answer the first method with an occurrence, and the first
  occurrence in it.
* `pattern_search_correct`: the three together.
* `match_at_instruction_iff`: when what is found is the offset of an instruction.
-/

namespace Jni2Hook

open Lib

/-! ## The two passes -/

/-- The first pass: how many runs of other characters stand between the spaces. -/
def countTokens : Nat → Bytes → Nat → Nat
  | 0, _, count => count
  | fuel + 1, cursor, count =>
    match cursor.dropWhile isSpace with
    | [] => count
    | c :: cs => countTokens fuel ((c :: cs).dropWhile (!isSpace ·)) (count + 1)

/-- The second pass, behind the positions that are written; `none` is a write behind the end of the arrays. -/
def fillTokens (count : Nat) : Nat → Bytes → BytecodePattern → Option (Except Jni2HookStatus BytecodePattern)
  | 0, _, out => some (.ok out)
  | fuel + 1, cursor, out =>
    match cursor.dropWhile isSpace with
    | [] => some (.ok out)
    | c :: cs =>
      match patternByte ((c :: cs).takeWhile (!isSpace ·)) with
      | .error e => some (.error e)
      | .ok position =>
        if out.length < count then fillTokens count fuel ((c :: cs).dropWhile (!isSpace ·))
          (out ++ [position]) else none

/-- `bytecode_pattern_compile` with its two passes. Every round takes at least one character. -/
def compileLoops (text : Bytes) : Option (Except Jni2HookStatus BytecodePattern) :=
  match countTokens text.length text 0 with
  | 0 => some (.error .invalidPattern)
  | count + 1 => fillTokens (count + 1) text.length text []

/-! ## Words -/

/-- The text split at the spaces. -/
def patternWords (text : Bytes) : List Bytes := (text.splitOnP isSpace).filter (!·.isEmpty)

theorem patternTokens_eq_prepend : ∀ (cs token : Bytes),
    patternTokens cs token = (List.splitOnPPrepend isSpace cs token.reverse).filter (!·.isEmpty)
  | [], token => by
    rw [patternTokens, List.splitOnPPrepend_nil, List.reverse_reverse]
    cases token <;> rfl
  | c :: cs, token => by
    unfold patternTokens
    split
    · rename_i hspace
      rw [List.splitOnPPrepend_cons_pos hspace, List.filter_cons, List.reverse_reverse, patternTokens_eq_prepend cs []]
      cases token <;> simp
    · rename_i hother
      rw [List.splitOnPPrepend_cons_neg (by simpa using hother), patternTokens_eq_prepend cs (token ++ [c]),
        List.reverse_append, List.reverse_singleton, List.singleton_append]

/-- The tokens are the words of the text. -/
theorem patternTokens_eq_words (text : Bytes) : patternTokens text [] = patternWords text := by
  rw [patternTokens_eq_prepend, List.reverse_nil, List.splitOnPPrepend_nil_right, patternWords]

theorem patternTokens_dropSpaces : ∀ text : Bytes, patternTokens (text.dropWhile isSpace) [] = patternTokens text []
  | [] => rfl
  | c :: cs => by
    rw [List.dropWhile_cons]
    split
    · rename_i hspace
      rw [patternTokens_dropSpaces cs]
      simp [patternTokens, hspace]
    · rfl

theorem patternTokens_token : ∀ (text token : Bytes), token ++ text.takeWhile (!isSpace ·) ≠ [] →
    patternTokens text token =
      (token ++ text.takeWhile (!isSpace ·)) :: patternTokens (text.dropWhile (!isSpace ·)) []
  | [], token, hne => by
    have : token ≠ [] := by simpa using hne
    cases token with
    | nil => exact absurd rfl this
    | cons t ts => simp [patternTokens]
  | c :: cs, token, hne => by
    cases hspace : isSpace c with
    | true =>
      have : token ≠ [] := by simpa [List.takeWhile_cons, hspace] using hne
      cases token with
      | nil => exact absurd rfl this
      | cons t ts => simp [patternTokens, hspace]
    | false =>
      have ih := patternTokens_token cs (token ++ [c]) (by simp)
      simp [patternTokens, hspace, ih]

/-- The next token behind spaces, and the tokens behind it. -/
theorem patternTokens_next {text : Bytes} {c : UInt8} {cs : Bytes} (h : text.dropWhile isSpace = c :: cs) :
    patternTokens text [] = (c :: cs).takeWhile (!isSpace ·) :: patternTokens ((c :: cs).dropWhile (!isSpace ·)) [] ∧
      ((c :: cs).dropWhile (!isSpace ·)).length < text.length := by
  have hother : isSpace c = false := by
    have := List.head_dropWhile_not (p := isSpace) (l := text) (by rw [h]; simp)
    simpa [h] using this
  refine ⟨?_, ?_⟩
  · rw [← patternTokens_dropSpaces, h, patternTokens_token (c :: cs) [] (by simp [hother]),
      List.nil_append]
  · have hle : (c :: cs).length ≤ text.length := by
      rw [← h]
      exact (List.dropWhile_suffix _).length_le
    have hrest : ((c :: cs).dropWhile (!isSpace ·)).length ≤ cs.length := by
      rw [List.dropWhile_cons, hother]
      exact (List.dropWhile_suffix _).length_le
    rw [List.length_cons] at hle
    omega

/-! ## The passes agree -/

theorem countTokens_eq : ∀ {fuel : Nat} {cursor : Bytes} (count : Nat), cursor.length ≤ fuel →
    countTokens fuel cursor count = count + (patternTokens cursor []).length
  | 0, cursor, count, h => by
    obtain rfl : cursor = [] := List.length_eq_zero_iff.mp (by omega)
    rfl
  | fuel + 1, cursor, count, h => by
    unfold countTokens
    split
    · rename_i hnil
      rw [← patternTokens_dropSpaces, hnil]
      rfl
    · rename_i c cs hcons
      obtain ⟨htokens, hlength⟩ := patternTokens_next hcons
      rw [countTokens_eq (count + 1) (by omega), htokens, List.length_cons]
      omega

/-- The second pass stays in the arrays as long as there is a place left for every token. -/
theorem fillTokens_eq {count : Nat} : ∀ {fuel : Nat} {cursor : Bytes} (out : BytecodePattern), cursor.length ≤ fuel →
    out.length + (patternTokens cursor []).length ≤ count →
    fillTokens count fuel cursor out = some ((patternBytes (patternTokens cursor [])).map (out ++ ·))
  | 0, cursor, out, h, _ => by
    obtain rfl : cursor = [] := List.length_eq_zero_iff.mp (by omega)
    simp [fillTokens, patternTokens, patternBytes, Except.map]
  | fuel + 1, cursor, out, h, hroom => by
    unfold fillTokens
    split
    · rename_i hnil
      rw [← patternTokens_dropSpaces, hnil]
      simp [patternTokens, patternBytes, Except.map]
    · rename_i c cs hcons
      obtain ⟨htokens, hlength⟩ := patternTokens_next hcons
      rw [htokens, List.length_cons] at hroom
      rw [htokens, patternBytes]
      cases hbyte : patternByte ((c :: cs).takeWhile (!isSpace ·)) with
      | error e => rfl
      | ok position =>
        dsimp only
        rw [if_pos (by omega), fillTokens_eq (out ++ [position]) (by omega)
          (by rw [List.length_append, List.length_singleton]; omega)]
        show some _ = some (Except.map (out ++ ·) (patternBytes _ >>= fun positions => .ok (position :: positions)))
        cases patternBytes (patternTokens ((c :: cs).dropWhile (!isSpace ·)) []) with
        | error e => rfl
        | ok positions =>
          show some (Except.ok (out ++ [position] ++ positions)) = some (Except.ok (out ++ position :: positions))
          rw [List.append_assoc, List.singleton_append]

/-- The two passes agree on the tokens: nothing is written behind the arrays, and they are filled. -/
theorem compileLoops_eq (text : Bytes) : compileLoops text = some (bytecodePatternCompile text) := by
  have hcount := @countTokens_eq text.length text 0 (Nat.le_refl _)
  rw [Nat.zero_add] at hcount
  unfold compileLoops bytecodePatternCompile
  rw [hcount]
  cases htokens : patternTokens text [] with
  | nil => rfl
  | cons token rest =>
    rw [List.length_cons]
    dsimp only
    rw [fillTokens_eq [] (Nat.le_refl _) (by rw [htokens, List.length_cons, List.length_nil]; omega), htokens]
    simp only [List.nil_append]
    cases patternBytes (token :: rest) <;> rfl

/-! ## The meaning of a pattern -/

/-- A hexadecimal digit and its value. -/
def HexDigit (c : UInt8) (v : Nat) : Prop :=
  (text "0123456789abcdef")[v]? = some c ∨ (text "0123456789ABCDEF")[v]? = some c

/-- A word and the position it stands for: any byte, or one byte. -/
inductive WordMeans : Bytes → PatternByte → Prop
  | any : WordMeans (text "?") ⟨0, 0⟩
  | anyTwice : WordMeans (text "??") ⟨0, 0⟩
  | byte {high low : UInt8} {v w : Nat} : HexDigit high v → HexDigit low w →
      WordMeans [high, low] ⟨UInt8.ofNat (16 * v + w), 0xFF⟩

theorem hexDigit_of_hexValue {c v : UInt8} (h : hexValue c = some v) : HexDigit c v.toNat := by
  have table : ∀ c : Fin 256, (hexValue (UInt8.ofNat c)).all (fun v => (text "0123456789abcdef")[v.toNat]? ==
      some (UInt8.ofNat c) || (text "0123456789ABCDEF")[v.toNat]? == some (UInt8.ofNat c)) = true := by decide +kernel
  have here := table ⟨c.toNat, c.toNat_lt⟩
  rw [show UInt8.ofNat c.toNat = c from UInt8.ofNat_toNat, h, Option.all_some, Bool.or_eq_true, beq_iff_eq,
    beq_iff_eq] at here
  exact here

theorem HexDigit.value {c : UInt8} {v : Nat} (h : HexDigit c v) : v < 16 ∧ hexValue c = some (UInt8.ofNat v) := by
  have lower : ∀ v : Fin 16, ((text "0123456789abcdef")[v.1]?).bind hexValue = some (UInt8.ofNat v) := by decide +kernel
  have upper : ∀ v : Fin 16, ((text "0123456789ABCDEF")[v.1]?).bind hexValue = some (UInt8.ofNat v) := by decide +kernel
  rcases h with h | h
  · have hv : v < 16 := (List.getElem?_eq_some_iff.mp h).1
    have := lower ⟨v, hv⟩
    rw [h, Option.bind_some] at this
    exact ⟨hv, this⟩
  · have hv : v < 16 := (List.getElem?_eq_some_iff.mp h).1
    have := upper ⟨v, hv⟩
    rw [h, Option.bind_some] at this
    exact ⟨hv, this⟩

theorem join_digits : ∀ v < 16, ∀ w < 16,
    (UInt8.ofNat v <<< 4) ||| UInt8.ofNat w = UInt8.ofNat (16 * v + w) := by decide +kernel

/-- `bytecode_pattern_compile` reads a word as it is meant. -/
theorem patternByte_iff {token : Bytes} {position : PatternByte} :
    patternByte token = .ok position ↔ WordMeans token position := by
  constructor
  · intro h
    unfold patternByte at h
    split at h
    · cases h
      exact .any
    · cases h
      exact .anyTwice
    · rename_i high low _
      split at h
      · rename_i v w hv hw
        cases h
        have hv' := hexDigit_of_hexValue hv
        have hw' := hexDigit_of_hexValue hw
        have := WordMeans.byte hv' hw'
        rw [← join_digits _ hv'.value.1 _ hw'.value.1, UInt8.ofNat_toNat, UInt8.ofNat_toNat] at this
        exact this
      · cases h
    · cases h
  · intro h
    cases h with
    | any => rfl
    | anyTwice => rfl
    | @byte high low v w hv hw =>
      obtain ⟨hv₁, hv₂⟩ := hv.value
      obtain ⟨hw₁, hw₂⟩ := hw.value
      unfold patternByte
      split
      · rename_i heq
        cases heq
      · rename_i heq
        cases heq
        have : hexValue 0x3F = none := by decide
        rw [this] at hv₂
        cases hv₂
      · rename_i heq
        cases heq
        rw [hv₂, hw₂]
        dsimp only
        rw [join_digits v hv₁ w hw₁]
      · rename_i hno
        exact absurd rfl (hno high low)

theorem patternBytes_iff : ∀ {tokens : List Bytes} {pattern : BytecodePattern},
    patternBytes tokens = .ok pattern ↔ List.Forall₂ WordMeans tokens pattern
  | [], pattern => by
    constructor
    · intro h
      cases h
      exact .nil
    · intro h
      cases h
      rfl
  | token :: rest, pattern => by
    constructor
    · intro h
      obtain ⟨position, hposition, h⟩ := bind_ok h
      obtain ⟨positions, hpositions, h⟩ := bind_ok h
      cases h
      exact .cons (patternByte_iff.mp hposition) (patternBytes_iff.mp hpositions)
    · intro h
      cases h with
      | cons hposition hpositions =>
        rw [patternBytes, bind_of_ok (patternByte_iff.mpr hposition), bind_of_ok (patternBytes_iff.mpr hpositions)]
        rfl

/-- A text is compiled to a pattern when it has a word, and the positions are those of its words. -/
theorem compile_iff {text : Bytes} {pattern : BytecodePattern} : bytecodePatternCompile text = .ok pattern ↔
    patternWords text ≠ [] ∧ List.Forall₂ WordMeans (patternWords text) pattern := by
  unfold bytecodePatternCompile
  rw [patternTokens_eq_words]
  cases patternWords text with
  | nil => simp
  | cons token rest => simp only [patternBytes_iff, ne_eq, reduceCtorEq, not_false_eq_true, true_and]

/-- It is compiled at all when every word means something. -/
theorem compiles_iff {text : Bytes} : (∃ pattern, bytecodePatternCompile text = .ok pattern) ↔
    patternWords text ≠ [] ∧ ∀ word ∈ patternWords text, ∃ position, WordMeans word position := by
  simp only [compile_iff, exists_and_left]
  refine and_congr_right fun _ => ?_
  generalize patternWords text = words
  induction words with
  | nil => simp
  | cons word rest ih =>
    rw [List.forall_mem_cons, ← ih]
    constructor
    · rintro ⟨pattern, h⟩
      cases h with
      | cons hposition hpositions => exact ⟨⟨_, hposition⟩, _, hpositions⟩
    · rintro ⟨⟨position, hposition⟩, positions, hpositions⟩
      exact ⟨position :: positions, .cons hposition hpositions⟩

/-! ## The search -/

/-- The pattern occurs at the offset, and nowhere before. -/
def FirstAt (pattern : BytecodePattern) (code : Bytes) (offset : Nat) : Prop :=
  OccursAt pattern code offset ∧ ∀ before < offset, ¬OccursAt pattern code before

/-- The pattern does not occur in the code, if there is any. -/
def Lacks (pattern : BytecodePattern) (code : Option Bytes) :
    Prop := ∀ bytes ∈ code, ∀ offset, ¬OccursAt pattern bytes offset

section Search

variable {pattern : BytecodePattern}

theorem firstAt_of_find {code : Bytes} {offset : Nat} (h : bytecodePatternFind pattern code = some offset) :
    FirstAt pattern code offset := by
  refine ⟨occursAt_of_find h, fun before hbefore hoccurs => ?_⟩
  unfold bytecodePatternFind at h
  split at h
  · cases h
  · obtain ⟨-, -, hnone⟩ := List.find?_range_eq_some.mp h
    have := hnone before hbefore
    rw [(patternMatches_drop pattern code before).mpr hoccurs] at this
    cases this

variable (hne : pattern ≠ [])

include hne

/-- The loop of `bytecode_pattern_find` answers the smallest offset at which every byte agrees. -/
theorem find_iff {code : Bytes} {offset : Nat} :
    bytecodePatternFind pattern code = some offset ↔ FirstAt pattern code offset := by
  refine ⟨firstAt_of_find, fun h => ?_⟩
  obtain ⟨found, hfound⟩ := Option.isSome_iff_exists.mp (find_of_occursAt hne h.1)
  have hfirst := firstAt_of_find hfound
  have hle : ¬found < offset := fun hlt => h.2 found hlt hfirst.1
  have hge : ¬offset < found := fun hlt => hfirst.2 offset hlt h.1
  obtain rfl : found = offset := by omega
  exact hfound

theorem find_eq_none_iff {code : Bytes} : bytecodePatternFind pattern code = none ↔ Lacks pattern (some code) := by
  constructor
  · intro h bytes hbytes offset hoccurs
    cases hbytes
    have := find_of_occursAt hne hoccurs
    rw [h] at this
    cases this
  · intro h
    cases hfind : bytecodePatternFind pattern code with
    | none => rfl
    | some offset => exact absurd (occursAt_of_find hfind) (h code rfl offset)

/-- One round of the loop over the methods of a class file. -/
theorem findInMethods_cons {cf : ClassFile} (m : MemberInfo) (rest : List MemberInfo) (start : Nat) :
    (∃ code offset, completeCode cf m = some code ∧ FirstAt pattern code offset ∧
      findInMethods pattern cf (m :: rest) start = some (start, offset)) ∨
    (Lacks pattern (completeCode cf m) ∧
      findInMethods pattern cf (m :: rest) start = findInMethods pattern cf rest (start + 1)) := by
  cases hcode : completeCode cf m with
  | none =>
    refine .inr ⟨fun bytes hbytes => absurd hbytes (by simp), ?_⟩
    simp only [findInMethods, hcode]
  | some code =>
    cases hfind : bytecodePatternFind pattern code with
    | none =>
      refine .inr ⟨(find_eq_none_iff hne).mp hfind, ?_⟩
      simp only [findInMethods, hcode, hfind]
    | some offset =>
      refine .inl ⟨code, offset, rfl, firstAt_of_find hfind, ?_⟩
      simp only [findInMethods, hcode, hfind]

theorem findInMethods_iff {cf : ClassFile} : ∀ {methods : List MemberInfo} {start index offset : Nat},
    findInMethods pattern cf methods start = some (index, offset) ↔ ∃ k m code, index = start + k ∧
      methods[k]? = some m ∧ completeCode cf m = some code ∧ FirstAt pattern code offset ∧
      ∀ j < k, ∀ m', methods[j]? = some m' → Lacks pattern (completeCode cf m')
  | [], start, index, offset => by simp [findInMethods]
  | m :: rest, start, index, offset => by
    rcases @findInMethods_cons _ hne cf m rest start with ⟨code, first, hcode, hfirst, heq⟩ | ⟨hlacks, heq⟩
    · rw [heq, Option.some.injEq, Prod.mk.injEq]
      constructor
      · rintro ⟨rfl, rfl⟩
        exact ⟨0, m, code, rfl, rfl, hcode, hfirst, fun j hj => absurd hj (Nat.not_lt_zero j)⟩
      · rintro ⟨k, m', code', rfl, hm', hcode', hfirst', hbefore⟩
        cases k with
        | zero =>
          cases hm'
          rw [hcode] at hcode'
          cases hcode'
          refine ⟨rfl, ?_⟩
          have h₁ : ¬first < offset := fun hlt => hfirst'.2 first hlt hfirst.1
          have h₂ : ¬offset < first := fun hlt => hfirst.2 offset hlt hfirst'.1
          omega
        | succ k =>
          -- the first method has an occurrence, so no later one is answered
          exact absurd hfirst.1 (hbefore 0 (Nat.succ_pos k) m rfl code hcode first)
    · rw [heq, findInMethods_iff]
      constructor
      · rintro ⟨k, m', code', rfl, hm', hcode', hfirst', hbefore⟩
        refine ⟨k + 1, m', code', by omega, hm', hcode', hfirst', fun j hj m'' hm'' => ?_⟩
        cases j with
        | zero =>
          cases hm''
          exact hlacks
        | succ j => exact hbefore j (by omega) m'' hm''
      · rintro ⟨k, m', code', rfl, hm', hcode', hfirst', hbefore⟩
        cases k with
        | zero =>
          cases hm'
          exact absurd hfirst'.1 (hlacks code' hcode' offset)
        | succ k =>
          exact ⟨k, m', code', by omega, hm', hcode', hfirst', fun j hj m'' hm'' => hbefore (j + 1) (by omega) m'' hm''⟩

/-- The search answers when some method has an occurrence. -/
theorem findInMethods_isSome_iff {cf : ClassFile} : ∀ {methods : List MemberInfo} {start : Nat},
    (findInMethods pattern cf methods start).isSome ↔ ∃ m ∈ methods, ∃ code, completeCode cf m = some code ∧
      ∃ offset, OccursAt pattern code offset
  | [], start => by simp [findInMethods]
  | m :: rest, start => by
    rcases @findInMethods_cons _ hne cf m rest start with ⟨code, first, hcode, hfirst, heq⟩ | ⟨hlacks, heq⟩
    · rw [heq]
      exact ⟨fun _ => ⟨m, List.mem_cons_self, code, hcode, first, hfirst.1⟩, fun _ => rfl⟩
    · rw [heq, findInMethods_isSome_iff]
      constructor
      · rintro ⟨m', hm', h⟩
        exact ⟨m', List.mem_cons_of_mem m hm', h⟩
      · rintro ⟨m', hm', code, hcode, offset, hoccurs⟩
        rcases List.mem_cons.mp hm' with rfl | hm'
        · exact absurd hoccurs (hlacks code hcode offset)
        · exact ⟨m', hm', code, hcode, offset, hoccurs⟩

theorem find_nil : bytecodePatternFind pattern [] = none := by
  rw [bytecodePatternFind, List.length_nil, if_pos (List.length_pos_iff.mpr hne)]

/-- One round of the loop over the methods of a prepared class; a method without code answers as an empty array does. -/
theorem scanPreparedClass_cons (p : PreparedMethod) (rest : List PreparedMethod) :
    scanPreparedClass pattern (p :: rest) = match bytecodePatternFind pattern (p.bytecodes.getD []) with
      | some offset => some (p.id, offset)
      | none => scanPreparedClass pattern rest := by
  have hempty := find_nil hne
  cases hcode : p.bytecodes with
  | none =>
    rw [Option.getD_none, hempty]
    simp only [scanPreparedClass, hcode]
  | some code =>
    rw [Option.getD_some]
    cases code with
    | nil =>
      rw [hempty]
      simp only [scanPreparedClass, hcode, List.isEmpty_nil, if_true]
    | cons b bs =>
      simp only [scanPreparedClass, hcode, List.isEmpty_cons, Bool.false_eq_true, if_false]
      cases bytecodePatternFind pattern (b :: bs) <;> rfl

/-- The two searches go through the same code arrays. -/
theorem scanPreparedClass_eq {cf : ClassFile} :
    ∀ {methods : List MemberInfo} {prepared : List PreparedMethod} (start : Nat),
    List.Forall₂ (fun m p => p.bytecodes.getD [] = (completeCode cf m).getD []) methods prepared →
    scanPreparedClass pattern prepared = (findInMethods pattern cf methods start).bind fun found =>
      prepared[found.1 - start]?.map fun p => (p.id, found.2)
  | _, _, start, .nil => rfl
  | _, _, start, @List.Forall₂.cons _ _ _ m p rest others hcode hrest => by
    have ih := scanPreparedClass_eq (start + 1) hrest
    rw [scanPreparedClass_cons hne, hcode]
    rcases @findInMethods_cons _ hne cf m rest start with ⟨code, first, hfound, hfirst, heq⟩ | ⟨hlacks, heq⟩
    · rw [heq, hfound, Option.getD_some, (find_iff hne).mpr hfirst]
      simp
    · have hnone : bytecodePatternFind pattern ((completeCode cf m).getD []) = none := by
        refine (find_eq_none_iff hne).mpr fun bytes hbytes offset hoccurs => ?_
        cases hbytes
        cases hcode' : completeCode cf m with
        | none =>
          rw [hcode', Option.getD_none] at hoccurs
          have := find_of_occursAt hne hoccurs
          rw [find_nil hne] at this
          cases this
        | some code =>
          rw [hcode', Option.getD_some] at hoccurs
          exact hlacks code hcode' offset hoccurs
      rw [hnone, heq]
      dsimp only
      rw [ih]
      cases hfind : findInMethods pattern cf rest (start + 1) with
      | none => rfl
      | some found =>
        obtain ⟨index, offset⟩ := found
        obtain ⟨k, rfl, -⟩ := method_of_findInMethods hfind
        simp only [Option.bind_some]
        rw [show start + 1 + k - start = k + 1 by omega, show start + 1 + k - (start + 1) = k by omega,
          List.getElem?_cons_succ]

end Search

/-- The VM lists the methods of a class file in its order, and shows their code arrays; a method without one has nothing
to show. -/
def ListsMethods (cf : ClassFile) (prepared : List PreparedMethod) : Prop :=
  List.Forall₂ (fun m p => p.bytecodes.getD [] = (completeCode cf m).getD []) cf.methods prepared

/-- **Compiling and searching do what they are specified to do.** For every text: the two passes agree, the text is
accepted exactly when it has a word and every word is `?`, `??` or two hexadecimal digits, and then the pattern has one
position for each word with what that word means. For every pattern that was compiled and every class file: there is an
answer exactly when the pattern occurs in some complete code array, the answer is the first method with an occurrence
and the smallest offset in it, and a scan of the prepared class answers the same. -/
theorem pattern_search_correct (source : Bytes) :
    compileLoops source = some (bytecodePatternCompile source) ∧
    ((∃ pattern, bytecodePatternCompile source = .ok pattern) ↔
      patternWords source ≠ [] ∧ ∀ word ∈ patternWords source, ∃ position, WordMeans word position) ∧
    ∀ pattern, bytecodePatternCompile source = .ok pattern → List.Forall₂ WordMeans (patternWords source) pattern ∧
      ∀ cf : ClassFile, ((bytecodePatternFindInClassFile pattern cf).isSome ↔ ∃ m ∈ cf.methods, ∃ code,
          completeCode cf m = some code ∧ ∃ offset, OccursAt pattern code offset) ∧
        (∀ index offset, bytecodePatternFindInClassFile pattern cf = some (index, offset) ↔ ∃ m code,
          cf.methods[index]? = some m ∧ completeCode cf m = some code ∧ FirstAt pattern code offset ∧
          ∀ j < index, ∀ m', cf.methods[j]? = some m' → Lacks pattern (completeCode cf m')) ∧
        ∀ prepared, ListsMethods cf prepared → scanPreparedClass pattern prepared =
          (bytecodePatternFindInClassFile pattern cf).bind fun found =>
            prepared[found.1]?.map fun p => (p.id, found.2) := by
  refine ⟨compileLoops_eq source, compiles_iff, fun pattern hpattern => ?_⟩
  have hne := compiled_ne_nil hpattern
  refine ⟨(compile_iff.mp hpattern).2, fun cf => ⟨findInMethods_isSome_iff hne, fun index offset => ?_,
    fun prepared hlists => scanPreparedClass_eq hne 0 hlists⟩⟩
  unfold bytecodePatternFindInClassFile
  rw [findInMethods_iff hne]
  constructor
  · rintro ⟨k, m, code, rfl, h⟩
    rw [Nat.zero_add]
    exact ⟨m, code, h⟩
  · rintro ⟨m, code, h⟩
    exact ⟨index, m, code, by omega, h⟩

/-- A class whose only method is `sipush 177; return`. -/
def sipushClass : ClassFile where
  minorVersion := 0
  majorVersion := 52
  constantPool := ⟨[.utf8 (text "A"), .classInfo 1, .utf8 (text "java/lang/Object"), .classInfo 3, .utf8 (text "m"),
    .utf8 (text "()V"), .utf8 (text "Code")]⟩
  accessFlags := 0x21
  thisClass := 2
  superClass := 4
  interfaces := []
  fields := []
  methods := [⟨0x9, 5, 6, [attributeInfoOf 7 [0, 1, 0, 0, 0, 0, 0, 4, 0x11, 0, 0xB1, 0xB1, 0, 0, 0, 0]]⟩]
  attributes := []

theorem pattern_search_correct_sipush : ∃ pattern, bytecodePatternCompile (text "11 ?? B1") = .ok pattern ∧
    bytecodePatternFindInClassFile pattern sipushClass = some (0, 0) ∧
    scanPreparedClass pattern [⟨5, some [0x11, 0, 0xB1, 0xB1]⟩] = some (5, 0) := by
  obtain ⟨-, -, hall⟩ := pattern_search_correct (text "11 ?? B1")
  have hcompile : bytecodePatternCompile (text "11 ?? B1") =
    .ok [⟨0x11, 0xFF⟩, ⟨0, 0⟩, ⟨0xB1, 0xFF⟩] := by decide +kernel
  have hfind : bytecodePatternFindInClassFile [⟨0x11, 0xFF⟩, ⟨0, 0⟩, ⟨0xB1, 0xFF⟩] sipushClass = some (0, 0) := by
    decide +kernel
  obtain ⟨-, hsearch⟩ := hall _ hcompile
  obtain ⟨-, -, hscan⟩ := hsearch sipushClass
  refine ⟨_, hcompile, hfind, ?_⟩
  rw [hscan _ (.cons (by decide +kernel) .nil), hfind]
  rfl

/-! ## Matches and instructions -/

/-- The offset is that of an instruction of the method of that index. -/
def AtInstruction (cf : ClassFile) (index offset : Nat) : Prop := ∃ m code list node, cf.methods[index]? = some m ∧
  completeCode cf m = some code ∧ instructionListParse code = .ok list ∧ node ∈ list.items ∧ node.offset = offset

/-- No occurrence comes before the occurrences at instructions. -/
def LeadsAtInstruction (pattern : BytecodePattern) (code : Bytes) (list : InstructionList) : Prop :=
  ∀ offset, OccursAt pattern code offset → ∃ node ∈ list.items, node.offset ≤ offset ∧ OccursAt pattern code node.offset

/-- This is so in the first method in which the pattern occurs. -/
def FirstMethodLeads (pattern : BytecodePattern) (cf : ClassFile) : Prop :=
  ∀ (index : Nat) (m : MemberInfo) (code : Bytes) (list : InstructionList), cf.methods[index]? = some m →
    completeCode cf m = some code → instructionListParse code = .ok list →
    (∀ j < index, ∀ m', cf.methods[j]? = some m' → Lacks pattern (completeCode cf m')) →
    LeadsAtInstruction pattern code list

theorem found_at_instruction_iff {pattern : BytecodePattern} (hne : pattern ≠ []) {cf : ClassFile}
    (hbodies : ∀ m ∈ cf.methods, ∀ code, completeCode cf m = some code → ∃ list, instructionListParse code = .ok list) :
    (∀ index offset, bytecodePatternFindInClassFile pattern cf = some (index, offset) → AtInstruction cf index offset) ↔
      FirstMethodLeads pattern cf := by
  constructor
  · intro h index m code list hm hcode hlist hbefore offset hoccurs
    obtain ⟨first, hfind⟩ := Option.isSome_iff_exists.mp (find_of_occursAt hne hoccurs)
    have hfirst := firstAt_of_find hfind
    have hfound : bytecodePatternFindInClassFile pattern cf = some (index, first) :=
      (findInMethods_iff hne).mpr ⟨index, m, code, by omega, hm, hcode, hfirst, hbefore⟩
    obtain ⟨m', code', list', node, hm', hcode', hlist', hnode, rfl⟩ := h index first hfound
    rw [hm] at hm'
    cases hm'
    rw [hcode] at hcode'
    cases hcode'
    rw [hlist] at hlist'
    cases hlist'
    exact ⟨node, hnode, Nat.not_lt.mp fun hlt => hfirst.2 offset hlt hoccurs, hfirst.1⟩
  · intro h index offset hfound
    obtain ⟨k, m, code, hk, hm, hcode, hfirst, hbefore⟩ := (findInMethods_iff hne).mp hfound
    obtain rfl : index = k := by omega
    obtain ⟨list, hlist⟩ := hbodies m (List.mem_of_getElem? hm) code hcode
    obtain ⟨node, hnode, hle, hoccurs⟩ := h index m code list hm hcode hlist hbefore offset hfirst.1
    refine ⟨m, code, list, node, hm, hcode, hlist, hnode, ?_⟩
    have : ¬node.offset < offset := fun hlt => hfirst.2 node.offset hlt hoccurs
    omega

/-- The scan of a prepared class answers at an instruction when the search in the class file does. -/
theorem scanned_at_instruction_iff {pattern : BytecodePattern} (hne : pattern ≠ []) {cf : ClassFile}
    {prepared : List PreparedMethod} (hlists : ListsMethods cf prepared) (hids : (prepared.map (·.id)).Nodup) :
    (∀ id offset, scanPreparedClass pattern prepared = some (id, offset) → ∃ index p, prepared[index]? = some p ∧
      p.id = id ∧ AtInstruction cf index offset) ↔
    ∀ index offset, bytecodePatternFindInClassFile pattern cf = some (index, offset) →
      AtInstruction cf index offset := by
  have hscan := scanPreparedClass_eq hne 0 hlists
  have hlength := List.Forall₂.length_eq hlists
  constructor
  · intro h index offset hfound
    have hbelow : index < prepared.length := by
      obtain ⟨k, m, code, hk, hm, -⟩ := (findInMethods_iff hne).mp hfound
      have := (List.getElem?_eq_some_iff.mp hm).1
      omega
    have hanswer : scanPreparedClass pattern prepared = some (prepared[index].id, offset) := by
      rw [hscan, show findInMethods pattern cf cf.methods 0 = some (index, offset) from hfound]
      simp [List.getElem?_eq_getElem hbelow]
    obtain ⟨index', p, hp, hid, hat⟩ := h _ _ hanswer
    obtain ⟨hbelow', rfl⟩ := List.getElem?_eq_some_iff.mp hp
    -- the VM gives every method an id of its own
    have hsame : index' = index := by
      refine (@List.Nodup.getElem_inj_iff _ _ hids _ (by simpa using hbelow') _ (by simpa using hbelow)).mp ?_
      simpa using hid
    rw [hsame] at hat
    exact hat
  · intro h id offset hanswer
    rw [hscan] at hanswer
    obtain ⟨⟨index, found⟩, hfound, hmap⟩ := Option.bind_eq_some_iff.mp hanswer
    obtain ⟨p, hp, heq⟩ := Option.map_eq_some_iff.mp hmap
    cases heq
    exact ⟨index, p, hp, rfl, h index _ hfound⟩

/-- **When a match can be hooked where it was found.** For every compiled pattern and every class file whose bodies are
decoded, and for a prepared class that shows its methods: what is answered is the offset of an instruction if and only
if, in the first method in which the pattern occurs, no occurrence comes before the occurrences at instructions. -/
theorem match_at_instruction_iff {source : Bytes} {pattern : BytecodePattern}
    (hpattern : bytecodePatternCompile source = .ok pattern) {cf : ClassFile}
    (hbodies : ∀ m ∈ cf.methods, ∀ code, completeCode cf m = some code → ∃ list, instructionListParse code = .ok list) :
    ((∀ index offset, bytecodePatternFindInClassFile pattern cf = some (index, offset) →
      AtInstruction cf index offset) ↔ FirstMethodLeads pattern cf) ∧
    ∀ prepared, ListsMethods cf prepared → (prepared.map (·.id)).Nodup →
      ((∀ id offset, scanPreparedClass pattern prepared = some (id, offset) → ∃ index p, prepared[index]? = some p ∧
        p.id = id ∧ AtInstruction cf index offset) ↔ FirstMethodLeads pattern cf) := by
  have hne := compiled_ne_nil hpattern
  have hfile := found_at_instruction_iff hne hbodies
  exact ⟨hfile, fun prepared hlists hids => (scanned_at_instruction_iff hne hlists hids).trans hfile⟩

theorem sipush_bodies : ∀ m ∈ sipushClass.methods, ∀ code, completeCode sipushClass m = some code →
    ∃ list, instructionListParse code = .ok list := by
  have hcode : sipushClass.methods.map (completeCode sipushClass) = [some [0x11, 0, 0xB1, 0xB1]] := by decide +kernel
  have hparse : instructionListParse [0x11, 0, 0xB1, 0xB1] =
      .ok ⟨[⟨0, Opc.sipush, false, .immediate 177⟩, ⟨3, Opc.return_, false, .none⟩], 4⟩ := by decide +kernel
  intro m hm code hfound
  have hmem : completeCode sipushClass m ∈ sipushClass.methods.map (completeCode sipushClass) := List.mem_map_of_mem hm
  rw [hcode, List.mem_singleton, hfound] at hmem
  cases hmem
  exact ⟨_, hparse⟩

theorem match_at_instruction_sipush : ∃ pattern, bytecodePatternCompile (text "11 ?? B1") = .ok pattern ∧
    FirstMethodLeads pattern sipushClass := by
  have hcompile : bytecodePatternCompile (text "11 ?? B1") =
    .ok [⟨0x11, 0xFF⟩, ⟨0, 0⟩, ⟨0xB1, 0xFF⟩] := by decide +kernel
  have hfind : bytecodePatternFindInClassFile [⟨0x11, 0xFF⟩, ⟨0, 0⟩, ⟨0xB1, 0xFF⟩] sipushClass = some (0, 0) := by
    decide +kernel
  refine ⟨_, hcompile, (match_at_instruction_iff hcompile sipush_bodies).1.mp fun index offset hfound => ?_⟩
  rw [hfind] at hfound
  cases hfound
  refine ⟨⟨0x9, 5, 6, [attributeInfoOf 7 [0, 1, 0, 0, 0, 0, 0, 4, 0x11, 0, 0xB1, 0xB1, 0, 0, 0, 0]]⟩,
    [0x11, 0, 0xB1, 0xB1], ⟨[⟨0, Opc.sipush, false, .immediate 177⟩, ⟨3, Opc.return_, false, .none⟩], 4⟩,
    ⟨0, Opc.sipush, false, .immediate 177⟩,
    rfl, by decide +kernel, by decide +kernel, List.mem_cons_self, rfl⟩

/-- The pattern of `return` is found in the operand of `sipush`. -/
theorem match_inside_operand : ∃ pattern, bytecodePatternCompile (text "B1") = .ok pattern ∧
    bytecodePatternFindInClassFile pattern sipushClass = some (0, 2) ∧ ¬AtInstruction sipushClass 0 2 := by
  refine ⟨[⟨0xB1, 0xFF⟩], by decide +kernel, by decide +kernel, ?_⟩
  rintro ⟨m, code, list, node, hm, hcode, hlist, hnode, hoffset⟩
  have hfound : (sipushClass.methods[0]?).bind (completeCode sipushClass) =
    some [0x11, 0, 0xB1, 0xB1] := by decide +kernel
  rw [hm, Option.bind_some, hcode] at hfound
  cases hfound
  have hparse : instructionListParse [0x11, 0, 0xB1, 0xB1] =
      .ok ⟨[⟨0, Opc.sipush, false, .immediate 177⟩, ⟨3, Opc.return_, false, .none⟩], 4⟩ := by decide +kernel
  rw [hparse] at hlist
  cases hlist
  simp only [List.mem_cons, List.not_mem_nil, or_false] at hnode
  rcases hnode with rfl | rfl <;> cases hoffset

end Jni2Hook
