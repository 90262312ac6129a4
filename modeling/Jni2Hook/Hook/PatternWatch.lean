import Jni2Hook.Hook.WatchStates
import Mathlib.Data.List.Induction

/-!
# Pattern watches

- `OccursAt`: a pattern in a code array, and that the searches of `bytecode_scan.c` find what occurs and nothing else;
- a watch that was captured is resolved by name alone. A ready pattern watch holds a method with the pattern at its
offset in every run where the class that is prepared is the one that was captured (`ready_watch_matches`);
- a class with the pattern makes a watch ready exactly when the watch is not captured for another class and has not
  failed (`matching_class_ready_iff`).
-/

namespace Jni2Hook

open Lib

/-! ## Occurrences -/

/-- The pattern occurs in the code at the offset. -/
def OccursAt (pattern : BytecodePattern) (code : Bytes) (offset : Nat) : Prop :=
  ∀ i p, pattern[i]? = some p → ∃ b, code[offset + i]? = some b ∧ (p.mask = 0 ∨ b = p.byte)

theorem patternMatches_iff : ∀ (pattern : BytecodePattern) (bytes : Bytes),
    patternMatches pattern bytes = true ↔ OccursAt pattern bytes 0
  | [], _ => by simp [patternMatches, OccursAt]
  | p :: ps, [] => by
    refine ⟨fun h => by simp [patternMatches] at h, fun h => ?_⟩
    obtain ⟨b, hb, -⟩ := h 0 p rfl
    simp at hb
  | p :: ps, b :: bs => by
    have ih := patternMatches_iff ps bs
    simp only [patternMatches, Bool.and_eq_true, Bool.or_eq_true, beq_iff_eq, ih]
    constructor
    · rintro ⟨hb, hrest⟩ i q hq
      cases i with
      | zero =>
        cases hq
        exact ⟨b, rfl, hb⟩
      | succ i =>
        obtain ⟨c, hc, hmatch⟩ := hrest i q hq
        exact ⟨c, by simpa using hc, hmatch⟩
    · intro h
      constructor
      · obtain ⟨c, hc, hmatch⟩ := h 0 p rfl
        cases hc
        exact hmatch
      · intro i q hq
        obtain ⟨c, hc, hmatch⟩ := h (i + 1) q hq
        exact ⟨c, by simpa using hc, hmatch⟩

theorem patternMatches_drop (pattern : BytecodePattern) (code : Bytes) (offset : Nat) :
    patternMatches pattern (code.drop offset) = true ↔ OccursAt pattern code offset := by
  rw [patternMatches_iff]
  simp only [OccursAt, List.getElem?_drop, Nat.zero_add]

/-- What is found occurs. -/
theorem occursAt_of_find {pattern : BytecodePattern} {code : Bytes} {offset : Nat}
    (h : bytecodePatternFind pattern code = some offset) : OccursAt pattern code offset := by
  unfold bytecodePatternFind at h
  split at h
  · cases h
  · have hmatch := List.find?_some h
    exact (patternMatches_drop pattern code offset).mp hmatch

/-- What occurs is found. -/
theorem find_of_occursAt {pattern : BytecodePattern} {code : Bytes} {offset : Nat} (hne : pattern ≠ [])
    (h : OccursAt pattern code offset) : (bytecodePatternFind pattern code).isSome := by
  have hpos := List.length_pos_iff.mpr hne
  obtain ⟨last, hlast⟩ : ∃ p, pattern[pattern.length - 1]? = some p :=
    ⟨_, List.getElem?_eq_getElem (by omega)⟩
  obtain ⟨b, hb, -⟩ := h _ _ hlast
  obtain ⟨hbound, -⟩ := List.getElem?_eq_some_iff.mp hb
  rw [bytecodePatternFind, if_neg (by omega), List.find?_isSome]
  exact ⟨offset, List.mem_range.mpr (by omega), (patternMatches_drop _ _ _).mpr h⟩

/-- One of the methods has this id, and the pattern occurs in its code at the offset. -/
def HasPattern (pattern : BytecodePattern) (methods : List PreparedMethod) (method : JMethodId) (offset : Nat) : Prop :=
  ∃ m ∈ methods, m.id = method ∧ ∃ code, m.bytecodes = some code ∧ OccursAt pattern code offset

theorem hasPattern_of_scan {pattern : BytecodePattern} {method : JMethodId} {offset : Nat} :
    ∀ {methods : List PreparedMethod}, scanPreparedClass pattern methods = some (method, offset) →
      HasPattern pattern methods method offset
  | m :: rest, h => by
    have later (hrest : scanPreparedClass pattern rest = some (method, offset)) :
        HasPattern pattern (m :: rest) method offset := by
      obtain ⟨m', hm', hp⟩ := hasPattern_of_scan hrest
      exact ⟨m', List.mem_cons_of_mem m hm', hp⟩
    simp only [scanPreparedClass] at h
    split at h
    · exact later h
    · rename_i code hcode
      split at h
      · exact later h
      · split at h
        · exact later h
        · rename_i found hfound
          cases h
          exact ⟨m, List.mem_cons_self, rfl, code, hcode, occursAt_of_find hfound⟩

/-- A pattern that occurs in some method is found in the class. -/
theorem scan_of_occursAt {pattern : BytecodePattern} {code : Bytes} {offset : Nat} (hne : pattern ≠ [])
    (h : OccursAt pattern code offset) : ∀ {methods : List PreparedMethod} {m : PreparedMethod}, m ∈ methods →
      m.bytecodes = some code → (scanPreparedClass pattern methods).isSome
  | m' :: rest, m, hm, hcode => by
    obtain ⟨found, hfound⟩ := Option.isSome_iff_exists.mp (find_of_occursAt hne h)
    have hempty : code.isEmpty = false := by
      cases code with
      | nil => simp [bytecodePatternFind, List.length_pos_iff.mpr hne] at hfound
      | cons b bs => rfl
    rcases List.mem_cons.mp hm with rfl | hm
    · simp [scanPreparedClass, hcode, hempty, hfound]
    · have hrest := scan_of_occursAt hne h hm hcode
      simp only [scanPreparedClass]
      split
      · exact hrest
      · split
        · exact hrest
        · split
          · exact hrest
          · rfl

theorem hasPattern_of_scanLoaded {pattern : BytecodePattern} {method : JMethodId} {offset : Nat} :
    ∀ {classes : List (Option (List PreparedMethod))}, scanLoadedClasses pattern classes = some (method, offset) →
      ∃ methods, some methods ∈ classes ∧ HasPattern pattern methods method offset
  | none :: rest, h => by
    obtain ⟨methods, hmem, hp⟩ := @hasPattern_of_scanLoaded pattern method offset rest h
    exact ⟨methods, List.mem_cons_of_mem _ hmem, hp⟩
  | some methods :: rest, h => by
    simp only [scanLoadedClasses] at h
    split at h
    · rename_i found hfound
      cases h
      exact ⟨methods, List.mem_cons_self, hasPattern_of_scan hfound⟩
    · obtain ⟨methods', hmem, hp⟩ := hasPattern_of_scanLoaded h
      exact ⟨methods', List.mem_cons_of_mem _ hmem, hp⟩

/-- A method that was found in a class file: it is the one of that index, and the pattern occurs in its code. -/
theorem method_of_findInMethods {pattern : BytecodePattern} {cf : ClassFile} :
    ∀ {methods : List MemberInfo} {start index offset : Nat},
      findInMethods pattern cf methods start = some (index, offset) →
      ∃ k, index = start + k ∧ ∃ m, methods[k]? = some m ∧ ∃ code, completeCode cf m = some code ∧
        OccursAt pattern code offset
  | m :: rest, start, index, offset, h => by
    have later (hrest : findInMethods pattern cf rest (start + 1) = some (index, offset)) :
        ∃ k, index = start + k ∧ ∃ m', (m :: rest)[k]? = some m' ∧ ∃ code, completeCode cf m' = some code ∧
          OccursAt pattern code offset := by
      obtain ⟨k, hk, hm⟩ := method_of_findInMethods hrest
      exact ⟨k + 1, by omega, by simpa using hm⟩
    simp only [findInMethods] at h
    split at h
    · exact later h
    · rename_i code hcode
      split at h
      · exact later h
      · rename_i found hfound
        cases h
        exact ⟨0, rfl, m, rfl, code, hcode, occursAt_of_find hfound⟩

/-- A pattern that was compiled has at least one position. -/
theorem compiled_ne_nil {text : Bytes} {pattern : BytecodePattern} (h : bytecodePatternCompile text = .ok pattern) :
    pattern ≠ [] := by
  unfold bytecodePatternCompile at h
  split at h
  · cases h
  · rename_i hne
    cases ht : patternTokens text [] with
    | nil => exact absurd ht hne
    | cons token rest =>
      rw [ht] at h
      obtain ⟨position, -, h₁⟩ := bind_ok h
      obtain ⟨positions, -, h₂⟩ := bind_ok h₁
      cases h₂
      simp

/-! ## What a watch was captured from -/

/-- The watch was captured when the class with these bytes was loaded. -/
def CapturedBy (past : List WatchEvent) (id : WatchId) (classData : Bytes) : Prop :=
  ∃ before loader faults after, past = before ++ .load loader classData faults :: after ∧
    (∃ w ∈ (runEvents watchStep {} before).watches, w.id = id ∧ w.state = .waiting) ∧
    ∃ w ∈ (runEvents watchStep {} (before ++ [.load loader classData faults])).watches,
      w.id = id ∧ w.state = .captured

theorem CapturedBy.later {past : List WatchEvent} {id : WatchId} {classData : Bytes} (h : CapturedBy past id classData)
    (e : WatchEvent) : CapturedBy (past ++ [e]) id classData := by
  obtain ⟨before, loader, faults, after, rfl, hbefore, hafter⟩ := h
  exact ⟨before, loader, faults, after ++ [e], by simp, hbefore, hafter⟩

/-- The class that the VM shows is the one that these bytes define: a method of the class file is looked up under its
name and descriptor, and its bytecode is its code array. -/
def DefinedBy (classData : Bytes) (prepared : PreparedClass) : Prop :=
  ∀ cf, classfileParse classData = .ok cf → ∀ m ∈ cf.methods, ∀ code name signature method,
    completeCode cf m = some code → duplicateUtf8 cf.constantPool m.nameIndex = some name →
    duplicateUtf8 cf.constantPool m.descriptorIndex = some signature →
    prepared.getMethodId (memberInfoIsStatic m) name signature = some method →
    ∃ p ∈ prepared.methods, p.id = method ∧ p.bytecodes = some code

/-- Whenever a class is prepared under the name and in the loader for which a pattern watch is captured, it is the class
whose bytes the watch was captured from. -/
def PreparedAsCaptured (events : List WatchEvent) : Prop :=
  ∀ past klass prepared faults future, events = past ++ .prepare klass prepared faults :: future →
    ∀ w ∈ (runEvents watchStep {} past).watches, w.byName = false → w.state = .captured →
      w.className = some prepared.internalName → loaderMatches w prepared = true →
      ∀ classData, CapturedBy past w.id classData → DefinedBy classData prepared

theorem PreparedAsCaptured.init {past : List WatchEvent} {e : WatchEvent} (h : PreparedAsCaptured (past ++ [e])) :
    PreparedAsCaptured past := by
  intro before klass prepared faults after hpast
  exact h before klass prepared faults (after ++ [e]) (by rw [hpast]; simp)

/-- The method that a ready watch reports was shown by the VM with the pattern at its offset: in the class whose
preparation made the watch ready, or in a class that was loaded before. -/
def Reported (events : List WatchEvent) (w : MethodWatch) : Prop :=
  ∃ method, w.method = some method ∧
    ((∃ klass prepared faults, .prepare klass prepared faults ∈ events ∧ w.declaringClass = some klass ∧
      HasPattern w.pattern prepared.methods method w.offset) ∨
    ∃ scan classes methods, .scanDone scan ∈ events ∧ scan.classes = some classes ∧ some methods ∈ classes ∧
      w.declaringClass = scan.declaringClass method ∧ HasPattern w.pattern methods method w.offset)

theorem Reported.later {events : List WatchEvent} {w : MethodWatch} (h : Reported events w) (e : WatchEvent) :
    Reported (events ++ [e]) w := by
  obtain ⟨method, hm, ⟨klass, prepared, faults, hmem, hrest⟩ | ⟨scan, classes, methods, hmem, hrest⟩⟩ := h
  · exact ⟨method, hm, .inl ⟨klass, prepared, faults, List.mem_append_left _ hmem, hrest⟩⟩
  · exact ⟨method, hm, .inr ⟨scan, classes, methods, List.mem_append_left _ hmem, hrest⟩⟩

/-- What a captured watch remembers: a method of the class file with the pattern at the offset. -/
structure CaptureOf (classData : Bytes) (w : MethodWatch) : Prop where
  source : ∃ cf m code, classfileParse classData = .ok cf ∧ m ∈ cf.methods ∧ completeCode cf m = some code ∧
    OccursAt w.pattern code w.offset ∧ w.methodName = duplicateUtf8 cf.constantPool m.nameIndex ∧
    w.methodSignature = duplicateUtf8 cf.constantPool m.descriptorIndex ∧ w.methodStatic = memberInfoIsStatic m

/-- A load event that captures a watch. -/
theorem captureOf_load {cf : ClassFile} {classData : Bytes} {loader : Option JObject} {faults : LoadFaults}
    {w : MethodWatch} (hcf : classfileParse classData = .ok cf) (hw : w.state = .waiting)
    (h : (captureCandidate cf loader faults w).state = .captured) :
    CaptureOf classData (captureCandidate cf loader faults w) := by
  unfold captureCandidate at h ⊢
  split at h
  · rw [hw] at h
    cases h
  · rename_i index offset hfind
    obtain ⟨k, rfl, m, hm, code, hcode, hocc⟩ := method_of_findInMethods hfind
    rw [Nat.zero_add] at h ⊢
    rw [hm] at h ⊢
    dsimp only at h ⊢
    split at h
    · cases h
    · rename_i hnames
      rw [if_neg hnames]
      exact ⟨cf, m, code, hcf, List.mem_of_getElem? hm, hcode, hocc, rfl, rfl, rfl⟩

theorem resolveMethod_ok {prepared : PreparedClass} {faults : PrepareFaults} {w : MethodWatch} {method : JMethodId}
    (h : resolveMethod prepared faults w = some method) : ∃ name signature, w.methodName = some name ∧
      w.methodSignature = some signature ∧ prepared.getMethodId w.methodStatic name signature = some method := by
  unfold resolveMethod at h
  split at h
  · cases h
  · split at h
    · rename_i name signature hname hsignature
      exact ⟨name, signature, hname, hsignature, h⟩
    · cases h

/-- A captured watch that is resolved on the class it was captured from. -/
theorem hasPattern_of_capture {classData : Bytes} {prepared : PreparedClass} {faults : PrepareFaults} {w : MethodWatch}
    {method : JMethodId} (hc : CaptureOf classData w) (hd : DefinedBy classData prepared)
    (hr : resolveMethod prepared faults w = some method) : HasPattern w.pattern prepared.methods method w.offset := by
  obtain ⟨cf, m, code, hcf, hm, hcode, hocc, hname, hsig, hstatic⟩ := hc.source
  obtain ⟨name, signature, hname', hsig', hlookup⟩ := resolveMethod_ok hr
  rw [hstatic] at hlookup
  obtain ⟨p, hp, hid, hbytes⟩ := hd cf hcf m hm code name signature method hcode (hname.symm.trans hname')
    (hsig.symm.trans hsig') hlookup
  exact ⟨p, hp, hid, code, hbytes, hocc⟩

/-! ## A ready pattern watch -/

/-- What the pattern watches keep: the one that scans has the pattern it scans for, a captured one remembers what it was
captured from, and a ready one reports a method with the pattern. -/
structure PatternInvariant (events : List WatchEvent) (s : WatchSystem) : Prop where
  scanOld : ∀ running, s.scanning = some running → running.1 < s.next
  scan : ∀ running, s.scanning = some running → ∀ w ∈ s.watches, w.id = running.1 →
    bytecodePatternCompile running.2 = .ok w.pattern
  captured : ∀ w ∈ s.watches, w.byName = false → w.state = .captured →
    ∃ classData, CapturedBy events w.id classData ∧ CaptureOf classData w
  ready : ∀ w ∈ s.handles, w.byName = false → w.state = .ready → Reported events w

/-- A watch that a prepare event makes ready. -/
theorem reported_prepareWaiting {events : List WatchEvent} {klass : JClass} {prepared : PreparedClass}
    {faults : PrepareFaults} {w : MethodWatch} (hevent : .prepare klass prepared faults ∈ events)
    (hn : w.byName = false) (hw : w.state = .waiting)
    (h : (prepareWaiting klass prepared faults w).state = .ready) :
    Reported events (prepareWaiting klass prepared faults w) := by
  unfold prepareWaiting at h ⊢
  rw [if_neg (by simpa using hw)] at h ⊢
  cases hmatch : matchPrepared prepared faults w with
  | none =>
    rw [hmatch] at h
    simp only [hw] at h
    cases h
  | some found =>
    rw [hmatch] at h
    dsimp only at h ⊢
    split at h
    · cases h
    · rename_i href
      rw [if_neg href]
      rw [matchPrepared, hn, if_neg (by decide)] at hmatch
      split at hmatch
      · cases hmatch
      · exact ⟨found.1, rfl, .inl ⟨klass, prepared, faults, hevent, rfl, hasPattern_of_scan hmatch⟩⟩

/-- A captured watch that a prepare event makes ready is resolved by its names. -/
theorem prepareCaptured_ready {klass : JClass} {prepared : PreparedClass} {faults : PrepareFaults} {w : MethodWatch}
    (hw : w.state = .captured) (h : (prepareCaptured klass prepared faults w).state = .ready) :
    w.className = some prepared.internalName ∧ loaderMatches w prepared = true ∧
      ∃ method, resolveMethod prepared faults w = some method ∧ prepareCaptured klass prepared faults w =
        { releaseCandidate w with declaringClass := some klass, method := some method, state := .ready } := by
  unfold prepareCaptured at h ⊢
  split at h
  · rw [hw] at h
    cases h
  rename_i hname
  rw [if_neg hname]
  split at h
  · rw [hw] at h
    cases h
  rename_i hloader
  rw [if_neg hloader]
  refine ⟨Classical.not_not.mp fun hne => hname (.inr hne), by simpa using hloader, ?_⟩
  split at h
  · cases h
  · rename_i method hmethod
    split at h
    · cases h
    · rename_i href
      refine ⟨method, hmethod, ?_⟩
      simp only [if_neg href]

/-- The event behind a call; a watch is resolved from the loaded classes by the scan that found the method. -/
def Origin (s : WatchSystem) (e : WatchEvent) : WatchCall → Prop
  | .load loader classData faults => e = .load loader classData faults
  | .prepare klass prepared faults => e = .prepare klass prepared faults
  | .resolveLoaded id method offset scan => e = .scanDone scan ∧ ∃ running pattern classes,
    s.scanning = some running ∧ running.1 = id ∧ bytecodePatternCompile running.2 = .ok pattern ∧
    scan.classes = some classes ∧ scanLoadedClasses pattern classes = some (method, offset)
  | _ => True

theorem origin_of_callOf {s : WatchSystem} {e : WatchEvent} {call : WatchCall} (h : callOf s e = some call) :
    Origin s e call := by
  cases e with
  | scanDone scan =>
    rw [callOf, Option.bind_eq_some_iff] at h
    obtain ⟨running, hrunning, h⟩ := h
    unfold scanCall at h
    split at h
    · rename_i pattern classes hcompile hclasses
      obtain ⟨found, hfound, rfl⟩ := Option.map_eq_some_iff.mp h
      exact ⟨rfl, running, pattern, classes, hrunning, rfl, hcompile, hclasses, hfound⟩
    · cases h
      trivial
  | watchMethodByName | watchMethod | destroy | shutdown =>
    simp only [callOf] at h
    split at h
    · cases h
    · cases h
      trivial
  | load => cases h; rfl
  | prepare => cases h; rfl

theorem resolveLoaded_ready {scan : LoadedScan} {method : JMethodId} {offset : Nat} {w : MethodWatch}
    (hw : w.state ≠ .ready) (h : (resolveLoaded scan method offset w).state = .ready) :
    (resolveLoaded scan method offset w).method = some method ∧
      (resolveLoaded scan method offset w).offset = offset ∧
      (resolveLoaded scan method offset w).declaringClass = scan.declaringClass method := by
  unfold resolveLoaded at h ⊢
  rw [if_neg hw] at h ⊢
  split at h
  · cases h
  · rename_i declaring hd
    split at h
    · cases h
    · rename_i href
      rw [if_neg href]
      exact ⟨rfl, rfl, hd.symm⟩

/-- One event on a watch that is ready afterwards. -/
theorem reported_step {past : List WatchEvent} {e : WatchEvent} {s : WatchSystem} {call : WatchCall}
    {w w' : MethodWatch}
    (hs : s = runEvents watchStep {} past) (hI : PatternInvariant past s) (hok : PreparedAsCaptured (past ++ [e]))
    (hcall : callOf s e = some call) (hmem : w ∈ s.handles) (hc : WatchChange s call w w') (hn : w'.byName = false)
    (hready : w'.state = .ready) : Reported (past ++ [e]) w' := by
  have horigin := origin_of_callOf hcall
  have hnw : w.byName = false := hc.byName_eq ▸ hn
  have hsame := hc.pattern_eq
  have hold (h : w' = w) : Reported (past ++ [e]) w' := by
    subst h
    exact (hI.ready w' hmem hn hready).later e
  cases hc with
  | kept => exact hold rfl
  | load _ _ _ =>
    obtain h | h | h := captureCandidate_cases _ _ _ w
    · exact hold h
    · rw [h] at hready
      cases hready
    · rw [h] at hready
      cases hready
  | @prepareWaiting klass prepared faults _ hw =>
    cases horigin
    obtain h | ⟨hwait, -⟩ := prepareWaiting_cases klass prepared faults w
    · exact hold h
    · exact reported_prepareWaiting (List.mem_append_right _ List.mem_cons_self) hnw hwait hready
  | @prepare klass prepared faults _ hw =>
    cases horigin
    have hevent : (.prepare klass prepared faults : WatchEvent) ∈ past ++ [.prepare klass prepared faults] :=
      List.mem_append_right _ List.mem_cons_self
    obtain hfirst | ⟨hwait, hdecided⟩ := prepareWaiting_cases klass prepared faults w
    · rw [hfirst] at hready hold ⊢
      obtain hsecond | ⟨hcaptured, -⟩ := prepareCaptured_cases klass prepared faults w
      · exact hold hsecond
      · -- the class is the one the watch was captured from
        obtain ⟨hname, hloader, method, hmethod, heq⟩ := prepareCaptured_ready hcaptured hready
        obtain ⟨classData, hby, hof⟩ := hI.captured w hw hnw hcaptured
        subst hs
        have hdefined := hok past klass prepared faults [] rfl w hw hnw hcaptured hname hloader classData hby
        have hp := hasPattern_of_capture hof hdefined hmethod
        rw [heq]
        exact ⟨method, rfl, .inl ⟨klass, prepared, faults, hevent, rfl, hp⟩⟩
    · obtain hsecond | ⟨hcaptured, -⟩ :=
        prepareCaptured_cases klass prepared faults (prepareWaiting klass prepared faults w)
      · rw [hsecond] at hready ⊢
        exact reported_prepareWaiting hevent hnw hwait hready
      · rw [hcaptured] at hdecided
        simp at hdecided
  | @resolveLoaded method offset scan _ hw =>
    obtain ⟨rfl, running, pattern, classes, hrunning, hid, hcompile, hclasses, hfound⟩ := horigin
    by_cases hr : w.state = .ready
    · exact hold (by rw [resolveLoaded, if_pos hr])
    · obtain ⟨hm, ho, hd⟩ := resolveLoaded_ready hr hready
      have hpattern := hI.scan running hrunning w hw hid.symm
      rw [hcompile] at hpattern
      cases hpattern
      obtain ⟨methods, hmethods, hp⟩ := hasPattern_of_scanLoaded hfound
      refine ⟨method, hm, .inr ⟨scan, classes, methods, List.mem_append_right _ List.mem_cons_self, hclasses, hmethods,
        hd, ?_⟩⟩
      rw [ho, hsame]
      exact hp
  | clear => cases hready

/-- One event on a watch that is captured afterwards. -/
theorem captured_step {past : List WatchEvent} {e : WatchEvent} {s : WatchSystem} {call : WatchCall}
    {w w' : MethodWatch}
    (hs : s = runEvents watchStep {} past) (hI : PatternInvariant past s) (hcall : callOf s e = some call)
    (hmem : w ∈ s.watches) (hc : WatchChange s call w w') (hmem' : w' ∈ (watchStep s e).watches)
    (hn : w'.byName = false)
    (hcaptured : w'.state = .captured) :
    ∃ classData, CapturedBy (past ++ [e]) w'.id classData ∧ CaptureOf classData w' := by
  have horigin := origin_of_callOf hcall
  have hid := hc.id_eq
  have hold (h : w' = w) : ∃ classData, CapturedBy (past ++ [e]) w'.id classData ∧ CaptureOf classData w' := by
    subst h
    obtain ⟨classData, hby, hof⟩ := hI.captured w' hmem hn hcaptured
    exact ⟨classData, hby.later e, hof⟩
  cases hc with
  | kept => exact hold rfl
  | @load loader classData faults cf _ _ hcf hwait =>
    cases horigin
    subst hs
    refine ⟨classData, ⟨past, loader, faults, [], rfl, ⟨w, hmem, hid.symm, hwait⟩, _, ?_, rfl, hcaptured⟩,
      captureOf_load hcf hwait hcaptured⟩
    rw [runEvents_append]
    exact hmem'
  | prepareWaiting _ =>
    obtain h | ⟨-, h | h⟩ := prepareWaiting_cases _ _ _ w
    · exact hold h
    all_goals
      rw [h] at hcaptured
      cases hcaptured
  | prepare _ =>
    obtain h | ⟨-, h | h⟩ := prepareBoth_cases _ _ _ w
    · exact hold h
    all_goals
      rw [h] at hcaptured
      cases hcaptured
  | resolveLoaded _ =>
    obtain ⟨-, h⟩ | ⟨-, h, -⟩ | ⟨-, h, -⟩ := resolveLoaded_cases _ _ _ w
    · exact hold h
    all_goals
      rw [h] at hcaptured
      cases hcaptured
  | clear => cases hcaptured

/-- A scan that goes on was going on before, or belongs to a watch that was just created for its pattern. -/
theorem scanning_step {s : WatchSystem} {e : WatchEvent} {running : WatchId × Bytes}
    (h : (watchStep s e).scanning = some running) :
    s.scanning = some running ∨ running.1 = s.next ∧ ∃ compiled, bytecodePatternCompile running.2 = .ok compiled ∧
      (watchStep s e).watches = { id := s.next, pattern := compiled, registered := true } :: s.watches ∧
      (watchStep s e).next = s.next + 1 := by
  cases e with
  | watchMethod pattern faults =>
    simp only [watchStep, classWatchCreate] at h ⊢
    split at h
    · exact .inl h
    rename_i hfree
    rw [if_neg hfree]
    split at h
    · cases h
    rename_i halloc
    rw [if_neg halloc]
    split at h
    · cases h
    rename_i compiled hcompiled
    split at h
    · cases h
    rename_i hevents
    cases h
    refine .inr ⟨rfl, compiled, hcompiled, ?_⟩
    rw [if_neg hevents]
    exact ⟨rfl, rfl⟩
  | watchMethodByName =>
    simp only [watchStep, classWatchCreateNamed] at h
    split at h
    · exact .inl h
    split at h
    · exact .inl h
    split at h
    · exact .inl h
    · exact .inl h
  | scanDone scan =>
    cases hs : s.scanning with
    | none =>
      simp only [watchStep, hs] at h
      cases h
    | some going =>
      simp only [watchStep, hs, watchMethodScan_call] at h
      cases h
  | destroy | shutdown =>
    simp only [watchStep] at h
    split at h
    · exact .inl h
    · exact .inl h
  | load | prepare => exact .inl h

/-- One event keeps the invariant. -/
theorem patternInvariant_step {past : List WatchEvent} {e : WatchEvent}
    (hI : PatternInvariant past (runEvents watchStep {} past)) (hok : PreparedAsCaptured (past ++ [e])) :
    PatternInvariant (past ++ [e]) (watchStep (runEvents watchStep {} past) e) := by
  constructor
  · intro running hrunning
    obtain hgoing | ⟨hnew, -, -, -, hnext⟩ := scanning_step hrunning
    · exact Nat.lt_of_lt_of_le (hI.scanOld running hgoing) (next_step _ e)
    · rw [hnew, hnext]
      exact Nat.lt_succ_self _
  · intro running hrunning w' hw' hid
    obtain hgoing | ⟨hnew, compiled, hcompiled, hwatches, -⟩ := scanning_step hrunning
    · obtain hold | ⟨call, -, w, hw, hc⟩ | hfresh := mem_watches_step hw'
      · exact hI.scan running hgoing w' hold hid
      · rw [hc.pattern_eq]
        exact hI.scan running hgoing w hw (hc.id_eq.symm.trans hid)
      · have := hI.scanOld running hgoing
        exact absurd (hid.symm.trans hfresh.id) (Nat.ne_of_lt this)
    · rw [hwatches] at hw'
      rcases List.mem_cons.mp hw' with rfl | hold
      · exact hcompiled
      · have := (distinct_events past).below w' (List.mem_append_left _ hold)
        exact absurd (hid.trans hnew) (Nat.ne_of_lt this)
  · intro w' hw' hn hcaptured
    obtain hold | ⟨call, hcall, w, hw, hc⟩ | hfresh := mem_watches_step hw'
    · obtain ⟨classData, hby, hof⟩ := hI.captured w' hold hn hcaptured
      exact ⟨classData, hby.later e, hof⟩
    · exact captured_step rfl hI hcall hw hc hw' hn hcaptured
    · rw [hfresh.state] at hcaptured
      cases hcaptured
  · intro w' hw' hn hready
    obtain hold | ⟨call, hcall, w, hw, hc⟩ | hfresh := mem_step hw'
    · exact (hI.ready w' hold hn hready).later e
    · exact reported_step rfl hI hok hcall hw hc hn hready
    · rw [hfresh.state] at hready
      cases hready

theorem patternInvariant_run (events : List WatchEvent) (hok : PreparedAsCaptured events) :
    PatternInvariant events (runEvents watchStep {} events) := by
  induction events using List.reverseRecOn with
  | nil =>
    constructor
    · exact fun running h => by cases h
    · exact fun running h => by cases h
    · exact fun w hw => absurd hw List.not_mem_nil
    · exact fun w hw => absurd hw List.not_mem_nil
  | append_singleton past e ih =>
    rw [runEvents_append]
    exact patternInvariant_step (ih hok.init) hok

/-- **A ready pattern watch matches.** In every run where a class that is prepared for a captured watch is the one it
was captured from, a ready pattern watch holds a method that the VM showed with the pattern at exactly its offset. -/
theorem ready_watch_matches {events : List WatchEvent} (hok : PreparedAsCaptured events) :
    ∀ w ∈ (runEvents watchStep {} events).handles, w.byName = false → w.state = .ready → Reported events w :=
  (patternInvariant_run events hok).ready

/-- The class `x/Y` again, with the code `nop; return` in its method `f()V`. -/
def reloadedClassBytes : Bytes :=
  [0xCA, 0xFE, 0xBA, 0xBE, 0, 0, 0, 52, 0, 7,
    1, 0, 3] ++ text "x/Y" ++ [7, 0, 1, 1, 0, 1] ++ text "f" ++ [1, 0, 3] ++ text "()V" ++ [1, 0, 4] ++ text "Code" ++
  [7, 0, 1, 0, 33, 0, 2, 0, 0, 0, 0, 0, 0, 0, 1, 0, 1, 0, 3, 0, 4, 0, 1,
    0, 5, 0, 0, 0, 14, 0, 0, 0, 1, 0, 0, 0, 2, 0x00, 0xB1, 0, 0, 0, 0, 0, 0]

/-- The class that these bytes define. -/
def reloadedClass : PreparedClass := ⟨text "Lx/Y;", none, [⟨7, some [0x00, 0xB1]⟩], fun _ _ => some 7, fun _ _ => none⟩

/-- The class `x/Y` as its bytes define it. -/
def loadedClass : PreparedClass := ⟨text "Lx/Y;", none, [⟨7, some [0xB1]⟩], fun _ _ => some 7, fun _ _ => none⟩

/-- A watch for `b1` is registered, the loaded classes hold none, and a class `x/Y` whose code starts with `b1` is
loaded. -/
def capturedWatch : List WatchEvent :=
  [.watchMethod (text "b1") {}, .scanDone ⟨some [], fun _ => none, true⟩, .load none otherClassBytes {}]

theorem definedBy_loadedClass : DefinedBy otherClassBytes loadedClass := by
  intro cf hcf m hm code name signature method hcode _ _ hlookup
  have hmethods : ((classfileParse otherClassBytes).toOption.all fun cf => cf.methods.all fun m =>
      completeCode cf m == some [0xB1] && !memberInfoIsStatic m) = true := by decide +kernel
  rw [hcf] at hmethods
  simp only [Except.toOption, Option.all_some, List.all_eq_true, Bool.and_eq_true, beq_iff_eq,
    Bool.not_eq_true'] at hmethods
  obtain ⟨hcode', hstatic⟩ := hmethods m hm
  rw [hcode'] at hcode
  cases hcode
  rw [PreparedClass.getMethodId, hstatic] at hlookup
  cases hlookup
  exact ⟨⟨7, some [0xB1]⟩, List.mem_cons_self, rfl, rfl⟩

/-- The class that was captured is prepared. -/
theorem ready_watch_matches_loaded :
    ∃ w ∈ (runEvents watchStep {} (capturedWatch ++ [.prepare 5 loadedClass {}])).handles,
      w.byName = false ∧ w.state = .ready ∧ Reported (capturedWatch ++ [.prepare 5 loadedClass {}]) w := by
  have hready : ∃ w ∈ (runEvents watchStep {} (capturedWatch ++ [.prepare 5 loadedClass {}])).handles,
      w.byName = false ∧ w.state = .ready := by decide +kernel
  have hok : PreparedAsCaptured (capturedWatch ++ [.prepare 5 loadedClass {}]) := by
    intro past klass prepared faults future hevents w _ _ _ _ _ classData hby
    obtain ⟨hpast, hlast⟩ : past = capturedWatch ∧ prepared = loadedClass := by
      rcases past with _ | ⟨e₁, _ | ⟨e₂, _ | ⟨e₃, _ | ⟨e₄, rest⟩⟩⟩⟩ <;> simp_all [capturedWatch]
    subst hpast hlast
    obtain ⟨before, loader, loadFaults, after, hsplit, -⟩ := hby
    obtain rfl : classData = otherClassBytes := by
      rcases before with _ | ⟨e₁, _ | ⟨e₂, _ | ⟨e₃, rest⟩⟩⟩ <;> simp_all [capturedWatch]
    exact definedBy_loadedClass
  obtain ⟨w, hw, hn, hs⟩ := hready
  exact ⟨w, hw, hn, hs, ready_watch_matches hok w hw hn hs⟩

/-- The definition of the class fails, `x/Y` is loaded again with other bytes, and the watch for `b1` becomes ready at
an offset where the code has `nop`. -/
theorem ready_watch_other_bytes :
    ∃ w ∈ (runEvents watchStep {}
        (capturedWatch ++ [.load none reloadedClassBytes {}, .prepare 5 reloadedClass {}])).handles,
      w.byName = false ∧ w.state = .ready ∧ w.method = some 7 ∧ w.offset = 0 ∧
      ¬Reported (capturedWatch ++ [.load none reloadedClassBytes {}, .prepare 5 reloadedClass {}]) w := by
  have hready : ∃ w ∈ (runEvents watchStep {}
      (capturedWatch ++ [.load none reloadedClassBytes {}, .prepare 5 reloadedClass {}])).handles,
      w.byName = false ∧ w.state = .ready ∧ w.method = some 7 ∧ w.offset = 0 ∧ w.pattern = [⟨0xB1, 0xFF⟩] := by
    decide +kernel
  obtain ⟨w, hw, hn, hs, hm, ho, hp⟩ := hready
  refine ⟨w, hw, hn, hs, hm, ho, ?_⟩
  rintro ⟨method, -, ⟨klass, prepared, faults, hmem, -, m, hmethods, -, code, hcode, hocc⟩ |
    ⟨scan, classes, methods, hmem, hclasses, hmethods, -⟩⟩
  · simp only [capturedWatch, List.cons_append, List.nil_append, List.mem_cons, reduceCtorEq, List.not_mem_nil,
      WatchEvent.prepare.injEq, false_or, or_false] at hmem
    obtain ⟨-, rfl, -⟩ := hmem
    cases List.mem_singleton.mp hmethods
    cases hcode
    obtain ⟨b, hb, hmatch⟩ := hocc 0 ⟨0xB1, 0xFF⟩ (by rw [hp]; rfl)
    rw [ho] at hb
    cases hb
    exact absurd hmatch (by decide)
  · simp only [capturedWatch, List.cons_append, List.nil_append, List.mem_cons, reduceCtorEq, List.not_mem_nil,
      WatchEvent.scanDone.injEq, false_or, or_false] at hmem
    subst hmem
    cases hclasses
    exact absurd hmethods List.not_mem_nil

/-! ## A class with the pattern -/

/-- Every pattern watch looks for at least one byte. -/
def PatternsGiven (s : WatchSystem) : Prop := ∀ w ∈ s.handles, w.byName = false → w.pattern ≠ []

theorem patternsGiven_step {s : WatchSystem} (h : PatternsGiven s) (e : WatchEvent) :
    PatternsGiven (watchStep s e) := by
  intro w' hw' hn
  obtain hold | ⟨call, -, w, hw, hc⟩ | hnew := mem_step hw'
  · exact h w' hold hn
  · rw [hc.pattern_eq]
    exact h w hw (hc.byName_eq ▸ hn)
  · obtain ⟨text, hcompiled⟩ := hnew.compiled hn
    exact compiled_ne_nil hcompiled

theorem patternsGiven_run (events : List WatchEvent) : PatternsGiven (runEvents watchStep {} events) :=
  invariant_run (I := PatternsGiven) (fun _ e hs _ => patternsGiven_step hs e)
    (fun _ hw => absurd hw List.not_mem_nil) (AllMeet.of_forall (fun _ _ => trivial) _ _)

theorem noneCancelled_events (events : List WatchEvent) : NoneCancelled (runEvents watchStep {} events) :=
  invariant_run (I := NoneCancelled) (fun _ e hs _ => noneCancelled_step hs e)
    (fun _ hw => absurd hw List.not_mem_nil) (AllMeet.of_forall (fun _ _ => trivial) _ _)

/-- Some method of the class has the pattern in its code. -/
def ContainsPattern (pattern : BytecodePattern) (prepared : PreparedClass) : Prop :=
  ∃ m ∈ prepared.methods, ∃ code offset, m.bytecodes = some code ∧ OccursAt pattern code offset

/-- The watch is open for the class: it waits or is ready, or it was captured for a class of this name in this loader
and its method is found there. -/
def OpenFor (prepared : PreparedClass) (w : MethodWatch) : Prop :=
  w.state = .waiting ∨ w.state = .ready ∨ (w.state = .captured ∧ w.className = some prepared.internalName ∧
    loaderMatches w prepared = true ∧ (resolveMethod prepared {} w).isSome)

/-- A prepare event in which every call succeeds, on one pattern watch. -/
theorem prepare_ready_iff {klass : JClass} {prepared : PreparedClass} {w : MethodWatch} (hn : w.byName = false)
    (hscan : (scanPreparedClass w.pattern prepared.methods).isSome) :
    (prepareCaptured klass prepared {} (prepareWaiting klass prepared {} w)).state = .ready ↔ OpenFor prepared w := by
  have hstay (h : w.state ≠ .waiting) : prepareWaiting klass prepared {} w = w := by rw [prepareWaiting, if_pos h]
  have hpass {v : MethodWatch} (h : v.state ≠ .captured) : prepareCaptured klass prepared {} v = v := by
    rw [prepareCaptured, if_pos (.inl h)]
  cases hs : w.state with
  | waiting =>
    obtain ⟨⟨method, offset⟩, hfound⟩ := Option.isSome_iff_exists.mp hscan
    have hmatch : matchPrepared prepared {} w = some (method, offset) := by
      rw [matchPrepared, hn, if_neg Bool.false_ne_true, if_neg Bool.false_ne_true, hfound]
    have hready : (prepareWaiting klass prepared {} w).state = .ready := by
      rw [prepareWaiting, if_neg (by simp [hs]), hmatch]
      rfl
    rw [hpass (by simp [hready])]
    exact ⟨fun _ => .inl hs, fun _ => hready⟩
  | ready =>
    rw [hstay (by simp [hs]), hpass (by simp [hs])]
    exact ⟨fun _ => .inr (.inl hs), fun _ => hs⟩
  | captured =>
    rw [hstay (by simp [hs])]
    constructor
    · intro h
      obtain ⟨hname, hloader, method, hmethod, -⟩ := prepareCaptured_ready hs h
      exact .inr (.inr ⟨hs, hname, hloader, by rw [hmethod]; rfl⟩)
    · intro h
      obtain h | h | ⟨-, hname, hloader, hmethod⟩ := h
      · rw [hs] at h
        cases h
      · rw [hs] at h
        cases h
      · obtain ⟨method, hmethod⟩ := Option.isSome_iff_exists.mp hmethod
        rw [prepareCaptured, if_neg (by simp [hs, hname]), if_neg (by simp [hloader]), hmethod]
        rfl
  | failed | cancelled =>
    rw [hstay (by simp [hs]), hpass (by simp [hs])]
    refine ⟨fun h => absurd h (by simp [hs]), fun h => ?_⟩
    simp [OpenFor, hs] at h

/-- A ready watch stays ready unless it is cancelled. -/
def StaysReady (w w' : MethodWatch) : Prop :=
  w.state = .ready ∨ w.state = .cancelled → w'.state = .ready ∨ w'.state = .cancelled

theorem staysReady_change {s : WatchSystem} (hs : NoneCancelled s) (call : WatchCall) (w w' : MethodWatch)
    (hc : WatchChange s call w w') : StaysReady w w' := by
  intro h
  have waiting (hw : w.state = .waiting) : w'.state = .ready ∨ w'.state = .cancelled := by simp [hw] at h
  have captured (hw : w.state = .captured) : w'.state = .ready ∨ w'.state = .cancelled := by simp [hw] at h
  cases hc with
  | kept => exact h
  | load _ _ hw => exact waiting hw
  | prepareWaiting _ =>
    obtain hk | ⟨hw, -⟩ := prepareWaiting_cases _ _ _ w
    · rw [hk]
      exact h
    · exact waiting hw
  | prepare _ =>
    obtain hk | ⟨hw | hw, -⟩ := prepareBoth_cases _ _ _ w
    · rw [hk]
      exact h
    · exact waiting hw
    · exact captured hw
  | resolveLoaded hmem =>
    have hready : w.state = .ready := h.resolve_right (hs w hmem)
    rw [resolveLoaded, if_pos hready]
    exact .inl hready
  | clear => exact .inr rfl

/-- The watches along the rest of a run. -/
theorem staysReady_run {s : WatchSystem} (hs : NoneCancelled s) (events : List WatchEvent) :
    watchPopulation.Evolves StaysReady s (runEvents watchStep s events) := by
  have hmeet : AllMeet watchStep (fun s _ => NoneCancelled s) s events := by
    induction events generalizing s with
    | nil => trivial
    | cons e events ih => exact ⟨hs, ih (noneCancelled_step hs e)⟩
  exact Population.evolves_run (fun _ h => h) (fun _ _ _ h₁ h₂ h => h₂ (h₁ h))
    (fun s e hok => evolves_step (fun _ h => h) (staysReady_change hok)) hmeet

/-- **Which matching classes are seen.** Preparing a class with the pattern makes a registered pattern watch ready, from
then on for as long as it is registered, exactly when the watch was open for the class. -/
theorem matching_class_ready_iff {past : List WatchEvent} {klass : JClass} {prepared : PreparedClass} {w : MethodWatch}
    (hw : w ∈ (runEvents watchStep {} past).watches) (hn : w.byName = false)
    (hcontains : ContainsPattern w.pattern prepared) :
    (∀ future, ∀ w' ∈ (runEvents watchStep {} (past ++ .prepare klass prepared {} :: future)).watches,
      w'.id = w.id → w'.state = .ready) ↔ OpenFor prepared w := by
  obtain ⟨m, hm, code, offset, hcode, hocc⟩ := hcontains
  have hscan := scan_of_occursAt (patternsGiven_run past w (List.mem_append_left _ hw) hn) hocc hm hcode
  have hmem : prepareCaptured klass prepared {} (prepareWaiting klass prepared {} w) ∈
      (runEvents watchStep {} (past ++ [.prepare klass prepared {}])).watches := by
    rw [runEvents_append]
    exact List.mem_map_of_mem (List.mem_map_of_mem hw)
  have hid : (prepareCaptured klass prepared {} (prepareWaiting klass prepared {} w)).id = w.id := by
    rw [prepareCaptured_id, prepareWaiting_id]
  rw [← @prepare_ready_iff klass prepared w hn hscan]
  constructor
  · exact fun h => h [] _ hmem hid
  · intro hready future w' hw' hid'
    have hrun : runEvents watchStep {} (past ++ .prepare klass prepared {} :: future) =
        runEvents watchStep (runEvents watchStep {} (past ++ [.prepare klass prepared {}])) future := by
      rw [← runEvents_append, List.append_assoc, List.singleton_append]
    have hcancelled := noneCancelled_events _ w' hw'
    rw [hrun] at hw'
    have hstays := (staysReady_run (noneCancelled_events _) future).related (distinct_events _)
      (List.mem_append_left _ hmem) (List.mem_append_left _ hw') (hid.trans hid'.symm)
    exact (hstays (.inl hready)).resolve_right hcancelled

/-- The class `a/B` whose method of the id 9 starts with `b1`. -/
def matchingClass : PreparedClass := ⟨text "La/B;", none, [⟨9, some [0xB1]⟩], fun _ _ => some 9, fun _ _ => none⟩

theorem contains_matchingClass {pattern : BytecodePattern} (h : pattern = [⟨0xB1, 0xFF⟩]) :
    ContainsPattern pattern matchingClass := by
  refine ⟨⟨9, some [0xB1]⟩, List.mem_cons_self, [0xB1], 0, rfl, ?_⟩
  rw [h]
  exact (patternMatches_drop _ _ _).mp (by decide)

/-- A watch that waits sees the class. -/
theorem matching_class_ready_waiting :
    ∃ w ∈ (runEvents watchStep {} (capturedWatch.take 2)).watches, w.byName = false ∧
      ContainsPattern w.pattern matchingClass ∧ ∀ future,
      ∀ w' ∈ (runEvents watchStep {} (capturedWatch.take 2 ++ .prepare 6 matchingClass {} :: future)).watches,
        w'.id = w.id → w'.state = .ready := by
  have hwaits : ∃ w ∈ (runEvents watchStep {} (capturedWatch.take 2)).watches, w.byName = false ∧
      w.state = .waiting ∧ w.pattern = [⟨0xB1, 0xFF⟩] := by decide +kernel
  obtain ⟨w, hw, hn, hs, hp⟩ := hwaits
  have hcontains := contains_matchingClass hp
  exact ⟨w, hw, hn, hcontains, (matching_class_ready_iff hw hn hcontains).mpr (.inl hs)⟩

/-- A watch that was captured for `x/Y`, which is never prepared, passes over `a/B`. -/
theorem matching_class_missed :
    ∃ w ∈ (runEvents watchStep {} capturedWatch).watches, w.byName = false ∧
      ContainsPattern w.pattern matchingClass ∧
      ∃ w' ∈ (runEvents watchStep {} (capturedWatch ++ [.prepare 6 matchingClass {}])).watches,
        w'.id = w.id ∧ w'.state = .captured := by
  have hcaptured : ∃ w ∈ (runEvents watchStep {} capturedWatch).watches, w.byName = false ∧
      w.pattern = [⟨0xB1, 0xFF⟩] ∧
      ∃ w' ∈ (runEvents watchStep {} (capturedWatch ++ [.prepare 6 matchingClass {}])).watches,
        w'.id = w.id ∧ w'.state = .captured := by decide +kernel
  obtain ⟨w, hw, hn, hp, hmissed⟩ := hcaptured
  exact ⟨w, hw, hn, contains_matchingClass hp, hmissed⟩

end Jni2Hook
