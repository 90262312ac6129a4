import Jni2Hook.Transform.ConstructorAnalysis

/-!
# The typing of a verified constructor

When the worklist is empty, its states cover whatever one instruction makes of them. For a constructor that the verifier
accepts they are a typing, and a typing outlives insertions.

* `typing_of_found`: the analysis that finds a call leaves a typing with that call.
-/

namespace Jni2Hook

open Lib

section Typing

variable {cf : ClassFile} {editor : CodeEditor} (h : Verified cf editor) (hl : editor.instructions.Laid)
  (hcounted : Counted cf editor)

include h hl hcounted

/-- An effect of an instruction on a path applies there. -/
theorem apply_of_traced {i : Nat} {f : SlotFrame Bool} {node : Instruction} {e : SlotEffect}
    (path : Traced cf editor i f) (hat : editor.instructions.items[i]? = some node) (he : codeEffect cf node = some e) :
    ∃ g, e.apply editor.maxStack.toNat false f = some g := by
  obtain ⟨b, addresses, hs⟩ := arrives_of_traced h hl hcounted path
  obtain ⟨node', s', hat', hexecute⟩ := h.executes hs.any
  rw [hat] at hat'
  cases hat'
  obtain ⟨e', he', happly⟩ := codeEffect_apply (hcounted i _ node hs hat) hs.stack_le (no_subroutine he) hexecute
  rw [he] at he'
  cases he'
  exact ⟨_, happly⟩

/-- More room on the stack changes nothing. -/
theorem executes_joined {i m : Nat} {s : TraceSlots} {node : Instruction} {work : TraceWork}
    (hs : Joined (Traced cf editor i) s.frame) (hat : editor.instructions.items[i]? = some node)
    (hm : editor.maxStack.toNat ≤ m) (hwork : executeSlots cf node ⟨s.locals, s.stack, m⟩ = some work) :
    ∃ e work', codeEffect cf node = some e ∧
      executeSlots cf node ⟨s.locals, s.stack, editor.maxStack.toNat⟩ = some work' ∧ work'.slots = work.slots := by
  have htrace := traceable_of_verified h hl hcounted
  obtain ⟨f, path⟩ := hs.exists_frame
  have hdepth := (htrace.fits_joined hs).stack
  have heq (limit : Nat) (hle : s.stack.length ≤ limit) :=
    @executeSlots_eq cf node (htrace.fits path hat) ⟨s.locals, s.stack, limit⟩ hle
  rw [heq m (hdepth.trans hm)] at hwork
  obtain ⟨g, hg, rfl⟩ := Option.map_eq_some_iff.mp hwork
  obtain ⟨e, he, happly⟩ := Option.bind_eq_some_iff.mp hg
  -- the bound of the body suffices for each path, so for what they merge to
  obtain ⟨f', hf'⟩ := apply_of_traced h hl hcounted path hat he
  have hshape := (hs.sameShape fun g hg => htrace.sameShape hg path).symm
  obtain ⟨g', hg', -⟩ := e.apply_sameShape editor.maxStack.toNat hshape traceOther hf'
  have hsame := e.apply_mono _ hm hg'
  have hjoin : e.apply m traceOther s.frame = some g := happly
  rw [hjoin] at hsame
  cases hsame
  refine ⟨e, TraceWork.withFrame ⟨s.locals, s.stack, editor.maxStack.toNat⟩ g, he, ?_, rfl⟩
  rw [heq _ hdepth, he, Option.bind_some]
  exact congrArg (Option.map _) hg'

/-- The analysis that finds a call leaves a typing with that call. -/
theorem typing_of_found {a : Nat} (hfound : constructorInitOffset cf editor = .found a) :
    ∃ call types, TraceTyping cf editor.instructions editor.maxLocals.toNat editor.maxStack.toNat call types ∧
      editor.instructions.start (call + 1) = a := by
  have htrace := traceable_of_verified h hl hcounted
  have hcalls : tracedCalls cf editor = {a} := by
    have hanswers := constructorInitOffset_traced htrace
    rw [hfound] at hanswers
    exact hanswers.eq_of_found
  have hmem : a ∈ tracedCalls cf editor := by
    rw [hcalls]
    rfl
  obtain ⟨call, f, node, path, hcall, hreceives, hend⟩ := hmem
  rw [offset_end hl h.size hcall] at hend
  have hcount := (List.getElem?_eq_some_iff.mp hcall).1
  obtain ⟨hsound, hclosed, hpending⟩ := htrace.traceLoop_spec (sound_initialLoop (by omega)) closed_initialLoop
    (cost_initialLoop h.locals (by omega))
  generalize traceLoop cf editor _ (initialLoop editor) = done at hsound hclosed hpending
  refine ⟨call, done.slotsAt, ⟨?_, ?_, ?_, ?_, ?_, ?_⟩, hend.symm⟩
  · have hentry := htrace.covered hsound hclosed hpending .entry
    rw [frameSlots_entryThis] at hentry
    exact hentry
  · intro i node s hnode htype hnone m work hm hwork t ht
    obtain ⟨e, work', -, hwork', hslots⟩ :=
      executes_joined h hl hcounted (hsound.joined i s htype) hnode hm hwork
    have hsettled := hclosed.settled i s htype (hsound.queues.idle hpending i)
    obtain ⟨s', hs', hle⟩ := hsettled.propagated hnode hnone hwork' t ht
    rw [hslots] at hle
    exact ⟨s', hs', hle⟩
  · intro i node s hnode htype hnone hreads
    obtain ⟨f, path⟩ := (hsound.joined i s htype).exists_frame
    obtain ⟨b, addresses, harrives⟩ := arrives_of_traced h hl hcounted path
    obtain ⟨node', s', hat', hexecute⟩ := h.executes harrives.any
    rw [hnode] at hat'
    cases hat'
    obtain ⟨slots, hslots⟩ := jvmMembers_of_execute hexecute hreads
    have hmembers := codeMembers_eq hreads (hcounted i _ node harrives hnode) hslots
    obtain ⟨counts, hcounts, -⟩ := Option.map_eq_some_iff.mp hmembers
    rw [hcounts]
    rfl
  · intro i node s arguments hnode htype hinit hlt
    obtain ⟨f, path⟩ := (hsound.joined i s htype).exists_frame
    have hslot := htrace.consumedSlot_joined path (hsound.joined i s htype) hnode hinit hlt
    rw [show s.frame.stack = s.stack from rfl] at hslot
    rw [hslot]
    cases receivesThis cf node f with
    | true => exact .inl rfl
    | false => exact .inr (by decide)
  · intro i node s b hnode htype hinit
    obtain ⟨f, path⟩ := (hsound.joined i s htype).exists_frame
    have hjoined := htrace.initializes_joined path (hsound.joined i s htype) hnode
    rw [show s.frame.stack = s.stack from rfl, hinit] at hjoined
    split at hjoined
    · rename_i hthis
      cases hjoined
      have hmem : editor.instructions.start (i + 1) ∈ tracedCalls cf editor :=
        ⟨i, f, node, path, hnode, hthis, (offset_end hl h.size hnode).symm⟩
      rw [hcalls, hend] at hmem
      have hi := (List.getElem?_eq_some_iff.mp hnode).1
      have := startOf_inj Instruction.size_pos (show i + 1 ≤ _ from hi) (show call + 1 ≤ _ from hcount) hmem
      omega
    · cases hjoined
  · -- behind the call the path goes on, and what it comes to can be executed
    obtain ⟨b, addresses, harrives⟩ := arrives_of_traced h hl hcounted path
    obtain ⟨node', s', hat', hexecute⟩ := h.executes harrives.any
    rw [hcall] at hat'
    cases hat'
    have hopcode : node.opcode = Opc.invokespecial := by
      unfold receivesThis at hreceives
      split at hreceives
      · rename_i arguments hinit
        obtain ⟨_, _, _, _, _, -, hopcode, -⟩ := isInitializingCall_eq_some.mp hinit
        exact hopcode
      · cases hreceives
    have hedge : editor.Edge call .fallThrough (call + 1) :=
      (edge_iff hcall).mpr (.inl ⟨by rw [hopcode]; rfl, rfl, rfl⟩)
    obtain ⟨next, _, hnext, -⟩ := h.executes
      (harrives.any.flow hcall trivial hexecute rfl hedge (goes_of_edge hcall (by rw [hopcode]; decide) hedge))
    exact (List.getElem?_eq_some_iff.mp hnext).1

end Typing

end Jni2Hook
