import Jni2Hook.Lib.Transition

/-!
# Flow graphs

A flow graph has an operation at each of its points, the labelled edges that control can take when the operation goes
on, and the handlers that guard the point, the first one that catches. What operations do to a frame is a parameter
(`Meaning`), so that what is shown of two graphs holds under every meaning.

* `FlowGraph.Step`: one step of a run.
* `FlowGraph.Embeds.bisimulation`: a graph runs like the part of another graph that it is mapped onto.
* `FlowGraph.interpose`: a graph with a block of operations before each point, entered whenever control arrives there.
* `Transparent.bisimulation`: blocks that are left as they are entered, and silently, do not change the visible runs.
* `Leaves.path`, `Leaves.only`: a block that leaves on its own is all that is run.
-/

namespace Lib

/-! ## Graphs and their runs -/

/-- Operations `ω` at points `ρ`, edges labelled by `κ`, handlers told apart by `χ`. -/
structure FlowGraph (ρ ω κ χ : Type) where
  op : ρ → Option ω
  edges : ρ → List (κ × ρ)
  handlers : ρ → List (χ × ρ)

/-- How an operation ends: control takes an edge of that label, leaves with the frame, or raises what the frame
holds. -/
inductive Ending (κ φ : Type)
  | goOn (label : κ) (frame : φ)
  | leave (frame : φ)
  | raise (frame : φ)

/-- What operations do to a frame and which event is seen of it, and which handlers catch what a frame holds. -/
structure Meaning (ω κ χ φ ε : Type) where
  does : ω → φ → ε → Ending κ φ → Prop
  catches : χ → φ → Bool

/-- Where a run is: before the operation of a point, or gone in one of two ways. -/
inductive Place (ρ φ : Type)
  | before (point : ρ) (frame : φ)
  | left (frame : φ)
  | thrown (frame : φ)

namespace FlowGraph

variable {ρ ρ' ω κ χ φ ε : Type}

/-- The handler that catches at a point. -/
def catcher (g : FlowGraph ρ ω κ χ) (m : Meaning ω κ χ φ ε) (p : ρ) (s : φ) : Option ρ :=
  ((g.handlers p).find? fun h => m.catches h.1 s).map (·.2)

inductive Step (g : FlowGraph ρ ω κ χ) (m : Meaning ω κ χ φ ε) : Place ρ φ → ε → Place ρ φ → Prop
  | goOn {p q : ρ} {o : ω} {s s' : φ} {e : ε} {label : κ} (hop : g.op p = some o)
      (hdoes : m.does o s e (.goOn label s')) (hedge : (label, q) ∈ g.edges p) : Step g m (.before p s) e (.before q s')
  | leave {p : ρ} {o : ω} {s s' : φ} {e : ε} (hop : g.op p = some o) (hdoes : m.does o s e (.leave s')) :
      Step g m (.before p s) e (.left s')
  | caught {p q : ρ} {o : ω} {s s' : φ} {e : ε} (hop : g.op p = some o) (hdoes : m.does o s e (.raise s'))
      (hcatch : g.catcher m p s' = some q) : Step g m (.before p s) e (.before q s')
  | thrown {p : ρ} {o : ω} {s s' : φ} {e : ε} (hop : g.op p = some o) (hdoes : m.does o s e (.raise s'))
      (hcatch : g.catcher m p s' = none) : Step g m (.before p s) e (.thrown s')

end FlowGraph

/-! ## Graphs in graphs -/

section Embedding

variable {ρ ρ' ω κ χ φ ε : Type} {g : FlowGraph ρ ω κ χ} {g' : FlowGraph ρ' ω κ χ} {D : ρ → Prop} {f : ρ → ρ'}

/-- The place that a place is mapped to. -/
def Place.map (f : ρ → ρ') : Place ρ φ → Place ρ' φ
  | before p s => before (f p) s
  | left s => left s
  | thrown s => thrown s

/-- The place is before one of these points, or is gone. -/
def Place.In (D : ρ → Prop) : Place ρ φ → Prop
  | before p _ => D p
  | _ => True

/-- The points in `D` are mapped to points with the same operation, edges and handlers. -/
structure FlowGraph.Embeds (g : FlowGraph ρ ω κ χ) (g' : FlowGraph ρ' ω κ χ) (D : ρ → Prop) (f : ρ → ρ') : Prop where
  op : ∀ {p}, D p → g'.op (f p) = g.op p
  edges : ∀ {p}, D p → g'.edges (f p) = (g.edges p).map (Prod.map id f)
  handlers : ∀ {p}, D p → g'.handlers (f p) = (g.handlers p).map (Prod.map id f)
  closed : ∀ {p label q}, D p → (label, q) ∈ g.edges p → D q
  closedHandlers : ∀ {p guard q}, D p → (guard, q) ∈ g.handlers p → D q

theorem FlowGraph.Embeds.catcher (h : g.Embeds g' D f) (m : Meaning ω κ χ φ ε) {p : ρ} (hp : D p) (s : φ) :
    g'.catcher m (f p) s = (g.catcher m p s).map f := by
  unfold FlowGraph.catcher
  rw [h.handlers hp, List.find?_map, Option.map_map, Option.map_map]
  rfl

theorem FlowGraph.Embeds.catcher_in (h : g.Embeds g' D f) {m : Meaning ω κ χ φ ε} {p q : ρ} (hp : D p) {s : φ}
    (hcatch : g.catcher m p s = some q) : D q := by
  obtain ⟨⟨guard, q'⟩, hfind, rfl⟩ := Option.map_eq_some_iff.mp hcatch
  exact h.closedHandlers hp (List.mem_of_find?_eq_some hfind)

/-- A run of the graph is a run of the other one, and the other way round. -/
theorem FlowGraph.Embeds.bisimulation (h : g.Embeds g' D f) (m : Meaning ω κ χ φ ε) :
    Bisimulation (g.Step m) (g'.Step m) fun x y => x.In D ∧ y = x.map f := by
  constructor
  · rintro x y e x' ⟨hx, rfl⟩ hstep
    cases hstep with
    | goOn hop hdoes hedge =>
      refine ⟨_, .goOn ((h.op hx).trans hop) hdoes ?_, h.closed hx hedge, rfl⟩
      rw [h.edges hx]
      exact List.mem_map_of_mem hedge
    | leave hop hdoes => exact ⟨_, .leave ((h.op hx).trans hop) hdoes, trivial, rfl⟩
    | caught hop hdoes hcatch =>
      refine ⟨_, .caught ((h.op hx).trans hop) hdoes ?_, h.catcher_in hx hcatch, rfl⟩
      rw [h.catcher m hx, hcatch]
      rfl
    | thrown hop hdoes hcatch =>
      refine ⟨_, .thrown ((h.op hx).trans hop) hdoes ?_, trivial, rfl⟩
      rw [h.catcher m hx, hcatch]
      rfl
  · rintro x y e y' ⟨hx, rfl⟩ hstep
    cases x with
    | left s => cases hstep
    | thrown s => cases hstep
    | before p s =>
      cases hstep with
      | goOn hop hdoes hedge =>
        rw [h.edges hx] at hedge
        obtain ⟨⟨label, q⟩, hold, heq⟩ := List.mem_map.mp hedge
        cases heq
        exact ⟨_, .goOn ((h.op hx).symm.trans hop) hdoes hold, h.closed hx hold, rfl⟩
      | leave hop hdoes => exact ⟨_, .leave ((h.op hx).symm.trans hop) hdoes, trivial, rfl⟩
      | caught hop hdoes hcatch =>
        rw [h.catcher m hx] at hcatch
        obtain ⟨q, hold, rfl⟩ := Option.map_eq_some_iff.mp hcatch
        exact ⟨_, .caught ((h.op hx).symm.trans hop) hdoes hold, h.catcher_in hx hold, rfl⟩
      | thrown hop hdoes hcatch =>
        rw [h.catcher m hx] at hcatch
        exact ⟨_, .thrown ((h.op hx).symm.trans hop) hdoes (Option.map_eq_none_iff.mp hcatch), trivial, rfl⟩

end Embedding

/-! ## Blocks before the points -/

/-- Operations with their edges. The places of a block are counted from its first operation, and its length stands for
what is behind it. -/
abbrev FlowBlock (ω κ : Type) := List (ω × List (κ × Nat))

section Interposed

variable {ρ ω κ χ φ ε : Type}

/-- A graph with a block before each point. Point `(p, k)` is the `k`-th operation of the block of `p`, or `p` itself. A
block is guarded by what guards the point behind it. -/
def FlowGraph.interpose (g : FlowGraph ρ ω κ χ) (block : ρ → FlowBlock ω κ) : FlowGraph (ρ × Nat) ω κ χ where
  op x := match (block x.1)[x.2]? with
    | some node => some node.1
    | none => g.op x.1
  edges x := match (block x.1)[x.2]? with
    | some node => node.2.map (Prod.map id (x.1, ·))
    | none => (g.edges x.1).map (Prod.map id (·, 0))
  handlers x := (g.handlers x.1).map (Prod.map id (·, 0))

variable {g : FlowGraph ρ ω κ χ} {block : ρ → FlowBlock ω κ} {m : Meaning ω κ χ φ ε} {visible : ε → Bool}

theorem FlowGraph.op_interpose {p : ρ} {k : Nat} {node : ω × List (κ × Nat)} (hnode : (block p)[k]? = some node) :
    (g.interpose block).op (p, k) = some node.1 := by
  simp only [interpose, hnode]

theorem FlowGraph.edges_interpose {p : ρ} {k : Nat} {node : ω × List (κ × Nat)} (hnode : (block p)[k]? = some node) :
    (g.interpose block).edges (p, k) = node.2.map (Prod.map id (p, ·)) := by
  simp only [interpose, hnode]

theorem FlowGraph.op_behind {p : ρ} {k : Nat} (hk : (block p).length ≤ k) :
    (g.interpose block).op (p, k) = g.op p := by
  simp only [interpose, List.getElem?_eq_none hk]

theorem FlowGraph.edges_behind {p : ρ} {k : Nat} (hk : (block p).length ≤ k) :
    (g.interpose block).edges (p, k) = (g.edges p).map (Prod.map id (·, 0)) := by
  simp only [interpose, List.getElem?_eq_none hk]

theorem FlowGraph.catcher_interpose (p : ρ) (k : Nat) (s : φ) :
    (g.interpose block).catcher m (p, k) s = (g.catcher m p s).map (·, 0) := by
  unfold catcher interpose
  rw [List.find?_map, Option.map_map, Option.map_map]
  rfl

/-! ## Blocks that change nothing -/

/-- From this frame the operation has no other ending than that one, and no visible event. -/
def Meaning.Leads (m : Meaning ω κ χ φ ε) (visible : ε → Bool) (o : ω) (s : φ) (ending : Ending κ φ) : Prop :=
  (∃ e, m.does o s e ending) ∧ ∀ e ending', m.does o s e ending' → visible e = false ∧ ending' = ending

/-- From one operation of the block with a frame, control can only come to the other one, silently and with that
frame. -/
inductive RunsTo (m : Meaning ω κ χ φ ε) (visible : ε → Bool) (block : FlowBlock ω κ) : Nat → φ → Nat → φ → Prop
  | refl (k : Nat) (s : φ) : RunsTo m visible block k s k s
  | step {k t k' : Nat} {o : ω} {edges : List (κ × Nat)} {label : κ} {s s' u : φ} (hnode : block[k]? = some (o, edges))
      (hleads : m.Leads visible o s (.goOn label s')) (hedge : ∀ t', (label, t') ∈ edges ↔ t' = t)
      (rest : RunsTo m visible block t s' k' u) : RunsTo m visible block k s k' u

/-- Whatever the frame is, the block hands it on. -/
def Transparent (m : Meaning ω κ χ φ ε) (visible : ε → Bool) (block : FlowBlock ω κ) : Prop :=
  ∀ s, RunsTo m visible block 0 s block.length s

/-- Entered with the frame `s`, the block leaves with the frame `u`. -/
def Leaves (m : Meaning ω κ χ φ ε) (visible : ε → Bool) (block : FlowBlock ω κ) (s u : φ) : Prop :=
  ∃ k s' o edges, RunsTo m visible block 0 s k s' ∧ block[k]? = some (o, edges) ∧ m.Leads visible o s' (.leave u)

theorem RunsTo.trans {fb : FlowBlock ω κ} {k k' k'' : Nat} {s s' s'' : φ} (h : RunsTo m visible fb k s k' s')
    (h' : RunsTo m visible fb k' s' k'' s'') : RunsTo m visible fb k s k'' s'' := by
  induction h with
  | refl k s => exact h'
  | step hnode hleads hedge _ ih => exact .step hnode hleads hedge (ih h')

/-- The operations are done one after the other, each going on by that label. -/
def Meaning.Passes (m : Meaning ω κ χ φ ε) (visible : ε → Bool) (label : κ) : List ω → φ → φ → Prop
  | [], s, u => s = u
  | o :: ops, s, u => ∃ s', m.Leads visible o s (.goOn label s') ∧ m.Passes visible label ops s' u

theorem Meaning.Passes.append {label : κ} {ops ops' : List ω} {s s' u : φ} (h : m.Passes visible label ops s s')
    (h' : m.Passes visible label ops' s' u) : m.Passes visible label (ops ++ ops') s u := by
  induction ops generalizing s with
  | nil =>
    cases h
    exact h'
  | cons o ops ih =>
    obtain ⟨s₁, hleads, hrest⟩ := h
    exact ⟨s₁, hleads, ih hrest⟩

/-- Operations that stand one behind the other in a block. -/
theorem Meaning.Passes.runsTo {fb : FlowBlock ω κ} {label : κ} {ops : List ω} {k : Nat} {s u : φ}
    (h : m.Passes visible label ops s u)
    (hops : ∀ n o, ops[n]? = some o → fb[k + n]? = some (o, [(label, k + n + 1)])) :
    RunsTo m visible fb k s (k + ops.length) u := by
  induction ops generalizing k s with
  | nil =>
    cases h
    exact .refl k _
  | cons o ops ih =>
    obtain ⟨s₁, hleads, hrest⟩ := h
    have hlater := ih (k := k + 1) hrest fun n o' ho' => by
      rw [show k + 1 + n = k + (n + 1) by omega]
      exact hops (n + 1) o' ho'
    rw [List.length_cons, show k + (ops.length + 1) = k + 1 + ops.length by omega]
    exact .step (hops 0 o rfl) hleads (fun t' => by simp) hlater

/-- A place of the graph, and a place in the block before it that hands on the same frame. -/
inductive Pending (m : Meaning ω κ χ φ ε) (visible : ε → Bool) (block : ρ → FlowBlock ω κ) :
    Place ρ φ → Place (ρ × Nat) φ → Prop
  | before {p : ρ} {k : Nat} {s s' : φ} (hands : RunsTo m visible (block p) k s' (block p).length s) :
      Pending m visible block (.before p s) (.before (p, k) s')
  | left (s : φ) : Pending m visible block (.left s) (.left s)
  | thrown (s : φ) : Pending m visible block (.thrown s) (.thrown s)

/-- What can only be run that way is run that way. -/
theorem RunsTo.path {p : ρ} {k k' : Nat} {s u : φ} (h : RunsTo m visible (block p) k s k' u) :
    ∃ es, Path ((g.interpose block).Step m) (.before (p, k) s) es (.before (p, k') u) ∧ es.filter visible = [] := by
  induction h with
  | refl k s => exact ⟨[], .nil _, rfl⟩
  | step hnode hleads hedge _ ih =>
    obtain ⟨es, hpath, hsilent⟩ := ih
    obtain ⟨e, hdoes⟩ := hleads.1
    have hstep := FlowGraph.Step.goOn (g := g.interpose block) (FlowGraph.op_interpose hnode) hdoes (by
      rw [FlowGraph.edges_interpose hnode]
      exact List.mem_map_of_mem ((hedge _).mpr rfl))
    refine ⟨e :: es, .cons hstep hpath, ?_⟩
    rw [List.filter_cons_of_neg (by rw [(hleads.2 e _ hdoes).1]; exact Bool.false_ne_true), hsilent]

/-- The only step of an operation of a block that leads to one ending. -/
theorem FlowGraph.Step.leads {p : ρ} {k : Nat} {s : φ} {e : ε} {y : Place (ρ × Nat) φ} {o : ω} {edges : List (κ × Nat)}
    {ending : Ending κ φ} (h : (g.interpose block).Step m (.before (p, k) s) e y)
    (hnode : (block p)[k]? = some (o, edges)) (hleads : m.Leads visible o s ending) :
    visible e = false ∧ ((∃ label t s', ending = .goOn label s' ∧ (label, t) ∈ edges ∧ y = .before (p, t) s') ∨
      (∃ s', ending = .leave s' ∧ y = .left s') ∨ ∃ s', ending = .raise s') := by
  have only {o' : ω} {ending' : Ending κ φ} (hop : (g.interpose block).op (p, k) = some o')
      (hdoes : m.does o' s e ending') : visible e = false ∧ ending' = ending := by
    rw [op_interpose hnode] at hop
    cases hop
    exact hleads.2 e ending' hdoes
  cases h with
  | goOn hop hdoes hmem =>
    obtain ⟨hsilent, rfl⟩ := only hop hdoes
    rw [edges_interpose hnode] at hmem
    obtain ⟨⟨label, t⟩, hown, heq⟩ := List.mem_map.mp hmem
    cases heq
    exact ⟨hsilent, .inl ⟨_, t, _, rfl, hown, rfl⟩⟩
  | leave hop hdoes =>
    obtain ⟨hsilent, rfl⟩ := only hop hdoes
    exact ⟨hsilent, .inr (.inl ⟨_, rfl, rfl⟩)⟩
  | caught hop hdoes =>
    obtain ⟨hsilent, rfl⟩ := only hop hdoes
    exact ⟨hsilent, .inr (.inr ⟨_, rfl⟩)⟩
  | thrown hop hdoes =>
    obtain ⟨hsilent, rfl⟩ := only hop hdoes
    exact ⟨hsilent, .inr (.inr ⟨_, rfl⟩)⟩

/-! ## A block that leaves -/

/-- A block that leaves on its own can be run so. -/
theorem Leaves.path {p : ρ} {s u : φ} (h : Leaves m visible (block p) s u) :
    ∃ es, Path ((g.interpose block).Step m) (.before (p, 0) s) es (.left u) ∧ es.filter visible = [] := by
  obtain ⟨k, s', o, edges, hrun, hnode, hleads⟩ := h
  obtain ⟨es, hpath, hsilent⟩ := hrun.path (g := g)
  obtain ⟨e, hdoes⟩ := hleads.1
  refine ⟨es ++ [e], hpath.append (.single (.leave (FlowGraph.op_interpose hnode) hdoes)), ?_⟩
  rw [List.filter_append, hsilent, List.filter_cons_of_neg (by rw [(hleads.2 e _ hdoes).1]; exact Bool.false_ne_true)]
  rfl

/-- And it can be run in no other way: the run is still in the block, or has left. -/
theorem Leaves.only {p : ρ} {s u : φ} (h : Leaves m visible (block p) s u) {es : List ε} {y : Place (ρ × Nat) φ}
    (hpath : Path ((g.interpose block).Step m) (.before (p, 0) s) es y) :
    es.filter visible = [] ∧ (y = .left u ∨ ∃ k s', k < (block p).length ∧ y = .before (p, k) s') := by
  obtain ⟨k', s', o, edges, hrun, hnode, hleads⟩ := h
  generalize 0 = k at hrun hpath
  induction hrun generalizing es with
  | refl k s =>
    cases hpath with
    | nil => exact ⟨rfl, .inr ⟨k, s, (List.getElem?_eq_some_iff.mp hnode).1, rfl⟩⟩
    | cons first rest =>
      obtain ⟨hsilent, ⟨_, _, _, hending, -⟩ | ⟨_, hending, rfl⟩ | ⟨_, hending⟩⟩ := first.leads hnode hleads
      · cases hending
      · cases hending
        cases rest with
        | nil => exact ⟨List.filter_cons_of_neg (by rw [hsilent]; exact Bool.false_ne_true), .inl rfl⟩
        | cons first' _ => cases first'
      · cases hending
  | @step k t k' o' edges' label s s₁ u' hnode' hleads' hedge _ ih =>
    cases hpath with
    | nil => exact ⟨rfl, .inr ⟨k, s, (List.getElem?_eq_some_iff.mp hnode').1, rfl⟩⟩
    | cons first rest =>
      obtain ⟨hsilent, ⟨_, t', _, hending, hmem, rfl⟩ | ⟨_, hending, -⟩ | ⟨_, hending⟩⟩ := first.leads hnode' hleads'
      · cases hending
        obtain rfl := (hedge t').mp hmem
        obtain ⟨hrest, hend⟩ := ih hnode hleads rest
        exact ⟨by rw [List.filter_cons_of_neg (by rw [hsilent]; exact Bool.false_ne_true), hrest], hend⟩
      · cases hending
      · cases hending

/-! ## Blocks that hand on every frame -/

/-- A step of the operation behind the block. -/
theorem FlowGraph.Step.behind {p : ρ} {s : φ} {e : ε} {x : Place ρ φ} (h : g.Step m (.before p s) e x) :
    (g.interpose block).Step m (.before (p, (block p).length) s) e (x.map (·, 0)) := by
  cases h with
  | goOn hop hdoes hedge =>
    refine .goOn ((op_behind (Nat.le_refl _)).trans hop) hdoes ?_
    rw [edges_behind (Nat.le_refl _)]
    exact List.mem_map_of_mem hedge
  | leave hop hdoes => exact .leave ((op_behind (Nat.le_refl _)).trans hop) hdoes
  | caught hop hdoes hcatch =>
    exact .caught ((op_behind (Nat.le_refl _)).trans hop) hdoes (by rw [catcher_interpose, hcatch]; rfl)
  | thrown hop hdoes hcatch =>
    exact .thrown ((op_behind (Nat.le_refl _)).trans hop) hdoes (by rw [catcher_interpose, hcatch]; rfl)

/-- It has no other steps. -/
theorem FlowGraph.Step.of_behind {p : ρ} {s : φ} {e : ε} {y : Place (ρ × Nat) φ}
    (h : (g.interpose block).Step m (.before (p, (block p).length) s) e y) :
    ∃ x, g.Step m (.before p s) e x ∧ y = x.map (·, 0) := by
  cases h with
  | goOn hop hdoes hedge =>
    rw [edges_behind (Nat.le_refl _)] at hedge
    obtain ⟨⟨label, q⟩, hold, heq⟩ := List.mem_map.mp hedge
    cases heq
    exact ⟨_, .goOn ((op_behind (Nat.le_refl _)).symm.trans hop) hdoes hold, rfl⟩
  | leave hop hdoes => exact ⟨_, .leave ((op_behind (Nat.le_refl _)).symm.trans hop) hdoes, rfl⟩
  | caught hop hdoes hcatch =>
    rw [catcher_interpose] at hcatch
    obtain ⟨q, hold, rfl⟩ := Option.map_eq_some_iff.mp hcatch
    exact ⟨_, .caught ((op_behind (Nat.le_refl _)).symm.trans hop) hdoes hold, rfl⟩
  | thrown hop hdoes hcatch =>
    rw [catcher_interpose] at hcatch
    exact ⟨_, .thrown ((op_behind (Nat.le_refl _)).symm.trans hop) hdoes (Option.map_eq_none_iff.mp hcatch), rfl⟩

variable (htransparent : ∀ p, Transparent m visible (block p))

include htransparent

/-- Control that has just arrived at a point is to run its block. -/
theorem Pending.arrived (x : Place ρ φ) : Pending m visible block x (x.map (·, 0)) := by
  cases x with
  | before p s => exact .before (htransparent p s)
  | left s => exact .left s
  | thrown s => exact .thrown s

/-- A graph with blocks that hand on every frame has the visible runs of the graph without them. -/
theorem Transparent.bisimulation :
    WeakBisimulation visible (g.Step m) ((g.interpose block).Step m) (Pending m visible block) := by
  constructor
  · intro x y e x' hr hstep
    cases hr with
    | left s => cases hstep
    | thrown s => cases hstep
    | before hands =>
      obtain ⟨es, hpath, hsilent⟩ := hands.path (g := g)
      refine ⟨es ++ [e], _, hpath.append (.single hstep.behind), ?_, Pending.arrived htransparent x'⟩
      rw [List.filter_append, hsilent, List.nil_append]
  · intro x y e y' hr hstep
    cases hr with
    | left s => cases hstep
    | thrown s => cases hstep
    | before hands =>
      cases hands with
      | refl =>
        obtain ⟨x', hold, rfl⟩ := hstep.of_behind
        exact ⟨[e], x', .single hold, rfl, Pending.arrived htransparent x'⟩
      | step hnode hleads hedge rest =>
        obtain ⟨hsilent, ⟨_, t, _, hending, hmem, rfl⟩ | ⟨_, hending, -⟩ | ⟨_, hending⟩⟩ := hstep.leads hnode hleads
        · cases hending
          obtain rfl := (hedge t).mp hmem
          refine ⟨[], _, .nil _, ?_, .before rest⟩
          rw [List.filter_cons_of_neg (by rw [hsilent]; exact Bool.false_ne_true)]
        · cases hending
        · cases hending

end Interposed

end Lib
