import Jni2Hook.Lib.Machine
import Jni2Hook.Lib.RecursiveLock
import Mathlib.Data.Fintype.Basic

/-!
# The lock of the API

Every function of the API takes `g_lock`, which `JNI2Hook_Init` creates. The others must not touch it before: they read
`g_initialized` without the lock, take it, and read `g_initialized` again. The threads are interleaved here at every
access to a shared variable, each access one step; a thread that has the lock may enter the API again.

* `ApiFrame`, `LockProtocol`, `apiStep`: where each thread is, and what it does next.
* `Move`: what a step can do.
* `LockProtocol.Created`, `LockProtocol.Locked`, `LockProtocol.Serving`: the invariants.
* `admitted_alone`, `entered_progress`: safety, and that no threads wait for each other.
-/

namespace Jni2Hook

open Lib RecursiveLock

/-! ## The threads -/

/-- The functions of the API, by what they do with `g_initialized`. -/
inductive ApiEntry
  | init
  | call
  | shutdown
  deriving DecidableEq, Repr

/-- Where a thread is in a function of the API. -/
inductive ApiPoint
  /-- Before the read of `lock_ready`, or the first of `g_initialized`. -/
  | testing
  /-- Before `hook_mutex_init`. -/
  | creating
  /-- Before `lock_ready = true`. -/
  | publishing
  /-- Before `hook_mutex_lock`. -/
  | waiting
  /-- Before the read of `g_initialized` that the lock protects. -/
  | checking
  /-- Between that and the unlock. -/
  | body
  /-- Before `hook_mutex_unlock`. -/
  | leaving
  deriving DecidableEq, Repr

structure ApiFrame where
  entry : ApiEntry
  point : ApiPoint
  deriving DecidableEq, Repr

/-- The globals of `jni2hook.c` that the lock is about, and the calls each thread is in, the innermost first. `created`
counts the calls of `hook_mutex_init`. -/
structure LockProtocol (τ : Type) where
  lockReady : Bool
  created : Nat
  lock : RecursiveLock τ
  initialized : Bool
  frames : τ → List ApiFrame

/-- The library as it is loaded. -/
def LockProtocol.loaded {τ : Type} : LockProtocol τ := ⟨false, 0, .free, false, fun _ => []⟩

/-- A thread enters the API, or goes on; `ok` is whether the rest of `JNI2Hook_Init` succeeds. -/
inductive ApiEvent
  | enter (entry : ApiEntry)
  | advance (ok : Bool)

section Steps

variable {τ : Type}

/-- The API is entered from outside, or from within the body of a call. -/
def LockProtocol.mayEnter (s : LockProtocol τ) (t : τ) : Bool :=
  match s.frames t with
  | [] => true
  | f :: _ => f.point == .body

theorem mayEnter_iff {s : LockProtocol τ} {t : τ} :
    s.mayEnter t = true ↔ ∀ f ∈ (s.frames t).head?, f.point = .body := by
  unfold LockProtocol.mayEnter
  cases s.frames t with
  | nil => simp
  | cons f fs => simp

variable [DecidableEq τ]

def LockProtocol.withFrames (s : LockProtocol τ) (t : τ) (frames : List ApiFrame) : LockProtocol τ :=
  { s with frames := fun u => if u = t then frames else s.frames u }

@[simp] theorem LockProtocol.withFrames_self {s : LockProtocol τ} {t : τ} {fs : List ApiFrame} :
    (s.withFrames t fs).frames t = fs := if_pos rfl

theorem LockProtocol.withFrames_of_ne {s : LockProtocol τ} {t u : τ} {fs : List ApiFrame} (h : u ≠ t) :
    (s.withFrames t fs).frames u = s.frames u := if_neg h

/-- The step of a thread whose innermost call is `f`. -/
def advanceFrame (s : LockProtocol τ) (t : τ) (f : ApiFrame) (fs : List ApiFrame) (ok : Bool) : LockProtocol τ :=
  let goto (s : LockProtocol τ) (point : ApiPoint) := s.withFrames t (⟨f.entry, point⟩ :: fs)
  match f.point with
  | .testing =>
    match f.entry with
    | .init => goto s (if s.lockReady then .waiting else .creating)
    | _ => if s.initialized then goto s .waiting else s.withFrames t fs
  | .creating => goto { s with created := s.created + 1, lock := .free } .publishing
  | .publishing => goto { s with lockReady := true } .waiting
  | .waiting =>
    match s.lock.acquire t with
    | some lock => goto { s with lock } .checking
    | none => s
  | .checking =>
    match f.entry with
    | .init => goto s (if s.initialized then .leaving else .body)
    | _ => goto s (if s.initialized then .body else .leaving)
  | .body =>
    match f.entry with
    | .init => goto { s with initialized := s.initialized || ok } .leaving
    | .call => goto s .leaving
    | .shutdown => goto { s with initialized := false } .leaving
  | .leaving => { s with lock := s.lock.release t }.withFrames t fs

def apiStep (s : LockProtocol τ) : τ × ApiEvent → LockProtocol τ
  | (t, .enter entry) => if s.mayEnter t then s.withFrames t (⟨entry, .testing⟩ :: s.frames t) else s
  | (t, .advance ok) =>
    match s.frames t with
    | [] => s
    | f :: fs => advanceFrame s t f fs ok

/-! ## What a step can do -/

/-- What a thread does in a step. -/
inductive Move (s : LockProtocol τ) (t : τ) : ApiEvent → LockProtocol τ → Prop
  | enter (entry : ApiEntry) (hfrom : ∀ f ∈ (s.frames t).head?, f.point = .body) :
    Move s t (.enter entry) (s.withFrames t (⟨entry, .testing⟩ :: s.frames t))
  | absent {ok : Bool} {f : ApiFrame} {fs : List ApiFrame} (hframes : s.frames t = f :: fs) (hat : f.point = .testing) :
    Move s t (.advance ok) (s.withFrames t fs)
  | ready {ok : Bool} {f : ApiFrame} {fs : List ApiFrame} (hframes : s.frames t = f :: fs) (hat : f.point = .testing)
    (hready : s.lockReady = true ∨ s.initialized = true) :
    Move s t (.advance ok) (s.withFrames t (⟨f.entry, .waiting⟩ :: fs))
  | unready {ok : Bool} {f : ApiFrame} {fs : List ApiFrame} (hframes : s.frames t = f :: fs)
    (hat : f = ⟨.init, .testing⟩) (hready : s.lockReady = false) :
    Move s t (.advance ok) (s.withFrames t (⟨f.entry, .creating⟩ :: fs))
  | create {ok : Bool} {f : ApiFrame} {fs : List ApiFrame} (hframes : s.frames t = f :: fs)
      (hat : f.point = .creating) :
    Move s t (.advance ok)
      ({ s with created := s.created + 1, lock := .free }.withFrames t (⟨f.entry, .publishing⟩ :: fs))
  | publish {ok : Bool} {f : ApiFrame} {fs : List ApiFrame} (hframes : s.frames t = f :: fs)
    (hat : f.point = .publishing) :
    Move s t (.advance ok) ({ s with lockReady := true }.withFrames t (⟨f.entry, .waiting⟩ :: fs))
  | take {ok : Bool} {f : ApiFrame} {fs : List ApiFrame} {lock : RecursiveLock τ} (hframes : s.frames t = f :: fs)
    (hat : f.point = .waiting) (hlock : s.lock.acquire t = some lock) :
    Move s t (.advance ok) ({ s with lock }.withFrames t (⟨f.entry, .checking⟩ :: fs))
  | letIn {ok : Bool} {f : ApiFrame} {fs : List ApiFrame} (hframes : s.frames t = f :: fs) (hat : f.point = .checking)
    (hfound : f.entry ≠ .init → s.initialized = true) :
    Move s t (.advance ok) (s.withFrames t (⟨f.entry, .body⟩ :: fs))
  | refuse {ok : Bool} {f : ApiFrame} {fs : List ApiFrame} (hframes : s.frames t = f :: fs)
      (hat : f.point = .checking) :
    Move s t (.advance ok) (s.withFrames t (⟨f.entry, .leaving⟩ :: fs))
  | finish {ok : Bool} {f : ApiFrame} {fs : List ApiFrame} (initialized : Bool) (hframes : s.frames t = f :: fs)
    (hat : f.point = .body) (hflag : f.entry ≠ .shutdown → s.initialized = true → initialized = true) :
    Move s t (.advance ok) ({ s with initialized }.withFrames t (⟨f.entry, .leaving⟩ :: fs))
  | unlock {ok : Bool} {f : ApiFrame} {fs : List ApiFrame} (hframes : s.frames t = f :: fs) (hat : f.point = .leaving) :
    Move s t (.advance ok) ({ s with lock := s.lock.release t }.withFrames t fs)

theorem advanceFrame_cases {s : LockProtocol τ} {t : τ} {f : ApiFrame} {fs : List ApiFrame} (ok : Bool)
    (hframes : s.frames t = f :: fs) :
    advanceFrame s t f fs ok = s ∨ Move s t (.advance ok) (advanceFrame s t f fs ok) := by
  obtain ⟨entry, point⟩ := f
  cases point with
  | testing =>
    refine .inr ?_
    cases entry with
    | init =>
      by_cases hready : s.lockReady = true
      · simpa [advanceFrame, hready] using Move.ready hframes rfl (.inl hready)
      · simpa [advanceFrame, hready] using Move.unready hframes rfl (by simpa using hready)
    | call | shutdown =>
      by_cases hfound : s.initialized = true
      · simpa [advanceFrame, hfound] using Move.ready hframes rfl (.inr hfound)
      · simpa [advanceFrame, hfound] using Move.absent hframes rfl
  | creating => exact .inr (.create hframes rfl)
  | publishing => exact .inr (.publish hframes rfl)
  | waiting =>
    cases hlock : s.lock.acquire t with
    | some lock => exact .inr (by simpa [advanceFrame, hlock] using Move.take hframes rfl hlock)
    | none => exact .inl (by simp [advanceFrame, hlock])
  | checking =>
    refine .inr ?_
    by_cases hfound : s.initialized = true
    · cases entry with
      | init => simpa [advanceFrame, hfound] using Move.refuse hframes rfl
      | call | shutdown => simpa [advanceFrame, hfound] using Move.letIn hframes rfl (fun _ => hfound)
    · cases entry with
      | init => simpa [advanceFrame, hfound] using Move.letIn hframes rfl (fun h => absurd rfl h)
      | call | shutdown => simpa [advanceFrame, hfound] using Move.refuse hframes rfl
  | body =>
    refine .inr ?_
    cases entry with
    | init => exact .finish _ hframes rfl (fun _ h => by simp [h])
    | call => exact .finish s.initialized hframes rfl (fun _ h => h)
    | shutdown => exact .finish false hframes rfl (fun h => absurd rfl h)
  | leaving => exact .inr (.unlock hframes rfl)

/-- A step leaves the state as it is, or is a move of its thread. -/
theorem apiStep_cases (s : LockProtocol τ) (t : τ) (e : ApiEvent) :
    apiStep s (t, e) = s ∨ Move s t e (apiStep s (t, e)) := by
  cases e with
  | enter entry =>
    by_cases hfrom : s.mayEnter t = true
    · simpa [apiStep, hfrom] using .inr (Move.enter entry (mayEnter_iff.mp hfrom))
    · exact .inl (by simp [apiStep, hfrom])
  | advance ok =>
    unfold apiStep
    cases hframes : s.frames t with
    | nil => exact .inl (by simp [hframes])
    | cons f fs =>
      simp only [hframes]
      exact advanceFrame_cases ok hframes

end Steps

/-! ## The lock is created before it is touched -/

def ApiPoint.making : ApiPoint → Bool
  | .creating | .publishing => true
  | _ => false

/-- The thread has the lock there. -/
def ApiPoint.holds : ApiPoint → Bool
  | .checking | .body | .leaving => true
  | _ => false

/-- The thread has the lock there, or asks for it. -/
def ApiPoint.touches : ApiPoint → Bool
  | .waiting => true
  | point => point.holds

section Invariants

variable {τ : Type}

/-- The calls around the innermost one have the lock. -/
def LockProtocol.Nested (s : LockProtocol τ) : Prop := ∀ t, ∀ f ∈ (s.frames t).tail, f.point = .body

/-- What holds of `lock_ready` and `hook_mutex_init`. -/
structure LockProtocol.Created (s : LockProtocol τ) : Prop where
  making : ∀ t, ∀ f ∈ s.frames t, f.point.making = true → s.lockReady = false
  touching : ∀ t, ∀ f ∈ s.frames t, f.point.touches = true → s.lockReady = true
  found : s.initialized = true → s.lockReady = true
  alone : ∀ t u, ∀ f ∈ s.frames t, ∀ g ∈ s.frames u, f.point.making = true → g.point.making = true → t = u
  creating : ∀ t, ∀ f ∈ s.frames t, f.point = .creating → s.created = 0
  publishing : ∀ t, ∀ f ∈ s.frames t, f.point = .publishing → s.created = 1
  published : s.lockReady = true → s.created = 1
  unmade : s.lockReady = false → (∀ t, ∀ f ∈ s.frames t, f.point.making = false) → s.created = 0

/-- No thread reads `lock_ready` in `JNI2Hook_Init` while another is at creating the lock. -/
def CreatedAlone (s : LockProtocol τ) : τ × ApiEvent → Prop
  | (_, .enter _) => True
  | (t, .advance _) => (s.frames t).head? = some ⟨.init, .testing⟩ →
    ∀ u, u ≠ t → ∀ f ∈ s.frames u, f.point.making = false

theorem LockProtocol.Nested.rest {s : LockProtocol τ} (h : s.Nested) {t : τ} {f : ApiFrame} {fs : List ApiFrame}
    (hframes : s.frames t = f :: fs) : ∀ g ∈ fs, g.point = .body := by
  simpa [hframes] using h t

theorem LockProtocol.Created.loaded : (LockProtocol.loaded : LockProtocol τ).Created := by
  constructor <;> simp [LockProtocol.loaded]

/-- A thread that creates the lock does so alone. -/
theorem LockProtocol.Created.others {s : LockProtocol τ} (h : s.Created) {t : τ} {f : ApiFrame} (hf : f ∈ s.frames t)
    (hmaking : f.point.making = true) : ∀ u, u ≠ t → ∀ g ∈ s.frames u, g.point.making = false := by
  intro u hu g hg
  cases hgm : g.point.making with
  | false => rfl
  | true => exact absurd (h.alone u t g hg f hf hgm hmaking) hu

/-- How often the thread has the lock, by its calls. -/
def LockProtocol.depth (s : LockProtocol τ) (t : τ) : Nat := (s.frames t).countP (·.point.holds)

theorem depth_pos {s : LockProtocol τ} {t : τ} {f : ApiFrame} (hf : f ∈ s.frames t) (hholds : f.point.holds = true) :
    0 < s.depth t :=
  List.countP_pos_iff.mpr ⟨f, hf, hholds⟩

/-- Nobody has a lock that is not ready. -/
theorem LockProtocol.Created.depth_eq_zero {s : LockProtocol τ} (h : s.Created) (hready : s.lockReady = false) (u : τ) :
    s.depth u = 0 := by
  refine List.countP_eq_zero.mpr fun f hf hholds => ?_
  have htouches : f.point.touches = true := by
    cases hp : f.point <;> simp_all [ApiPoint.holds, ApiPoint.touches]
  have := h.touching u f hf htouches
  simp [hready] at this

variable [DecidableEq τ]

/-- The innermost call is replaced, or left, or a call is entered from a body. -/
theorem LockProtocol.Nested.move {s s' : LockProtocol τ} {t : τ} {e : ApiEvent} (h : s.Nested)
    (hmove : Move s t e s') : s'.Nested := by
  have hold : ∀ fs, (∀ g ∈ fs.tail, g.point = .body) → (s.withFrames t fs).Nested := by
    intro fs hfs u
    by_cases hu : u = t
    · simpa [withFrames, hu] using hfs
    · simpa [withFrames, hu] using h u
  cases hmove with
  | enter entry hfrom =>
    refine hold _ fun g hg => ?_
    cases hframes : s.frames t with
    | nil => simp [hframes] at hg
    | cons f fs =>
      rw [List.tail_cons, hframes] at hg
      obtain rfl | hg := List.mem_cons.mp hg
      · exact hfrom g (by simp [hframes])
      · exact h.rest hframes g hg
  | absent hframes _ => exact hold _ fun g hg => h.rest hframes g (List.mem_of_mem_tail hg)
  | unlock hframes _ => exact hold _ fun g hg => h.rest hframes g (List.mem_of_mem_tail hg)
  | ready hframes _ _ => exact hold _ (h.rest hframes)
  | unready hframes _ _ => exact hold _ (h.rest hframes)
  | create hframes _ => exact hold _ (h.rest hframes)
  | publish hframes _ => exact hold _ (h.rest hframes)
  | take hframes _ _ => exact hold _ (h.rest hframes)
  | letIn hframes _ _ => exact hold _ (h.rest hframes)
  | refuse hframes _ => exact hold _ (h.rest hframes)
  | finish _ hframes _ _ => exact hold _ (h.rest hframes)

namespace LockProtocol.Created

variable {s s' : LockProtocol τ} {t : τ} {f : ApiFrame} {fs : List ApiFrame}

/-- A step that has nothing to do with `lock_ready`. -/
theorem quiet (h : s.Created) (t : τ) (old new rest : List ApiFrame) (hold : s.frames t = old ++ rest)
    (hframes : s'.frames = (s.withFrames t (new ++ rest)).frames) (hready : s'.lockReady = s.lockReady)
    (hcreated : s'.created = s.created) (hfound : s'.initialized = true → s.lockReady = true)
    (hmaking : ∀ f ∈ old, f.point.making = false)
    (hnew : ∀ f ∈ new, f.point.making = false ∧ (f.point.touches = true → s.lockReady = true)) : s'.Created := by
  have hmem : ∀ u f, f ∈ s'.frames u ↔ if u = t then f ∈ new ∨ f ∈ rest else f ∈ s.frames u := by
    intro u f
    by_cases hu : u = t <;> simp [hframes, withFrames, hu]
  have hsame : ∀ u f, f.point.making = true → (f ∈ s'.frames u ↔ f ∈ s.frames u) := by
    intro u f hf
    rw [hmem]
    by_cases hu : u = t
    · subst hu
      have hnotOld : f ∉ old := fun hin => by simp [hmaking f hin] at hf
      have hnotNew : f ∉ new := fun hin => by simp [(hnew f hin).1] at hf
      simp [hold, hnotOld, hnotNew]
    · simp [hu]
  have htouch : ∀ u f, f ∈ s'.frames u → f.point.touches = true → s.lockReady = true := by
    intro u f hf hft
    rw [hmem] at hf
    by_cases hu : u = t
    · subst hu
      rw [if_pos rfl] at hf
      obtain hf | hf := hf
      · exact (hnew f hf).2 hft
      · exact h.touching u f (by simp [hold, hf]) hft
    · rw [if_neg hu] at hf
      exact h.touching u f hf hft
  refine ⟨fun u f hf hm => ?_, fun u f hf hft => ?_, fun hi => ?_, fun u v f hf g hg hfm hgm => ?_, fun u f hf hp => ?_,
    fun u f hf hp => ?_, fun hr => ?_, fun hr hall => ?_⟩
  · exact hready ▸ h.making u f ((hsame u f hm).mp hf) hm
  · exact hready ▸ htouch u f hf hft
  · exact hready ▸ hfound hi
  · exact h.alone u v f ((hsame u f hfm).mp hf) g ((hsame v g hgm).mp hg) hfm hgm
  · exact hcreated ▸ h.creating u f ((hsame u f (by rw [hp]; rfl)).mp hf) hp
  · exact hcreated ▸ h.publishing u f ((hsame u f (by rw [hp]; rfl)).mp hf) hp
  · exact hcreated ▸ h.published (hready ▸ hr)
  · refine hcreated ▸ h.unmade (hready ▸ hr) fun u f hf => ?_
    cases hm : f.point.making with
    | false => rfl
    | true => exact hm ▸ hall u f ((hsame u f hm).mpr hf)

/-- The innermost call goes on to another point. -/
theorem goto (h : s.Created) (hframes : s.frames t = f :: fs) (hmaking : f.point.making = false) {point : ApiPoint}
    (hs' : s'.frames = (s.withFrames t (⟨f.entry, point⟩ :: fs)).frames) (hready : s'.lockReady = s.lockReady)
    (hcreated : s'.created = s.created) (hfound : s'.initialized = true → s.lockReady = true)
    (hpoint : point.making = false) (htouches : point.touches = true → s.lockReady = true) : s'.Created :=
  h.quiet t [f] [⟨f.entry, point⟩] fs hframes hs' hready hcreated hfound (List.forall_mem_singleton.mpr hmaking)
    (List.forall_mem_singleton.mpr ⟨hpoint, htouches⟩)

/-- The innermost call returns. -/
theorem leave (h : s.Created) (hframes : s.frames t = f :: fs) (hmaking : f.point.making = false)
    (hs' : s'.frames = (s.withFrames t fs).frames) (hready : s'.lockReady = s.lockReady)
    (hcreated : s'.created = s.created) (hfound : s'.initialized = true → s.lockReady = true) : s'.Created :=
  h.quiet t [f] [] fs hframes hs' hready hcreated hfound (List.forall_mem_singleton.mpr hmaking)
    (List.forall_mem_nil _)

/-- The calls behind a step of the innermost one. -/
theorem mem_replaced {g f' : ApiFrame} {u : τ} (hframes : s.frames t = f :: fs)
    (hg : g ∈ (s.withFrames t (f' :: fs)).frames u) : (u = t ∧ g = f') ∨ g ∈ s.frames u := by
  by_cases hu : u = t
  · subst hu
    rw [withFrames_self] at hg
    obtain rfl | hg := List.mem_cons.mp hg
    · exact .inl ⟨rfl, rfl⟩
    · exact .inr (by simp [hframes, hg])
  · rw [withFrames_of_ne hu] at hg
    exact .inr hg

/-- Where the others do not create the lock, only the innermost call can. -/
theorem maker_replaced {g f' : ApiFrame} {u : τ} (hn : s.Nested) (hframes : s.frames t = f :: fs)
    (hothers : ∀ u, u ≠ t → ∀ g ∈ s.frames u, g.point.making = false)
    (hg : g ∈ (s.withFrames t (f' :: fs)).frames u) (hgm : g.point.making = true) : u = t ∧ g = f' := by
  by_cases hu : u = t
  · subst hu
    rw [withFrames_self] at hg
    obtain rfl | hg := List.mem_cons.mp hg
    · exact ⟨rfl, rfl⟩
    · rw [hn.rest hframes g hg] at hgm
      cases hgm
  · rw [withFrames_of_ne hu] at hg
    rw [hothers u hu g hg] at hgm
    cases hgm

/-- A thread that finds no lock is the only one to create it. -/
theorem unready (h : s.Created) (hn : s.Nested) (hframes : s.frames t = f :: fs) (hat : f = ⟨.init, .testing⟩)
    (hready : s.lockReady = false) (halone : ∀ u, u ≠ t → ∀ g ∈ s.frames u, g.point.making = false) :
    (s.withFrames t (⟨f.entry, .creating⟩ :: fs)).Created := by
  have hnone : ∀ u, ∀ g ∈ s.frames u, g.point.making = false := by
    intro u g hg
    by_cases hu : u = t
    · subst hu
      rw [hframes] at hg
      obtain rfl | hg := List.mem_cons.mp hg
      · rw [hat]; rfl
      · rw [hn.rest hframes g hg]; rfl
    · exact halone u hu g hg
  refine ⟨fun _ _ _ _ => hready, fun u g hg hgt => ?_, h.found, fun u v g hg k hk hgm hkm => ?_,
    fun _ _ _ _ => h.unmade hready hnone, fun u g hg hp => ?_, h.published, fun _ _ => h.unmade hready hnone⟩
  · obtain ⟨-, rfl⟩ | hg := mem_replaced hframes hg
    · cases hgt
    · exact h.touching u g hg hgt
  · rw [(maker_replaced hn hframes halone hg hgm).1, (maker_replaced hn hframes halone hk hkm).1]
  · have hcreating := (maker_replaced hn hframes halone hg (by rw [hp]; rfl)).2
    rw [hcreating] at hp
    cases hp

section Maker

variable (h : s.Created) (hn : s.Nested) (hframes : s.frames t = f :: fs)
include h hn hframes

/-- `hook_mutex_init`. -/
theorem create (hat : f.point = .creating) :
    ({ s with created := s.created + 1, lock := .free }.withFrames t (⟨f.entry, .publishing⟩ :: fs)).Created := by
  have hmaking : f.point.making = true := by rw [hat]; rfl
  have hf : f ∈ s.frames t := by simp [hframes]
  have hothers := h.others hf hmaking
  have hready : s.lockReady = false := h.making t f hf hmaking
  have honce : s.created + 1 = 1 := by rw [h.creating t f hf hat]
  refine ⟨fun _ _ _ _ => hready, fun u g hg hgt => ?_, h.found, fun u v g hg k hk hgm hkm => ?_, fun u g hg hp => ?_,
    fun _ _ _ _ => honce, fun _ => honce, fun _ hnone => ?_⟩
  · obtain ⟨-, rfl⟩ | hg := mem_replaced hframes hg
    · cases hgt
    · exact h.touching u g hg hgt
  · rw [(maker_replaced hn hframes hothers hg hgm).1, (maker_replaced hn hframes hothers hk hkm).1]
  · have hpublishing := (maker_replaced hn hframes hothers hg (by rw [hp]; rfl)).2
    rw [hpublishing] at hp
    cases hp
  · have hmaker : (⟨f.entry, .publishing⟩ : ApiFrame).point.making = false := hnone t _ (by simp)
    cases hmaker

/-- `lock_ready = true`. -/
theorem publish (hat : f.point = .publishing) :
    ({ s with lockReady := true }.withFrames t (⟨f.entry, .waiting⟩ :: fs)).Created := by
  have hf : f ∈ s.frames t := by simp [hframes]
  have hothers := h.others hf (by rw [hat]; rfl)
  have honce : s.created = 1 := h.publishing t f hf hat
  have hnone : ∀ u, ∀ g ∈ (s.withFrames t (⟨f.entry, .waiting⟩ :: fs)).frames u, g.point.making = false := by
    intro u g hg
    cases hgm : g.point.making with
    | false => rfl
    | true =>
      obtain ⟨-, rfl⟩ := maker_replaced hn hframes hothers hg hgm
      cases hgm
  refine ⟨fun u g hg hgm => ?_, fun _ _ _ _ => rfl, fun _ => rfl, fun u v g hg k hk hgm hkm => ?_, fun u g hg hp => ?_,
    fun _ _ _ _ => honce, fun _ => honce, fun hready => ?_⟩
  · rw [hnone u g hg] at hgm
    cases hgm
  · rw [hnone u g hg] at hgm
    cases hgm
  · have hgm := hnone u g hg
    rw [hp] at hgm
    cases hgm
  · cases hready

end Maker

/-- A move by a thread that creates the lock alone. -/
theorem move {e : ApiEvent} (h : s.Created) (hn : s.Nested) (hmove : Move s t e s') (halone : CreatedAlone s (t, e)) :
    s'.Created := by
  -- Behind `hook_mutex_lock` the lock is ready, and stays so.
  have hready : ∀ {f fs}, s.frames t = f :: fs → f.point.touches = true → s.lockReady = true :=
    fun hframes => h.touching t _ (by simp [hframes])
  cases hmove with
  | enter entry _ =>
    exact h.quiet t [] [⟨entry, .testing⟩] _ rfl rfl rfl rfl h.found (List.forall_mem_nil _)
      (List.forall_mem_singleton.mpr ⟨rfl, fun htouches => by cases htouches⟩)
  | absent hframes hat => exact h.leave hframes (by rw [hat]; rfl) rfl rfl rfl h.found
  | ready hframes hat hfound =>
    exact h.goto hframes (by rw [hat]; rfl) rfl rfl rfl h.found rfl (fun _ => hfound.elim id h.found)
  | unready hframes hat hnot => exact h.unready hn hframes hat hnot (halone (by rw [hframes, hat]; rfl))
  | create hframes hat => exact h.create hn hframes hat
  | publish hframes hat => exact h.publish hn hframes hat
  | take hframes hat _ =>
    exact h.goto hframes (by rw [hat]; rfl) rfl rfl rfl h.found rfl (fun _ => hready hframes (by rw [hat]; rfl))
  | letIn hframes hat _ =>
    exact h.goto hframes (by rw [hat]; rfl) rfl rfl rfl h.found rfl (fun _ => hready hframes (by rw [hat]; rfl))
  | refuse hframes hat =>
    exact h.goto hframes (by rw [hat]; rfl) rfl rfl rfl h.found rfl (fun _ => hready hframes (by rw [hat]; rfl))
  | finish _ hframes hat _ =>
    have hlock := hready hframes (by rw [hat]; rfl)
    exact h.goto hframes (by rw [hat]; rfl) rfl rfl rfl (fun _ => hlock) rfl (fun _ => hlock)
  | unlock hframes hat => exact h.leave hframes (by rw [hat]; rfl) rfl rfl rfl h.found

end LockProtocol.Created

/-! ## Who has the lock -/

def LockProtocol.Locked (s : LockProtocol τ) : Prop := s.lock.heldBy = s.depth

theorem depth_withFrames (s : LockProtocol τ) (t : τ) (frames : List ApiFrame) :
    (s.withFrames t frames).depth = Function.update s.depth t (frames.countP (·.point.holds)) := by
  funext u
  by_cases hu : u = t
  · subst hu
    simp [LockProtocol.depth]
  · simp [LockProtocol.depth, LockProtocol.withFrames_of_ne hu, Function.update_of_ne hu]

namespace LockProtocol.Locked

variable {s s' : LockProtocol τ} {t : τ} {f : ApiFrame} {fs : List ApiFrame}

/-- A step without the lock. -/
theorem quiet (h : s.Locked) {frames : List ApiFrame} (hsame : frames.countP (·.point.holds) = s.depth t)
    (hlock : s'.lock = s.lock) (hframes : s'.frames = (s.withFrames t frames).frames) : s'.Locked := by
  have hdepth : s'.depth = (s.withFrames t frames).depth := by
    unfold depth
    rw [hframes]
  rw [LockProtocol.Locked, hlock, hdepth, depth_withFrames, hsame, Function.update_eq_self]
  exact h

/-- The innermost call goes on, and has the lock as before. -/
theorem goto (h : s.Locked) (hframes : s.frames t = f :: fs) {point : ApiPoint} (hsame : point.holds = f.point.holds)
    (hlock : s'.lock = s.lock) (hs' : s'.frames = (s.withFrames t (⟨f.entry, point⟩ :: fs)).frames) : s'.Locked := by
  refine h.quiet ?_ hlock hs'
  rw [depth, hframes, List.countP_cons, List.countP_cons, hsame]

/-- `hook_mutex_init` finds a lock that nobody has. -/
theorem create (hc : s.Created) (hframes : s.frames t = f :: fs) (hat : f.point = .creating) :
    ({ s with created := s.created + 1, lock := .free }.withFrames t (⟨f.entry, .publishing⟩ :: fs)).Locked := by
  have hready : s.lockReady = false := hc.making t f (by simp [hframes]) (by rw [hat]; rfl)
  have hzero := hc.depth_eq_zero hready
  have hfree : ({ s with lock := .free } : LockProtocol τ).Locked := funext fun u => (hzero u).symm
  exact hfree.goto hframes (by rw [hat]; rfl) rfl rfl

theorem take {lock : RecursiveLock τ} (h : s.Locked) (hframes : s.frames t = f :: fs) (hat : f.point = .waiting)
    (hlock : s.lock.acquire t = some lock) : ({ s with lock }.withFrames t (⟨f.entry, .checking⟩ :: fs)).Locked := by
  have hdepth : s.depth t = fs.countP (·.point.holds) := by simp [depth, hframes, hat, ApiPoint.holds]
  calc lock.heldBy
      = Function.update s.lock.heldBy t (s.lock.heldBy t + 1) := heldBy_acquire hlock
    _ = Function.update s.depth t (fs.countP (·.point.holds) + 1) := by rw [h, hdepth]
    _ = (s.withFrames t (⟨f.entry, .checking⟩ :: fs)).depth := by
      rw [depth_withFrames, List.countP_cons_of_pos rfl]

theorem unlock (h : s.Locked) (hframes : s.frames t = f :: fs) (hat : f.point = .leaving) :
    ({ s with lock := s.lock.release t }.withFrames t fs).Locked := by
  have hdepth : s.depth t = fs.countP (·.point.holds) + 1 := by simp [depth, hframes, hat, ApiPoint.holds]
  have hheld : 0 < s.lock.heldBy t := by rw [h, hdepth]; omega
  calc (s.lock.release t).heldBy
      = Function.update s.lock.heldBy t (s.lock.heldBy t - 1) := heldBy_release hheld
    _ = Function.update s.depth t (fs.countP (·.point.holds)) := by rw [h, hdepth, Nat.add_sub_cancel]
    _ = (s.withFrames t fs).depth := (depth_withFrames s t fs).symm

theorem move {e : ApiEvent} (h : s.Locked) (hc : s.Created) (hmove : Move s t e s') : s'.Locked := by
  cases hmove with
  | enter entry _ => exact h.quiet (by simp [depth, ApiPoint.holds]) rfl rfl
  | absent hframes hat => exact h.quiet (by simp [depth, hframes, hat, ApiPoint.holds]) rfl rfl
  | ready hframes hat _ => exact h.goto hframes (by rw [hat]; rfl) rfl rfl
  | unready hframes hat _ => exact h.goto hframes (by rw [hat]; rfl) rfl rfl
  | create hframes hat => exact create hc hframes hat
  | publish hframes hat => exact h.goto hframes (by rw [hat]; rfl) rfl rfl
  | take hframes hat hlock => exact h.take hframes hat hlock
  | letIn hframes hat _ => exact h.goto hframes (by rw [hat]; rfl) rfl rfl
  | refuse hframes hat => exact h.goto hframes (by rw [hat]; rfl) rfl rfl
  | finish _ hframes hat _ => exact h.goto hframes (by rw [hat]; rfl) rfl rfl
  | unlock hframes hat => exact h.unlock hframes hat

theorem loaded : (LockProtocol.loaded : LockProtocol τ).Locked := rfl

end LockProtocol.Locked

end Invariants

/-! ## Safety -/

section Runs

variable {τ : Type} [DecidableEq τ]

/-- The invariant of runs in which the lock is created alone. -/
structure LockProtocol.Sound (s : LockProtocol τ) : Prop where
  nested : s.Nested
  created : s.Created
  locked : s.Locked

namespace LockProtocol.Sound

variable {s : LockProtocol τ}

theorem loaded : (LockProtocol.loaded : LockProtocol τ).Sound :=
  ⟨fun _ _ hf => by simp [LockProtocol.loaded] at hf, .loaded, .loaded⟩

theorem step (h : s.Sound) (e : τ × ApiEvent) (halone : CreatedAlone s e) : (apiStep s e).Sound := by
  obtain ⟨t, e⟩ := e
  obtain hsame | hmove := apiStep_cases s t e
  · rw [hsame]
    exact h
  · exact ⟨h.nested.move hmove, h.created.move h.nested hmove halone, h.locked.move h.created hmove⟩

theorem run {es : List (τ × ApiEvent)} (halone : AllMeet apiStep CreatedAlone LockProtocol.loaded es) :
    (runEvents apiStep LockProtocol.loaded es).Sound :=
  invariant_run (fun _ e h halone => h.step e halone) loaded halone

/-- Two threads that have the lock are one. -/
theorem exclusive (h : s.Sound) {t u : τ} {f g : ApiFrame} (hf : f ∈ s.frames t) (hg : g ∈ s.frames u)
    (hfh : f.point.holds = true) (hgh : g.point.holds = true) : t = u := by
  have ht := depth_pos hf hfh
  have hu := depth_pos hg hgh
  rw [← h.locked] at ht hu
  exact eq_of_heldBy ht hu

/-- The lock is not created twice. -/
theorem created_le (h : s.Sound) : s.created ≤ 1 := by
  cases hready : s.lockReady with
  | true => exact Nat.le_of_eq (h.created.published hready)
  | false =>
    by_cases hnone : ∀ t, ∀ f ∈ s.frames t, f.point.making = false
    · simp [h.created.unmade hready hnone]
    · push Not at hnone
      obtain ⟨t, f, hf, hmaking⟩ := hnone
      cases hp : f.point with
      | creating => simp [h.created.creating t f hf hp]
      | publishing => exact Nat.le_of_eq (h.created.publishing t f hf hp)
      | _ => simp [hp, ApiPoint.making] at hmaking

/-- Only a thread in the body of a call writes `g_initialized`. -/
theorem writer {t : τ} {e : ApiEvent} (hwrite : (apiStep s (t, e)).initialized ≠ s.initialized) :
    ∃ f ∈ s.frames t, f.point.holds = true := by
  obtain hsame | hmove := apiStep_cases s t e
  · exact absurd (congrArg LockProtocol.initialized hsame) hwrite
  · generalize hs' : apiStep s (t, e) = s' at hmove hwrite
    cases hmove with
    | finish _ hframes hat _ => exact ⟨_, by rw [hframes]; exact List.mem_cons_self, by rw [hat]; rfl⟩
    | _ => exact absurd rfl hwrite

end LockProtocol.Sound

/-- Whatever the order of the steps: the lock is created once, and before any thread touches it; one thread at most is
past the lock, which each has as often as its calls say; and `g_initialized` changes only while no other thread is past
it. -/
theorem admitted_alone {es : List (τ × ApiEvent)} (halone : AllMeet apiStep CreatedAlone LockProtocol.loaded es) :
    (∀ t u, ∀ f ∈ (runEvents apiStep LockProtocol.loaded es).frames t,
      ∀ g ∈ (runEvents apiStep LockProtocol.loaded es).frames u, f.point.holds = true → g.point.holds = true → t = u) ∧
    (∀ t, (runEvents apiStep LockProtocol.loaded es).lock.heldBy t =
      ((runEvents apiStep LockProtocol.loaded es).frames t).countP (·.point.holds)) ∧
    (runEvents apiStep LockProtocol.loaded es).created ≤ 1 ∧
    (∀ t, ∀ f ∈ (runEvents apiStep LockProtocol.loaded es).frames t, f.point.touches = true →
      (runEvents apiStep LockProtocol.loaded es).created = 1) ∧
    ∀ t e, (runEvents apiStep LockProtocol.loaded (es ++ [(t, e)])).initialized ≠
        (runEvents apiStep LockProtocol.loaded es).initialized →
      ∀ u, u ≠ t → ∀ f ∈ (runEvents apiStep LockProtocol.loaded es).frames u, f.point.holds = false := by
  have hsound := LockProtocol.Sound.run halone
  generalize hs : runEvents apiStep LockProtocol.loaded es = s at hsound
  refine ⟨fun t u f hf g hg hfh hgh => hsound.exclusive hf hg hfh hgh, fun t => congrFun hsound.locked t,
    hsound.created_le, fun t f hf htouches => hsound.created.published (hsound.created.touching t f hf htouches), ?_⟩
  intro t e hwrite u hu f hf
  rw [runEvents_append, hs] at hwrite
  obtain ⟨g, hg, hgh⟩ := LockProtocol.Sound.writer hwrite
  cases hfh : f.point.holds with
  | false => rfl
  | true => exact absurd (hsound.exclusive hf hg hfh hgh) hu

instance CreatedAlone.decidable [Fintype τ] (s : LockProtocol τ) : ∀ e, Decidable (CreatedAlone s e)
  | (_, .enter _) => inferInstanceAs (Decidable True)
  | (t, .advance _) => inferInstanceAs (Decidable ((s.frames t).head? = some ⟨.init, .testing⟩ →
    ∀ u, u ≠ t → ∀ f ∈ s.frames u, f.point.making = false))

/-- A run of two threads: one initializes the library while the other asks for it, and asks for its end while the other
is in a call. -/
def twoThreads : List (Bool × ApiEvent) :=
  [(false, .enter .init), (false, .advance true), (true, .enter .call), (true, .advance true)] ++
  List.replicate 5 (false, .advance true) ++
  [(true, .enter .call), (true, .advance true), (true, .advance true), (false, .advance true), (true, .advance true),
    (true, .advance true), (false, .enter .shutdown), (false, .advance true), (false, .advance true)]

theorem admitted_alone_two : (runEvents apiStep LockProtocol.loaded twoThreads).frames true = [⟨.call, .body⟩] ∧
    (runEvents apiStep LockProtocol.loaded twoThreads).frames false = [⟨.shutdown, .waiting⟩] ∧
    (runEvents apiStep LockProtocol.loaded twoThreads).created ≤ 1 :=
  ⟨by decide, by decide,
    (admitted_alone (by decide : AllMeet apiStep CreatedAlone LockProtocol.loaded twoThreads)).2.2.1⟩

/-- Two threads that both find no lock create it twice, and both get it. -/
example : let inits : List (Bool × ApiEvent) :=
      [(false, .enter .init), (true, .enter .init), (false, .advance true), (true, .advance true)] ++
      List.replicate 4 (false, .advance true) ++ List.replicate 4 (true, .advance true)
    (runEvents apiStep LockProtocol.loaded inits).created = 2 ∧
    ∀ t, (runEvents apiStep LockProtocol.loaded inits).frames t = [⟨.init, .body⟩] := by
  decide

end Runs

/-! ## A call that is let in finds the library initialized -/

section Serving

variable {τ : Type}

/-- `JNI2Hook_Shutdown` is not called from within the body of a call. -/
def ShutdownOutermost (s : LockProtocol τ) : τ × ApiEvent → Prop
  | (t, .enter .shutdown) => s.frames t = []
  | _ => True

/-- What a call finds between its check and its unlock. -/
structure LockProtocol.Serving (s : LockProtocol τ) : Prop where
  initialized : ∀ t, ∀ f ∈ s.frames t, f.point = .body → f.entry ≠ .init → s.initialized = true
  outermost : ∀ t, (s.frames t).Pairwise fun inner _ => inner.entry ≠ .shutdown

theorem LockProtocol.Serving.loaded : (LockProtocol.loaded : LockProtocol τ).Serving :=
  ⟨fun _ _ hf => by simp [LockProtocol.loaded] at hf, fun _ => .nil⟩

variable [DecidableEq τ]

namespace LockProtocol.Serving

variable {s s' : LockProtocol τ} {t : τ} {f : ApiFrame} {fs : List ApiFrame}

/-- A step that keeps `g_initialized`, or sets it. -/
theorem quiet (h : s.Serving) {frames : List ApiFrame} (hframes : s'.frames = (s.withFrames t frames).frames)
    (hkept : s.initialized = true → s'.initialized = true)
    (hbodies : ∀ f ∈ frames, f.point = .body → f.entry ≠ .init → s'.initialized = true)
    (houtermost : frames.Pairwise fun inner _ => inner.entry ≠ .shutdown) : s'.Serving := by
  refine ⟨fun u f hf hp hentry => ?_, fun u => ?_⟩
  · rw [hframes] at hf
    by_cases hu : u = t
    · subst hu
      rw [withFrames_self] at hf
      exact hbodies f hf hp hentry
    · rw [withFrames_of_ne hu] at hf
      exact hkept (h.initialized u f hf hp hentry)
  · rw [hframes]
    by_cases hu : u = t
    · subst hu
      rw [withFrames_self]
      exact houtermost
    · rw [withFrames_of_ne hu]
      exact h.outermost u

/-- The innermost call goes on to another point. -/
theorem goto (h : s.Serving) (hframes : s.frames t = f :: fs) {point : ApiPoint}
    (hs' : s'.frames = (s.withFrames t (⟨f.entry, point⟩ :: fs)).frames)
    (hkept : s.initialized = true → s'.initialized = true)
    (hbody : point = .body → f.entry ≠ .init → s'.initialized = true) : s'.Serving := by
  have houtermost := h.outermost t
  rw [hframes, List.pairwise_cons] at houtermost
  refine h.quiet hs' hkept (fun g hg hp hentry => ?_) (List.pairwise_cons.mpr houtermost)
  obtain rfl | hg := List.mem_cons.mp hg
  · exact hbody hp hentry
  · exact hkept (h.initialized t g (by simp [hframes, hg]) hp hentry)

/-- The innermost call returns. -/
theorem leave (h : s.Serving) (hframes : s.frames t = f :: fs) (hs' : s'.frames = (s.withFrames t fs).frames)
    (hkept : s.initialized = true → s'.initialized = true) : s'.Serving := by
  have houtermost := h.outermost t
  rw [hframes, List.pairwise_cons] at houtermost
  exact h.quiet hs' hkept (fun g hg hp hentry => hkept (h.initialized t g (by simp [hframes, hg]) hp hentry))
    houtermost.2

/-- The end of `JNI2Hook_Shutdown`: its thread alone is past the lock, and in no other call. -/
theorem shutdown (h : s.Serving) (hsound : s.Sound) (initialized : Bool) (hframes : s.frames t = f :: fs)
    (hat : f.point = .body) (hentry : f.entry = .shutdown) :
    ({ s with initialized }.withFrames t (⟨f.entry, .leaving⟩ :: fs)).Serving := by
  have hrest : fs = [] := by
    have houtermost := h.outermost t
    rw [hframes, List.pairwise_cons] at houtermost
    exact List.eq_nil_iff_forall_not_mem.mpr fun g hg => houtermost.1 g hg hentry
  subst hrest
  refine ⟨fun u g hg hp _ => ?_, fun u => ?_⟩
  · by_cases hu : u = t
    · subst hu
      rw [withFrames_self, List.mem_singleton] at hg
      subst hg
      cases hp
    · rw [withFrames_of_ne hu] at hg
      have hholds : ∀ {k : ApiFrame}, k.point = .body → k.point.holds = true := fun hk => by rw [hk]; rfl
      exact absurd (hsound.exclusive hg (by simp [hframes]) (hholds hp) (hholds hat)) hu
  · by_cases hu : u = t
    · subst hu
      rw [withFrames_self]
      exact List.pairwise_singleton _ _
    · rw [withFrames_of_ne hu]
      exact h.outermost u

theorem move {e : ApiEvent} (h : s.Serving) (hsound : s.Sound) (hmove : Move s t e s')
    (houtermost : ShutdownOutermost s (t, e)) : s'.Serving := by
  cases hmove with
  | enter entry _ =>
    refine h.quiet rfl id (fun g hg hp hentry => ?_) (List.pairwise_cons.mpr ⟨fun g hg hshutdown => ?_, h.outermost t⟩)
    · obtain rfl | hg := List.mem_cons.mp hg
      · cases hp
      · exact h.initialized t g hg hp hentry
    · subst hshutdown
      rw [show s.frames t = [] from houtermost] at hg
      cases hg
  | absent hframes _ => exact h.leave hframes rfl id
  | ready hframes _ _ => exact h.goto hframes rfl id (fun hp => by cases hp)
  | unready hframes _ _ => exact h.goto hframes rfl id (fun hp => by cases hp)
  | create hframes _ => exact h.goto hframes rfl id (fun hp => by cases hp)
  | publish hframes _ => exact h.goto hframes rfl id (fun hp => by cases hp)
  | take hframes _ _ => exact h.goto hframes rfl id (fun hp => by cases hp)
  | letIn hframes _ hfound => exact h.goto hframes rfl id (fun _ => hfound)
  | refuse hframes _ => exact h.goto hframes rfl id (fun hp => by cases hp)
  | finish initialized hframes hat hflag =>
    rename_i f fs
    by_cases hentry : f.entry = .shutdown
    · exact h.shutdown hsound initialized hframes hat hentry
    · exact h.goto hframes rfl (hflag hentry) (fun hp => by cases hp)
  | unlock hframes _ => exact h.leave hframes rfl id

theorem run {es : List (τ × ApiEvent)}
    (hok : AllMeet apiStep (fun s e => CreatedAlone s e ∧ ShutdownOutermost s e) LockProtocol.loaded es) :
    (runEvents apiStep LockProtocol.loaded es).Serving := by
  have hboth := invariant_run (I := fun s : LockProtocol τ => s.Sound ∧ s.Serving)
    (fun s e h hok => by
      obtain ⟨t, e⟩ := e
      refine ⟨h.1.step (t, e) hok.1, ?_⟩
      obtain hsame | hmove := apiStep_cases s t e
      · rw [hsame]
        exact h.2
      · exact h.2.move h.1 hmove hok.2)
    ⟨.loaded, loaded⟩ hok
  exact hboth.2

end LockProtocol.Serving

/-- A call that got past the second check finds the library initialized throughout its body, whatever the others do. -/
theorem admitted_initialized {es : List (τ × ApiEvent)}
    (hok : AllMeet apiStep (fun s e => CreatedAlone s e ∧ ShutdownOutermost s e) LockProtocol.loaded es) :
    ∀ t, ∀ f ∈ (runEvents apiStep LockProtocol.loaded es).frames t, f.point = .body → f.entry ≠ .init →
      (runEvents apiStep LockProtocol.loaded es).initialized = true :=
  (LockProtocol.Serving.run hok).initialized

instance ShutdownOutermost.decidable (s : LockProtocol τ) : ∀ e, Decidable (ShutdownOutermost s e)
  | (t, .enter .shutdown) => inferInstanceAs (Decidable (s.frames t = []))
  | (_, .enter .init) | (_, .enter .call) | (_, .advance _) => inferInstanceAs (Decidable True)

theorem admitted_initialized_two : (runEvents apiStep LockProtocol.loaded twoThreads).frames true = [⟨.call, .body⟩] ∧
    (runEvents apiStep LockProtocol.loaded twoThreads).initialized = true := by
  have hframes : (runEvents apiStep LockProtocol.loaded twoThreads).frames true = [⟨.call, .body⟩] := by decide
  exact ⟨hframes, admitted_initialized (by decide) true ⟨.call, .body⟩ (by simp [hframes]) rfl (by decide)⟩

end Serving

/-! ## The lock never stops all threads -/

section Progress

variable {τ : Type} [DecidableEq τ] {t : τ}

/-- A thread in a call does something, unless it asks for a lock that another has. -/
theorem advance_ne {s : LockProtocol τ} {f : ApiFrame} {fs : List ApiFrame} (hframes : s.frames t = f :: fs)
    (hlock : f.point = .waiting → s.lock.acquire t ≠ none) (ok : Bool) : apiStep s (t, .advance ok) ≠ s := by
  intro hsame
  have hat := congrFun (congrArg LockProtocol.frames hsame) t
  simp only [apiStep, hframes] at hat
  obtain ⟨entry, point⟩ := f
  cases point with
  | testing =>
    cases entry with
    | init => cases hready : s.lockReady <;> simp [advanceFrame, hready] at hat
    | call | shutdown => cases hfound : s.initialized <;> simp [advanceFrame, hfound] at hat
  | creating | publishing | leaving => simp [advanceFrame] at hat
  | waiting =>
    cases hacquired : s.lock.acquire t with
    | none => exact hlock rfl hacquired
    | some lock => simp [advanceFrame, hacquired] at hat
  | checking => cases entry <;> cases hfound : s.initialized <;> simp [advanceFrame, hfound] at hat
  | body => cases entry <;> simp [advanceFrame] at hat

/-- As long as a thread is in a call, there is one that can go on: threads only wait for one that does not wait. -/
theorem entered_progress {es : List (τ × ApiEvent)} (halone : AllMeet apiStep CreatedAlone LockProtocol.loaded es)
    (hentered : (runEvents apiStep LockProtocol.loaded es).frames t ≠ []) :
    ∃ u, ∀ ok, runEvents apiStep LockProtocol.loaded (es ++ [(u, .advance ok)]) ≠
      runEvents apiStep LockProtocol.loaded es := by
  have hsound := LockProtocol.Sound.run halone
  simp only [runEvents_append]
  generalize runEvents apiStep LockProtocol.loaded es = s at hsound hentered
  have hgo : ∀ u, s.frames u ≠ [] → s.lock.acquire u ≠ none →
      ∃ u, ∀ ok, runEvents apiStep s [(u, .advance ok)] ≠ s := by
    intro u hu hacquire
    obtain ⟨f, fs, hframes⟩ := List.exists_cons_of_ne_nil hu
    exact ⟨u, fun ok => advance_ne hframes (fun _ => hacquire) ok⟩
  cases hacquired : s.lock.acquire t with
  | some lock => exact hgo t hentered (by simp [hacquired])
  | none =>
    -- The lock is another's, who has a call and may take the lock again.
    obtain ⟨u, -, hholder⟩ := acquire_eq_none hacquired
    refine hgo u (fun hnone => ?_) fun hrefused => ?_
    · rw [hsound.locked, LockProtocol.depth, hnone] at hholder
      cases hholder
    · obtain ⟨v, hv, hother⟩ := acquire_eq_none hrefused
      exact hv (eq_of_heldBy hother hholder)

/-- The worker is in a call, and the main thread waits for it. -/
theorem entered_progress_two : ∃ u, ∀ ok, runEvents apiStep LockProtocol.loaded (twoThreads ++ [(u, .advance ok)]) ≠
    runEvents apiStep LockProtocol.loaded twoThreads :=
  entered_progress (t := false) (by decide) (by decide)

end Progress

end Jni2Hook
