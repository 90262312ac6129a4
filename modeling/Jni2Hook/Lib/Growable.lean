import Mathlib.Algebra.Group.Nat.Defs
import Mathlib.Data.List.Basic

/-!
# Buffers that grow by doubling

A buffer is a block of cells with its contents in front. A call asks for room and writes behind the contents; when the
block is too small, its capacity is doubled until the contents fit, in words of 64 bits. Who gives out blocks may
refuse. A refusal latches: from then on a call does nothing, so a sequence of calls is checked once, when it has ended.

* `Holds`: the contents of a buffer, the capacity being a power of two.
* `Holds.call`: what a call does. It writes inside the block, and the doubling ends.
* `holds_run`: the calls up to the first one that is refused have written their values, and the others nothing.
* `run_answered`: a run from an empty buffer is refused exactly when a block was refused that it needs.
-/

namespace Lib

variable {α : Type}

/-- `none` is a cell that was never written. -/
structure Growable (α : Type) where
  data : List (Option α)
  size : Nat
  capacity : Nat
  ok : Bool
  deriving DecidableEq, Repr

/-- A buffer without a block. -/
def Growable.empty : Growable α := ⟨[], 0, 0, true⟩

/-- The doubling of `capacity` until it is no less than `need`. -/
def doubled : Nat → Nat → Nat → Option Nat
  | 0, _, _ => none
  | fuel + 1, capacity, need => if capacity < need then doubled fuel (capacity * 2 % 2 ^ 64) need else some capacity

/-- Room for `extra` more values. The first block has `first` cells; a doubling that has not ended after 65 rounds is at
zero and does not end. -/
def Growable.reserve (first : Nat) (b : Growable α) (extra : Nat) (granted : Bool) : Option (Growable α) :=
  if !b.ok || (b.size + extra) % 2 ^ 64 ≤ b.capacity then some b
  else
    match doubled 65 (if b.capacity = 0 then first else b.capacity) ((b.size + extra) % 2 ^ 64) with
    | none => none
    | some capacity =>
      if granted then some { b with
        data := b.data ++ List.replicate (capacity - b.data.length) none, capacity := capacity }
      else some { b with ok := false }

/-- The block with values at a position. -/
def Growable.written (b : Growable α) (position : Nat) (values : List α) : Growable α :=
  { b with data := b.data.take position ++ values.map some ++ b.data.drop (position + values.length) }

/-- Writes values into the block, and nothing outside of it. -/
def Growable.write (b : Growable α) (position : Nat) (values : List α) : Option (Growable α) :=
  if position + values.length ≤ b.data.length then some (b.written position values) else none

/-- Writes values behind the contents, and adds them to these. -/
def Growable.push (b : Growable α) (values : List α) : Option (Growable α) :=
  (b.write b.size values).map fun b => { b with size := b.size + values.length }

/-- A call asks for room for `extra` values, adds `values` and writes `behind` after these. -/
structure GrowCall (α : Type) where
  extra : Nat
  values : List α
  behind : List α

def Growable.call (first : Nat) (b : Growable α) (c : GrowCall α) (granted : Bool) : Option (Growable α) :=
  (b.reserve first c.extra granted).bind fun b =>
    if b.ok then (b.push c.values).bind fun b => b.write b.size c.behind else some b

/-- Calls, each with the answer to it when it asks for a larger block. -/
def runCalls (first : Nat) : Growable α → List (GrowCall α × Bool) → Option (Growable α)
  | b, [] => some b
  | b, c :: rest => (b.call first c.1 c.2).bind fun b => runCalls first b rest

/-! ## The doubling -/

/-- The doubling of a power of two ends at the least one that is enough. -/
theorem doubled_eq {need p : Nat} (fuel : Nat) (hneed : need ≤ 2 ^ 63) (hp : p ≤ 63) (hfuel : 64 ≤ p + fuel) :
    ∃ q, p ≤ q ∧ q ≤ 63 ∧ need ≤ 2 ^ q ∧ (q = p ∨ 2 ^ q < 2 * need) ∧ doubled fuel (2 ^ p) need = some (2 ^ q) := by
  induction fuel generalizing p with
  | zero => omega
  | succ fuel ih =>
    unfold doubled
    by_cases hlt : 2 ^ p < need
    · have hless : p < 63 := by
        by_contra hge
        obtain rfl : p = 63 := by omega
        omega
      have hpow : 2 ^ (p + 1) ≤ 2 ^ 63 := Nat.pow_le_pow_right (by decide) hless
      have hnext : 2 ^ p * 2 % 2 ^ 64 = 2 ^ (p + 1) := by
        rw [← Nat.pow_succ]
        exact Nat.mod_eq_of_lt (Nat.lt_of_le_of_lt hpow (by decide))
      obtain ⟨q, hpq, hq, henough, hleast, heq⟩ := ih hless (by omega)
      refine ⟨q, by omega, hq, henough, .inr ?_, ?_⟩
      · rcases hleast with rfl | hleast
        · rw [Nat.pow_succ]
          omega
        · exact hleast
      · rw [if_pos hlt, hnext, heq]
    · exact ⟨p, Nat.le_refl p, hp, Nat.le_of_not_lt hlt, .inl rfl, if_neg hlt⟩

/-! ## One call -/

/-- The buffer holds these values, and others behind them. The capacity is a power of two: that of the first block, or
less than twice the largest demand there was. -/
structure Growable.Holds (f : Nat) (b : Growable α) (values behind : List α) (demand : Nat) : Prop where
  block : b.data.length = b.capacity
  size : b.size = values.length
  contents : b.data.take (values ++ behind).length = (values ++ behind).map some
  capacity : b.capacity = 0 ∨ ∃ p ≤ 63, f ≤ p ∧ b.capacity = 2 ^ p ∧ (p = f ∨ 2 ^ p < 2 * demand)

section Calls

variable {f : Nat} {b b' : Growable α} {values behind : List α} {demand extra : Nat}

theorem holds_empty (f demand : Nat) : (Growable.empty : Growable α).Holds f [] [] demand := ⟨rfl, rfl, rfl, .inl rfl⟩

namespace Growable.Holds

theorem length_le (h : b.Holds f values behind demand) : (values ++ behind).length ≤ b.capacity := by
  have hlength := congrArg List.length h.contents
  rw [List.length_take, List.length_map, h.block] at hlength
  omega

theorem mono {demand' : Nat} (h : b.Holds f values behind demand) (hle : demand ≤ demand') :
    b.Holds f values behind demand' := by
  refine ⟨h.block, h.size, h.contents, h.capacity.imp_right ?_⟩
  rintro ⟨p, hp, hfp, hcapacity, hleast⟩
  exact ⟨p, hp, hfp, hcapacity, hleast.imp_right fun hlt => by omega⟩

/-- What stands behind the values is given up. -/
theorem values_only (h : b.Holds f values behind demand) : b.Holds f values [] demand := by
  refine ⟨h.block, h.size, ?_, h.capacity⟩
  have hfront := congrArg (List.take values.length) h.contents
  rw [List.take_take, Nat.min_eq_left (by rw [List.length_append]; omega), List.map_append,
    List.take_left' (List.length_map some)] at hfront
  rw [List.append_nil, hfront]

/-- Room is there, is refused, or is made. -/
theorem reserve (h : b.Holds f values behind demand) (hok : b.ok = true) (hf : f ≤ 63)
    (hfit : values.length + extra ≤ 2 ^ 63) (granted : Bool) :
    (b.capacity < values.length + extra ∧ granted = false ∧
      b.reserve (2 ^ f) extra granted = some { b with ok := false }) ∨
      ∃ b', b.reserve (2 ^ f) extra granted = some b' ∧ b'.ok = true ∧ values.length + extra ≤ b'.capacity ∧
        (granted = false → values.length + extra ≤ b.capacity) ∧
        b'.Holds f values behind (max demand (values.length + extra)) := by
  have hneed : (b.size + extra) % 2 ^ 64 = values.length + extra := by
    rw [h.size]
    exact Nat.mod_eq_of_lt (by omega)
  unfold Growable.reserve
  rw [hneed, hok]
  by_cases hroom : values.length + extra ≤ b.capacity
  · refine .inr ⟨b, ?_, hok, hroom, fun _ => hroom, h.mono (Nat.le_max_left _ _)⟩
    rw [if_pos (by simpa using hroom)]
  · obtain ⟨p, hp, hfp, hstart⟩ : ∃ p ≤ 63, f ≤ p ∧ (if b.capacity = 0 then 2 ^ f else b.capacity) = 2 ^ p ∧
        (p = f ∨ 2 ^ p < 2 * demand) := by
      rcases h.capacity with hzero | ⟨p, hp, hfp, hcapacity, hleast⟩
      · exact ⟨f, hf, Nat.le_refl f, if_pos hzero, .inl rfl⟩
      · refine ⟨p, hp, hfp, ?_, hleast⟩
        rw [if_neg (by rw [hcapacity]; exact Nat.pos_iff_ne_zero.mp (Nat.pow_pos (by decide))), hcapacity]
    obtain ⟨q, hpq, hq, henough, hdoubled, heq⟩ := doubled_eq 65 hfit hp (by omega)
    rw [if_neg (by simpa using hroom), hstart.1, heq]
    cases granted with
    | false => exact .inl ⟨Nat.lt_of_not_le hroom, rfl, rfl⟩
    | true =>
      have hinside : (values ++ behind).length ≤ b.data.length := by
        rw [h.block]
        exact h.length_le
      have hgrown : b.data.length ≤ 2 ^ q := by
        rw [h.block]
        omega
      refine .inr ⟨_, rfl, rfl, henough, fun hfalse => absurd hfalse (by decide), ?_, h.size, ?_,
        .inr ⟨q, hq, by omega, rfl, ?_⟩⟩
      · simp only [List.length_append, List.length_replicate]
        omega
      · dsimp only
        rw [List.take_append_of_le_length hinside, h.contents]
      · rcases hdoubled with rfl | hlt
        · exact hstart.2.imp_right fun hlt => by omega
        · exact .inr (by omega)

/-- What is written takes the place of what stood behind the values. -/
theorem write {more : List α} (h : b.Holds f values behind demand) (hroom : values.length + more.length ≤ b.capacity) :
    b.write b.size more = some (b.written b.size more) ∧ (b.written b.size more).Holds f values more demand := by
  have hinside : b.size + more.length ≤ b.data.length := by
    rw [h.block, h.size]
    exact hroom
  have htake : (b.data.take b.size).length = b.size := List.length_take_of_le (by omega)
  have hfront : (b.data.take b.size ++ more.map some).length = (values ++ more).length := by
    rw [List.length_append, htake, List.length_map, List.length_append, h.size]
  refine ⟨if_pos hinside, ?_, h.size, ?_, h.capacity⟩
  all_goals unfold Growable.written
  · rw [List.length_append, hfront, List.length_drop, List.length_append, ← h.size]
    have := h.block
    dsimp only
    omega
  · have hvalues := h.values_only.contents
    rw [List.append_nil, ← h.size] at hvalues
    dsimp only
    rw [List.take_left' hfront, hvalues, List.map_append]

/-- Values that there is room for are added. -/
theorem push {more : List α} (h : b.Holds f values behind demand) (hroom : values.length + more.length ≤ b.capacity) :
    ∃ b', b.push more = some b' ∧ b'.ok = b.ok ∧ b'.capacity = b.capacity ∧ b'.Holds f (values ++ more) [] demand := by
  obtain ⟨hwrite, hwritten⟩ := h.write hroom
  refine ⟨{ b.written b.size more with size := b.size + more.length }, ?_, rfl, rfl, hwritten.block, ?_, ?_, h.capacity⟩
  · rw [Growable.push, hwrite, Option.map_some]
    rfl
  · rw [List.length_append, h.size]
  · rw [List.append_nil]
    exact hwritten.contents

theorem push_nil (h : b.Holds f values behind demand) : b.push [] = some b := by
  have hinside := h.values_only.length_le
  rw [← h.block, List.append_nil, ← h.size] at hinside
  simp [Growable.push, Growable.write, Growable.written, hinside]

/-- A call that writes nothing behind its values. -/
theorem call_plain {more : List α} (h : b.Holds f values behind demand) (hok : b.ok = true) (hf : f ≤ 63)
    (hroom : more.length ≤ extra) (hfit : values.length + extra ≤ 2 ^ 63) (granted : Bool) :
    b.call (2 ^ f) ⟨extra, more, []⟩ granted =
      (b.reserve (2 ^ f) extra granted).bind fun b => if b.ok then b.push more else some b := by
  unfold Growable.call
  rcases h.reserve hok hf hfit granted with ⟨-, -, heq⟩ | ⟨b₁, heq, hok₁, hroom₁, -, h₁⟩
  · rw [heq]
    rfl
  · have hmore : values.length + more.length ≤ b₁.capacity := by omega
    obtain ⟨b₂, heq₂, -, -, h₂⟩ := h₁.push hmore
    have hinside := h₂.length_le
    rw [← h₂.block, List.append_nil, ← h₂.size] at hinside
    rw [heq, Option.bind_some, Option.bind_some, if_pos hok₁, if_pos hok₁, heq₂, Option.bind_some]
    simp [Growable.write, Growable.written, hinside]

/-- A call that adds nothing. -/
theorem call_reserve (h : b.Holds f values behind demand) (hok : b.ok = true) (hf : f ≤ 63)
    (hfit : values.length + extra ≤ 2 ^ 63) (granted : Bool) :
    b.call (2 ^ f) ⟨extra, [], []⟩ granted = b.reserve (2 ^ f) extra granted := by
  rw [h.call_plain hok hf (Nat.zero_le _) hfit granted]
  rcases h.reserve hok hf hfit granted with ⟨-, -, heq⟩ | ⟨b₁, heq, hok₁, -, -, h₁⟩
  · rw [heq]
    rfl
  · rw [heq, Option.bind_some, if_pos hok₁, h₁.push_nil]

/-- There is room for nothing. -/
theorem reserve_zero (h : b.Holds f values behind demand) (hfit : values.length ≤ 2 ^ 63) (first : Nat)
    (granted : Bool) :
    b.reserve first 0 granted = some b := by
  have hinside := h.values_only.length_le
  rw [List.append_nil] at hinside
  have hneed : (b.size + 0) % 2 ^ 64 = values.length := by
    rw [h.size]
    exact Nat.mod_eq_of_lt (by omega)
  rw [Growable.reserve, hneed, if_pos (by simp [hinside])]

/-- A call is refused when it asks for a larger block, and otherwise has done what it is for. -/
theorem call {c : GrowCall α} (h : b.Holds f values behind demand) (hok : b.ok = true) (hf : f ≤ 63)
    (hroom : c.values.length + c.behind.length ≤ c.extra) (hfit : values.length + c.extra ≤ 2 ^ 63) (granted : Bool) :
    (b.capacity < values.length + c.extra ∧ granted = false ∧ b.call (2 ^ f) c granted = some { b with ok := false }) ∨
      ∃ b', b.call (2 ^ f) c granted = some b' ∧ b'.ok = true ∧
        (granted = false → values.length + c.extra ≤ b.capacity) ∧
          b'.Holds f (values ++ c.values) c.behind (max demand (values.length + c.extra)) := by
  unfold Growable.call
  rcases h.reserve hok hf hfit granted with ⟨hlt, hrefused, heq⟩ | ⟨b₁, heq, hok₁, hroom₁, hneedless, h₁⟩
  · exact .inl ⟨hlt, hrefused, by rw [heq]; rfl⟩
  · have hvalues : values.length + c.values.length ≤ b₁.capacity := by omega
    obtain ⟨b₂, heq₂, hok₂, hcapacity, h₂⟩ := h₁.push hvalues
    have hbehind : (values ++ c.values).length + c.behind.length ≤ b₂.capacity := by
      rw [hcapacity, List.length_append]
      omega
    obtain ⟨heq₃, h₃⟩ := h₂.write hbehind
    refine .inr ⟨b₂.written b₂.size c.behind, ?_, hok₂.trans hok₁, hneedless, h₃⟩
    rw [heq, Option.bind_some, if_pos hok₁, heq₂, Option.bind_some, heq₃]

end Growable.Holds

/-- A call that was not refused has not depended on the answer. -/
theorem call_true {first : Nat} {c : GrowCall α} {granted : Bool} (h : b.call first c granted = some b')
    (hok : b'.ok = true) :
    b.call first c true = some b' := by
  cases granted with
  | true => exact h
  | false =>
    unfold Growable.call Growable.reserve at h ⊢
    split at h
    · rename_i hroom
      rw [if_pos hroom]
      exact h
    · split at h
      · cases h
      · -- the refused buffer is what the call has left
        cases h
        cases hok

/-! ## A run -/

/-- The largest number of values that calls ask room for, with `n` values in the buffer before. -/
def demandOf : Nat → List (GrowCall α × Bool) → Nat
  | _, [] => 0
  | n, c :: rest => max (n + c.1.extra) (demandOf (n + c.1.values.length) rest)

/-- Calls that ask for what they add and `slack` more ask for what they add in all and `slack` more. -/
theorem demandOf_le {n : Nat} (slack : Nat) {calls : List (GrowCall α × Bool)}
    (h : ∀ c ∈ calls, c.1.extra ≤ c.1.values.length + slack) :
    demandOf n calls ≤ n + (calls.flatMap (·.1.values)).length + slack := by
  induction calls generalizing n with
  | nil => exact Nat.zero_le _
  | cons c rest ih =>
    have hhere := List.forall_mem_cons.mp h
    have hrest := ih hhere.2 (n := n + c.1.values.length)
    rw [demandOf, List.flatMap_cons, List.length_append]
    have := hhere.1
    omega

theorem demandOf_append_le (n : Nat) (calls calls' : List (GrowCall α × Bool)) :
    demandOf n calls ≤ demandOf n (calls ++ calls') := by
  induction calls generalizing n with
  | nil => exact Nat.zero_le _
  | cons c rest ih =>
    have hrest := ih (n + c.1.values.length)
    rw [List.cons_append, demandOf, demandOf]
    omega

/-- After a refusal nothing happens. -/
theorem runCalls_latched {first : Nat} (hok : b.ok = false) (calls : List (GrowCall α × Bool)) :
    runCalls first b calls = some b := by
  induction calls with
  | nil => rfl
  | cons c rest ih =>
    rw [runCalls, Growable.call, Growable.reserve, hok]
    simp [hok, ih]

/-- What a run leaves: the values of the calls that were done, up to one that was refused a larger block. -/
structure RanTo (f : Nat) (b₀ : Growable α) (values behind : List α) (demand : Nat)
    (calls done rest : List (GrowCall α × Bool)) (b : Growable α) : Prop where
  split : calls = done ++ rest
  granted : runCalls (2 ^ f) b₀ (done.map fun c => (c.1, true)) = some { b with ok := true }
  holds : b.Holds f (values ++ done.flatMap (·.1.values)) (done.foldl (fun _ c => c.1.behind) behind)
    (max demand (demandOf values.length done))
  ok : b.ok = true ↔ rest = []
  refused : ∀ c granted more, rest = (c, granted) :: more → granted = false ∧ b.capacity < b.size + c.extra
  needless : ∀ before c after b', done = before ++ (c, false) :: after →
    runCalls (2 ^ f) b₀ (before.map fun c => (c.1, true)) = some b' → b'.size + c.extra ≤ b'.capacity

/-- Calls that ask for what they write, and for no more than 2^63 values in all, stay in the block and end. -/
theorem holds_run {calls : List (GrowCall α × Bool)} (h : b.Holds f values behind demand) (hok : b.ok = true)
    (hf : f ≤ 63) (hroom : ∀ c ∈ calls, c.1.values.length + c.1.behind.length ≤ c.1.extra)
    (hfit : demandOf values.length calls ≤ 2 ^ 63) :
    ∃ b' done rest, runCalls (2 ^ f) b calls = some b' ∧ RanTo f b values behind demand calls done rest b' := by
  induction calls generalizing b values behind demand with
  | nil =>
    have hcontents : b.Holds f (values ++ []) behind (max demand 0) := by
      rw [List.append_nil, Nat.max_zero]
      exact h
    refine ⟨b, [], [], rfl, ⟨rfl, ?_, hcontents, iff_of_true hok rfl, fun _ _ _ hmore => (by cases hmore),
      fun before _ _ _ hdone => absurd hdone (by simp)⟩⟩
    rw [List.map_nil, runCalls, ← hok]
  | cons c rest ih =>
    obtain ⟨c, granted⟩ := c
    have hhere := List.forall_mem_cons.mp hroom
    have hdemand : values.length + c.extra ≤ 2 ^ 63 ∧ demandOf (values.length + c.values.length) rest ≤ 2 ^ 63 :=
      Nat.max_le.mp hfit
    rcases h.call hok hf hhere.1 hdemand.1 granted with ⟨hlt, hrefused, heq⟩ | ⟨b₁, heq, hok₁, hneedless, h₁⟩
    · refine ⟨{ b with ok := false }, [], (c, granted) :: rest, ?_, rfl, ?_,
        ?_, by simp, fun c' granted' more hmore => ?_, fun before _ _ _ heq => absurd heq (by simp)⟩
      · dsimp only [runCalls]
        rw [heq, Option.bind_some]
        exact runCalls_latched rfl rest
      · rw [List.map_nil, runCalls, ← hok]
      · rw [List.flatMap_nil, List.append_nil, List.foldl_nil]
        exact ⟨h.block, h.size, h.contents, (h.mono (Nat.le_max_left _ _)).capacity⟩
      · cases hmore
        exact ⟨hrefused, by rw [h.size]; exact hlt⟩
    · obtain ⟨b', done, rest', hrun, hran⟩ := ih h₁ hok₁ hhere.2 (by rw [List.length_append]; exact hdemand.2)
      have hboth : runCalls (2 ^ f) b ((c, granted) :: rest) = some b' := by
        dsimp only [runCalls]
        rw [heq, Option.bind_some, hrun]
      refine ⟨b', (c, granted) :: done, rest', hboth, ?_, ?_, ?_, hran.ok, hran.refused,
        fun before c' after b'' hdone hbefore => ?_⟩
      · rw [hran.split, List.cons_append]
      · rw [List.map_cons, runCalls, call_true heq hok₁, Option.bind_some, hran.granted]
      · rw [List.flatMap_cons, List.foldl_cons, ← List.append_assoc]
        have hholds := hran.holds
        rw [List.length_append, Nat.max_assoc] at hholds
        exact hholds
      · rcases before with _ | ⟨first, before⟩
        · cases hdone
          cases hbefore
          rw [h.size]
          exact hneedless rfl
        · rw [List.cons_append, List.cons.injEq] at hdone
          obtain ⟨rfl, hdone⟩ := hdone
          rw [List.map_cons, runCalls, call_true heq hok₁, Option.bind_some] at hbefore
          exact hran.needless before c' after b'' hdone hbefore

end Calls

/-! ## Answers -/

/-- Calls from number `k` on, with the answers to them. -/
def answered (alloc : Nat → Bool) : Nat → List (GrowCall α) → List (GrowCall α × Bool)
  | _, [] => []
  | k, c :: rest => (c, alloc k) :: answered alloc (k + 1) rest

/-- Call number `k` needs a larger block, when all calls before it got what they asked for. -/
def GrowsAt (f : Nat) (calls : List (GrowCall α)) (k : Nat) : Prop :=
  ∃ before c after b, calls = before ++ c :: after ∧ before.length = k ∧
    runCalls (2 ^ f) .empty (before.map fun c => (c, true)) = some b ∧ b.capacity < b.size + c.extra

section Answers

variable {f : Nat} {alloc : Nat → Bool} {calls : List (GrowCall α)}

theorem answered_append (k : Nat) (calls calls' : List (GrowCall α)) :
    answered alloc k (calls ++ calls') = answered alloc k calls ++ answered alloc (k + calls.length) calls' := by
  induction calls generalizing k with
  | nil => rfl
  | cons c rest ih =>
    rw [List.cons_append, answered, answered, ih, List.cons_append, List.length_cons, Nat.add_right_comm, Nat.add_assoc]

theorem map_answered {β : Type} (g : GrowCall α → β) (k : Nat) (calls : List (GrowCall α)) :
    (answered alloc k calls).map (fun c => g c.1) = calls.map g := by
  induction calls generalizing k with
  | nil => rfl
  | cons c rest ih => rw [answered, List.map_cons, List.map_cons, ih]

theorem values_answered (k : Nat) (calls : List (GrowCall α)) :
    (answered alloc k calls).flatMap (·.1.values) = calls.flatMap (·.values) := by
  rw [List.flatMap_def, map_answered, ← List.flatMap_def]

theorem behind_answered (k : Nat) (last : List α) (calls : List (GrowCall α)) :
    (answered alloc k calls).foldl (fun _ c => c.1.behind) last = calls.foldl (fun _ c => c.behind) last := by
  induction calls generalizing k last with
  | nil => rfl
  | cons c rest ih => exact ih (k + 1) c.behind

theorem mem_answered {k : Nat} {c : GrowCall α × Bool} (h : c ∈ answered alloc k calls) : c.1 ∈ calls := by
  have hmem := List.mem_map_of_mem (f := fun c : GrowCall α × Bool => id c.1) h
  rwa [map_answered, List.map_id] at hmem

theorem answered_eq_append {k : Nat} {done more : List (GrowCall α × Bool)} {c : GrowCall α} {granted : Bool}
    (h : answered alloc k calls = done ++ (c, granted) :: more) :
    ∃ before after, calls = before ++ c :: after ∧ done = answered alloc k before ∧
      granted = alloc (k + before.length) := by
  induction calls generalizing k done with
  | nil => exact absurd h (by simp [answered])
  | cons c' rest ih =>
    rw [answered] at h
    rcases done with _ | ⟨first, done⟩
    · cases h
      exact ⟨[], rest, rfl, rfl, rfl⟩
    · rw [List.cons_append, List.cons.injEq] at h
      obtain ⟨rfl, h⟩ := h
      obtain ⟨before, after, rfl, rfl, hgranted⟩ := ih h
      exact ⟨c' :: before, after, rfl, rfl, by rw [hgranted, List.length_cons, Nat.add_right_comm, Nat.add_assoc]⟩

/-- A run holds what its calls add, or was refused a block that it needs. -/
theorem run_answered (hf : f ≤ 63) (hroom : ∀ c ∈ calls, c.values.length + c.behind.length ≤ c.extra)
    (hfit : demandOf 0 (answered alloc 0 calls) ≤ 2 ^ 63) :
    ∃ b, runCalls (2 ^ f) .empty (answered alloc 0 calls) = some b ∧
      ((b.ok = true ∧ b.Holds f (calls.flatMap (·.values)) (calls.foldl (fun _ c => c.behind) [])
          (demandOf 0 (answered alloc 0 calls)) ∧ ∀ k, GrowsAt f calls k → alloc k = true) ∨
        (b.ok = false ∧ ∃ k, GrowsAt f calls k ∧ alloc k = false)) := by
  have hall : ∀ c ∈ answered alloc 0 calls, c.1.values.length + c.1.behind.length ≤ c.1.extra :=
    fun c hmem => hroom c.1 (mem_answered hmem)
  obtain ⟨b, done, rest, hrun, hran⟩ := holds_run (holds_empty f 0) rfl hf hall hfit
  refine ⟨b, hrun, ?_⟩
  rcases rest with _ | ⟨⟨c, granted⟩, more⟩
  · have hdone := hran.split
    rw [List.append_nil] at hdone
    subst hdone
    have hholds := hran.holds
    rw [List.nil_append, values_answered, List.length_nil, Nat.zero_max, behind_answered] at hholds
    refine .inl ⟨hran.ok.mpr rfl, hholds, ?_⟩
    · rintro k ⟨before, c, after, b', rfl, rfl, hbefore, hlt⟩
      by_contra hrefused
      have hsplit : answered alloc 0 (before ++ c :: after) =
          answered alloc 0 before ++ (c, false) :: answered alloc (before.length + 1) after := by
        rw [answered_append, answered, Nat.zero_add, Bool.eq_false_iff.mpr hrefused]
      rw [← map_answered (fun c => (c, true)) 0] at hbefore
      exact absurd (hran.needless _ _ _ b' hsplit hbefore) (Nat.not_le.mpr hlt)
  · obtain ⟨hgranted, hlt⟩ := hran.refused c granted more rfl
    obtain ⟨before, after, hcalls, rfl, hanswer⟩ := answered_eq_append hran.split
    refine .inr ⟨Bool.eq_false_iff.mpr fun hok => (by cases hran.ok.mp hok), before.length,
      ⟨before, c, after, { b with ok := true }, hcalls, rfl, ?_, hlt⟩, ?_⟩
    · rw [← hran.granted, map_answered fun c => (c, true)]
    · rw [hanswer, Nat.zero_add] at hgranted
      exact hgranted

end Answers

end Lib
