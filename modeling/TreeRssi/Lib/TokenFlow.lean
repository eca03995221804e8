/-
Module: TreeRssi.Lib.TokenFlow
Layer: Lib
Purpose: Tokens that are handed from place to place. A token is born somewhere, waits at a place, is
  served there (kept, dropped, or sent on to another place), travels, and arrives or is lost. Nothing is
  assumed about the order of the steps. The one law is a balance: a value that every move lowers by its
  cost is spent along the way, in any commutative monoid; conservation of tokens and the exact number of
  moves are instances. A value of natural numbers also bounds how long a flow without new tokens goes on.
  Flows are added place by place, and a step of one is a step of any sum.
Imports: TreeRssi.Lib.Rounds, Mathlib (sums over finite sets and multisets)
Trusted boundary: none
Main exports: Fate, Flow, FlowAction, Flow.step, Flow.Stepped, Flow.step_frame, Flow.run_frame, Flow.total,
  Flow.Priced, Flow.balance, Flow.balance_empty, Flow.ended, Flow.landed, Flow.conserved_since,
  Flow.conserved, Flow.work, Flow.Approaching, Flow.run_work
Open obligations: none
-/
import Mathlib.Algebra.BigOperators.Group.Finset.Basic
import Mathlib.Tactic.Abel
import TreeRssi.Lib.Rounds

namespace TokenFlow

open LabelledRun

universe u v w x

variable {ν : Type u} {α : Type v}

/-- What a place does with a token. -/
inductive Fate (ν : Type u) where
  | deliver
  | drop
  | forward (next : ν)

/-- Tokens, each with the place where it was born, is, was delivered or dropped, or that it travels to or
    did not reach; and all moves, with both their ends. -/
@[ext] structure Flow (ν : Type u) (α : Type v) where
  born : Multiset (ν × α)
  queued : Multiset (ν × α)
  air : Multiset (ν × α)
  delivered : Multiset (ν × α)
  dropped : Multiset (ν × α)
  lost : Multiset (ν × α)
  moves : Multiset (ν × ν × α)

/-- What can happen to a token. -/
inductive FlowAction (ν : Type u) (α : Type v) where
  | inject (place : ν) (token : α)
  | arrive (place : ν) (token : α)
  | lose (place : ν) (token : α)
  | serve (place : ν) (token : α) (fate : Fate ν)

namespace Flow

/-- No token yet. -/
def empty : Flow ν α := ⟨0, 0, 0, 0, 0, 0, 0⟩

/-- A place has done with a token what its fate says. -/
def meet (s : Flow ν α) (place : ν) (token : α) : Fate ν → Flow ν α
  | .deliver => { s with delivered := (place, token) ::ₘ s.delivered }
  | .drop => { s with dropped := (place, token) ::ₘ s.dropped }
  | .forward next =>
      { s with air := (next, token) ::ₘ s.air, moves := (place, next, token) ::ₘ s.moves }

/-- One step of a flow; `none` when the token is not there. -/
def step [DecidableEq ν] [DecidableEq α] (s : Flow ν α) : FlowAction ν α → Option (Flow ν α)
  | .inject place token =>
      some { s with born := (place, token) ::ₘ s.born, queued := (place, token) ::ₘ s.queued }
  | .arrive place token =>
      if (place, token) ∈ s.air then
        some { s with air := s.air.erase (place, token), queued := (place, token) ::ₘ s.queued }
      else none
  | .lose place token =>
      if (place, token) ∈ s.air then
        some { s with air := s.air.erase (place, token), lost := (place, token) ::ₘ s.lost }
      else none
  | .serve place token fate =>
      if (place, token) ∈ s.queued then
        some ({ s with queued := s.queued.erase (place, token) }.meet place token fate)
      else none

/-- The outcomes of a step. -/
inductive Stepped [DecidableEq ν] [DecidableEq α] (s : Flow ν α) : FlowAction ν α → Flow ν α → Prop where
  | injected {place : ν} {token : α} : Stepped s (.inject place token)
      { s with born := (place, token) ::ₘ s.born, queued := (place, token) ::ₘ s.queued }
  | arrived {place : ν} {token : α} (there : (place, token) ∈ s.air) : Stepped s (.arrive place token)
      { s with air := s.air.erase (place, token), queued := (place, token) ::ₘ s.queued }
  | lost {place : ν} {token : α} (there : (place, token) ∈ s.air) : Stepped s (.lose place token)
      { s with air := s.air.erase (place, token), lost := (place, token) ::ₘ s.lost }
  | served {place : ν} {token : α} {fate : Fate ν} (there : (place, token) ∈ s.queued) :
      Stepped s (.serve place token fate)
        ({ s with queued := s.queued.erase (place, token) }.meet place token fate)

section
variable [DecidableEq ν] [DecidableEq α] {s s' s₀ : Flow ν α} {action : FlowAction ν α}

theorem step_stepped (stepped : s.step action = some s') : s.Stepped action s' := by
  cases action with
  | inject place token =>
      cases stepped
      exact .injected
  | arrive place token =>
      obtain ⟨there, rest⟩ := Option.ite_none_right_eq_some.mp stepped
      cases rest
      exact .arrived there
  | lose place token =>
      obtain ⟨there, rest⟩ := Option.ite_none_right_eq_some.mp stepped
      cases rest
      exact .lost there
  | serve place token fate =>
      obtain ⟨there, rest⟩ := Option.ite_none_right_eq_some.mp stepped
      cases rest
      exact .served there

/-- Only an injection is a birth. -/
theorem step_born (stepped : s.step action = some s') (other : ∀ place token, action ≠ .inject place token) :
    s'.born = s.born := by
  cases step_stepped stepped with
  | injected => exact absurd rfl (other _ _)
  | arrived | lost => rfl
  | @served _ _ fate => cases fate <;> rfl

/-- Only a delivery delivers. -/
theorem step_delivered (stepped : s.step action = some s')
    (other : ∀ place token, action ≠ .serve place token .deliver) : s'.delivered = s.delivered := by
  cases step_stepped stepped with
  | injected | arrived | lost => rfl
  | @served _ _ fate =>
      cases fate with
      | deliver => exact absurd rfl (other _ _)
      | drop | forward => rfl

/-- Only a drop drops. -/
theorem step_dropped (stepped : s.step action = some s')
    (other : ∀ place token, action ≠ .serve place token .drop) : s'.dropped = s.dropped := by
  cases step_stepped stepped with
  | injected | arrived | lost => rfl
  | @served _ _ fate =>
      cases fate with
      | drop => exact absurd rfl (other _ _)
      | deliver | forward => rfl

end

/-! ### Flows side by side -/

instance : Add (Flow ν α) where
  add a b := ⟨a.born + b.born, a.queued + b.queued, a.air + b.air, a.delivered + b.delivered,
    a.dropped + b.dropped, a.lost + b.lost, a.moves + b.moves⟩

instance : Zero (Flow ν α) := ⟨empty⟩

@[simp] theorem add_born (a b : Flow ν α) : (a + b).born = a.born + b.born := rfl
@[simp] theorem add_queued (a b : Flow ν α) : (a + b).queued = a.queued + b.queued := rfl
@[simp] theorem add_air (a b : Flow ν α) : (a + b).air = a.air + b.air := rfl
@[simp] theorem add_delivered (a b : Flow ν α) : (a + b).delivered = a.delivered + b.delivered := rfl
@[simp] theorem add_dropped (a b : Flow ν α) : (a + b).dropped = a.dropped + b.dropped := rfl
@[simp] theorem add_lost (a b : Flow ν α) : (a + b).lost = a.lost + b.lost := rfl
@[simp] theorem add_moves (a b : Flow ν α) : (a + b).moves = a.moves + b.moves := rfl

instance : AddCommMonoid (Flow ν α) where
  add_assoc a b c := by ext1 <;> exact add_assoc _ _ _
  zero_add a := by ext1 <;> exact zero_add _
  add_zero a := by ext1 <;> exact add_zero _
  add_comm a b := by ext1 <;> exact add_comm _ _
  nsmul := nsmulRec

/-- A sum of flows, seen through one of their parts. -/
theorem sum_part {ι : Type w} {M : Type x} [AddCommMonoid M] (part : Flow ν α → M) (zero : part 0 = 0)
    (add : ∀ a b, part (a + b) = part a + part b) (places : Finset ι) (f : ι → Flow ν α) :
    part (places.sum f) = places.sum fun i => part (f i) :=
  map_sum (⟨⟨part, zero⟩, add⟩ : Flow ν α →+ M) f places

/-- Tokens that wait. -/
def ofQueued (tokens : Multiset (ν × α)) : Flow ν α := { empty with queued := tokens }

/-- Tokens that travel. -/
def ofAir (tokens : Multiset (ν × α)) : Flow ν α := { empty with air := tokens }

@[simp] theorem ofAir_zero : (ofAir 0 : Flow ν α) = 0 := rfl

theorem ofAir_add (a b : Multiset (ν × α)) : ofAir (a + b) = ofAir a + ofAir b := by
  ext1 <;> simp [ofAir, empty]

/-- Tokens elsewhere are in nobody's way: a step stays a step beside any other flow. -/
theorem step_frame [DecidableEq ν] [DecidableEq α] {s s' : Flow ν α} {action : FlowAction ν α}
    (stepped : s.step action = some s') (r : Flow ν α) : (s + r).step action = some (s' + r) := by
  cases step_stepped stepped with
  | injected => exact congrArg some (by ext1 <;> simp)
  | @arrived place token there | @lost place token there =>
      have beside : (place, token) ∈ (s + r).air := Multiset.mem_add.mpr (.inl there)
      rw [step, if_pos beside]
      exact congrArg some (by ext1 <;> simp [Multiset.erase_add_left_pos _ there])
  | @served place token fate there =>
      have beside : (place, token) ∈ (s + r).queued := Multiset.mem_add.mpr (.inl there)
      rw [step, if_pos beside]
      cases fate with
      | deliver | drop | forward =>
          exact congrArg some (by ext1 <;> simp [meet, Multiset.erase_add_left_pos _ there])

/-- A run stays a run beside any other flow, if its guard does not look at the flow. -/
theorem run_frame [DecidableEq ν] [DecidableEq α] {allowed : FlowAction ν α → Prop} {s₀ s : Flow ν α}
    {trace : List (Flow ν α × FlowAction ν α)} (run : Run step (fun _ => allowed) s₀ trace s)
    (r : Flow ν α) : ∃ trace', Run step (fun _ => allowed) (s₀ + r) trace' (s + r) := by
  induction run with
  | nil => exact ⟨[], .nil⟩
  | snoc _ fine stepped ih =>
      obtain ⟨trace', run'⟩ := ih
      exact ⟨_, run'.snoc fine (step_frame stepped r)⟩

/-! ### The balance -/

section
variable {M : Type w} [AddCommMonoid M]

/-- The value of all tokens that were born, wherever they are now. -/
def total (value : ν × α → M) (s : Flow ν α) : M :=
  (s.queued.map value).sum + (s.air.map value).sum + (s.delivered.map value).sum +
    (s.dropped.map value).sum + (s.lost.map value).sum

/-- Every move costs what it takes off the value of its token. -/
def Priced (value : ν × α → M) (cost : ν × ν × α → M) (_ : Flow ν α) : FlowAction ν α → Prop
  | .serve place token (.forward next) =>
      value (place, token) = cost (place, next, token) + value (next, token)
  | _ => True

variable [DecidableEq ν] [DecidableEq α] {value : ν × α → M} {cost : ν × ν × α → M}
  {s s' s₀ : Flow ν α} {trace : List (Flow ν α × FlowAction ν α)}

/-- What a step adds to the values of the tokens born, it adds to the costs and the values. -/
theorem balance_step {action : FlowAction ν α} (priced : Priced value cost s action)
    (stepped : s.step action = some s') : ∃ gain,
      (s'.moves.map cost).sum + s'.total value = (s.moves.map cost).sum + s.total value + gain ∧
      (s'.born.map value).sum = (s.born.map value).sum + gain := by
  simp only [total]
  cases step_stepped stepped with
  | @injected place token =>
      refine ⟨value (place, token), ?_, ?_⟩
      · simp only [Multiset.map_cons, Multiset.sum_cons]
        abel
      · simp only [Multiset.map_cons, Multiset.sum_cons, add_comm]
  | arrived there | lost there =>
      refine ⟨0, ?_, (add_zero _).symm⟩
      rw [← Multiset.sum_map_erase (m := s.air) there]
      simp only [Multiset.map_cons, Multiset.sum_cons]
      abel
  | @served place token fate there =>
      refine ⟨0, ?_, by cases fate <;> exact (add_zero _).symm⟩
      rw [← Multiset.sum_map_erase (m := s.queued) there]
      cases fate with
      | deliver | drop =>
          simp only [meet, Multiset.map_cons, Multiset.sum_cons]
          abel
      | forward next =>
          have price : value (place, token) = cost (place, next, token) + value (next, token) := priced
          simp only [meet, Multiset.map_cons, Multiset.sum_cons]
          rw [price]
          abel

/-- What a run adds to the values of the tokens born, it adds to the costs of all moves and the values of
    all tokens. -/
theorem balance (run : Run step (Priced value cost) s₀ trace s) : ∃ gain,
    (s.moves.map cost).sum + s.total value = (s₀.moves.map cost).sum + s₀.total value + gain ∧
    (s.born.map value).sum = (s₀.born.map value).sum + gain := by
  induction run with
  | nil => exact ⟨0, (add_zero _).symm, (add_zero _).symm⟩
  | snoc _ priced stepped ih =>
      obtain ⟨gain, spent, born⟩ := ih
      obtain ⟨more, spent', born'⟩ := balance_step priced stepped
      exact ⟨gain + more, by rw [spent', spent, add_assoc], by rw [born', born, add_assoc]⟩

/-- From the empty flow on, the costs of all moves and the values of all tokens are together the values of
    the tokens when they were born. -/
theorem balance_empty (run : Run step (Priced value cost) empty trace s) :
    (s.moves.map cost).sum + s.total value = (s.born.map value).sum := by
  obtain ⟨gain, spent, born⟩ := balance run
  rw [spent, born]
  simp [total, empty]

/-- A token that ends has no value left. -/
def Spent (value : ν × α → M) (_ : Flow ν α) : FlowAction ν α → Prop
  | .serve place token .deliver | .serve place token .drop => value (place, token) = 0
  | _ => True

/-- Then those that have ended keep the value that they had together. -/
theorem ended (run : Run step (Spent value) s₀ trace s) :
    (s.delivered.map value).sum = (s₀.delivered.map value).sum ∧
      (s.dropped.map value).sum = (s₀.dropped.map value).sum := by
  refine run.invariant (I := fun s => (s.delivered.map value).sum = (s₀.delivered.map value).sum ∧
    (s.dropped.map value).sum = (s₀.dropped.map value).sum) ⟨rfl, rfl⟩ ?_
  intro s action s' same spent stepped
  cases step_stepped stepped with
  | injected | arrived | lost => exact same
  | @served place token fate _ =>
      cases fate with
      | forward => exact same
      | deliver | drop =>
          have none_ : value (place, token) = 0 := spent
          simpa only [meet, Multiset.map_cons, Multiset.sum_cons, none_, zero_add] using same

/-- What is no longer in the air, as the arrivals and the losses of a history. -/
def landing (value : ν × α → M) : FlowAction ν α → M
  | .arrive place token | .lose place token => value (place, token)
  | _ => 0

/-- What was sent is in the air or has landed. -/
theorem landed {l : M} {ok : Flow ν α → FlowAction ν α → Prop} (run : Run step ok s₀ trace s)
    (start : (s₀.moves.map fun m => value (m.2.1, m.2.2)).sum = (s₀.air.map value).sum + l) :
    (s.moves.map fun m => value (m.2.1, m.2.2)).sum =
      (s.air.map value).sum + ((trace.map fun e => landing value e.2).sum + l) := by
  induction run with
  | nil => simpa using start
  | @snoc trace s s' action _ _ stepped ih =>
      rw [List.map_cons, List.sum_cons]
      generalize (trace.map fun e => landing value e.2).sum = gone at ih ⊢
      cases step_stepped stepped with
      | injected => simpa only [landing, zero_add] using ih
      | arrived there | lost there =>
          rw [← Multiset.sum_map_erase (m := s.air) there] at ih
          simp only [landing]
          rw [ih]
          abel
      | @served place token fate _ =>
          cases fate with
          | deliver | drop => simpa only [landing, meet, zero_add] using ih
          | forward next =>
              simp only [landing, meet, zero_add, Multiset.map_cons, Multiset.sum_cons]
              rw [ih, add_assoc]

end

/-! ### Instances -/

section
variable [DecidableEq ν] [DecidableEq α] {s s' s₀ : Flow ν α} {trace : List (Flow ν α × FlowAction ν α)}

/-- A run makes no token, and loses or doubles none without a trace: what it adds to the tokens, it adds to
    those that were born. -/
theorem conserved_since {ok : Flow ν α → FlowAction ν α → Prop} (run : Run step ok s₀ trace s) :
    (s.queued + s.air + s.delivered + s.dropped + s.lost).map Prod.snd + s₀.born.map Prod.snd =
      (s₀.queued + s₀.air + s₀.delivered + s₀.dropped + s₀.lost).map Prod.snd + s.born.map Prod.snd := by
  have free : Run step (Priced (fun t => ({t.2} : Multiset α)) fun _ => 0) s₀ trace s := by
    refine run.weaken fun s action s' _ _ => ?_
    cases action with
    | serve place token fate =>
        cases fate with
        | forward next => exact (zero_add _).symm
        | deliver | drop => trivial
    | inject | arrive | lose => trivial
  obtain ⟨gain, tokens, born⟩ := balance free
  simp only [total, Multiset.sum_map_zero, zero_add, Multiset.sum_map_singleton,
    ← Function.comp_def (fun a => ({a} : Multiset α)) Prod.snd, ← Multiset.map_map] at tokens born
  simp only [Multiset.map_add]
  rw [tokens, born]
  abel

theorem conserved {ok : Flow ν α → FlowAction ν α → Prop} (run : Run step ok empty trace s) :
    (s.queued + s.air + s.delivered + s.dropped + s.lost).map Prod.snd = s.born.map Prod.snd := by
  simpa [empty] using conserved_since run

/-! ### What is left to do -/

/-- A token that has so many moves before it takes one service more than moves, and an arrival for each
    move; one that travels has its arrival before it as well. -/
def work (hops : ν × α → ℕ) (s : Flow ν α) : ℕ :=
  (s.queued.map fun t => 2 * hops t + 1).sum + (s.air.map fun t => 2 * hops t + 2).sum

/-- No token is born, and every move brings its token one nearer. -/
def Approaching (hops : ν × α → ℕ) (_ : Flow ν α) : FlowAction ν α → Prop
  | .inject _ _ => False
  | .serve place token (.forward next) => hops (place, token) = hops (next, token) + 1
  | _ => True

/-- Every step does some of the work. -/
theorem work_step {hops : ν × α → ℕ} {action : FlowAction ν α} (approaching : Approaching hops s action)
    (stepped : s.step action = some s') : s'.work hops < s.work hops := by
  rw [work, work]
  cases step_stepped stepped with
  | injected => exact approaching.elim
  | arrived there =>
      rw [← Multiset.sum_map_erase (m := s.air) there]
      simp only [Multiset.map_cons, Multiset.sum_cons]
      omega
  | lost there =>
      rw [← Multiset.sum_map_erase (m := s.air) there]
      dsimp only
      omega
  | @served place token fate there =>
      rw [← Multiset.sum_map_erase (m := s.queued) there]
      cases fate with
      | deliver | drop =>
          simp only [meet]
          omega
      | forward next =>
          have nearer : hops (place, token) = hops (next, token) + 1 := approaching
          simp only [meet, Multiset.map_cons, Multiset.sum_cons]
          omega

/-- So a flow without new tokens does not take more steps than there is work. -/
theorem run_work {hops : ν × α → ℕ} (run : Run step (Approaching hops) s₀ trace s) :
    trace.length + s.work hops ≤ s₀.work hops := by
  induction run with
  | nil => simp
  | snoc _ approaching stepped ih =>
      have done := work_step approaching stepped
      rw [List.length_cons]
      omega

end

end Flow

end TokenFlow
