/-
Module: TreeRssi.Lib.Rounds
Layer: Lib
Purpose: Progress along the runs of a labelled transition system. What one recorded step establishes and
  no later step destroys holds at the end; and a history that contains `k` rounds, one after the other,
  reaches the `k`-th of a sequence of levels, if every round climbs one level, whatever else happens
  between and inside the rounds. A system whose every step is a run of another one runs as that does. A
  measure that every counted step lowers bounds how many there are.
Imports: TreeRssi.Lib.Run
Trusted boundary: none
Main exports: Run.split, Run.append, Run.around, Run.of_mem, Run.since, Run.refine,
  Run.count_le, Rounds, Rounds.split, Rounds.filterMap, Rounds.level
Open obligations: none
-/
import TreeRssi.Lib.Run

namespace LabelledRun

universe u v w x

variable {σ : Type u} {ℓ : Type v} {step : σ → ℓ → Option σ} {ok : σ → ℓ → Prop} {s₀ s : σ}
  {trace : List (σ × ℓ)}

namespace Run

/-- The history up to some point is a run, and so is the rest. -/
theorem split {segment : List (σ × ℓ)} (h : Run step ok s₀ (segment ++ trace) s) :
    ∃ mid, Run step ok s₀ trace mid ∧ Run step ok mid segment s := by
  induction segment generalizing s with
  | nil => exact ⟨s, h, .nil⟩
  | cons e segment ih =>
      cases h with
      | snoc run allowed stepped =>
          obtain ⟨mid, before, after⟩ := ih run
          exact ⟨mid, before, after.snoc allowed stepped⟩

/-- A run that goes on where another one ended. -/
theorem append {mid : σ} {segment : List (σ × ℓ)} (h : Run step ok s₀ trace mid)
    (h' : Run step ok mid segment s) : Run step ok s₀ (segment ++ trace) s := by
  induction h' with
  | nil => exact h
  | snoc _ allowed stepped ih => exact ih.snoc allowed stepped

/-- Before a recorded step there is a run to the state in which it was taken, and behind it one from the
    state that it led to. -/
theorem around {before after : List (σ × ℓ)} {pre : σ} {l : ℓ}
    (h : Run step ok s₀ (after ++ (pre, l) :: before) s) :
    ∃ post, Run step ok s₀ before pre ∧ ok pre l ∧ step pre l = some post ∧ Run step ok post after s := by
  obtain ⟨post, first, rest⟩ := h.split
  cases first with
  | snoc run allowed stepped => exact ⟨post, run, allowed, stepped, rest⟩

/-- A recorded step was taken in a state that a run had reached. -/
theorem of_mem (h : Run step ok s₀ trace s) {pre : σ} {l : ℓ} (member : (pre, l) ∈ trace) :
    ∃ before post, Run step ok s₀ before pre ∧ ok pre l ∧ step pre l = some post := by
  obtain ⟨after, before, rfl⟩ := List.append_of_mem member
  obtain ⟨post, run, allowed, stepped, -⟩ := h.around
  exact ⟨before, post, run, allowed, stepped⟩

/-- What a recorded step establishes under the invariant `I`, and no step destroys, holds at the end. -/
theorem since {I J : σ → Prop} (h : Run step ok s₀ trace s) (start : I s₀)
    (kept : ∀ s l s', I s → ok s l → step s l = some s' → I s') {pre : σ} {l : ℓ}
    (member : (pre, l) ∈ trace)
    (establishes : ∀ post, I pre → ok pre l → step pre l = some post → J post)
    (stays : ∀ s l s', I s → J s → ok s l → step s l = some s' → J s') : J s := by
  induction h with
  | nil => cases member
  | snoc run allowed stepped ih =>
      have reached := run.invariant start kept
      rcases List.mem_cons.mp member with same | earlier
      · cases same
        exact establishes _ reached allowed stepped
      · exact stays _ _ _ reached (ih earlier) allowed stepped

/-- A system whose every step is a run of another one runs as that does. -/
theorem refine {τ : Type w} {m : Type x} {step' : τ → m → Option τ} {allow : τ → m → Prop} {I : σ → Prop}
    (f : σ → τ) (h : Run step ok s₀ trace s) (start : I s₀)
    (simulated : ∀ s l s', I s → ok s l → step s l = some s' →
      I s' ∧ ∃ segment, Run step' allow (f s) segment (f s')) :
    I s ∧ ∃ trace', Run step' allow (f s₀) trace' (f s) := by
  induction h with
  | nil => exact ⟨start, [], .nil⟩
  | snoc _ allowed stepped ih =>
      obtain ⟨reached, before, below⟩ := ih
      obtain ⟨kept, segment, more⟩ := simulated _ _ _ reached allowed stepped
      exact ⟨kept, _, below.append more⟩

/-- A measure that no step raises and every counted step lowers bounds how many of them there are. -/
theorem count_le {I : σ → Prop} {counted : ℓ → Bool} {measure : σ → Nat} (h : Run step ok s₀ trace s)
    (start : I s₀) (kept : ∀ s l s', I s → ok s l → step s l = some s' → I s')
    (lower : ∀ s l s', I s → ok s l → step s l = some s' → counted l = true → measure s' < measure s)
    (same : ∀ s l s', I s → ok s l → step s l = some s' → counted l = false → measure s' ≤ measure s) :
    trace.countP (fun e => counted e.2) + measure s ≤ measure s₀ := by
  induction h with
  | nil => simp
  | @snoc trace s s' l run allowed stepped ih =>
      have reached := run.invariant start kept
      cases label : counted l with
      | true =>
          have less := lower s l s' reached allowed stepped label
          rw [List.countP_cons, label, if_pos rfl]
          omega
      | false =>
          have more := same s l s' reached allowed stepped label
          rw [List.countP_cons, label, if_neg Bool.false_ne_true]
          omega

end Run

/-- The history ends with `k` parts, one after the other, each of which is a round; the latest step comes
    first. -/
inductive Rounds (isRound : List (σ × ℓ) → Prop) : Nat → List (σ × ℓ) → Prop where
  | start (trace : List (σ × ℓ)) : Rounds isRound 0 trace
  | more {k : Nat} {segment trace : List (σ × ℓ)} (before : Rounds isRound k trace)
      (round : isRound segment) : Rounds isRound (k + 1) (segment ++ trace)

/-- The last rounds of a history, and the ones before. -/
theorem Rounds.split {isRound : List (σ × ℓ) → Prop} {k m : Nat} (rounds : Rounds isRound (k + m) trace) :
    ∃ later earlier, trace = later ++ earlier ∧ Rounds isRound k earlier ∧ Rounds isRound m later := by
  induction m generalizing trace with
  | zero => exact ⟨[], trace, rfl, rounds, .start []⟩
  | succ m ih =>
      cases rounds with
      | @more _ segment trace before round =>
          obtain ⟨later, earlier, rfl, first, last⟩ := ih before
          exact ⟨segment ++ later, earlier, (List.append_assoc ..).symm, first, last.more round⟩

/-- The rounds of another history that shows only some of the steps. -/
theorem Rounds.filterMap {τ : Type w} {m : Type x} {isRound : List (σ × ℓ) → Prop}
    {isRound' : List (τ × m) → Prop} {k : Nat} (g : σ × ℓ → Option (τ × m)) (rounds : Rounds isRound k trace)
    (seen : ∀ segment, isRound segment → isRound' (segment.filterMap g)) :
    Rounds isRound' k (trace.filterMap g) := by
  induction rounds with
  | start trace => exact .start _
  | more _ round ih =>
      rw [List.filterMap_append]
      exact ih.more (seen _ round)

/-- A history with `k` rounds reaches level `k`, if every round climbs one level. -/
theorem Rounds.level {isRound : List (σ × ℓ) → Prop} {I : σ → Prop} {L : Nat → σ → Prop} {k : Nat}
    (rounds : Rounds isRound k trace) (run : Run step ok s₀ trace s) (start : I s₀)
    (kept : ∀ s l s', I s → ok s l → step s l = some s' → I s') (base : ∀ s, I s → L 0 s)
    (climb : ∀ k segment mid s, I mid → L k mid → Run step ok mid segment s → isRound segment →
      L (k + 1) s) : L k s := by
  induction rounds generalizing s with
  | start trace => exact base s (run.invariant start kept)
  | more _ round ih =>
      obtain ⟨mid, before, after⟩ := run.split
      exact climb _ _ mid s (before.invariant start kept) (ih before) after round

end LabelledRun
