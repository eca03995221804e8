/-
Module: TreeRssi.Lib.Run
Layer: Lib
Purpose: Runs of a labelled transition system whose step function is partial and executable. A run
  keeps its whole history: every step is recorded with the state it was taken in, so a property can
  speak about what happened earlier as well as about the state reached. A guard `ok` on the steps
  selects a class of runs. The rules are the usual ones: an inductive invariant, a transitive
  relation along the run, forward simulation, projection to a system that sees only some of the steps,
  matching step by step with another system, and the link with the executable `execute`.
Imports: Mathlib (lists related entry by entry)
Trusted boundary: none
Main exports: Run, Run.guard, Run.invariant, Run.rel_of_mem, Run.simulate, Run.project, Run.matched,
  Run.executes, execute, history, Run.of_execute
Open obligations: none
-/
import Mathlib.Data.List.Forall2

namespace LabelledRun

universe u v w x

variable {σ : Type u} {ℓ : Type v}

/-- `Run step ok s₀ trace s`: from `s₀` the steps of `trace`, each allowed by `ok`, lead to `s`. The
    latest step comes first, and each step is recorded with the state in which it was taken. -/
inductive Run (step : σ → ℓ → Option σ) (ok : σ → ℓ → Prop) (s₀ : σ) :
    List (σ × ℓ) → σ → Prop where
  | nil : Run step ok s₀ [] s₀
  | snoc {trace : List (σ × ℓ)} {s s' : σ} {l : ℓ}
      (run : Run step ok s₀ trace s) (allowed : ok s l) (stepped : step s l = some s') :
      Run step ok s₀ ((s, l) :: trace) s'

/-- The guard that allows every step. -/
def anyStep (_ : σ) (_ : ℓ) : Prop := True

namespace Run

variable {step : σ → ℓ → Option σ} {ok ok' : σ → ℓ → Prop} {s₀ s : σ} {trace : List (σ × ℓ)}

/-- A run stays a run under a weaker guard. -/
theorem weaken (h : Run step ok s₀ trace s)
    (weaker : ∀ s l s', ok s l → step s l = some s' → ok' s l) : Run step ok' s₀ trace s := by
  induction h with
  | nil => exact .nil
  | snoc _ allowed stepped ih => exact .snoc ih (weaker _ _ _ allowed stepped) stepped

/-- A run whose recorded steps all meet another guard is a run under that guard. -/
theorem guard (h : Run step ok s₀ trace s) (met : ∀ e ∈ trace, ok' e.1 e.2) :
    Run step ok' s₀ trace s := by
  induction h with
  | nil => exact .nil
  | snoc _ _ stepped ih =>
      obtain ⟨last, earlier⟩ := List.forall_mem_cons.mp met
      exact .snoc (ih earlier) last stepped

/-- A predicate that holds at the start and is kept by every allowed step holds in the state
    reached. -/
theorem invariant {I : σ → Prop} (h : Run step ok s₀ trace s) (start : I s₀)
    (kept : ∀ s l s', I s → ok s l → step s l = some s' → I s') : I s := by
  induction h with
  | nil => exact start
  | snoc _ allowed stepped ih => exact kept _ _ _ ih allowed stepped

/-- A transitive relation that every allowed step respects relates each state of the history to the
    state reached. The steps may be taken under an invariant. -/
theorem rel_of_mem {I : σ → Prop} {R : σ → σ → Prop}
    (trans : ∀ s t u, R s t → R t u → R s u) (start : I s₀)
    (kept : ∀ s l s', I s → ok s l → step s l = some s' → I s' ∧ R s s')
    (h : Run step ok s₀ trace s) {pre : σ} {l : ℓ} (member : (pre, l) ∈ trace) : R pre s := by
  induction h with
  | nil => cases member
  | snoc run allowed stepped ih =>
      have reached := run.invariant start fun s l s' hI ho hs => (kept s l s' hI ho hs).1
      have last := (kept _ _ _ reached allowed stepped).2
      rcases List.mem_cons.mp member with same | earlier
      · cases same
        exact last
      · exact trans _ _ _ (ih earlier) last

/-- A run is simulated by a run of another system: every allowed step, taken under an invariant, is an
    allowed step between the views of its states. -/
theorem simulate {τ : Type w} {m : Type x} {step' : τ → m → Option τ} {allows : τ → m → Prop}
    {I : σ → Prop} (view : σ → τ) (label : σ → ℓ → m) (start : I s₀)
    (simulated : ∀ s l s', I s → ok s l → step s l = some s' →
      I s' ∧ allows (view s) (label s l) ∧ step' (view s) (label s l) = some (view s'))
    (h : Run step ok s₀ trace s) :
    I s ∧ Run step' allows (view s₀) (trace.map fun e => (view e.1, label e.1 e.2)) (view s) := by
  induction h with
  | nil => exact ⟨start, .nil⟩
  | snoc _ allowed stepped ih =>
      obtain ⟨kept, allowed', stepped'⟩ := simulated _ _ _ ih.1 allowed stepped
      exact ⟨kept, .snoc ih.2 allowed' stepped'⟩

/-- A projection takes a run to a run, if each step is a step of the other system there or is not seen
    there at all. -/
theorem project {τ : Type w} {m : Type x} {step' : τ → m → Option τ} {allow : τ → m → Prop} {I : σ → Prop}
    (f : σ → τ) (g : ℓ → Option m) (h : Run step ok s₀ trace s) (start : I s₀)
    (kept : ∀ s l s', I s → ok s l → step s l = some s' → I s')
    (seen : ∀ s l s' k, I s → ok s l → step s l = some s' → g l = some k →
      allow (f s) k ∧ step' (f s) k = some (f s'))
    (unseen : ∀ s l s', I s → ok s l → step s l = some s' → g l = none → f s' = f s) :
    Run step' allow (f s₀) (trace.filterMap fun e => (g e.2).map fun k => (f e.1, k)) (f s) := by
  induction h with
  | nil => exact .nil
  | @snoc trace s s' l run allowed stepped ih =>
      have reached := run.invariant start kept
      cases label : g l with
      | none =>
          rw [List.filterMap_cons_none (by simp [label]), unseen s l s' reached allowed stepped label]
          exact ih
      | some k =>
          obtain ⟨allowed', stepped'⟩ := seen s l s' k reached allowed stepped label
          rw [List.filterMap_cons_some (b := (f s, k)) (by simp [label])]
          exact .snoc ih allowed' stepped'

/-- A run is matched by a run of another system, step by step: every allowed step, taken in related
    states, is matched by an allowed step of the other one to related states. -/
theorem matched {τ : Type w} {m : Type x} {step' : τ → m → Option τ} {allows : τ → m → Prop}
    {R : σ → τ → Prop} {L : σ × ℓ → τ × m → Prop} {t₀ : τ} (h : Run step ok s₀ trace s) (start : R s₀ t₀)
    (simulated : ∀ s l s' t, R s t → ok s l → step s l = some s' →
      ∃ k t', allows t k ∧ step' t k = some t' ∧ L (s, l) (t, k) ∧ R s' t') :
    ∃ trace' t, Run step' allows t₀ trace' t ∧ List.Forall₂ L trace trace' ∧ R s t := by
  induction h with
  | nil => exact ⟨[], t₀, .nil, .nil, start⟩
  | snoc _ allowed stepped ih =>
      obtain ⟨trace', t, run', related, here⟩ := ih
      obtain ⟨k, t', allowed', stepped', label, after⟩ := simulated _ _ _ t here allowed stepped
      exact ⟨(t, k) :: trace', t', .snoc run' allowed' stepped', .cons label related, after⟩

end Run

/-- Take the steps of a list in order, failing as soon as one of them is not enabled. -/
def execute (step : σ → ℓ → Option σ) : σ → List ℓ → Option σ
  | s, [] => some s
  | s, l :: ls => (step s l).bind fun s' => execute step s' ls

theorem execute_append (step : σ → ℓ → Option σ) (s : σ) (ls ls' : List ℓ) :
    execute step s (ls ++ ls') = (execute step s ls).bind fun s' => execute step s' ls' := by
  induction ls generalizing s with
  | nil => rfl
  | cons l ls ih => simp only [List.cons_append, execute, ih, Option.bind_assoc]

/-- The steps of a run, in order, lead where the run does. -/
theorem Run.executes {step : σ → ℓ → Option σ} {ok : σ → ℓ → Prop} {s₀ s : σ} {trace : List (σ × ℓ)}
    (h : Run step ok s₀ trace s) : execute step s₀ (trace.map Prod.snd).reverse = some s := by
  induction h with
  | nil => rfl
  | snoc _ _ stepped ih =>
      rw [List.map_cons, List.reverse_cons, execute_append, ih, Option.bind_some, execute, stepped]
      rfl

/-- The recorded steps of an execution, the latest first. -/
def history (step : σ → ℓ → Option σ) : σ → List ℓ → List (σ × ℓ)
  | _, [] => []
  | s, l :: ls =>
      match step s l with
      | none => []
      | some s' => history step s' ls ++ [(s, l)]

/-- Executing more steps after a run extends the run. -/
theorem Run.extend {step : σ → ℓ → Option σ} {ok : σ → ℓ → Prop} {s₀ s s' : σ}
    {trace : List (σ × ℓ)} {ls : List ℓ} (h : Run step ok s₀ trace s)
    (allowed : ∀ s, ∀ l ∈ ls, ok s l) (executed : execute step s ls = some s') :
    Run step ok s₀ (history step s ls ++ trace) s' := by
  induction ls generalizing s trace with
  | nil =>
      cases executed
      exact h
  | cons l ls ih =>
      obtain ⟨next, stepped, rest⟩ := Option.bind_eq_some_iff.mp executed
      simp only [history, stepped, List.append_assoc, List.singleton_append]
      exact ih (h.snoc (allowed s l (by simp)) stepped)
        (fun s k member => allowed s k (List.mem_cons_of_mem l member)) rest

/-- An execution from the start is a run. -/
theorem Run.of_execute {step : σ → ℓ → Option σ} (ok : σ → ℓ → Prop) {s₀ s : σ} {ls : List ℓ}
    (allowed : ∀ s, ∀ l ∈ ls, ok s l) (executed : execute step s₀ ls = some s) :
    Run step ok s₀ (history step s₀ ls) s := by
  simpa using Run.nil.extend allowed executed

end LabelledRun
