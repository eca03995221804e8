/-
Module: TreeRssi.Lib.Timers
Layer: Lib
Purpose: Timers of a labelled transition system with a clock. A repeating timer is set, each time it fires,
  to a moment at most `period` ahead, and never goes off more than `late` after it; so it bounds how long a
  run with few firings can last. A watchdog is restarted by some steps and may go off `timeout` after the
  last of them; so between the last restart and the alarm a repeating timer must have fired often. Where
  the clock moves in single ticks, a long run falls into rounds of a given length.
Imports: TreeRssi.Lib.Rounds, Mathlib (prefixes of lists)
Trusted boundary: none
Main exports: sinceLast, RepeatingTimer, RepeatingTimer.elapsed_le, Watchdog, Watchdog.restarted_of_armed,
  Watchdog.last_restart, RepeatingTimer.outlasts, Run.at_time, Run.rounds_in_time
Open obligations: none
-/
import Mathlib.Data.List.TakeWhile
import TreeRssi.Lib.Rounds

namespace LabelledRun

universe u v

variable {σ : Type u} {ℓ : Type v} {step : σ → ℓ → Option σ} {ok : σ → ℓ → Prop} {I : σ → Prop}
  {now due alarm : σ → Nat} {armed : σ → Prop} {fires restarts : ℓ → Bool} {period late timeout : Nat}
  {s₀ s : σ} {trace : List (σ × ℓ)}

/-! ### The last step of a kind -/

/-- The steps since the last one that `p` selects. -/
def sinceLast (p : ℓ → Bool) (trace : List (σ × ℓ)) : List (σ × ℓ) :=
  trace.takeWhile fun e => !p e.2

theorem sinceLast_append {p : ℓ → Bool} {segment : List (σ × ℓ)} (earlier : List (σ × ℓ))
    (none : ∀ e ∈ segment, p e.2 = false) :
    sinceLast p (segment ++ earlier) = segment ++ sinceLast p earlier :=
  List.takeWhile_append_of_pos fun e member => by rw [none e member]; rfl

theorem not_selected_of_mem_sinceLast {p : ℓ → Bool} {e : σ × ℓ} (member : e ∈ sinceLast p trace) :
    p e.2 = false := by
  simpa using List.mem_takeWhile_imp member

/-- A history with a selected step ends with the last of them and the steps since. -/
theorem sinceLast_split {p : ℓ → Bool} (selected : ∃ e ∈ trace, p e.2 = true) :
    ∃ pre l before, p l = true ∧ trace = sinceLast p trace ++ (pre, l) :: before := by
  induction trace with
  | nil =>
      obtain ⟨e, member, -⟩ := selected
      cases member
  | cons last trace ih =>
      cases here : p last.2 with
      | true => exact ⟨last.1, last.2, trace, here, by simp [sinceLast, here]⟩
      | false =>
          obtain ⟨e, member, yes⟩ := selected
          rcases List.mem_cons.mp member with rfl | member
          · rw [here] at yes
            cases yes
          · obtain ⟨pre, l, before, label, split⟩ := ih ⟨e, member, yes⟩
            have grows : sinceLast p (last :: trace) = last :: sinceLast p trace := by simp [sinceLast, here]
            exact ⟨pre, l, before, label, by rw [grows, List.cons_append, ← split]⟩

/-! ### Repeating timers -/

/-- Under the invariant `I` the timer is set to a moment at most `period` ahead, and the clock does not run
    more than `late` past it. It stands still while the timer fires, and other steps leave the timer alone. -/
structure RepeatingTimer (step : σ → ℓ → Option σ) (ok : σ → ℓ → Prop) (I : σ → Prop) (now due : σ → Nat)
    (fires : ℓ → Bool) (period late : Nat) : Prop where
  kept : ∀ s l s', I s → ok s l → step s l = some s' → I s'
  ahead : ∀ {s}, I s → due s ≤ now s + period
  prompt : ∀ {s}, I s → now s ≤ due s + late
  fired : ∀ {s l s'}, I s → ok s l → step s l = some s' → fires l = true → now s' = now s
  waits : ∀ {s l s'}, I s → ok s l → step s l = some s' → fires l = false → due s' = due s

/-- A run in which the timer fires `n` times lasts at most `n + 1` periods, with their delays. -/
theorem RepeatingTimer.elapsed_le (timer : RepeatingTimer step ok I now due fires period late)
    (start : I s₀) (run : Run step ok s₀ trace s) :
    now s ≤ now s₀ + (trace.countP (fun e => fires e.2) + 1) * (period + late) := by
  have dueBy : due s ≤ now s₀ + trace.countP (fun e => fires e.2) * (period + late) + period := by
    induction run with
    | nil => simpa using timer.ahead start
    | @snoc trace s s' l run allowed stepped ih =>
        have reached := run.invariant start timer.kept
        cases label : fires l with
        | true =>
            have still := timer.fired reached allowed stepped label
            have set := timer.ahead (timer.kept _ _ _ reached allowed stepped)
            have last := timer.prompt reached
            rw [List.countP_cons, label, if_pos rfl, Nat.succ_mul]
            omega
        | false =>
            rw [List.countP_cons, label, if_neg Bool.false_ne_true, timer.waits reached allowed stepped label]
            exact ih
  have last := timer.prompt (run.invariant start timer.kept)
  rw [Nat.succ_mul]
  omega

/-! ### Watchdogs -/

/-- A watchdog that is armed behind a restart is set to go off `timeout` later, and no other step arms or
    sets it. -/
structure Watchdog (step : σ → ℓ → Option σ) (ok : σ → ℓ → Prop) (I : σ → Prop) (now alarm : σ → Nat)
    (armed : σ → Prop) (restarts : ℓ → Bool) (timeout : Nat) : Prop where
  restarted : ∀ {s l s'}, I s → ok s l → step s l = some s' → restarts l = true → armed s' →
    now s' = now s ∧ alarm s' = now s + timeout
  waits : ∀ {s l s'}, I s → ok s l → step s l = some s' → restarts l = false → armed s' →
    armed s ∧ alarm s' = alarm s

/-- Without a restart the watchdog is as it was. -/
theorem Watchdog.unchanged (watchdog : Watchdog step ok I now alarm armed restarts timeout) (start : I s₀)
    (kept : ∀ s l s', I s → ok s l → step s l = some s' → I s') (run : Run step ok s₀ trace s)
    (none : ∀ e ∈ trace, restarts e.2 = false) (on : armed s) : armed s₀ ∧ alarm s = alarm s₀ := by
  induction run with
  | nil => exact ⟨on, rfl⟩
  | snoc run allowed stepped ih =>
      obtain ⟨last, earlier⟩ := List.forall_mem_cons.mp none
      obtain ⟨on', same⟩ := watchdog.waits (run.invariant start kept) allowed stepped last on
      obtain ⟨first, before⟩ := ih earlier on'
      exact ⟨first, same.trans before⟩

/-- One that is armed was armed at the start already, with the same alarm, or has been restarted. -/
theorem Watchdog.restarted_of_armed (watchdog : Watchdog step ok I now alarm armed restarts timeout)
    (start : I s₀) (kept : ∀ s l s', I s → ok s l → step s l = some s' → I s')
    (run : Run step ok s₀ trace s) (on : armed s) :
    (armed s₀ ∧ alarm s = alarm s₀) ∨ ∃ e ∈ trace, restarts e.2 = true := by
  by_cases some_ : ∃ e ∈ trace, restarts e.2 = true
  · exact .inr some_
  · refine .inl (watchdog.unchanged start kept run (fun e member => ?_) on)
    exact Bool.eq_false_iff.mpr fun yes => some_ ⟨e, member, yes⟩

/-- The alarm of one that has been restarted counts from the last restart. -/
theorem Watchdog.last_restart (watchdog : Watchdog step ok I now alarm armed restarts timeout) (start : I s₀)
    (kept : ∀ s l s', I s → ok s l → step s l = some s' → I s') (run : Run step ok s₀ trace s)
    (restarted : ∃ e ∈ trace, restarts e.2 = true) (on : armed s) :
    ∃ pre l post, (pre, l) ∈ trace ∧ restarts l = true ∧ alarm s = now pre + timeout ∧
      I post ∧ now post = now pre ∧ Run step ok post (sinceLast restarts trace) s := by
  obtain ⟨pre, l, before, label, split⟩ := sinceLast_split restarted
  have member : (pre, l) ∈ trace := by
    rw [split]
    exact List.mem_append_right _ (List.mem_cons_self ..)
  rw [split] at run
  obtain ⟨post, first, allowed, stepped, rest⟩ := run.around
  have reached := first.invariant start kept
  have behind := kept _ _ _ reached allowed stepped
  obtain ⟨on', same⟩ := watchdog.unchanged behind kept rest
    (fun e member => not_selected_of_mem_sinceLast member) on
  obtain ⟨still, set⟩ := watchdog.restarted reached allowed stepped label on'
  exact ⟨pre, l, post, member, label, same.trans set, behind, still, rest⟩

/-- When a watchdog goes off, the timer has fired since the last restart as often as the timeout takes. -/
theorem RepeatingTimer.outlasts (timer : RepeatingTimer step ok I now due fires period late)
    (watchdog : Watchdog step ok I now alarm armed restarts timeout) (start : I s₀)
    (run : Run step ok s₀ trace s) (restarted : ∃ e ∈ trace, restarts e.2 = true) (on : armed s)
    (goesOff : alarm s ≤ now s) :
    timeout ≤ ((sinceLast restarts trace).countP (fun e => fires e.2) + 1) * (period + late) := by
  obtain ⟨pre, -, post, -, -, set, behind, still, rest⟩ :=
    watchdog.last_restart start timer.kept run restarted on
  have elapsed := timer.elapsed_le behind rest
  omega

/-! ### Ticks -/

/-- A clock that moves in single ticks has shown every time on the way. -/
theorem Run.at_time (run : Run step ok s₀ trace s)
    (tick : ∀ s l s', ok s l → step s l = some s' → now s' ≤ now s + 1) {t : Nat} (low : now s₀ ≤ t)
    (high : t ≤ now s) :
    ∃ later earlier mid, trace = later ++ earlier ∧ Run step ok s₀ earlier mid ∧
      Run step ok mid later s ∧ now mid = t := by
  induction run with
  | nil => exact ⟨[], [], s₀, rfl, .nil, .nil, Nat.le_antisymm low high⟩
  | @snoc trace s s' l run allowed stepped ih =>
      by_cases before : t ≤ now s
      · obtain ⟨later, earlier, mid, rfl, first, rest, time⟩ := ih before
        exact ⟨(s, l) :: later, earlier, mid, rfl, first, rest.snoc allowed stepped, time⟩
      · have one := tick _ _ _ allowed stepped
        exact ⟨[], _, s', rfl, run.snoc allowed stepped, .nil, by omega⟩

/-- If every part of a run that lasts `window` is a round, a run that lasts `k` windows has `k` rounds. -/
theorem Run.rounds_in_time {isRound : List (σ × ℓ) → Prop} {window k : Nat} (run : Run step ok s₀ trace s)
    (tick : ∀ s l s', ok s l → step s l = some s' → now s' ≤ now s + 1)
    (each : ∀ later segment earlier mid s', trace = later ++ (segment ++ earlier) →
      Run step ok s₀ earlier mid → Run step ok mid segment s' → now mid + window ≤ now s' → isRound segment)
    (time : now s₀ + k * window ≤ now s) : Rounds isRound k trace := by
  induction k generalizing s trace with
  | zero => exact .start trace
  | succ k ih =>
      rw [Nat.succ_mul] at time
      obtain ⟨last, earlier, mid, rfl, first, rest, reached⟩ :=
        run.at_time tick (t := now s₀ + k * window) (by omega) (by omega)
      have before : Rounds isRound k earlier := ih first
        (fun later segment earlier' mid s' split => each (last ++ later) segment earlier' mid s'
          (by rw [split, List.append_assoc])) (by omega)
      exact before.more (each [] last earlier mid s rfl first rest (by omega))

end LabelledRun
