/-
Module: TreeRssi.Proofs.Trickle
Layer: Proofs
Purpose: The waiting times of `broadcast_rssi`. Every one of them lies between half its interval and the
  interval, which itself stays between `TRICKLE_MIN` and `TRICKLE_MAX`. After a reset by
  `keepalive_expired` the thread doubles the interval before it draws, so the next waiting time lies
  between `TRICKLE_MIN` and twice that, and is at most `TRICKLE_MIN` for one value of the draw only.
Imports: TreeRssi.Core.Trickle, TreeRssi.Lib.Run
Trusted boundary: none
Main exports: drawWait_range, run_waitTime, ResetPending, run_reset, trickleReset_exceeds, trickleReset_iff
Open obligations: none
-/
import TreeRssi.Core.Trickle
import TreeRssi.Lib.Run

namespace TreeRssi

open LabelledRun

/-! ### Intervals and waiting times -/

/-- A waiting time lies between half the interval and the interval. -/
theorem drawWait_range (trickleInterval randomRand : Nat) :
    trickleInterval / 2 ≤ drawWait trickleInterval randomRand ∧
      drawWait trickleInterval randomRand ≤ trickleInterval := by
  have draw : randomRand % (trickleInterval / 2 + 1) < trickleInterval / 2 + 1 :=
    Nat.mod_lt _ (Nat.succ_pos _)
  unfold drawWait
  omega

theorem trickleMin_le_max (clockSecond : Nat) : trickleMin clockSecond * 2 ≤ trickleMax clockSecond := by
  unfold trickleMin trickleMax
  omega

/-- Doubling keeps the interval within its bounds. -/
theorem doubleInterval_range {clockSecond trickleInterval : Nat}
    (low : trickleMin clockSecond ≤ trickleInterval) (high : trickleInterval ≤ trickleMax clockSecond) :
    trickleMin clockSecond ≤ doubleInterval clockSecond trickleInterval ∧
      doubleInterval clockSecond trickleInterval ≤ trickleMax clockSecond := by
  unfold doubleInterval
  split
  · split <;> omega
  · omega

/-- The minimum is doubled as it is. -/
theorem doubleInterval_min (clockSecond : Nat) :
    doubleInterval clockSecond (trickleMin clockSecond) = trickleMin clockSecond * 2 := by
  have bound := trickleMin_le_max clockSecond
  unfold doubleInterval
  split
  · rw [if_neg (Nat.not_lt.mpr bound)]
  · omega

variable {clockSecond : Nat} {self : LinkAddr} {randomRand : Nat} {s s' : TrickleNode}
  {trace : List (TrickleNode × TrickleEvent)}

/-- The interval is within its bounds, and the thread waits no longer than the maximum. -/
structure TrickleBounds (clockSecond : Nat) (s : TrickleNode) : Prop where
  low : trickleMin clockSecond ≤ s.trickleInterval
  high : s.trickleInterval ≤ trickleMax clockSecond
  wait : trickleMin clockSecond / 2 ≤ s.waitTime ∧ s.waitTime ≤ trickleMax clockSecond

theorem TrickleBounds.next {event : TrickleEvent} (bounds : TrickleBounds clockSecond s)
    (stepped : s.next clockSecond self event = some s') : TrickleBounds clockSecond s' := by
  cases event with
  | neighbour event =>
      obtain ⟨parents, -, rfl⟩ := Option.map_eq_some_iff.mp stepped
      cases event with
      | beacon => exact ⟨bounds.low, bounds.high, bounds.wait⟩
      | expire =>
          have least := trickleMin_le_max clockSecond
          exact ⟨Nat.le_refl _, by simp only [resetTrickle]; omega, bounds.wait⟩
  | timer randomRand =>
      cases stepped
      obtain ⟨low, high⟩ := doubleInterval_range bounds.low bounds.high
      obtain ⟨half, whole⟩ :=
        drawWait_range (doubleInterval clockSecond s.trickleInterval) randomRand
      refine ⟨low, high, ?_, Nat.le_trans whole high⟩
      exact Nat.le_trans (Nat.div_le_div_right low) half

/-- In every run the interval and the waiting time stay within their bounds. -/
theorem run_trickleBounds {first : Nat}
    (run : Run (TrickleNode.next clockSecond self) anyStep (.boot clockSecond self first) trace s) :
    TrickleBounds clockSecond s := by
  apply run.invariant (I := TrickleBounds clockSecond)
  · have least := trickleMin_le_max clockSecond
    obtain ⟨half, whole⟩ := drawWait_range (trickleMin clockSecond) first
    refine ⟨Nat.le_refl _, ?_, half, Nat.le_trans whole ?_⟩
    · simp only [TrickleNode.boot]
      omega
    · omega
  · exact fun _ _ _ bounds _ stepped => bounds.next stepped

/-! ### The reset -/

/-- A keepalive timer has expired since the last waiting time was drawn. -/
def ResetPending : List (TrickleNode × TrickleEvent) → Prop
  | [] => False
  | (_, .timer _) :: _ => False
  | (_, .neighbour (.expire _)) :: _ => True
  | (_, .neighbour (.beacon _ _ _)) :: trace => ResetPending trace

/-- While a reset is pending, the interval is the minimum. -/
theorem run_reset {s₀ : TrickleNode}
    (run : Run (TrickleNode.next clockSecond self) anyStep s₀ trace s) (pending : ResetPending trace) :
    s.trickleInterval = trickleMin clockSecond := by
  induction run with
  | nil => exact pending.elim
  | @snoc trace s s' event run _ stepped ih =>
      cases event with
      | timer randomRand => exact pending.elim
      | neighbour event =>
          obtain ⟨parents, -, rfl⟩ := Option.map_eq_some_iff.mp stepped
          cases event with
          | beacon => exact ih pending
          | expire => rfl

/-- The waiting time that is drawn from the minimum, doubled. -/
theorem fire_reset (reset : s.trickleInterval = trickleMin clockSecond) :
    (s.fire clockSecond self randomRand).1.waitTime =
      trickleMin clockSecond + randomRand % (trickleMin clockSecond + 1) := by
  simp only [TrickleNode.fire, reset, doubleInterval_min, drawWait]
  rw [Nat.mul_div_cancel _ (by decide)]

/-- The waiting time is one that `TRICKLE_MIN` allows. -/
def WaitsMinimum (clockSecond waitTime : Nat) : Prop :=
  trickleMin clockSecond / 2 ≤ waitTime ∧ waitTime ≤ trickleMin clockSecond

instance (clockSecond waitTime : Nat) : Decidable (WaitsMinimum clockSecond waitTime) :=
  inferInstanceAs (Decidable (_ ∧ _))

/-- A neighbour of node 2 is heard once. The interval grows to `TRICKLE_MAX`; 12750 ticks later the last of
    29 beacons is sent, and in the waiting time behind it, 100 s after the beacon that was heard, the
    keepalive timer of the neighbour expires. -/
def heardThenLost : List TrickleEvent :=
  .neighbour (.beacon ⟨3, 0⟩ ⟨⟨3, 0⟩, -100⟩ (-50)) :: List.replicate 29 (.timer 256) ++
    [.neighbour (.expire ⟨⟨3, 0⟩, -150, -50⟩)]

theorem execute_heardThenLost : execute (TrickleNode.next 128 ⟨2, 0⟩) (.boot 128 ⟨2, 0⟩ 0) heardThenLost =
    some ⟨⟨[], linkaddrNull, -1000⟩, 16, 512⟩ := by
  decide

/-- The first waiting time after a reset can exceed the minimum. -/
theorem trickleReset_exceeds :
    ¬ ∀ (clockSecond : Nat) (self : LinkAddr) (first : Nat) trace s,
      Run (TrickleNode.next clockSecond self) anyStep (.boot clockSecond self first) trace s →
      ResetPending trace → ∀ randomRand s', s.next clockSecond self (.timer randomRand) = some s' →
        WaitsMinimum clockSecond s'.waitTime := by
  intro takesEffect
  have run := Run.of_execute anyStep (fun _ _ _ => trivial) execute_heardThenLost
  have waits := takesEffect 128 ⟨2, 0⟩ 0 _ _ run trivial 1 ⟨⟨[], linkaddrNull, -1000⟩, 32, 17⟩ (by decide)
  exact absurd waits (by decide)

/-- In every run, the first waiting time that is drawn after a keepalive timer has expired is one that the
    minimum allows exactly if the drawn value is a multiple of `TRICKLE_MIN + 1`. -/
theorem trickleReset_iff {first : Nat}
    (run : Run (TrickleNode.next clockSecond self) anyStep (.boot clockSecond self first) trace s)
    (pending : ResetPending trace) (stepped : s.next clockSecond self (.timer randomRand) = some s') :
    WaitsMinimum clockSecond s'.waitTime ↔ randomRand % (trickleMin clockSecond + 1) = 0 := by
  cases stepped
  rw [fire_reset (run_reset run pending), WaitsMinimum]
  omega

/-- The draw of 17 leaves the minimum. -/
theorem trickleReset_iff_minimum :
    ∃ trace s, Run (TrickleNode.next 128 ⟨2, 0⟩) anyStep (.boot 128 ⟨2, 0⟩ 0) trace s ∧
      ResetPending trace ∧ WaitsMinimum 128 (s.fire 128 ⟨2, 0⟩ 17).1.waitTime := by
  have run := Run.of_execute anyStep (fun _ _ _ => trivial) execute_heardThenLost
  exact ⟨_, _, run, trivial, (trickleReset_iff run trivial rfl).mpr (by decide)⟩

end TreeRssi
