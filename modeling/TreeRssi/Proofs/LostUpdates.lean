/-
Module: TreeRssi.Proofs.LostUpdates
Layer: Proofs
Purpose: Control strings between reception and merge. Every event is delivered once, but merges whatever
  `ctrl_payload` holds then, so a packet that arrives before the event of an earlier one replaces its
  string. The strings merged are the strings received exactly if that never happens with a different
  string.
Imports: TreeRssi.Core.Control, TreeRssi.Lib.Run
Trusted boundary: none
Main exports: receivedStrings, mergedStrings, overwritten_update, Undisturbed, undisturbed_iff,
  controlUpdates_once
Open obligations: none
-/
import TreeRssi.Core.Control
import TreeRssi.Lib.Run

namespace TreeRssi

open CText LabelledRun

/-- The strings received in a run, in order. -/
def receivedStrings (trace : List (ControlState × ControlAction)) : List (List UInt8) :=
  (trace.map Prod.snd).reverse.filterMap ControlAction.received

/-- The strings merged in a run, in order. -/
def mergedStrings (trace : List (ControlState × ControlAction)) : List (List UInt8) :=
  trace.reverse.filterMap fun e =>
    match e.2 with
    | .receive _ => none
    | .deliver => some (cstr e.1.ctrlPayload)

/-! ### A lost update -/

/-- Two packets arrive before the first event is delivered. -/
def twoReports : List ControlAction :=
  [.receive [ch '2', ch ':', ch ';', 0], .receive [ch '3', ch ':', ch ';', 0], .deliver, .deliver]

/-- The first of two reports is lost. -/
theorem overwritten_update :
    ¬ ∀ (self : LinkAddr) trace s,
      Run (ControlState.step self) anyStep (ControlState.boot self) trace s → s.pending = 0 →
        s.routingTree = (receivedStrings trace).foldl (updateRoutingTable self.u8_0)
          (ControlState.boot self).routingTree := by
  intro once
  have reported : ((execute (ControlState.step ⟨1, 0⟩) (ControlState.boot ⟨1, 0⟩) twoReports).map
      fun s => (s.pending, s.routingTree)) = some (0, [⟨1, [3]⟩]) := by
    decide +kernel
  obtain ⟨s, executed, same⟩ := Option.map_eq_some_iff.mp reported
  obtain ⟨done, table⟩ := Prod.mk.inj same
  have run := Run.of_execute anyStep (fun _ _ _ => trivial) executed
  have merged := once ⟨1, 0⟩ _ s run done
  have both : (receivedStrings (history (ControlState.step ⟨1, 0⟩) (ControlState.boot ⟨1, 0⟩)
      twoReports)).foldl (updateRoutingTable 1) (ControlState.boot ⟨1, 0⟩).routingTree =
      [⟨1, [2, 3]⟩] := by
    decide +kernel
  rw [table, both] at merged
  exact absurd merged (by decide)

/-! ### When no update is lost -/

/-- The step does not replace a string that is still to be merged: no event is pending when a packet
    arrives, or the packet brings the same string again. -/
def Undisturbed (s : ControlState) (action : ControlAction) : Prop :=
  ∀ string ∈ action.received, s.pending = 0 ∨ string = cstr s.ctrlPayload

/-- What a step of one node does. -/
theorem ControlState.step_cases {self : LinkAddr} {s s' : ControlState} {action : ControlAction}
    (stepped : s.step self action = some s') :
    (∃ string, action.received = some string ∧ s'.routingTree = s.routingTree ∧
      cstr s'.ctrlPayload = string ∧ s'.pending = s.pending + 1) ∨
    (action = .deliver ∧ s.pending = s'.pending + 1 ∧ s'.ctrlPayload = s.ctrlPayload ∧
      s'.routingTree = updateRoutingTable self.u8_0 s.routingTree (cstr s.ctrlPayload)) := by
  cases action with
  | receive payload =>
      cases stepped
      exact .inl ⟨_, rfl, rfl, rfl, rfl⟩
  | deliver =>
      obtain ⟨merged, same, waiting⟩ := ControlState.deliver_some stepped
      exact .inr ⟨rfl, waiting, same, merged⟩

theorem receivedStrings_cons (s : ControlState) (action : ControlAction)
    (trace : List (ControlState × ControlAction)) :
    receivedStrings ((s, action) :: trace) = receivedStrings trace ++ action.received.toList := by
  cases action <;> simp [receivedStrings, ControlAction.received]

theorem mergedStrings_deliver (s : ControlState) (trace : List (ControlState × ControlAction)) :
    mergedStrings ((s, .deliver) :: trace) = mergedStrings trace ++ [cstr s.ctrlPayload] := by
  simp [mergedStrings]

theorem mergedStrings_receive {s : ControlState} {action : ControlAction} {string : List UInt8}
    (received : action.received = some string) (trace : List (ControlState × ControlAction)) :
    mergedStrings ((s, action) :: trace) = mergedStrings trace := by
  cases action with
  | receive => simp [mergedStrings]
  | deliver => cases received

section
variable {self : LinkAddr} {s₀ s : ControlState} {trace : List (ControlState × ControlAction)}

/-- While an event is pending, `ctrl_payload` holds the string received last. -/
theorem run_lastReceived (run : Run (ControlState.step self) anyStep s₀ trace s)
    (idle : s₀.pending = 0) :
    s.pending = 0 ∨ (receivedStrings trace).getLast? = some (cstr s.ctrlPayload) := by
  induction run with
  | nil => exact .inl idle
  | @snoc trace s s' action _ _ stepped ih =>
      rcases ControlState.step_cases stepped with ⟨string, received, -, rfl, -⟩ | ⟨rfl, pending, same, -⟩
      · right
        rw [receivedStrings_cons, received]
        simp
      · right
        rw [receivedStrings_cons, same]
        rcases ih with none | last
        · omega
        · simpa [ControlAction.received] using last

/-- No string has been replaced exactly if the strings received are the strings merged and then, once
    for each pending event, the string in `ctrl_payload`. -/
theorem undisturbed_iff (run : Run (ControlState.step self) anyStep s₀ trace s) (idle : s₀.pending = 0) :
    (∀ e ∈ trace, Undisturbed e.1 e.2) ↔
      receivedStrings trace = mergedStrings trace ++ List.replicate s.pending (cstr s.ctrlPayload) := by
  induction run with
  | nil => simp [receivedStrings, mergedStrings, idle]
  | @snoc trace s s' action run _ stepped ih =>
      rw [List.forall_mem_cons, ih]
      rcases ControlState.step_cases stepped with
        ⟨string, received, -, rfl, one⟩ | ⟨rfl, pending, same, -⟩
      · rw [receivedStrings_cons, mergedStrings_receive received, received, one, List.replicate_succ',
          ← List.append_assoc, Option.toList_some, List.append_left_inj]
        -- The last string received is the one that is replaced.
        have quiet : receivedStrings trace =
              mergedStrings trace ++ List.replicate s.pending (cstr s'.ctrlPayload) →
            s.pending = 0 ∨ cstr s'.ctrlPayload = cstr s.ctrlPayload := by
          intro same
          rcases run_lastReceived run idle with none | last
          · exact .inl none
          · by_cases none : s.pending = 0
            · exact .inl none
            · rw [same, List.getLast?_append, List.getLast?_replicate, if_neg none] at last
              exact .inr (Option.some.inj last)
        have changes : s.pending = 0 ∨ cstr s'.ctrlPayload = cstr s.ctrlPayload →
            List.replicate s.pending (cstr s'.ctrlPayload) =
              List.replicate s.pending (cstr s.ctrlPayload) := by
          rintro (none | same)
          · rw [none]
            rfl
          · rw [same]
        rw [Undisturbed, received]
        simp only [Option.mem_some_iff, forall_eq']
        constructor
        · rintro ⟨calm, same⟩
          rw [changes calm]
          exact same
        · intro same
          exact ⟨quiet same, by rw [← changes (quiet same)]; exact same⟩
      · rw [receivedStrings_cons, mergedStrings_deliver, same, pending, List.replicate_succ,
          List.append_assoc, List.singleton_append]
        simp [ControlAction.received, Undisturbed]

/-- The table is the merge of the merged strings. -/
theorem run_routingTree (run : Run (ControlState.step self) anyStep s₀ trace s) :
    s.routingTree = (mergedStrings trace).foldl (updateRoutingTable self.u8_0) s₀.routingTree := by
  induction run with
  | nil => rfl
  | @snoc trace s s' action _ _ stepped ih =>
      rcases ControlState.step_cases stepped with ⟨string, received, same, -, -⟩ | ⟨rfl, -, -, merged⟩
      · rw [same, mergedStrings_receive received, ih]
      · rw [merged, mergedStrings_deliver, List.foldl_append, ← ih]
        rfl

end

/-- Once all events are delivered, the strings merged are the strings received exactly if no packet
    replaced a string that was still to be merged; and then the table is the merge of every received
    string, once and in order. -/
theorem controlUpdates_once {self : LinkAddr} {s₀ s : ControlState}
    {trace : List (ControlState × ControlAction)}
    (run : Run (ControlState.step self) anyStep s₀ trace s) (idle : s₀.pending = 0)
    (done : s.pending = 0) :
    (mergedStrings trace = receivedStrings trace ↔ ∀ e ∈ trace, Undisturbed e.1 e.2) ∧
    ((∀ e ∈ trace, Undisturbed e.1 e.2) →
      s.routingTree = (receivedStrings trace).foldl (updateRoutingTable self.u8_0) s₀.routingTree) := by
  have exact_ := undisturbed_iff run idle
  rw [done, List.replicate_zero, List.append_nil] at exact_
  exact ⟨eq_comm.trans exact_.symm, fun undisturbed => by
    rw [exact_.mp undisturbed, run_routingTree run]⟩

/-- Two reports that are merged one by one are both in the table. -/
theorem controlUpdates_once_twoReports :
    ∃ trace s, Run (ControlState.step ⟨1, 0⟩) anyStep (ControlState.boot ⟨1, 0⟩) trace s ∧
      s.routingTree = [⟨1, [2, 3]⟩] := by
  have start : Run (ControlState.step ⟨1, 0⟩) anyStep (ControlState.boot ⟨1, 0⟩) []
      (ControlState.boot ⟨1, 0⟩) := .nil
  have first := (start.snoc (l := .receive [ch '2', ch ':', ch ';', 0]) trivial rfl).snoc
    (l := .deliver) trivial rfl
  have second := (first.snoc (l := .receive [ch '3', ch ':', ch ';', 0]) trivial rfl).snoc
    (l := .deliver) trivial rfl
  refine ⟨_, _, second, ?_⟩
  rw [(controlUpdates_once second rfl rfl).2]
  · decide +kernel
  · simp [Undisturbed, ControlAction.received, ControlState.boot, ControlState.receive, recvUc]

end TreeRssi
