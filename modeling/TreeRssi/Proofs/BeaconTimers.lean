/-
Module: TreeRssi.Proofs.BeaconTimers
Layer: Proofs
Purpose: The timers of the neighbour plane in every timed run. No beacon timer is set further ahead than
  `TRICKLE_MAX`, none goes off later than the latency allows, and the keepalive of a listed neighbour is
  always set. So the keepalive of a neighbour that still runs goes off only when the node has missed so
  many of its beacons in a row that, each of them `TRICKLE_MAX` behind the one before, they fill
  `KEEPALIVE_TIMEOUT`.
Imports: TreeRssi.Core.TimedNet, TreeRssi.Lib.Timers, TreeRssi.Proofs.Coherence, TreeRssi.Proofs.BeaconSteps,
  TreeRssi.Proofs.Trickle
Trusted boundary: none
Main exports: TimedStep, Lists, Clocked, missed, beaconTimer, keepaliveWatchdog, keepalive_detects
Open obligations: none
-/
import TreeRssi.Core.TimedNet
import TreeRssi.Lib.Timers
import TreeRssi.Proofs.BeaconSteps
import TreeRssi.Proofs.Coherence
import TreeRssi.Proofs.Trickle

namespace TreeRssi

open LabelledRun

variable {clockSecond latency : Nat} {nodes : Finset LinkAddr} {s s' : TimedNet} {action : TimedAction}
  {trace : List (TimedNet × TimedAction)} {ok : TimedNet → TimedAction → Prop}

/-! ### One step -/

/-- The four steps. -/
inductive TimedStep (clockSecond latency : Nat) (nodes : Finset LinkAddr) (s : TimedNet) :
    TimedAction → TimedNet → Prop where
  | tick (prompt : s.Prompt latency nodes) :
      TimedStep clockSecond latency nodes s .tick { s with now := s.now + 1 }
  | beacon {sender : LinkAddr} {heard : List (LinkAddr × Int)} {randomRand : Nat} {net : BeaconNet}
      (due : s.et sender ≤ s.now) (stepped : s.net.step nodes (.beacon sender heard) = some net) :
      TimedStep clockSecond latency nodes s (.beacon sender heard randomRand)
        (s.setTimers clockSecond sender heard randomRand net)
  | expired {node neighbour : LinkAddr} {net : BeaconNet} (due : s.keepalive node neighbour ≤ s.now)
      (stepped : s.net.step nodes (.expire node neighbour) = some net) :
      TimedStep clockSecond latency nodes s (.expire node neighbour) (s.resetInterval clockSecond node net)
  | silenced {node : LinkAddr} {net : BeaconNet}
      (stepped : s.net.step nodes (.silence node) = some net) :
      TimedStep clockSecond latency nodes s (.silence node) { s with net := net }

theorem step_timed (stepped : s.step clockSecond latency nodes action = some s') :
    TimedStep clockSecond latency nodes s action s' := by
  cases action with
  | tick =>
      obtain ⟨prompt, same⟩ := Option.ite_none_right_eq_some.mp stepped
      cases same
      exact .tick prompt
  | beacon sender heard randomRand =>
      obtain ⟨due, mapped⟩ := Option.ite_none_right_eq_some.mp stepped
      obtain ⟨net, step, rfl⟩ := Option.map_eq_some_iff.mp mapped
      exact .beacon due step
  | expire node neighbour =>
      obtain ⟨due, mapped⟩ := Option.ite_none_right_eq_some.mp stepped
      obtain ⟨net, step, rfl⟩ := Option.map_eq_some_iff.mp mapped
      exact .expired due step
  | silence node =>
      obtain ⟨net, step, rfl⟩ := Option.map_eq_some_iff.mp stepped
      exact .silenced step

/-- What a step does to the neighbour plane. -/
theorem TimedStep.radio (step : TimedStep clockSecond latency nodes s action s') {own : BeaconAction}
    (label : action.neighbour? = some own) : s.net.step nodes own = some s'.net := by
  cases step with
  | tick => cases label
  | beacon _ stepped | expired _ stepped | silenced stepped =>
      cases label
      exact stepped

theorem TimedStep.still (step : TimedStep clockSecond latency nodes s action s')
    (label : action.neighbour? = none) : s'.net = s.net := by
  cases step with
  | tick => rfl
  | beacon | expired | silenced => cases label

/-- The clock goes on by one or stands still. -/
theorem TimedStep.clock (step : TimedStep clockSecond latency nodes s action s') :
    s.now ≤ s'.now ∧ s'.now ≤ s.now + 1 := by
  cases step with
  | tick => exact ⟨Nat.le_succ _, Nat.le_refl _⟩
  | beacon | expired | silenced => exact ⟨Nat.le_refl _, Nat.le_succ _⟩

/-- Only a node that falls silent stops running. -/
theorem TimedStep.silent (step : TimedStep clockSecond latency nodes s action s') :
    s'.net.silent = s.net.silent ∨
      ∃ node, action = .silence node ∧ s'.net.silent = node :: s.net.silent := by
  cases step with
  | tick => exact .inl rfl
  | beacon _ stepped =>
      obtain ⟨-, same⟩ := Option.ite_none_right_eq_some.mp stepped
      cases same
      exact .inl rfl
  | expired _ stepped =>
      obtain ⟨-, mapped⟩ := Option.ite_none_right_eq_some.mp stepped
      obtain ⟨p, -, rfl⟩ := Option.map_eq_some_iff.mp mapped
      exact .inl rfl
  | silenced stepped =>
      obtain ⟨-, same⟩ := Option.ite_none_right_eq_some.mp stepped
      cases same
      exact .inr ⟨_, rfl, rfl⟩

/-- So a node that runs behind a step ran before it, and the step is not its falling silent. -/
theorem TimedStep.live (step : TimedStep clockSecond latency nodes s action s') {node : LinkAddr}
    (live : s'.net.Live nodes node) : s.net.Live nodes node ∧ action ≠ .silence node := by
  rcases step.silent with same | ⟨other, rfl, more⟩
  · refine ⟨⟨live.1, same ▸ live.2⟩, ?_⟩
    rintro rfl
    cases step with
    | silenced stepped =>
        obtain ⟨-, grown⟩ := Option.ite_none_right_eq_some.mp stepped
        cases grown
        exact List.cons_ne_self _ _ same
  · have silent := live.2
    rw [more, List.mem_cons, not_or] at silent
    refine ⟨⟨live.1, silent.2⟩, fun same => silent.1 ?_⟩
    cases same
    rfl

/-- Any other step leaves it running. -/
theorem TimedStep.loud (step : TimedStep clockSecond latency nodes s action s') {node : LinkAddr}
    (live : s.net.Live nodes node) (loud : action ≠ .silence node) : s'.net.Live nodes node := by
  refine ⟨live.1, ?_⟩
  rcases step.silent with same | ⟨other, rfl, more⟩
  · exact same ▸ live.2
  · rw [more, List.mem_cons, not_or]
    exact ⟨fun same => loud (same ▸ rfl), live.2⟩

/-! ### Listed neighbours -/

/-- The node lists the neighbour. -/
def Lists (state : ParentState) (neighbour : LinkAddr) : Prop :=
  ∃ q ∈ state.preferredParentList, q.id = neighbour

theorem stores_of_stored {state : ParentState} {sender : LinkAddr} {rssiP rssiA : Int}
    {list : List PreferredParent} (nodup : IdsNodup state.preferredParentList)
    (stored : storeEntry sender rssiP rssiA state.preferredParentList = some list) :
    Stores state sender := by
  cases refreshed : refreshEntry sender rssiP rssiA state.preferredParentList with
  | some kept =>
      obtain ⟨ids, members⟩ := refreshEntry_some nodup refreshed
      have new : sender ∈ kept.map PreferredParent.id :=
        List.mem_map.mpr ⟨_, (members _).mpr (.inl rfl), rfl⟩
      rw [ids] at new
      exact .inl (List.mem_map.mp new)
  | none =>
      simp only [storeEntry, refreshed, Option.ite_none_right_eq_some] at stored
      exact .inr stored.1

/-- A neighbour that is listed after a beacon was listed before, or has been stored. -/
theorem Registered.lists {self sender neighbour : LinkAddr} {state state' : ParentState} {rssiP rssiA : Int}
    (registered : Registered self state sender rssiP rssiA state')
    (nodup : IdsNodup state.preferredParentList) (lists : Lists state' neighbour) :
    Lists state neighbour ∨ neighbour = sender ∧ Stores state sender := by
  obtain ⟨q, member, rfl⟩ := lists
  have old : q ∈ state.preferredParentList → Lists state q.id := fun listed => ⟨q, listed, rfl⟩
  cases registered with
  | refused _ => exact .inl (old member)
  | root stored _ | nobody stored _ _ | elected stored _ _ =>
      rcases (storeEntry_mem nodup stored q).mp member with rfl | ⟨listed, -⟩
      · exact .inr ⟨rfl, stores_of_stored nodup stored⟩
      · exact .inl (old listed)

/-- One that is listed after a step was listed before, or the node has heard it and restarted its
    keepalive. -/
theorem TimedStep.lists (step : TimedStep clockSecond latency nodes s action s') {node neighbour : LinkAddr}
    (nodup : IdsNodup (s.net.parents node).preferredParentList)
    (lists : Lists (s'.net.parents node) neighbour) :
    Lists (s.net.parents node) neighbour ∨
      ∃ heard randomRand, action = .beacon neighbour heard randomRand ∧
        s.Restarts neighbour heard node := by
  cases step with
  | tick => exact .inl lists
  | @beacon sender heard randomRand net _ stepped =>
      obtain ⟨-, same⟩ := Option.ite_none_right_eq_some.mp stepped
      cases same
      simp only [TimedNet.setTimers, BeaconNet.broadcast] at lists
      split at lists
      next rssi found =>
          rcases (registerParent_cases _ _ _ _ _).lists nodup lists with before | ⟨rfl, stores⟩
          · exact .inl before
          · exact .inr ⟨heard, randomRand, rfl, Option.isSome_iff_exists.mpr ⟨rssi, found⟩, stores⟩
      next => exact .inl lists
  | @expired _ _ net _ stepped =>
      refine .inl ?_
      obtain ⟨q, member, own⟩ := lists
      have atNode := step_node stepped node
      change q ∈ (net.parents node).preferredParentList at member
      generalize net.parents node = state at atNode member
      cases atNode with
      | idle => exact ⟨q, member, own⟩
      | expired listed => exact ⟨q, ((mem_keepaliveExpired nodup listed).mp member).1, own⟩
  | silenced stepped =>
      obtain ⟨-, same⟩ := Option.ite_none_right_eq_some.mp stepped
      cases same
      exact .inl lists

/-! ### Clocks -/

/-- The bounds are about the interval and the waiting time only. -/
theorem TrickleBounds.of_eq {node node' : TrickleNode} (bounds : TrickleBounds clockSecond node)
    (interval : node'.trickleInterval = node.trickleInterval) (wait : node'.waitTime = node.waitTime) :
    TrickleBounds clockSecond node' :=
  ⟨interval ▸ bounds.low, interval ▸ bounds.high, wait ▸ bounds.wait⟩

theorem TrickleBounds.boot (self : LinkAddr) (randomRand : Nat) :
    TrickleBounds clockSecond (.boot clockSecond self randomRand) := run_trickleBounds .nil

/-- What the timers are set to, in every run. -/
structure Clocked (clockSecond latency : Nat) (nodes : Finset LinkAddr) (s : TimedNet) : Prop where
  nodup : ∀ node, IdsNodup (s.net.parents node).preferredParentList
  bounds : ∀ node, TrickleBounds clockSecond (s.atNode node)
  etAhead : ∀ node, s.et node ≤ s.now + trickleMax clockSecond
  etPrompt : ∀ node, s.net.Live nodes node → s.now ≤ s.et node + latency
  keepaliveAhead : ∀ node neighbour, s.keepalive node neighbour ≤ s.now + keepaliveTimeout clockSecond
  keepalivePrompt : ∀ node neighbour, s.net.Live nodes node → Lists (s.net.parents node) neighbour →
    s.now ≤ s.keepalive node neighbour + latency

namespace Clocked

theorem cold (randomRand : LinkAddr → Nat) :
    Clocked clockSecond latency nodes (.cold clockSecond randomRand) where
  nodup _ := List.nodup_nil
  bounds node := .boot node (randomRand node)
  etAhead node := Nat.le_trans (TrickleBounds.boot node (randomRand node)).wait.2 (Nat.le_add_left _ _)
  etPrompt _ _ := Nat.zero_le _
  keepaliveAhead _ _ := Nat.zero_le _
  keepalivePrompt _ _ _ _ := Nat.zero_le _

theorem step (clocked : Clocked clockSecond latency nodes s)
    (stepped : s.step clockSecond latency nodes action = some s') : Clocked clockSecond latency nodes s' := by
  have step := step_timed stepped
  have nodup : ∀ node, IdsNodup (s'.net.parents node).preferredParentList := by
    intro node
    cases label : action.neighbour? with
    | none => exact step.still label ▸ clocked.nodup node
    | some own => exact (step_node (step.radio label) node).nodup (clocked.nodup node)
  have lists := fun node neighbour (listed : Lists (s'.net.parents node) neighbour) =>
    step.lists (clocked.nodup node) listed
  have live := fun node (live : s'.net.Live nodes node) => (step.live live).1
  cases step with
  | tick prompt =>
      refine ⟨nodup, fun node => (clocked.bounds node).of_eq rfl rfl, fun node => ?_, fun node running => ?_,
        fun node neighbour => ?_, fun node neighbour running listed => ?_⟩
      · exact Nat.le_trans (clocked.etAhead node) (by simp)
      · exact (prompt node running.1 running.2).1
      · exact Nat.le_trans (clocked.keepaliveAhead node neighbour) (by simp)
      · obtain ⟨q, member, rfl⟩ := listed
        exact (prompt node running.1 running.2).2 q member
  | @beacon sender heard randomRand net due stepped =>
      have fires : TrickleNode.next clockSecond sender (s.atNode sender) (.timer randomRand) =
        some ((s.atNode sender).fire clockSecond sender randomRand).1 := rfl
      have next := (clocked.bounds sender).next fires
      refine ⟨nodup, fun node => ?_, fun node => ?_, fun node running => ?_, fun node neighbour => ?_,
        fun node neighbour running listed => ?_⟩
      · by_cases own : node = sender
        · exact next.of_eq (if_pos own) (if_pos own)
        · exact (clocked.bounds node).of_eq (if_neg own) (if_neg own)
      · simp only [TimedNet.setTimers]
        split
        · exact Nat.add_le_add_left next.wait.2 _
        · exact clocked.etAhead node
      · simp only [TimedNet.setTimers]
        split
        · omega
        · exact clocked.etPrompt node (live node running)
      · simp only [TimedNet.setTimers]
        split
        · exact Nat.le_refl _
        · exact clocked.keepaliveAhead node neighbour
      · simp only [TimedNet.setTimers]
        split
        next => omega
        next other =>
          rcases lists node neighbour listed with before | ⟨_, _, same, restarts⟩
          · exact clocked.keepalivePrompt node neighbour (live node running) before
          · cases same
            exact absurd ⟨rfl, restarts⟩ other
  | @expired other _ net due stepped =>
      refine ⟨nodup, fun node => ?_, clocked.etAhead,
        fun node running => clocked.etPrompt node (live node running), clocked.keepaliveAhead,
        fun node neighbour running listed => ?_⟩
      · have before := clocked.bounds node
        have least := trickleMin_le_max clockSecond
        refine ⟨?_, ?_, before.wait⟩
        all_goals
          simp only [TimedNet.atNode, TimedNet.resetInterval]
          split
        · exact Nat.le_refl _
        · exact before.low
        · omega
        · exact before.high
      · rcases lists node neighbour listed with before | ⟨_, _, same, -⟩
        · exact clocked.keepalivePrompt node neighbour (live node running) before
        · cases same
  | silenced stepped =>
      refine ⟨nodup, fun node => (clocked.bounds node).of_eq rfl rfl, clocked.etAhead,
        fun node running => clocked.etPrompt node (live node running), clocked.keepaliveAhead,
        fun node neighbour running listed => ?_⟩
      rcases lists node neighbour listed with before | ⟨_, _, same, -⟩
      · exact clocked.keepalivePrompt node neighbour (live node running) before
      · cases same

end Clocked

theorem run_clocked {s₀ : TimedNet} (start : Clocked clockSecond latency nodes s₀)
    (run : Run (TimedNet.step clockSecond latency nodes) ok s₀ trace s) :
    Clocked clockSecond latency nodes s :=
  run.invariant start fun _ _ _ clocked _ stepped => clocked.step stepped

/-- A node that runs at the end has not fallen silent on the way. -/
theorem run_loud {node : LinkAddr} {s₀ : TimedNet}
    (run : Run (TimedNet.step clockSecond latency nodes) ok s₀ trace s) (live : s.net.Live nodes node) :
    s₀.net.Live nodes node ∧ ∀ e ∈ trace, e.2 ≠ .silence node := by
  induction run with
  | nil => exact ⟨live, fun _ member => absurd member List.not_mem_nil⟩
  | snoc run allowed stepped ih =>
      obtain ⟨before, last⟩ := (step_timed stepped).live live
      obtain ⟨first, earlier⟩ := ih before
      exact ⟨first, List.forall_mem_cons.mpr ⟨last, earlier⟩⟩

/-! ### The two timers of a link -/

/-- The timers are set, and the node runs. -/
structure Running (clockSecond latency : Nat) (nodes : Finset LinkAddr) (node : LinkAddr) (s : TimedNet) :
    Prop where
  clocked : Clocked clockSecond latency nodes s
  live : s.net.Live nodes node

theorem Running.step {node : LinkAddr} (running : Running clockSecond latency nodes node s)
    (loud : action ≠ .silence node) (stepped : s.step clockSecond latency nodes action = some s') :
    Running clockSecond latency nodes node s' :=
  ⟨running.clocked.step stepped, (step_timed stepped).loud running.live loud⟩

/-- `et` of a node that runs is a repeating timer. -/
theorem beaconTimer (node : LinkAddr) (loud : ∀ s l, ok s l → l ≠ .silence node) :
    RepeatingTimer (TimedNet.step clockSecond latency nodes) ok (Running clockSecond latency nodes node)
      TimedNet.now (fun s => s.et node) (TimedAction.sends node) (trickleMax clockSecond) latency where
  kept _ _ _ running allowed stepped := running.step (loud _ _ allowed) stepped
  ahead running := running.clocked.etAhead node
  prompt running := running.clocked.etPrompt node running.live
  fired _ _ stepped label := by
    cases step_timed stepped with
    | tick | expired | silenced => cases label
    | beacon => rfl
  waits _ _ stepped label := by
    cases step_timed stepped with
    | tick | expired | silenced => rfl
    | beacon => exact if_neg fun same => of_decide_eq_false label same.symm

/-- `keepalive` of an entry is a watchdog, which a beacon of the neighbour restarts. -/
theorem keepaliveWatchdog {I : TimedNet → Prop} (clocked : ∀ {s}, I s → Clocked clockSecond latency nodes s)
    (neighbour node : LinkAddr) :
    Watchdog (TimedNet.step clockSecond latency nodes) ok I TimedNet.now (fun s => s.keepalive node neighbour)
      (fun s => Lists (s.net.parents node) neighbour) (TimedAction.carries neighbour node)
      (keepaliveTimeout clockSecond) where
  restarted {s _ _} inv _ stepped label listed := by
    have step := step_timed stepped
    have lists := step.lists ((clocked inv).nodup node) listed
    cases step with
    | tick | expired | silenced => cases label
    | beacon =>
        obtain ⟨own, heard⟩ := Bool.and_eq_true_iff.mp label
        have own := of_decide_eq_true own
        subst own
        refine ⟨rfl, if_pos ⟨rfl, heard, ?_⟩⟩
        rcases lists with before | ⟨_, _, -, restarts⟩
        · exact .inl before
        · exact restarts.2
  waits {s _ _} inv _ stepped label listed := by
    have step := step_timed stepped
    have lists := step.lists ((clocked inv).nodup node) listed
    cases step with
    | tick | expired | silenced =>
        refine ⟨lists.resolve_right ?_, rfl⟩
        rintro ⟨_, _, same, -⟩
        cases same
    | @beacon sender heard randomRand =>
        have unheard : ¬ (neighbour = sender ∧ s.Restarts sender heard node) := by
          rintro ⟨rfl, restarts⟩
          simp [TimedAction.carries, restarts.1] at label
        refine ⟨lists.resolve_right ?_, if_neg unheard⟩
        rintro ⟨_, _, same, restarts⟩
        cases same
        exact unheard ⟨rfl, restarts⟩

/-! ### The keepalive as a failure detector -/

/-- The beacons of the neighbour that the node has missed since the last one it heard. -/
def missed (neighbour node : LinkAddr) (trace : List (TimedNet × TimedAction)) : Nat :=
  (sinceLast (TimedAction.carries neighbour node) trace).countP fun e => e.2.sends neighbour

/-- A keepalive that goes off is due, and its entry listed. -/
theorem expire_due {node neighbour : LinkAddr}
    (stepped : s.step clockSecond latency nodes (.expire node neighbour) = some s') :
    s.keepalive node neighbour ≤ s.now ∧ s.net.Live nodes node ∧ Lists (s.net.parents node) neighbour := by
  obtain ⟨due, mapped⟩ := Option.ite_none_right_eq_some.mp stepped
  obtain ⟨net, own, -⟩ := Option.map_eq_some_iff.mp mapped
  obtain ⟨live, found⟩ := Option.ite_none_right_eq_some.mp own
  obtain ⟨p, first, -⟩ := Option.map_eq_some_iff.mp found
  exact ⟨due, live, p, List.mem_of_find?_eq_some first, by simpa using List.find?_some first⟩

/-- In every run a neighbour that a running node lists has been heard no longer ago than the keepalive
    allows; and when the keepalive of a neighbour that runs goes off, the node has missed as many of its
    beacons in a row as fill the timeout. -/
theorem keepalive_detects {randomRand : LinkAddr → Nat}
    (run : Run (TimedNet.step clockSecond latency nodes) anyStep (.cold clockSecond randomRand) trace s)
    (node neighbour : LinkAddr) :
    (s.net.Live nodes node → Lists (s.net.parents node) neighbour →
      ∃ pre action, (pre, action) ∈ trace ∧ action.carries neighbour node = true ∧
        s.now ≤ pre.now + keepaliveTimeout clockSecond + latency) ∧
    (s.net.Live nodes neighbour → ∀ s', s.step clockSecond latency nodes (.expire node neighbour) = some s' →
      keepaliveTimeout clockSecond ≤
        (missed neighbour node trace + 1) * (trickleMax clockSecond + latency)) := by
  have start : Clocked clockSecond latency nodes (.cold clockSecond randomRand) := .cold randomRand
  have unlisted : ¬ Lists ((TimedNet.cold clockSecond randomRand).net.parents node) neighbour := by
    rintro ⟨q, member, -⟩
    cases member
  have clocked := run_clocked start run
  have watchdog : Watchdog _ anyStep (Clocked clockSecond latency nodes) _ _ _ _ _ :=
    keepaliveWatchdog id neighbour node
  have kept := fun s l s' (clocked : Clocked clockSecond latency nodes s) (_ : anyStep s l)
    (stepped : s.step clockSecond latency nodes l = some s') => clocked.step stepped
  have restarted : Lists (s.net.parents node) neighbour →
      ∃ e ∈ trace, e.2.carries neighbour node = true := fun listed =>
    (watchdog.restarted_of_armed start kept run listed).resolve_left fun ⟨before, _⟩ => unlisted before
  refine ⟨fun live listed => ?_, fun live s' stepped => ?_⟩
  · obtain ⟨pre, action, -, member, label, set, -⟩ :=
      watchdog.last_restart start kept run (restarted listed) listed
    have prompt := clocked.keepalivePrompt node neighbour live listed
    exact ⟨pre, action, member, label, by omega⟩
  · obtain ⟨due, -, listed⟩ := expire_due stepped
    obtain ⟨liveFirst, loud⟩ := run_loud run live
    have run' : Run (TimedNet.step clockSecond latency nodes) (fun _ action => action ≠ .silence neighbour)
      (.cold clockSecond randomRand) trace s := run.guard loud
    exact (beaconTimer neighbour fun _ _ loud => loud).outlasts
      (keepaliveWatchdog Running.clocked neighbour node) ⟨start, liveFirst⟩ run' (restarted listed) listed due

/-- Where nothing has to go off before, the clock can go on. -/
theorem run_ticks {s₀ : TimedNet} (run : Run (TimedNet.step clockSecond latency nodes) anyStep s₀ trace s)
    {k : Nat} (prompt : { s with now := s.now + k }.Prompt latency nodes) :
    ∃ ticks, Run (TimedNet.step clockSecond latency nodes) anyStep s₀ (ticks ++ trace)
      { s with now := s.now + k } := by
  induction k with
  | zero => exact ⟨[], run⟩
  | succ k ih =>
      have earlier : { s with now := s.now + k }.Prompt latency nodes := by
        intro node member loud
        obtain ⟨beacon, entries⟩ := prompt node member loud
        exact ⟨Nat.lt_of_succ_lt beacon, fun q listed => Nat.lt_of_succ_lt (entries q listed)⟩
      obtain ⟨ticks, run⟩ := ih earlier
      have stepped : TimedNet.step clockSecond latency nodes { s with now := s.now + k } .tick =
        some { s with now := s.now + (k + 1) } := if_pos earlier
      exact ⟨_ :: ticks, run.snoc trivial stepped⟩

/-- Node 1 is so late with its next beacon that node 2 gives it up. -/
theorem keepalive_detects_late :
    ∃ trace s s', Run (TimedNet.step 1 200 {⟨1, 0⟩, ⟨2, 0⟩}) anyStep (.cold 1 fun _ => 0) trace s ∧
      s.step 1 200 {⟨1, 0⟩, ⟨2, 0⟩} (.expire ⟨2, 0⟩ ⟨1, 0⟩) = some s' ∧
      (∃ pre action, (pre, action) ∈ trace ∧ action.carries ⟨1, 0⟩ ⟨2, 0⟩ = true ∧ s.now ≤ pre.now + 300) ∧
      100 ≤ (missed ⟨1, 0⟩ ⟨2, 0⟩ trace + 1) * 204 := by
  let nodes : Finset LinkAddr := {⟨1, 0⟩, ⟨2, 0⟩}
  let boot := TimedNet.cold 1 fun _ => 0
  let heard : List (LinkAddr × Int) := [(⟨2, 0⟩, -10)]
  let first := boot.setTimers 1 ⟨1, 0⟩ heard 0 (boot.net.broadcast ⟨1, 0⟩ heard)
  have start : Run (TimedNet.step 1 200 nodes) anyStep boot [] boot := .nil
  have once : Run (TimedNet.step 1 200 nodes) anyStep boot _ first :=
    start.snoc (l := .beacon ⟨1, 0⟩ heard 0) trivial rfl
  have prompt : { first with now := first.now + 100 }.Prompt 200 nodes := by decide
  obtain ⟨ticks, run⟩ := run_ticks once prompt
  have due : (TimedNet.step 1 200 nodes { first with now := first.now + 100 }
    (.expire ⟨2, 0⟩ ⟨1, 0⟩)).isSome = true := by decide
  obtain ⟨s', stepped⟩ := Option.isSome_iff_exists.mp due
  obtain ⟨complete, accurate⟩ := keepalive_detects run ⟨2, 0⟩ ⟨1, 0⟩
  exact ⟨_, _, s', run, stepped, complete (by decide) ⟨⟨⟨1, 0⟩, -10, -10⟩, by decide, rfl⟩,
    accurate (by decide) s' stepped⟩

end TreeRssi
