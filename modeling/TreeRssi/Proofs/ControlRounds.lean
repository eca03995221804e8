/-
Module: TreeRssi.Proofs.ControlRounds
Layer: Proofs
Purpose: Convergence of the control plane in a bounded number of rounds. A round is a part of a run in
  which every node but node 1 gets one report through to its parent: it is sent, received, and merged
  before another one overwrites it. Where control messages go up one tree, the table of a node has, after
  `k` rounds, every edge of its subtree that begins fewer than `k` levels below it, whatever else is sent,
  lost or overwritten.
Imports: TreeRssi.Lib.Rounds, TreeRssi.Proofs.Convergence
Trusted boundary: none
Main exports: Reports, ControlRound, UpwardRun, UpwardReach, Reports.told, Known, run_known, Known.edges,
  tables_fill
Open obligations: none
-/
import TreeRssi.Lib.Rounds
import TreeRssi.Proofs.Convergence

namespace TreeRssi

open CText LabelledRun

variable {nodes : Finset LinkAddr} {T : ParentTree LinkAddr} {packetbufSize : Nat}
  {net net' mid : Net} {trace segment : List (Net × NetAction)}

/-! ### One report -/

/-- In this part of a run a report of `child` gets through: it is sent and received, and an event is
    delivered to its receiver before that node receives another packet. The latest step comes first. -/
def Reports (packetbufSize : Nat) (child : LinkAddr) (segment : List (Net × NetAction)) : Prop :=
  ∃ after between flying before delivered received sent frame posted,
    segment = after ++ (delivered, .deliver frame.dst) :: (between ++
      (received, .receive frame posted) :: (flying ++ (sent, .sendControl child) :: before)) ∧
    (Net.sendControl packetbufSize sent child).2 = some frame ∧
    ∀ pre other again, (pre, NetAction.receive other again) ∈ between → other.dst ≠ frame.dst

/-- In this part of a run every node but node 1 gets a report through. -/
def ControlRound (nodes : Finset LinkAddr) (packetbufSize : Nat) (segment : List (Net × NetAction)) :
    Prop :=
  ∀ child ∈ nodes, child.u8_0 ≠ 1 → Reports packetbufSize child segment

/-- A run in which control messages go up the tree. -/
abbrev UpwardRun (nodes : Finset LinkAddr) (T : ParentTree LinkAddr) (packetbufSize : Nat) (start : Net)
    (trace : List (Net × NetAction)) (net : Net) : Prop :=
  Run (Net.step nodes packetbufSize) (SendsOver packetbufSize T.Up) start trace net

/-- A state that such a run reaches from boot. -/
def UpwardReach (nodes : Finset LinkAddr) (T : ParentTree LinkAddr) (packetbufSize : Nat) (net : Net) :
    Prop :=
  ∃ beacons trace, UpwardRun nodes T packetbufSize (Net.boot beacons) trace net

namespace UpwardReach

theorem step (reach : UpwardReach nodes T packetbufSize net) {action : NetAction}
    (upwards : SendsOver packetbufSize T.Up net action)
    (stepped : net.step nodes packetbufSize action = some net') :
    UpwardReach nodes T packetbufSize net' := by
  obtain ⟨beacons, trace, run⟩ := reach
  exact ⟨beacons, _, run.snoc upwards stepped⟩

theorem run (reach : UpwardReach nodes T packetbufSize mid)
    (run : UpwardRun nodes T packetbufSize mid segment net) : UpwardReach nodes T packetbufSize net :=
  run.invariant reach fun _ _ _ reach upwards stepped => reach.step upwards stepped

theorem honest (reach : UpwardReach nodes T packetbufSize net) (big : 128 ≤ packetbufSize) :
    Honest nodes T.Up net := by
  obtain ⟨beacons, trace, run⟩ := reach
  exact run_honest big run

theorem entries (reach : UpwardReach nodes T packetbufSize net) (i : LinkAddr) :
    ∀ node ∈ net.table i, node.children ≠ [] ∨ (i.u8_0 = 1 ∧ node.id = 1) := by
  obtain ⟨beacons, trace, run⟩ := reach
  exact run_entries run i

end UpwardReach

/-- In a tree of the network only the root has the id 1. -/
theorem NetworkTree.child_ne_one (tree : NetworkTree nodes T) {j i : LinkAddr} (up : T.Up j i) :
    j.u8_0 ≠ 1 := by
  intro isRoot
  have jMem := (tree.verts j).mp (T.parent_mem up).1
  cases tree.distinct j jMem T.root ((tree.verts _).mp T.root_mem) (isRoot.trans tree.root.symm)
  rw [ParentTree.Up, T.parent_root] at up
  cases up

theorem NetworkTree.depth_lt_card (tree : NetworkTree nodes T) {i : LinkAddr} (member : i ∈ nodes) :
    T.depth i < nodes.card :=
  ParentTree.depth_lt_card (fun v => (tree.verts v).mp) ((tree.verts i).mpr member)

/-- Along a run tables only grow. -/
theorem run_grows {ok : Net → NetAction → Prop}
    (run : Run (Net.step nodes packetbufSize) ok mid segment net) : Grows mid net :=
  run.invariant (I := fun net => Grows mid net) (fun _ _ _ edge => edge)
    fun _ _ _ grown _ stepped i p c edge => (step_stepped stepped).grows i p c (grown i p c edge)

/-- The string that a node has received stays there until it receives another packet. -/
theorem run_quiet {ok : Net → NetAction → Prop} {i : LinkAddr}
    (run : Run (Net.step nodes packetbufSize) ok mid segment net)
    (quiet : ∀ pre frame posted, (pre, NetAction.receive frame posted) ∈ segment → frame.dst ≠ i) :
    (net.control i).ctrlPayload = (mid.control i).ctrlPayload := by
  induction run with
  | nil => rfl
  | @snoc trace s s' action run _ stepped ih =>
      rw [← ih fun pre frame posted earlier => quiet pre frame posted (List.mem_cons_of_mem _ earlier)]
      cases step_stepped stepped with
      | radio | lost => rfl
      | @sent node =>
          by_cases here : i = node
          · subst here
            simp only [Net.setControl_self]
            exact (sendRoutingTable_keeps _ _ _ _).2
          · exact congrArg ControlState.ctrlPayload (Net.setControl_other here)
      | @received frame posted =>
          have away := quiet s frame posted (List.mem_cons_self ..)
          exact congrArg ControlState.ctrlPayload (Net.setControl_other away.symm)
      | @delivered node state live event =>
          by_cases here : i = node
          · subst here
            simp only [Net.setControl_self]
            exact (ControlState.deliver_some event).2.1
          · exact congrArg ControlState.ctrlPayload (Net.setControl_other here)

/-- A report that gets through brings the parent the edge to the child, and every edge that the child had
    before. -/
theorem Reports.told {i j : LinkAddr} (reports : Reports packetbufSize j segment)
    (big : 128 ≤ packetbufSize) (tree : NetworkTree nodes T) (fits : ∀ i ∈ nodes, FitsSubtree T i)
    (reach : UpwardReach nodes T packetbufSize mid)
    (run : UpwardRun nodes T packetbufSize mid segment net) (up : T.Up j i) :
    HasEdge (net.table i) i.u8_0 j.u8_0 ∧
      ∀ p c, HasEdge (mid.table j) p c → HasEdge (net.table i) p c := by
  obtain ⟨after, between, flying, before, delivered, received, sent, frame, posted, rfl, frame_,
    alone⟩ := reports
  obtain ⟨merged, toDelivered, -, merge, late⟩ := run.around
  obtain ⟨copied, toReceived, -, copy, waiting⟩ := toDelivered.around
  obtain ⟨out, toSent, upwards, -, flight⟩ := toReceived.around
  have iMem := (tree.verts i).mp (T.parent_mem up).2
  have jMem := (tree.verts j).mp (T.parent_mem up).1
  -- What is sent is the whole table of the child.
  have reachSent := reach.run toSent
  have honest := reachSent.honest big
  have best : sent.best j = i := (upwards frame frame_).unique up
  obtain ⟨payload, taken, read⟩ := sendRoutingTable_exact big (honest.ok j).fits
    (honest.sentText_fits (reachSent.entries j) (fits j jMem) (tree.child_ne_one up)) frame_
  have dst : frame.dst = i := (sendRoutingTable_payload big frame_).1.2.1.trans best
  subst dst
  -- It is still there when the event is delivered.
  have stored : (copied.control frame.dst).ctrlPayload = payload := by
    cases step_stepped copy with
    | received =>
        simp only [Net.setControl_self, ControlState.receive, taken]
  have kept := (run_quiet waiting alone).trans stored
  have table : merged.table frame.dst =
      mergeRecv frame.dst.u8_0 (delivered.table frame.dst) (sentTree j (sent.table j)) := by
    cases step_stepped merge with
    | delivered live event =>
        rw [Net.table, Net.setControl_self, (ControlState.deliver_some event).1, kept, updateRoutingTable,
          read]
        rfl
  -- The parent has room for all of it.
  have reachDelivered := reach.run toDelivered
  obtain ⟨t, okT, same, -⟩ := fits frame.dst iMem
  have within := (reachDelivered.honest big).within (reachDelivered.entries frame.dst) same ⟨j, up⟩
  have room := within.mergeRecv okT (headId_sentTree (honest.first j))
    ((same _ _).mpr ⟨frame.dst, j, rfl, rfl, up, .refl⟩)
    (fun p c edge => (same p c).mpr ((honest.subtreeEdge (hasEdge_sentTree.mp edge)).ofChild up))
  rw [← table] at room
  have later := run_grows late
  refine ⟨later _ _ _ room.1, fun p c edge => later _ _ _ (room.2 p c ?_)⟩
  exact hasEdge_sentTree.mpr (run_grows toSent _ _ _ edge)

/-! ### Round by round -/

/-- The table of every node has the edges of its subtree that begin fewer than `k` levels below it. -/
def Known (nodes : Finset LinkAddr) (T : ParentTree LinkAddr) (k : Nat) (net : Net) : Prop :=
  ∀ i ∈ nodes, ∀ parent child, T.Up child parent → T.Below parent i → T.depth parent < T.depth i + k →
    HasEdge (net.table i) parent.u8_0 child.u8_0

/-- A round takes the edges one level up. -/
theorem Known.climb (big : 128 ≤ packetbufSize) (tree : NetworkTree nodes T)
    (fits : ∀ i ∈ nodes, FitsSubtree T i) {k : Nat} (reach : UpwardReach nodes T packetbufSize mid)
    (known : Known nodes T k mid) (run : UpwardRun nodes T packetbufSize mid segment net)
    (round : ControlRound nodes packetbufSize segment) : Known nodes T (k + 1) net := by
  have told : ∀ {j i}, T.Up j i → _ := fun {j i} up =>
    (round j ((tree.verts j).mp (T.parent_mem up).1) (tree.child_ne_one up)).told big tree fits reach run up
  intro i _ parent child up below near
  rcases below.cases_tail with rfl | ⟨j, below, up'⟩
  · exact (told up).1
  · -- The child of `i` on the way down to the edge had it before the round.
    have deeper := ParentTree.depth_of_up up'
    have had := known j ((tree.verts j).mp (T.parent_mem up').1) parent child up below (by omega)
    exact (told up').2 _ _ had

/-- After `k` rounds the tables have the edges that begin fewer than `k` levels below their nodes. -/
theorem run_known (big : 128 ≤ packetbufSize) (tree : NetworkTree nodes T)
    (fits : ∀ i ∈ nodes, FitsSubtree T i) {k : Nat} (reach : UpwardReach nodes T packetbufSize mid)
    (run : UpwardRun nodes T packetbufSize mid trace net)
    (rounds : Rounds (ControlRound nodes packetbufSize) k trace) : Known nodes T k net := by
  refine rounds.level run (I := UpwardReach nodes T packetbufSize) reach
    (fun _ _ _ reach upwards stepped => reach.step upwards stepped) (fun s _ => ?_)
    (fun k segment mid s reach known part round => known.climb big tree fits reach part round)
  intro i _ parent child _ below near
  have deeper := below.depth_le
  omega

/-- In a tree of depth at most `k` that is every edge of a subtree, and tables hold no others. -/
theorem Known.edges {k : Nat} (known : Known nodes T k net) (honest : Honest nodes T.Up net)
    (tree : NetworkTree nodes T) (deep : ∀ i ∈ nodes, T.depth i ≤ k) :
    ∀ i ∈ nodes, ∀ p c, HasEdge (net.table i) p c ↔ SubtreeEdge T i p c := by
  intro i member p c
  refine ⟨honest.subtreeEdge, ?_⟩
  rintro ⟨parent, child, rfl, rfl, up, below⟩
  have deeper := ParentTree.depth_of_up up
  have bound := deep child ((tree.verts child).mp (T.parent_mem up).1)
  exact known i member parent child up below (by omega)

/-- Where control messages go up a tree of depth at most `k` whose subtrees fit the tables and the messages,
    once `k` rounds of reports have got through the table of each node holds exactly the edges of its own
    subtree, whatever was lost, overwritten or sent besides. -/
theorem tables_fill (big : 128 ≤ packetbufSize) (tree : NetworkTree nodes T)
    (fits : ∀ i ∈ nodes, FitsSubtree T i) {beacons : BeaconNet}
    (run : UpwardRun nodes T packetbufSize (Net.boot beacons) trace net) {k : Nat}
    (deep : ∀ i ∈ nodes, T.depth i ≤ k) (rounds : Rounds (ControlRound nodes packetbufSize) k trace) :
    ∀ i ∈ nodes, ∀ p c, HasEdge (net.table i) p c ↔ SubtreeEdge T i p c :=
  (run_known big tree fits ⟨beacons, [], .nil⟩ run rounds).edges (run_honest big run) tree deep

/-- The report of node 2 to node 1. -/
def leafReport : Frame := ⟨⟨2, 0⟩, ⟨1, 0⟩, [uControl, ch '2', ch ':', ch ';', 0]⟩

/-- It is sent, received and merged. -/
def reportSteps : List NetAction := [.sendControl ⟨2, 0⟩, .receive leafReport true, .deliver ⟨1, 0⟩]

theorem history_report {step : Net → NetAction → Option Net} {s s' : Net}
    (executed : execute step s reportSteps = some s') : ∃ out copied, history step s reportSteps =
      [(copied, .deliver ⟨1, 0⟩), (out, .receive leafReport true), (s, .sendControl ⟨2, 0⟩)] := by
  obtain ⟨out, send, executed⟩ := Option.bind_eq_some_iff.mp executed
  obtain ⟨copied, receive, executed⟩ := Option.bind_eq_some_iff.mp executed
  obtain ⟨merged, deliver, executed⟩ := Option.bind_eq_some_iff.mp executed
  refine ⟨out, copied, ?_⟩
  simp only [reportSteps, history, send, receive, deliver]
  rfl

/-- These steps are a round of two nodes, if the report is what node 2 sends. -/
theorem report_round {step : Net → NetAction → Option Net} {s s' : Net}
    (sent : (s.sendControl 128 ⟨2, 0⟩).2 = some leafReport)
    (executed : execute step s reportSteps = some s') :
    ControlRound {⟨1, 0⟩, ⟨2, 0⟩} 128 (history step s reportSteps) := by
  obtain ⟨out, copied, steps⟩ := history_report executed
  intro child member notRoot
  have which : child = ⟨1, 0⟩ ∨ child = ⟨2, 0⟩ := by simpa using member
  have second : child = ⟨2, 0⟩ := which.resolve_left fun first => notRoot (first ▸ rfl)
  subst second
  exact ⟨[], [], [], [], copied, out, s, leafReport, true, steps, sent, by simp⟩

/-- One report of node 2 fills the table of node 1. -/
theorem tables_fill_twoAddrs :
    ∃ trace net, UpwardRun {⟨1, 0⟩, ⟨2, 0⟩} twoAddrs 128 (Net.boot electedOne) trace net ∧
      HasEdge (net.table ⟨1, 0⟩) 1 2 := by
  let nodes : Finset LinkAddr := {⟨1, 0⟩, ⟨2, 0⟩}
  have reported : (execute (Net.step nodes 128) (Net.boot electedOne) reportSteps).isSome := by
    decide +kernel
  have sent : ((Net.boot electedOne).sendControl 128 ⟨2, 0⟩).2 = some leafReport := by decide +kernel
  obtain ⟨net, executed⟩ := Option.isSome_iff_exists.mp reported
  obtain ⟨out, copied, steps⟩ := history_report executed
  have run : UpwardRun nodes twoAddrs 128 (Net.boot electedOne)
      (history (Net.step nodes 128) (Net.boot electedOne) reportSteps) net := by
    refine (Run.of_execute anyStep (fun _ _ _ => trivial) executed).guard fun e member => ?_
    rw [steps, List.mem_cons, List.mem_cons, List.mem_singleton] at member
    rcases member with rfl | rfl | rfl
    · trivial
    · trivial
    · exact fun _ _ => twoAddrs_up.mpr ⟨rfl, rfl⟩
  have tree : NetworkTree nodes twoAddrs := ⟨fun _ => Iff.rfl, rfl, by decide, by decide⟩
  have rounds := (Rounds.start []).more (report_round sent executed)
  rw [List.append_nil] at rounds
  refine ⟨_, net, run, ?_⟩
  exact (tables_fill (by decide) tree twoAddrs_fits run
    (fun i member => Nat.le_of_lt_succ (tree.depth_lt_card member)) rounds ⟨1, 0⟩ (by decide) 1 2).mpr
      ⟨⟨1, 0⟩, ⟨2, 0⟩, rfl, rfl, twoAddrs_up.mpr ⟨rfl, rfl⟩, .refl⟩

end TreeRssi
