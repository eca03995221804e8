/-
Module: TreeRssi.Proofs.SystemColdStart
Layer: Proofs
Purpose: The whole program from a cold start. Over constant links no node falls silent, so what is in
  transit can be served from the first packet on. Once the rounds of beacons and of reports have passed,
  the routes are those of one tree and stay so; from then on a run transmits what the distances of that
  tree cost, and what is in transit in a quiet moment arrives.
Imports: TreeRssi.Proofs.Drain
Trusted boundary: none
Main exports: OverAir, run_onAir, run_drainable, Grown.routed_run, Quiet, CarriesAll, cold_start_carries
Open obligations: none
-/
import TreeRssi.Proofs.Drain

namespace TreeRssi

open CText LabelledRun TokenFlow BestPath

variable {nodes : Finset LinkAddr} {links : Links nodes} {packetbufSize : Nat} {s s₀ mid : System}
  {trace : List (System × SystemAction)}

/-! ### The whole program over constant links -/

/-- Beacons are heard over the links, and every event is posted; everything else is free. -/
def OverAir (links : Links nodes) (s : System) : SystemAction → Prop
  | .net action => OnAir links s.net action
  | .generate _ posted | .receive _ posted => posted = true
  | _ => True

theorem OverAir.posted {action : SystemAction} (allowed : OverAir links s action) : Posted s action := by
  cases action with
  | generate | receive => exact allowed
  | net | lose | route => trivial

theorem OverAir.loud {action : SystemAction} (allowed : OverAir links s action) (node : LinkAddr) :
    action ≠ .net (.radio (.silence node)) := by
  rintro rfl
  exact allowed

/-- The neighbour and the control plane of such a run. -/
theorem run_onAir (big : 128 ≤ packetbufSize) (inv : SystemInv s₀)
    (run : Run (System.step nodes packetbufSize) (OverAir links) s₀ trace s) :
    Run (Net.step nodes packetbufSize) (OnAir links) s₀.net (netTrace trace) s.net :=
  run_net big (fun _ _ allowed => allowed) inv run

/-- What is in transit can be served, if it is no more than a node has blocks. -/
theorem run_drainable (big : 128 ≤ packetbufSize) (addrs : PlainAddrs nodes)
    (run : Run (System.step nodes packetbufSize) (OverAir links) System.boot trace s)
    (few : Multiset.card (s.flow nodes).queued + Multiset.card (s.flow nodes).air ≤ pktMem) :
    Drainable nodes s := by
  obtain ⟨inv, awake⟩ := run_awake big (run.weaken fun _ _ _ allowed _ => allowed.posted) .boot
    fun i queued => absurd rfl queued
  have live : SystemInv s ∧ ∀ i ∈ nodes, s.net.beacons.Live nodes i := by
    refine run.invariant (I := fun s => SystemInv s ∧ ∀ i ∈ nodes, s.net.beacons.Live nodes i)
      ⟨.boot, fun i member => ⟨member, by simp [System.boot, Net.boot, BeaconNet.cold]⟩⟩ ?_
    rintro s action s' ⟨inv, live⟩ allowed stepped
    exact ⟨(inv.step big stepped).1, fun i member => step_live inv (live i member) allowed.loud stepped⟩
  exact ⟨inv, awake, live.2, run_addressed big addrs run, few⟩

/-- Once the tree has grown and every edge of it is known, the routes are those of the tree for good. -/
theorem Grown.routed_run {T : ParentTree LinkAddr} (grown : Grown links T packetbufSize s₀.net)
    (known : Known nodes T nodes.card s₀.net) (big : 128 ≤ packetbufSize) (addrs : PlainAddrs nodes)
    (inv : SystemInv s₀) (run : Run (System.step nodes packetbufSize) (OverAir links) s₀ trace s) :
    Routed nodes (idTree T (grown.tree.back addrs)) s.net := by
  have net := run_onAir big inv run
  have known' : Known nodes T nodes.card s.net := fun i member parent child up below near =>
    run_grows net _ _ _ (known i member parent child up below near)
  exact (grown.run net).routed known' addrs big

/-! ### A quiet moment -/

/-- Nothing is generated, and no data packet is lost on the air. -/
def Quiet (links : Links nodes) (s : System) (action : SystemAction) : Prop :=
  OverAir links s action ∧ match action with
    | .generate _ _ | .lose _ => False
    | _ => True

theorem Quiet.draining {T : ParentTree UInt8} {action : SystemAction} (quiet : Quiet links s action)
    (routed : Routed nodes T s.net) : Draining nodes T s action := by
  refine ⟨routed.along, quiet.1.posted, ?_⟩
  cases action with
  | generate | lose => exact quiet.2
  | net action =>
      cases action with
      | radio beacon =>
          cases beacon with
          | silence => exact quiet.1
          | beacon | expire => trivial
      | sendControl | receive | lose | deliver => trivial
  | receive | route => trivial

theorem Draining.quiet {T : ParentTree UInt8} {action : SystemAction} (draining : Draining nodes T s action)
    (data : action.isData) (links : Links nodes) : Quiet links s action := by
  obtain ⟨-, posted, still⟩ := draining
  cases action with
  | net => cases data
  | generate | lose => exact still.elim
  | receive => exact ⟨posted, trivial⟩
  | route => exact ⟨trivial, trivial⟩

/-- What a quiet run makes of what is in transit at its start: it loses nothing of it, and takes no more
    steps of the data plane than are left to do; it can take one as long as something is in transit, and
    has delivered all of it when nothing is. -/
structure CarriesAll (links : Links nodes) (T : ParentTree UInt8) (packetbufSize : Nat) (s t : System)
    (trace : List (System × SystemAction)) : Prop where
  lost : (t.flow nodes).lost = (s.flow nodes).lost
  bounded : (trace.countP fun e => e.2.isData) + t.toDo nodes T ≤ s.toDo nodes T
  progress : (t.flow nodes).queued + (t.flow nodes).air ≠ 0 →
    ∃ action after, action.isData = true ∧ Quiet links t action ∧
      t.step nodes packetbufSize action = some after
  delivered : (t.flow nodes).queued + (t.flow nodes).air = 0 → destino ∈ T.verts →
    (t.flow nodes).delivered.map Prod.snd = (s.flow nodes).delivered.map Prod.snd +
      ((s.flow nodes).queued + (s.flow nodes).air).map Prod.snd

theorem Drainable.carriesAll {T : ParentTree UInt8} {t : System} (start : Drainable nodes s)
    (big : 128 ≤ packetbufSize) (addrs : PlainAddrs nodes)
    (run : Run (System.step nodes packetbufSize) (Quiet links) s trace t)
    (routed : ∀ {earlier pre}, Run (System.step nodes packetbufSize) (Quiet links) s earlier pre →
      Routed nodes T pre.net) : CarriesAll links T packetbufSize s t trace := by
  have draining : Run (System.step nodes packetbufSize) (Draining nodes T) s trace t := by
    refine run.guard fun (pre, action) member => ?_
    obtain ⟨before, post, earlier, quiet, -⟩ := run.of_mem member
    exact quiet.draining (routed earlier)
  obtain ⟨drainable, moves, drains⟩ := start.run big addrs draining
  obtain ⟨-, -, lost, -⟩ := drains_transit drains
  refine ⟨lost, start.countP_le big addrs draining, fun transit => ?_,
    fun none inside => drains_delivered drains inside none⟩
  obtain ⟨action, after, data, enabled, stepped⟩ :=
    drainable.enabled packetbufSize addrs (routed run) transit
  exact ⟨action, after, data, enabled.quiet data links, stepped⟩

/-- From a cold start of the whole program over constant links that connect every node and fit the pools,
    the tables and the messages, let as many rounds of beacons pass as there are nodes, with no control
    message sent to any but the parents that are best at the end, and then as many rounds of reports,
    whatever data packets are generated, lost or dropped meanwhile. From then on the routes are those of one
    tree of the network in every state: a run transmits exactly what the distances of its packets in the
    tree cost, and drops none for a node of the network; and from any moment with at most ten packets in
    transit on, a run in which none is generated and none lost on the air carries all of them to their
    destination. -/
theorem cold_start_carries (links : Links nodes) (few : links.FewNeighbours) (addrs : PlainAddrs nodes)
    (connected : ∀ i ∈ nodes, ∃ s, PathSum links.rssi (IsRoot nodes) i s ∧ noPath < s)
    (fit : LinksFit links) (big : 128 ≤ packetbufSize) {early late : List (System × SystemAction)}
    (first : Run (System.step nodes packetbufSize) (OverAir links) System.boot early mid)
    (beacons : Rounds (BeaconRound links) nodes.card (beaconTrace (netTrace early)))
    (steady : Steady mid.net (netTrace early))
    (second : Run (System.step nodes packetbufSize) (OverAir links) mid late s₀)
    (reports : Rounds (ControlRound nodes packetbufSize) nodes.card (netTrace late)) :
    ∃ T : ParentTree UInt8, (∀ id, id ∈ T.verts ↔ ⟨id, 0⟩ ∈ nodes) ∧
      ∀ trace s, Run (System.step nodes packetbufSize) (OverAir links) s₀ trace s →
        Routed nodes T s.net ∧
        s.transmissions nodes + s.hopsAhead nodes T + (s₀.log.born.map (hopsLeft T)).sum =
          s₀.transmissions nodes + s₀.hopsAhead nodes T + (s.log.born.map (hopsLeft T)).sum ∧
        (destino ∈ T.verts → (s.flow nodes).dropped = (s₀.flow nodes).dropped) ∧
        (Multiset.card (s.flow nodes).queued + Multiset.card (s.flow nodes).air ≤ pktMem →
          ∀ more t, Run (System.step nodes packetbufSize) (Quiet links) s more t →
            CarriesAll links T packetbufSize s t more) := by
  have inv : SystemInv mid := run_inv big .boot first
  have inv₀ : SystemInv s₀ := run_inv big inv second
  obtain ⟨T, grown, known⟩ := run_grown links few addrs connected fit big (run_onAir big .boot first) beacons
    steady (run_onAir big inv second) reports
  obtain ⟨ids, routed⟩ : ∃ ids, ∀ {trace s}, Run (System.step nodes packetbufSize) (OverAir links) s₀ trace s →
      Routed nodes ids s.net := ⟨_, fun run => grown.routed_run known big addrs inv₀ run⟩
  refine ⟨ids, (routed .nil).verts, fun trace s run => ?_⟩
  have along : Run (System.step nodes packetbufSize) (RoutedAlong nodes ids) s₀ trace s := by
    refine run.guard fun (pre, action) member => ?_
    obtain ⟨before, post, earlier, -, -⟩ := run.of_mem member
    exact (routed earlier).along
  obtain ⟨transmitted, dropped, -⟩ := run_transmissions big addrs inv₀ along
  refine ⟨routed run, transmitted, dropped, fun few more t quiet => ?_⟩
  have start := run_drainable big addrs ((first.append second).append run) few
  exact start.carriesAll big addrs quiet fun earlier =>
    routed (run.append (earlier.weaken fun _ _ _ quiet _ => quiet.1))

/-! ### Three nodes from a cold start -/

theorem mem_starHeard {j : LinkAddr} {x : Int} (heard : starHeard.lookup j = some x) :
    j = ⟨8, 0⟩ ∧ x = -10 ∨ j = ⟨17, 0⟩ ∧ x = -12 := by
  obtain ⟨before, after, split, -⟩ := List.lookup_eq_some_iff.mp heard
  have listed : (j, x) ∈ starHeard := by simp [split]
  simpa [starHeard] using listed

/-- Nodes 8 and 17 hear node 1. -/
def starLinks : Links starNodes where
  rssi i j := if i = ⟨1, 0⟩ then starHeard.lookup j else none
  range link := by
    obtain ⟨-, heard⟩ := Option.ite_none_right_eq_some.mp link
    rcases mem_starHeard heard with ⟨-, rfl⟩ | ⟨-, rfl⟩ <;> decide
  ends link := by
    obtain ⟨rfl, heard⟩ := Option.ite_none_right_eq_some.mp link
    rcases mem_starHeard heard with ⟨rfl, -⟩ | ⟨rfl, -⟩ <;> decide

theorem starLinks_few : starLinks.FewNeighbours := by
  refine fun j => ⟨{⟨1, 0⟩}, by decide, fun i x link => ?_⟩
  obtain ⟨rfl, -⟩ := Option.ite_none_right_eq_some.mp link
  exact Finset.mem_singleton_self _

theorem starLinks_connected :
    ∀ i ∈ starNodes, ∃ s, PathSum starLinks.rssi (IsRoot starNodes) i s ∧ noPath < s := by
  intro i member
  have root : PathSum starLinks.rssi (IsRoot starNodes) ⟨1, 0⟩ 0 := .root ⟨by decide, rfl⟩
  have which : i = ⟨1, 0⟩ ∨ i = ⟨8, 0⟩ ∨ i = ⟨17, 0⟩ := by simpa [starNodes] using member
  rcases which with rfl | rfl | rfl
  · exact ⟨0, root, by decide⟩
  · exact ⟨0 + -10, root.step rfl, by decide⟩
  · exact ⟨0 + -12, root.step rfl, by decide⟩

/-- The beacon of node 1. -/
def starBeacon : SystemAction := .net (.radio (.beacon ⟨1, 0⟩ starHeard))

/-- One beacon of node 1 is a round. -/
theorem starBeacon_round (beacons : BeaconNet) :
    BeaconRound starLinks [(beacons, .beacon ⟨1, 0⟩ starHeard)] := by
  intro i j x link
  obtain ⟨rfl, heard⟩ := Option.ite_none_right_eq_some.mp link
  exact ⟨beacons, _, List.mem_singleton_self _, Option.isSome_iff_exists.mpr ⟨x, heard⟩⟩

/-- Three of them. -/
theorem starBeacons_rounds {s : System}
    (executed : execute (System.step starNodes 128) System.boot [starBeacon, starBeacon, starBeacon] = some s) :
    Rounds (BeaconRound starLinks) 3 (beaconTrace (netTrace
      (history (System.step starNodes 128) System.boot [starBeacon, starBeacon, starBeacon]))) ∧
    ∀ mid, Steady mid (netTrace
      (history (System.step starNodes 128) System.boot [starBeacon, starBeacon, starBeacon])) := by
  obtain ⟨s₁, first, executed⟩ := Option.bind_eq_some_iff.mp executed
  obtain ⟨s₂, second, executed⟩ := Option.bind_eq_some_iff.mp executed
  obtain ⟨s₃, third, -⟩ := Option.bind_eq_some_iff.mp executed
  have steps : history (System.step starNodes 128) System.boot [starBeacon, starBeacon, starBeacon] =
      [(s₂, starBeacon), (s₁, starBeacon), (System.boot, starBeacon)] := by
    simp only [history, first, second, third]
    rfl
  rw [steps]
  constructor
  · exact (((Rounds.start []).more (starBeacon_round _)).more (starBeacon_round _)).more (starBeacon_round _)
  · intro mid pre node member
    simp [netTrace, SystemAction.net?, starBeacon] at member

/-- Nodes 8 and 17 are leaves when it is their turn to report. -/
def StarSends (s : System) : Prop :=
  (s.net.sendControl 128 ⟨8, 0⟩).2 = some (leafFrame 8 [ch '8']) ∧
    (execute (System.step starNodes 128) s (starReports.take 3)).map
      (fun s => (s.net.sendControl 128 ⟨17, 0⟩).2) = some (some (leafFrame 17 [ch '1', ch '7']))

instance : DecidablePred StarSends := fun _ => inferInstanceAs (Decidable (_ ∧ _))

/-- Then both reports are a round. -/
theorem starReports_round {s s' : System} (sends : StarSends s)
    (executed : execute (System.step starNodes 128) s starReports = some s') :
    ControlRound starNodes 128 (netTrace (history (System.step starNodes 128) s starReports)) := by
  obtain ⟨first, again⟩ := sends
  obtain ⟨s₁, send, executed⟩ := Option.bind_eq_some_iff.mp executed
  obtain ⟨s₂, receive, executed⟩ := Option.bind_eq_some_iff.mp executed
  obtain ⟨s₃, deliver, executed⟩ := Option.bind_eq_some_iff.mp executed
  obtain ⟨s₄, send', executed⟩ := Option.bind_eq_some_iff.mp executed
  obtain ⟨s₅, receive', executed⟩ := Option.bind_eq_some_iff.mp executed
  obtain ⟨s₆, deliver', -⟩ := Option.bind_eq_some_iff.mp executed
  have second : (s₃.net.sendControl 128 ⟨17, 0⟩).2 = some (leafFrame 17 [ch '1', ch '7']) := by
    simpa only [starReports, List.take, execute, send, receive, deliver, Option.bind_some, Option.map_some,
      Option.some.injEq] using again
  have steps : netTrace (history (System.step starNodes 128) s starReports) =
      [(s₅.net, .deliver ⟨1, 0⟩), (s₄.net, .receive (leafFrame 17 [ch '1', ch '7']) true),
        (s₃.net, .sendControl ⟨17, 0⟩), (s₂.net, .deliver ⟨1, 0⟩),
        (s₁.net, .receive (leafFrame 8 [ch '8']) true), (s.net, .sendControl ⟨8, 0⟩)] := by
    simp only [starReports, history, send, receive, deliver, send', receive', deliver']
    rfl
  rw [steps]
  intro child member notRoot
  have which : child = ⟨1, 0⟩ ∨ child = ⟨8, 0⟩ ∨ child = ⟨17, 0⟩ := by simpa [starNodes] using member
  rcases which with rfl | rfl | rfl
  · exact absurd rfl notRoot
  · exact ⟨[(s₅.net, .deliver ⟨1, 0⟩), (s₄.net, .receive (leafFrame 17 [ch '1', ch '7']) true),
      (s₃.net, .sendControl ⟨17, 0⟩)], [], [], [], s₂.net, s₁.net, s.net, _, true, rfl, first, by simp⟩
  · exact ⟨[], [], [], _, s₅.net, s₄.net, s₃.net, _, true, rfl, second, by simp⟩

/-- In `s` one packet waits at node 8, and the next five steps bring it to its end. -/
def StarPosts (s : System) : Prop :=
  ((s.flow starNodes).queued = {(⟨8, 0⟩, numberedEntry 1 origen destino)} ∧
    (s.flow starNodes).air = 0 ∧ (s.flow starNodes).delivered = 0) ∧
  (execute (System.step starNodes 128) s starCarries).any fun t =>
    (t.flow starNodes).queued + (t.flow starNodes).air = 0

instance : DecidablePred StarPosts := fun _ => inferInstanceAs (Decidable (_ ∧ _))

/-- Three beacons, three rounds of reports, and the first packet. -/
theorem star_coldStart : ∃ mid m₁ m₂ s₀ s,
    execute (System.step starNodes 128) System.boot [starBeacon, starBeacon, starBeacon] = some mid ∧
    (StarSends mid ∧ execute (System.step starNodes 128) mid starReports = some m₁) ∧
    (StarSends m₁ ∧ execute (System.step starNodes 128) m₁ starReports = some m₂) ∧
    (StarSends m₂ ∧ execute (System.step starNodes 128) m₂ starReports = some s₀) ∧
    execute (System.step starNodes 128) s₀ [.generate ⟨8, 0⟩ true] = some s ∧ StarPosts s := by
  have ready : (execute (System.step starNodes 128) System.boot [starBeacon, starBeacon, starBeacon]).any
      fun mid => StarSends mid ∧ (execute (System.step starNodes 128) mid starReports).any
      fun m₁ => StarSends m₁ ∧ (execute (System.step starNodes 128) m₁ starReports).any
      fun m₂ => StarSends m₂ ∧ (execute (System.step starNodes 128) m₂ starReports).any
      fun s₀ => (execute (System.step starNodes 128) s₀ [.generate ⟨8, 0⟩ true]).any
      fun s => StarPosts s := by
    decide +kernel
  simp only [Option.any_eq_true, decide_eq_true_eq] at ready
  obtain ⟨mid, beaconed, sends₁, m₁, reported₁, sends₂, m₂, reported₂, sends₃, s₀, reported₃, s, generated,
    posts⟩ := ready
  exact ⟨mid, m₁, m₂, s₀, s, beaconed, ⟨sends₁, reported₁⟩, ⟨sends₂, reported₂⟩, ⟨sends₃, reported₃⟩,
    generated, posts⟩

/-- After them the first packet of node 8 is carried to node 17. -/
theorem cold_start_carries_star :
    ∃ trace s t, Run (System.step starNodes 128) (OverAir starLinks) System.boot trace s ∧
      (s.flow starNodes).queued.map Prod.snd = {numberedEntry 1 origen destino} ∧
      execute (System.step starNodes 128) s starCarries = some t ∧
      (t.flow starNodes).delivered.map Prod.snd = {numberedEntry 1 origen destino} := by
  obtain ⟨mid, m₁, m₂, s₀, s, beaconed, ⟨sends₁, reported₁⟩, ⟨sends₂, reported₂⟩, ⟨sends₃, reported₃⟩,
    generated, ⟨queued, air, delivered⟩, ends⟩ := star_coldStart
  obtain ⟨t, carried, quiet⟩ := (Option.any_eq_true _ _).mp ends
  have addrs : PlainAddrs starNodes := ⟨by decide, by decide, by decide⟩
  have fit : LinksFit starLinks := fun T tree _ i _ => fitsSubtree_of_small (by decide) tree i
  have heard : ∀ e ∈ starHeard, starLinks.rssi ⟨1, 0⟩ e.1 = some e.2 := by decide
  have beacon : ∀ s, ∀ l ∈ [starBeacon, starBeacon, starBeacon], OverAir starLinks s l := by
    intro s l member
    have same : l = starBeacon := by simpa using member
    exact same ▸ heard
  have first := Run.of_execute _ beacon beaconed
  obtain ⟨rounds, steady⟩ := starBeacons_rounds beaconed
  have free : ∀ s, ∀ l ∈ starReports, OverAir starLinks s l := by simp [starReports, OverAir, OnAir]
  have second := ((Run.of_execute _ free reported₁).append (Run.of_execute _ free reported₂)).append
    (Run.of_execute _ free reported₃)
  have reports := (((Rounds.start []).more (starReports_round sends₁ reported₁)).more
    (starReports_round sends₂ reported₂)).more (starReports_round sends₃ reported₃)
  rw [List.append_nil, ← netTrace_append, ← netTrace_append] at reports
  have third := Run.of_execute (OverAir starLinks) (by simp [OverAir]) generated
  have fourth := Run.of_execute (Quiet starLinks) (by simp [starCarries, Quiet, OverAir]) carried
  obtain ⟨T, verts, carries⟩ := cold_start_carries starLinks starLinks_few addrs starLinks_connected fit
    (by decide) first rounds (steady _) second reports
  have all := ((carries _ s third).2.2.2 (by rw [queued, air]; decide) _ t fourth).delivered
    (of_decide_eq_true quiet) ((verts destino).mpr (by decide))
  rw [queued, air, delivered] at all
  exact ⟨_, s, t, (first.append second).append third, by rw [queued]; rfl, carried, all⟩

end TreeRssi
