/-
Module: TreeRssi.Proofs.TimedConvergence
Layer: Proofs
Purpose: How long the neighbour plane takes. While no link loses more than so many beacons in a row that
  the keepalive would notice, nothing but the entries of lost neighbours expires, and every stretch of time
  in which a node sends one beacon more than can be lost is a round. So the rounds of the untimed results
  come in bounded time: from a cold start, and after any past behind the timeout of the keepalives.
Imports: TreeRssi.Proofs.BeaconTimers, TreeRssi.Proofs.Restabilize
Trusted boundary: none
Main exports: TimedOverLinks, LosesAtMost, roundTime, radioTrace, run_radio, round_in_time, cold_start_in_time,
  restabilizes_in_time
Open obligations: none
-/
import TreeRssi.Proofs.BeaconTimers
import TreeRssi.Proofs.Restabilize

namespace TreeRssi

open LabelledRun BestPath

variable {clockSecond latency lost : Nat} {nodes : Finset LinkAddr} {links : Links nodes}
  {s s' mid : TimedNet} {trace segment later earlier : List (TimedNet × TimedAction)}
  {ok : TimedNet → TimedAction → Prop}

/-! ### Constant links -/

/-- Every beacon is heard with the RSSI of the link, and nobody falls silent. Keepalives may go off. -/
def TimedOverLinks (links : Links nodes) (_ : TimedNet) : TimedAction → Prop
  | .beacon sender heard _ => ∀ e ∈ heard, links.rssi sender e.1 = some e.2
  | .silence _ => False
  | .tick | .expire _ _ => True

/-- No link ever loses more than `lost` beacons in a row. -/
def LosesAtMost (links : Links nodes) (lost : Nat) (trace : List (TimedNet × TimedAction)) : Prop :=
  ∀ i j x, links.rssi i j = some x → ∀ later earlier, trace = later ++ earlier → missed i j earlier ≤ lost

/-- The time in which a node sends more than `lost` beacons. -/
def roundTime (clockSecond latency lost : Nat) : Nat := (lost + 1) * (trickleMax clockSecond + latency) + 1

/-- The keepalive outlasts `lost` lost beacons. -/
def Tolerates (clockSecond latency lost : Nat) : Prop :=
  roundTime clockSecond latency lost ≤ keepaliveTimeout clockSecond

instance (clockSecond latency lost : Nat) : Decidable (Tolerates clockSecond latency lost) :=
  inferInstanceAs (Decidable (_ ≤ _))

-- 128 ticks a second: 23 beacons in a row may be lost.
example : Tolerates 128 0 23 ∧ ¬ Tolerates 128 0 24 := by decide

theorem LosesAtMost.now (received : LosesAtMost links lost trace) {i j : LinkAddr} {x : Int}
    (link : links.rssi i j = some x) : missed i j trace ≤ lost := received i j x link [] trace rfl

theorem LosesAtMost.prior (received : LosesAtMost links lost (later ++ earlier)) :
    LosesAtMost links lost earlier := by
  rintro i j x link later' earlier' rfl
  exact received i j x link (later ++ later') earlier' (List.append_assoc ..).symm

theorem TimedOverLinks.loud {node : LinkAddr} {action : TimedAction}
    (allowed : TimedOverLinks links s action) : action ≠ .silence node := by
  rintro rfl
  exact allowed

/-- A beacon that is heard is heard over a link. -/
theorem TimedOverLinks.link {i j : LinkAddr} {action : TimedAction} (allowed : TimedOverLinks links s action)
    (heard : action.carries i j = true) : ∃ x, links.rssi i j = some x := by
  cases action with
  | tick | expire | silence => cases heard
  | beacon sender receivers _ =>
      obtain ⟨own, received⟩ := Bool.and_eq_true_iff.mp heard
      obtain ⟨x, found⟩ := Option.isSome_iff_exists.mp received
      exact ⟨x, of_decide_eq_true own ▸ allowed _ (mem_of_lookup found)⟩

/-- The neighbour plane in a history. -/
def radioTrace (trace : List (TimedNet × TimedAction)) : List (BeaconNet × BeaconAction) :=
  trace.filterMap fun e => e.2.neighbour?.map fun own => (e.1.net, own)

/-- The neighbour plane of a timed run is a run of its own. -/
theorem run_radio {allows : BeaconNet → BeaconAction → Prop} {s₀ : TimedNet}
    (run : Run (TimedNet.step clockSecond latency nodes) ok s₀ trace s)
    (seen : ∀ s action own, ok s action → action.neighbour? = some own → allows s.net own) :
    Run (BeaconNet.step nodes) allows s₀.net (radioTrace trace) s.net :=
  run.project (I := fun _ => True) TimedNet.net TimedAction.neighbour? trivial (fun _ _ _ _ _ _ => trivial)
    (fun _ _ _ own _ allowed stepped label =>
      ⟨seen _ _ own allowed label, (step_timed stepped).radio label⟩)
    (fun _ _ _ _ _ stepped label => (step_timed stepped).still label)

/-! ### Rounds -/

/-- A stretch of time in which a node sends more beacons than can be lost is a round. -/
theorem round_in_time (running : ∀ i j x, links.rssi i j = some x → Running clockSecond latency nodes i mid)
    (run : Run (TimedNet.step clockSecond latency nodes) (TimedOverLinks links) mid segment s)
    (received : LosesAtMost links lost (segment ++ earlier))
    (time : mid.now + roundTime clockSecond latency lost ≤ s.now) :
    BeaconRound links (radioTrace segment) := by
  intro i j x link
  by_cases heard : ∃ e ∈ segment, e.2.carries i j = true
  · obtain ⟨⟨net, action⟩, member, carries⟩ := heard
    cases action with
    | tick | expire | silence => cases carries
    | beacon sender receivers _ =>
        obtain ⟨own, found⟩ := Bool.and_eq_true_iff.mp carries
        have own := of_decide_eq_true own
        subst own
        exact ⟨net.net, receivers, List.mem_filterMap.mpr ⟨_, member, rfl⟩, found⟩
  · have none : ∀ e ∈ segment, e.2.carries i j = false := fun e member =>
      Bool.eq_false_iff.mpr fun yes => heard ⟨e, member, yes⟩
    have elapsed := (beaconTimer i fun _ _ allowed => allowed.loud).elapsed_le (running i j x link) run
    have few := received.now link
    rw [missed, sinceLast_append earlier none, List.countP_append] at few
    have bound := Nat.mul_le_mul_right (trickleMax clockSecond + latency)
      (Nat.succ_le_succ (Nat.le_of_add_right_le few))
    simp only [roundTime, Nat.succ_eq_add_one] at time bound
    omega

/-- The keepalive of a neighbour that has been heard over a link does not go off. -/
theorem no_expiry (tolerates : Tolerates clockSecond latency lost) {i j : LinkAddr} {x : Int}
    (link : links.rssi i j = some x) (running : Running clockSecond latency nodes i mid)
    (run : Run (TimedNet.step clockSecond latency nodes) (TimedOverLinks links) mid trace s)
    (received : LosesAtMost links lost trace) (heard : ∃ e ∈ trace, e.2.carries i j = true)
    (stepped : s.step clockSecond latency nodes (.expire j i) = some s') : False := by
  obtain ⟨due, -, listed⟩ := expire_due stepped
  have filled := (beaconTimer i fun _ _ allowed => allowed.loud).outlasts
    (keepaliveWatchdog Running.clocked i j) running run heard listed due
  have few := received.now link
  have bound := Nat.mul_le_mul_right (trickleMax clockSecond + latency) (Nat.succ_le_succ few)
  simp only [Tolerates, roundTime, missed, Nat.succ_eq_add_one] at tolerates bound
  omega

/-! ### Runs over constant links -/

/-- A run over links in which no keepalive goes off is a run of the untimed neighbour plane over them. -/
theorem run_overLinks (run : Run (TimedNet.step clockSecond latency nodes) (TimedOverLinks links) mid trace s)
    (kept : ∀ e ∈ trace, ∀ j i, e.2 ≠ .expire j i) :
    Run (BeaconNet.step nodes) (OverLinks links) mid.net (radioTrace trace) s.net := by
  have both : Run (TimedNet.step clockSecond latency nodes)
      (fun s action => TimedOverLinks links s action ∧ ∀ j i, action ≠ .expire j i) mid trace s :=
    run.guard fun e member => by
      obtain ⟨-, -, -, allowed, -⟩ := run.of_mem member
      exact ⟨allowed, kept e member⟩
  refine run_radio both fun s action own ⟨allowed, stays⟩ label => ?_
  cases action with
  | tick => cases label
  | beacon =>
      cases label
      exact allowed
  | expire j i => exact absurd rfl (stays j i)
  | silence => exact allowed.elim

/-- The rounds of a run that lasts long enough. -/
theorem rounds_in_time {k : Nat}
    (running : ∀ i j x, links.rssi i j = some x → Running clockSecond latency nodes i mid)
    (run : Run (TimedNet.step clockSecond latency nodes) (TimedOverLinks links) mid trace s)
    (received : LosesAtMost links lost (trace ++ earlier))
    (time : mid.now + k * roundTime clockSecond latency lost ≤ s.now) :
    Rounds (BeaconRound links) k (radioTrace trace) := by
  have timed : Rounds (fun segment => BeaconRound links (radioTrace segment)) k trace := by
    refine run.rounds_in_time (fun _ _ _ _ stepped => (step_timed stepped).clock.2) ?_ time
    intro later segment before start s' split first rest time
    rw [split, List.append_assoc, List.append_assoc] at received
    refine round_in_time (fun i j x link => ?_) rest received.prior time
    exact first.invariant (running i j x link) fun _ _ _ running allowed stepped =>
      running.step allowed.loud stepped
  exact timed.filterMap _ fun _ round => round

/-- A neighbour that is listed has been heard, if it was not listed before or the keepalive has run out
    since. -/
theorem heard_of_listed (clocked : Clocked clockSecond latency nodes mid)
    (run : Run (TimedNet.step clockSecond latency nodes) ok mid trace s) {i j : LinkAddr}
    (live : s.net.Live nodes j) (listed : Lists (s.net.parents j) i)
    (since : Lists (mid.net.parents j) i → mid.now + keepaliveTimeout clockSecond + latency < s.now) :
    ∃ e ∈ trace, e.2.carries i j = true := by
  have watchdog : Watchdog _ ok (Clocked clockSecond latency nodes) _ _ _ _ _ := keepaliveWatchdog id i j
  rcases watchdog.restarted_of_armed clocked (fun _ _ _ clocked _ stepped => clocked.step stepped) run
    listed with ⟨before, same⟩ | heard
  · have late := since before
    have ahead := clocked.keepaliveAhead j i
    have prompt := (run_clocked clocked run).keepalivePrompt j i live listed
    omega
  · exact heard

/-- Over constant links only entries from before expire, and soon. -/
theorem expiry_old (tolerates : Tolerates clockSecond latency lost)
    (clocked : Clocked clockSecond latency nodes mid)
    (alive : ∀ i j x, links.rssi i j = some x → mid.net.Live nodes i)
    (run : Run (TimedNet.step clockSecond latency nodes) (TimedOverLinks links) mid trace s)
    (received : LosesAtMost links lost trace) {pre : TimedNet} {i j : LinkAddr}
    (expired : (pre, .expire j i) ∈ trace) :
    Lists (mid.net.parents j) i ∧ pre.now ≤ mid.now + keepaliveTimeout clockSecond + latency := by
  obtain ⟨after, before, rfl⟩ := List.append_of_mem expired
  obtain ⟨post, first, -, stepped, -⟩ := run.around
  obtain ⟨-, live, listed⟩ := expire_due stepped
  by_contra recent
  obtain ⟨e, member, carries⟩ := heard_of_listed clocked first live listed fun old =>
    Nat.lt_of_not_le fun soon => recent ⟨old, soon⟩
  obtain ⟨-, -, -, allowed, -⟩ := first.of_mem member
  obtain ⟨x, link⟩ := allowed.link carries
  rw [List.append_cons] at received
  exact no_expiry tolerates link ⟨clocked, alive i j x link⟩ first received.prior ⟨e, member, carries⟩ stepped

/-! ### A cold start -/

/-- The network from a cold start over constant links that do not lose more beacons in a row than the
    keepalive tolerates: no neighbour is ever given up, and in as many round times as there are nodes every
    node has its best path. -/
theorem cold_start_in_time (links : Links nodes) (few : links.FewNeighbours) (noNull : linkaddrNull ∉ nodes)
    (tolerates : Tolerates clockSecond latency lost) {randomRand : LinkAddr → Nat}
    (run : Run (TimedNet.step clockSecond latency nodes) (TimedOverLinks links)
      (.cold clockSecond randomRand) trace s)
    (received : LosesAtMost links lost trace) :
    (∀ e ∈ trace, ∀ j i, e.2 ≠ .expire j i) ∧
    (nodes.card * roundTime clockSecond latency lost ≤ s.now →
      Settled links s.net ∧ ∀ i : LinkAddr, i.u8_0 ≠ 1 →
        (∀ M, Best links.rssi (IsRoot nodes) i M → noPath < M → (s.net.parents i).myPathRssi = M ∧
          ParentSum links.rssi (bestParent? s.net) (IsRoot nodes) i M) ∧
        ((∀ t, PathSum links.rssi (IsRoot nodes) i t → t ≤ noPath) →
          (s.net.parents i).myPathRssi = noPath ∧ (s.net.parents i).bestParentId = linkaddrNull)) := by
  have start : Clocked clockSecond latency nodes (.cold clockSecond randomRand) := .cold randomRand
  have alive : ∀ i j x, links.rssi i j = some x → (TimedNet.cold clockSecond randomRand).net.Live nodes i :=
    fun i j x link => ⟨(links.ends link).1, List.not_mem_nil⟩
  have kept : ∀ e ∈ trace, ∀ j i, e.2 ≠ .expire j i := by
    rintro ⟨pre, action⟩ member j i rfl
    obtain ⟨⟨q, listed, -⟩, -⟩ := expiry_old tolerates start alive run received member
    cases listed
  refine ⟨kept, fun time => ?_⟩
  rw [← List.append_nil trace] at received
  have rounds := rounds_in_time (fun i j x link => ⟨start, alive i j x link⟩) run received
    (le_of_eq_of_le (Nat.zero_add _) time)
  obtain ⟨inv, settled⟩ := run_settled few noNull (run_overLinks run kept) rounds
  exact ⟨settled, fun i notRoot => settled.optimal few inv noNull notRoot⟩

/-! ### After any past -/

/-- The clock does not go back. -/
theorem run_now (run : Run (TimedNet.step clockSecond latency nodes) ok mid trace s) : mid.now ≤ s.now :=
  run.invariant (I := fun s => mid.now ≤ s.now) (Nat.le_refl _) fun _ _ _ before _ stepped =>
    Nat.le_trans before (step_timed stepped).clock.1

/-- After any past, let the links from some moment on be constant, connect all nodes that use them to node 1
    and lose no more beacons in a row than the keepalive tolerates. Then the keepalives take one timeout to
    forget all other neighbours, and as many round times as there are nodes and 999 more bring the best paths
    back. -/
theorem restabilizes_in_time (links : Links nodes) (few : links.FewNeighbours) (connected : links.Connected)
    (noNull : linkaddrNull ∉ nodes) (tolerates : Tolerates clockSecond latency lost)
    {randomRand : LinkAddr → Nat}
    (before : Run (TimedNet.step clockSecond latency nodes) anyStep (.cold clockSecond randomRand) earlier
      mid)
    (alive : ∀ i j x, links.rssi i j = some x → mid.net.Live nodes i ∧ mid.net.Live nodes j)
    (run : Run (TimedNet.step clockSecond latency nodes) (TimedOverLinks links) mid trace s)
    (received : LosesAtMost links lost trace)
    (time : mid.now + keepaliveTimeout clockSecond + latency + 1 +
      (nodes.card + 999) * roundTime clockSecond latency lost ≤ s.now) :
    Settled links s.net ∧ ∀ i M, i.u8_0 ≠ 1 → Best links.rssi (IsRoot nodes) i M → noPath < M →
      (s.net.parents i).myPathRssi = M ∧ ParentSum links.rssi (bestParent? s.net) (IsRoot nodes) i M := by
  have clocked := run_clocked (.cold randomRand) before
  obtain ⟨later, early, forgot, rfl, first, rest, reached⟩ := run.at_time
    (fun _ _ _ _ stepped => (step_timed stepped).clock.2)
    (t := mid.now + keepaliveTimeout clockSecond + latency + 1) (by omega) (by omega)
  have running : ∀ {node}, mid.net.Live nodes node → Running clockSecond latency nodes node forgot :=
    fun live => first.invariant ⟨clocked, live⟩ fun _ _ _ running allowed stepped =>
      running.step allowed.loud stepped
  -- What was listed before the change has expired, or has been heard since.
  have expired : ∀ {i j x}, links.rssi i j = some x →
      ∀ q ∈ (forgot.net.parents j).preferredParentList, (links.rssi q.id j).isSome := by
    intro i j x link q listed
    obtain ⟨e, member, carries⟩ := heard_of_listed clocked first (running (alive i j x link).2).live
      ⟨q, listed, rfl⟩ fun _ => by omega
    obtain ⟨-, -, -, allowed, -⟩ := first.of_mem member
    exact Option.isSome_iff_exists.mpr (allowed.link carries)
  -- Nothing expires from then on.
  have kept : ∀ e ∈ later, ∀ j i, e.2 ≠ .expire j i := by
    rintro ⟨pre, action⟩ member j i rfl
    obtain ⟨-, soon⟩ := expiry_old tolerates clocked (fun i j x link => (alive i j x link).1) run received
      (List.mem_append_left early member)
    obtain ⟨_, _, onTheWay, -⟩ := rest.of_mem member
    have late := run_now onTheWay
    omega
  have first' : Run (TimedNet.step clockSecond latency nodes) anyStep mid early forgot :=
    first.weaken fun _ _ _ _ _ => trivial
  have past : Run (BeaconNet.step nodes) anyStep BeaconNet.cold (radioTrace (early ++ earlier)) forgot.net :=
    run_radio (before.append first') fun _ _ _ _ _ => trivial
  have rounds := rounds_in_time (k := nodes.card + 999)
    (fun i j x link => running (alive i j x link).1) rest received (by omega)
  exact AnyPast.restabilizes ⟨run_nodup past, fun _ notRoot => run_listed past notRoot, expired⟩ few connected
    noNull (run_overLinks rest kept) rounds

/-! ### Two nodes -/

/-- Where every beacon is heard, none is lost. -/
theorem received_all (heard : ∀ i j x, links.rssi i j = some x →
    ∀ e ∈ trace, e.2.sends i = true → e.2.carries i j = true) : LosesAtMost links 0 trace := by
  rintro i j x link later earlier rfl
  rw [missed, Nat.le_zero, List.countP_eq_zero]
  intro e member sends
  have carries := heard i j x link e (List.mem_append_right _ ((List.takeWhile_sublist _).mem member)) sends
  rw [not_selected_of_mem_sinceLast member] at carries
  cases carries

/-- Node 2 hears node 1, and the clock can go on. -/
structure TwoNodes (s : TimedNet) : Prop where
  clocked : Clocked 8 1 {⟨1, 0⟩, ⟨2, 0⟩} s
  loud : s.net.silent = []
  alone : (s.net.parents ⟨1, 0⟩).preferredParentList = []
  only : ∀ q ∈ (s.net.parents ⟨2, 0⟩).preferredParentList, q.id = ⟨1, 0⟩
  kept : s.et ⟨1, 0⟩ ≤ s.keepalive ⟨2, 0⟩ ⟨1, 0⟩

namespace TwoNodes

theorem live (two : TwoNodes s) {node : LinkAddr} (member : node ∈ ({⟨1, 0⟩, ⟨2, 0⟩} : Finset LinkAddr)) :
    s.net.Live {⟨1, 0⟩, ⟨2, 0⟩} node := ⟨member, two.loud ▸ List.not_mem_nil⟩

theorem tick (two : TwoNodes s) (first : s.now ≤ s.et ⟨1, 0⟩) (second : s.now ≤ s.et ⟨2, 0⟩) :
    ∃ s', s.step 8 1 {⟨1, 0⟩, ⟨2, 0⟩} .tick = some s' ∧ TwoNodes s' ∧ s'.now = s.now + 1 := by
  have prompt : s.Prompt 1 {⟨1, 0⟩, ⟨2, 0⟩} := by
    intro node member _
    rcases Finset.mem_insert.mp member with rfl | member
    · refine ⟨Nat.lt_succ_of_le first, fun q listed => ?_⟩
      rw [two.alone] at listed
      cases listed
    · cases Finset.mem_singleton.mp member
      refine ⟨Nat.lt_succ_of_le second, fun q listed => ?_⟩
      rw [two.only q listed]
      exact Nat.lt_succ_of_le (Nat.le_trans first two.kept)
  have stepped : s.step 8 1 {⟨1, 0⟩, ⟨2, 0⟩} .tick = some { s with now := s.now + 1 } := if_pos prompt
  exact ⟨_, stepped, ⟨two.clocked.step stepped, two.loud, two.alone, two.only, two.kept⟩, rfl⟩

/-- Node 2 has room for node 1. -/
theorem stores (two : TwoNodes s) : Stores (s.net.parents ⟨2, 0⟩) ⟨1, 0⟩ := by
  cases listed : (s.net.parents ⟨2, 0⟩).preferredParentList with
  | nil => exact .inr (by rw [listed]; decide)
  | cons q rest =>
      have member : q ∈ (s.net.parents ⟨2, 0⟩).preferredParentList := listed ▸ List.mem_cons_self ..
      exact .inl ⟨q, member, two.only q member⟩

/-- A beacon of node 1. -/
theorem beacon (two : TwoNodes s) (due : s.et ⟨1, 0⟩ ≤ s.now) (rssi : Int)
    (range : -128 ≤ rssi ∧ rssi ≤ 127) :
    ∃ s', s.step 8 1 {⟨1, 0⟩, ⟨2, 0⟩} (.beacon ⟨1, 0⟩ [(⟨2, 0⟩, rssi)] 0) = some s' ∧ TwoNodes s' ∧
      s'.now = s.now ∧ s.now ≤ s'.et ⟨1, 0⟩ ∧ s'.et ⟨2, 0⟩ = s.et ⟨2, 0⟩ := by
  have radio : s.net.step {⟨1, 0⟩, ⟨2, 0⟩} (.beacon ⟨1, 0⟩ [(⟨2, 0⟩, rssi)]) =
      some (s.net.broadcast ⟨1, 0⟩ [(⟨2, 0⟩, rssi)]) :=
    if_pos ⟨two.live (by decide), by simpa [BeaconNet.CanHear, range] using two.live (by decide)⟩
  have stepped : s.step 8 1 {⟨1, 0⟩, ⟨2, 0⟩} (.beacon ⟨1, 0⟩ [(⟨2, 0⟩, rssi)] 0) =
      some (s.setTimers 8 ⟨1, 0⟩ [(⟨2, 0⟩, rssi)] 0 (s.net.broadcast ⟨1, 0⟩ [(⟨2, 0⟩, rssi)])) := by
    rw [TimedNet.step, if_pos due, radio, Option.map_some]
  have clocked := two.clocked.step stepped
  have restarted : (s.setTimers 8 ⟨1, 0⟩ [(⟨2, 0⟩, rssi)] 0
      (s.net.broadcast ⟨1, 0⟩ [(⟨2, 0⟩, rssi)])).keepalive ⟨2, 0⟩ ⟨1, 0⟩ = s.now + 800 :=
    if_pos ⟨rfl, rfl, two.stores⟩
  refine ⟨_, stepped, ⟨clocked, two.loud, two.alone, fun q listed => ?_, ?_⟩, rfl, ?_, rfl⟩
  · rcases (registerParent_cases _ _ _ _ _).mem (two.clocked.nodup ⟨2, 0⟩) listed with rfl | old
    · rfl
    · exact two.only q old
  · rw [restarted]
    exact Nat.le_trans (clocked.etAhead ⟨1, 0⟩) (Nat.add_le_add_left (by decide) _)
  · exact Nat.le_add_right _ _

/-- A beacon of node 2, which nobody hears. -/
theorem unheard (two : TwoNodes s) (due : s.et ⟨2, 0⟩ ≤ s.now) :
    ∃ s', s.step 8 1 {⟨1, 0⟩, ⟨2, 0⟩} (.beacon ⟨2, 0⟩ [] 0) = some s' ∧ TwoNodes s' ∧
      s'.now = s.now ∧ s'.et ⟨1, 0⟩ = s.et ⟨1, 0⟩ ∧ s.now ≤ s'.et ⟨2, 0⟩ := by
  have radio : s.net.step {⟨1, 0⟩, ⟨2, 0⟩} (.beacon ⟨2, 0⟩ []) = some (s.net.broadcast ⟨2, 0⟩ []) :=
    if_pos ⟨two.live (by decide), fun e member => absurd member List.not_mem_nil⟩
  have stepped : s.step 8 1 {⟨1, 0⟩, ⟨2, 0⟩} (.beacon ⟨2, 0⟩ [] 0) =
      some (s.setTimers 8 ⟨2, 0⟩ [] 0 (s.net.broadcast ⟨2, 0⟩ [])) := by
    rw [TimedNet.step, if_pos due, radio, Option.map_some]
  exact ⟨_, stepped, ⟨two.clocked.step stepped, two.loud, two.alone, two.only, two.kept⟩, rfl, rfl,
    Nat.le_add_right _ _⟩

end TwoNodes

/-- A run of the two nodes in which node 2 hears every beacon of node 1. -/
structure OneLinkRun (s₀ : TimedNet) (trace : List (TimedNet × TimedAction)) (s : TimedNet) : Prop where
  run : Run (TimedNet.step 8 1 {⟨1, 0⟩, ⟨2, 0⟩}) (TimedOverLinks oneLink) s₀ trace s
  heard : ∀ e ∈ trace, e.2.sends ⟨1, 0⟩ = true → e.2.carries ⟨1, 0⟩ ⟨2, 0⟩ = true
  two : TwoNodes s

namespace OneLinkRun

variable {s₀ : TimedNet}

theorem snoc (h : OneLinkRun s₀ trace s) {action : TimedAction} (allowed : TimedOverLinks oneLink s action)
    (heard : action.sends ⟨1, 0⟩ = true → action.carries ⟨1, 0⟩ ⟨2, 0⟩ = true)
    (stepped : s.step 8 1 {⟨1, 0⟩, ⟨2, 0⟩} action = some s') (two : TwoNodes s') :
    OneLinkRun s₀ ((s, action) :: trace) s' :=
  ⟨h.run.snoc allowed stepped, List.forall_mem_cons.mpr ⟨heard, h.heard⟩, two⟩

/-- Node 1 sends its beacon, if it is due. -/
theorem catchUp (h : OneLinkRun s₀ trace s) : ∃ trace s', OneLinkRun s₀ trace s' ∧ s'.now = s.now ∧
    s.now ≤ s'.et ⟨1, 0⟩ ∧ s'.et ⟨2, 0⟩ = s.et ⟨2, 0⟩ := by
  by_cases waits : s.now ≤ s.et ⟨1, 0⟩
  · exact ⟨_, s, h, rfl, waits, rfl⟩
  · obtain ⟨s', stepped, two, same, first, second⟩ :=
      h.two.beacon (Nat.le_of_not_le waits) (-10) (by decide)
    exact ⟨_, s', h.snoc (by simp [TimedOverLinks, oneLink]) (fun _ => rfl) stepped two, same, first, second⟩

/-- Node 2 does. -/
theorem catchUp' (h : OneLinkRun s₀ trace s) : ∃ trace s', OneLinkRun s₀ trace s' ∧ s'.now = s.now ∧
    s'.et ⟨1, 0⟩ = s.et ⟨1, 0⟩ ∧ s.now ≤ s'.et ⟨2, 0⟩ := by
  by_cases waits : s.now ≤ s.et ⟨2, 0⟩
  · exact ⟨_, s, h, rfl, rfl, waits⟩
  · obtain ⟨s', stepped, two, same, first, second⟩ := h.two.unheard (Nat.le_of_not_le waits)
    have allowed : TimedOverLinks oneLink s (.beacon ⟨2, 0⟩ [] 0) := fun e member =>
      absurd member List.not_mem_nil
    exact ⟨_, s', h.snoc allowed (fun sends => absurd sends (by decide)) stepped two, same, first, second⟩

/-- The two nodes can go on for any time. -/
theorem lasts (two : TwoNodes s₀) (k : Nat) : ∃ trace s, OneLinkRun s₀ trace s ∧ s.now = s₀.now + k := by
  suffices goesOn : ∃ trace s, OneLinkRun s₀ trace s ∧ s.now = s₀.now + k ∧ s.now ≤ s.et ⟨1, 0⟩ ∧
      s.now ≤ s.et ⟨2, 0⟩ by
    obtain ⟨trace, s, h, time, -⟩ := goesOn
    exact ⟨trace, s, h, time⟩
  induction k with
  | zero =>
      have start : OneLinkRun s₀ [] s₀ := ⟨.nil, fun _ member => absurd member List.not_mem_nil, two⟩
      obtain ⟨_, s, h, time, first, -⟩ := start.catchUp
      obtain ⟨_, s', h', time', same, second⟩ := h.catchUp'
      exact ⟨_, s', h', by omega, by omega, by omega⟩
  | succ k ih =>
      obtain ⟨_, s, h, time, first, second⟩ := ih
      obtain ⟨s₁, stepped, two, now⟩ := h.two.tick first second
      have allowed : TimedOverLinks oneLink s .tick := trivial
      obtain ⟨_, s₂, h₂, time₂, first₂, -⟩ :=
        (h.snoc allowed (fun sends => by cases sends) stepped two).catchUp
      obtain ⟨_, s₃, h₃, time₃, same, second₃⟩ := h₂.catchUp'
      exact ⟨_, s₃, h₃, by omega, by omega, by omega⟩

theorem received (h : OneLinkRun s₀ trace s) : LosesAtMost oneLink 0 trace := by
  refine received_all fun i j x link e member sends => ?_
  obtain ⟨⟨rfl, rfl⟩, -⟩ := Option.ite_none_right_eq_some.mp link
  exact h.heard e member sends

end OneLinkRun

/-- Both nodes just after boot. -/
theorem TwoNodes.boot : TwoNodes (.cold 8 fun _ => 0) :=
  ⟨.cold _, rfl, rfl, fun _ listed => absurd listed List.not_mem_nil, Nat.le_refl 0⟩

/-- Two round times after boot the two nodes have settled. -/
theorem cold_start_in_time_oneLink :
    ∃ trace s, Run (TimedNet.step 8 1 {⟨1, 0⟩, ⟨2, 0⟩}) (TimedOverLinks oneLink) (.cold 8 fun _ => 0)
        trace s ∧
      s.now = 68 ∧ Settled oneLink s.net := by
  obtain ⟨trace, s, h, time⟩ := OneLinkRun.lasts TwoNodes.boot 68
  have bound : ({⟨1, 0⟩, ⟨2, 0⟩} : Finset LinkAddr).card * roundTime 8 1 0 ≤ s.now := by
    rw [time]
    decide
  exact ⟨trace, s, h.run, time, ((cold_start_in_time oneLink oneLink_few (by decide) (by decide) h.run
    h.received).2 bound).1⟩

/-- Node 2 once heard node 1 better than ever since. -/
theorem restabilizes_in_time_oneLink :
    ∃ earlier mid trace s,
      Run (TimedNet.step 8 1 {⟨1, 0⟩, ⟨2, 0⟩}) anyStep (.cold 8 fun _ => 0) earlier mid ∧
      (mid.net.parents ⟨2, 0⟩).myPathRssi = -5 ∧
      Run (TimedNet.step 8 1 {⟨1, 0⟩, ⟨2, 0⟩}) (TimedOverLinks oneLink) mid trace s ∧
      (s.net.parents ⟨2, 0⟩).myPathRssi = -10 := by
  let mid := (TimedNet.cold 8 fun _ => 0).setTimers 8 ⟨1, 0⟩ [(⟨2, 0⟩, -5)] 0
    (BeaconNet.cold.broadcast ⟨1, 0⟩ [(⟨2, 0⟩, -5)])
  obtain ⟨s', stepped, two, now, -⟩ := TwoNodes.boot.beacon (Nat.le_refl 0) (-5) (by decide)
  obtain rfl : mid = s' := Option.some.inj stepped
  have before : Run (TimedNet.step 8 1 {⟨1, 0⟩, ⟨2, 0⟩}) anyStep (.cold 8 fun _ => 0) _ mid :=
    Run.nil.snoc trivial stepped
  obtain ⟨trace, s, h, time⟩ := OneLinkRun.lasts two 34836
  have alive : ∀ i j x, oneLink.rssi i j = some x → mid.net.Live {⟨1, 0⟩, ⟨2, 0⟩} i ∧
      mid.net.Live {⟨1, 0⟩, ⟨2, 0⟩} j := fun i j x link =>
    ⟨two.live (oneLink.ends link).1, two.live (oneLink.ends link).2.1⟩
  have tolerates : Tolerates 8 1 0 := by decide
  have settled := restabilizes_in_time oneLink oneLink_few oneLink_connected (by decide) tolerates
    before alive h.run h.received (by rw [time]; decide)
  exact ⟨_, mid, trace, s, before, by decide, h.run,
    (settled.2 ⟨2, 0⟩ (-10) (by decide) oneLink_best (by decide)).1⟩

end TreeRssi
