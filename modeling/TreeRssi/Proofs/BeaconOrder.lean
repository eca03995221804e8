/-
Module: TreeRssi.Proofs.BeaconOrder
Layer: Proofs
Purpose: What a node has heard determines its neighbour plane, not the order in which it heard it. The list
  of neighbours tabulates the beacons: its entry for a neighbour is made of the neighbour's last beacon.
  While no timer fires and the list has room for every neighbour, two runs in which each neighbour sent
  the same beacons end with the same entries, hence with the same greatest path sum and, unless two
  neighbours share it, with the same parent.
Imports: TreeRssi.Lib.KeyedStreams, TreeRssi.Proofs.Coherence
Trusted boundary: none
Main exports: heardBeacons, heardEntry, Registered.tabulates, run_tabulates, beaconOrder_irrelevant
Open obligations: none
-/
import TreeRssi.Lib.KeyedStreams
import TreeRssi.Proofs.Coherence

namespace TreeRssi

open LabelledRun KeyedStreams

/-! ### What was heard -/

/-- The step is a beacon. -/
def BeaconOnly (_ : ParentState) (event : NeighbourEvent) : Prop := ∀ p, event ≠ .expire p

/-- The sender of a beacon, with what it announced and the RSSI with which it was heard. -/
def NeighbourEvent.heard : NeighbourEvent → Option (LinkAddr × (Beacon × Int))
  | .beacon sender received lastRssi => some (sender, received, lastRssi)
  | .expire _ => none

/-- The beacons of a run. -/
def heardBeacons (trace : List (ParentState × NeighbourEvent)) : List (LinkAddr × (Beacon × Int)) :=
  trace.filterMap fun e => e.2.heard

/-- The sum that `register_parent` stores for a beacon. -/
def heardSum (b : Beacon × Int) : Int := int16 (b.1.rssiP + b.2)

/-- The entry of a neighbour after its last beacon, which is the first one of its stream. -/
def heardEntry (i : LinkAddr) : List (Beacon × Int) → PreferredParent
  | [] => { id := i, rssiP := 0, rssiA := 0 }
  | b :: _ => { id := i, rssiP := heardSum b, rssiA := b.2 }

theorem heardEntry_id (i : LinkAddr) (heard : List (Beacon × Int)) : (heardEntry i heard).id = i := by
  cases heard <;> rfl

/-- The list has the entry of each neighbour that was heard, as far as it has room. -/
abbrev ListsHeard (heard : List (LinkAddr × (Beacon × Int))) (list : List PreferredParent) : Prop :=
  Tabulates preferredParentMem PreferredParent.id heardEntry heard list

variable {self sender : LinkAddr} {heard : List (LinkAddr × (Beacon × Int))} {b : Beacon × Int}
  {list new : List PreferredParent}

/-- A stored beacon renews or adds the entry of its sender. -/
theorem ListsHeard.stored (lists : ListsHeard heard list)
    (stored : storeEntry sender (heardSum b) b.2 list = some new) :
    ListsHeard ((sender, b) :: heard) new := by
  have members := storeEntry_mem lists.nodup stored
  rw [storeEntry] at stored
  cases refreshed : refreshEntry sender (heardSum b) b.2 list with
  | some kept =>
      rw [refreshed] at stored
      cases stored
      have ids := (refreshEntry_some lists.nodup refreshed).1
      have own : (⟨sender, heardSum b, b.2⟩ : PreferredParent) ∈ new := (members _).mpr (.inl rfl)
      refine lists.again heardEntry_id ?_ (.of_eq ids) fun q member => (members q).mp member
      rw [← ids]
      exact List.mem_map_of_mem own
  | none =>
      rw [refreshed] at stored
      obtain ⟨room, same⟩ := Option.ite_none_right_eq_some.mp stored
      cases same
      have absent : sender ∉ list.map PreferredParent.id := by
        rw [List.mem_map]
        rintro ⟨q, member, same⟩
        exact refreshEntry_none refreshed q member same
      exact lists.first heardEntry_id absent room (.refl _) fun q member => List.mem_cons.mp member

/-- A refused beacon is one of a neighbour for which the list has no room. -/
theorem ListsHeard.refused (lists : ListsHeard heard list)
    (refused : storeEntry sender (heardSum b) b.2 list = none) :
    ListsHeard ((sender, b) :: heard) list := by
  obtain ⟨full, absent⟩ := storeEntry_none refused
  refine lists.full (fun listed => ?_) full
  obtain ⟨q, member, same⟩ := List.mem_map.mp listed
  exact absent q member same

theorem Registered.listsHeard {state state' : ParentState}
    (registered : Registered self state sender (heardSum b) b.2 state')
    (lists : ListsHeard heard state.preferredParentList) :
    ListsHeard ((sender, b) :: heard) state'.preferredParentList := by
  cases registered with
  | refused full => exact lists.refused full
  | root stored _ => exact lists.stored stored
  | nobody stored _ _ => exact lists.stored stored
  | elected stored _ _ => exact lists.stored stored

/-- In every run of beacons the list tabulates them. -/
theorem run_listsHeard {trace : List (ParentState × NeighbourEvent)} {state : ParentState}
    (run : Run (ParentState.next self) BeaconOnly (selectPreferedParent self) trace state) :
    ListsHeard (heardBeacons trace) state.preferredParentList := by
  induction run with
  | nil => exact .nil
  | @snoc trace state state' event run allowed stepped ih =>
      cases event with
      | beacon sender received lastRssi =>
          obtain ⟨-, same⟩ := Option.ite_none_right_eq_some.mp stepped
          cases same
          have registered := registerParent_cases self state sender received lastRssi
          exact Registered.listsHeard (b := (received, lastRssi)) registered ih
      | expire p => exact absurd rfl (allowed p)

/-! ### The election -/

variable {streams : LinkAddr → List (Beacon × Int)}

/-- The sum of the last beacon of a neighbour. -/
def LastSum (streams : LinkAddr → List (Beacon × Int)) (i : LinkAddr) (sum : Int) : Prop :=
  ∃ b ∈ (streams i).head?, heardSum b = sum

/-- The neighbour has the greatest eligible sum. -/
def GreatestSum (streams : LinkAddr → List (Beacon × Int)) (i : LinkAddr) (sum : Int) : Prop :=
  LastSum streams i sum ∧ Eligible sum ∧
    ∀ j other, LastSum streams j other → Eligible other → other ≤ sum

/-- The last sums are those of the listed entries, if the list has room for every neighbour. -/
theorem ListsHeard.lastSum_iff (lists : ListsHeard heard list)
    (few : (firstSeen heard).length ≤ preferredParentMem) {i : LinkAddr} {sum : Int} :
    LastSum (stream heard) i sum ↔ ∃ q ∈ list, q.id = i ∧ q.rssiP = sum := by
  constructor
  · rintro ⟨b, last, rfl⟩
    obtain ⟨rest, split⟩ : ∃ rest, stream heard i = b :: rest := List.head?_eq_some_iff.mp last
    refine ⟨heardEntry i (stream heard i), ?_, heardEntry_id i _, by rw [split, heardEntry]⟩
    rw [lists.mem_iff_of_few few, heardEntry_id, split]
    exact ⟨List.cons_ne_nil _ _, rfl⟩
  · rintro ⟨q, member, rfl, rfl⟩
    obtain ⟨heardOnce, own⟩ := (lists.mem_iff_of_few few).mp member
    obtain ⟨b, rest, split⟩ := List.exists_cons_of_ne_nil heardOnce
    rw [split, heardEntry] at own
    refine ⟨b, by rw [split]; rfl, ?_⟩
    rw [own]

/-- A winner of the election has the greatest eligible sum. -/
theorem ListsHeard.greatestSum (lists : ListsHeard heard list)
    (few : (firstSeen heard).length ≤ preferredParentMem) {w : PreferredParent} (winner : Winner list w) :
    GreatestSum (stream heard) w.id w.rssiP := by
  refine ⟨(lists.lastSum_iff few).mpr ⟨w, winner.listed, rfl, rfl⟩, winner.eligible, ?_⟩
  intro j other last eligible
  obtain ⟨q, member, -, rfl⟩ := (lists.lastSum_iff few).mp last
  exact winner.greatest q member eligible

/-- After a run of beacons of which the last of some neighbour is eligible, the parent and the path sum are
    those of a neighbour with the greatest eligible sum. -/
theorem run_greatestSum (notRoot : self.u8_0 ≠ 1) {trace : List (ParentState × NeighbourEvent)}
    {state : ParentState}
    (run : Run (ParentState.next self) BeaconOnly (selectPreferedParent self) trace state)
    (few : (firstSeen (heardBeacons trace)).length ≤ preferredParentMem)
    (usable : ∃ i sum, LastSum (stream (heardBeacons trace)) i sum ∧ Eligible sum) :
    GreatestSum (stream (heardBeacons trace)) state.bestParentId state.myPathRssi := by
  have lists := run_listsHeard run
  have tracks : Tracks state := by
    apply run_tracks notRoot
    apply run.weaken
    intro _ event _ beacon _
    cases event with
    | beacon => exact trivial
    | expire p => exact absurd rfl (beacon p)
  obtain ⟨i, sum, last, eligible⟩ := usable
  obtain ⟨q, member, -, rfl⟩ := (lists.lastSum_iff few).mp last
  obtain ⟨w, winner, parent, path⟩ := tracks ⟨q, member, eligible⟩
  rw [parent, path]
  exact lists.greatestSum few winner

/-- Two runs of beacons from boot, at a node other than the root, in which each of at most 10 neighbours
    sent the same beacons in the same order, end with the same entries. If the last beacon of some
    neighbour is eligible, they end with the same path sum, and also with the same parent if the greatest
    eligible sum is that of one neighbour. -/
theorem beaconOrder_irrelevant (notRoot : self.u8_0 ≠ 1) {neighbours : Finset LinkAddr}
    (few : neighbours.card ≤ preferredParentMem) (silent : ∀ i, i ∉ neighbours → streams i = [])
    (usable : ∃ i sum, LastSum streams i sum ∧ Eligible sum)
    {trace trace' : List (ParentState × NeighbourEvent)} {state state' : ParentState}
    (run : Run (ParentState.next self) BeaconOnly (selectPreferedParent self) trace state)
    (run' : Run (ParentState.next self) BeaconOnly (selectPreferedParent self) trace' state')
    (heard : ∀ i, stream (heardBeacons trace) i = streams i)
    (heard' : ∀ i, stream (heardBeacons trace') i = streams i) :
    (∀ p, p ∈ state.preferredParentList ↔ p ∈ state'.preferredParentList) ∧
      state.myPathRssi = state'.myPathRssi ∧
      ((∀ i j sum, GreatestSum streams i sum → GreatestSum streams j sum → i = j) →
        state.bestParentId = state'.bestParentId) := by
  obtain rfl : stream (heardBeacons trace) = streams := funext heard
  have same : stream (heardBeacons trace') = stream (heardBeacons trace) := funext heard'
  have room := Nat.le_trans (firstSeen_length_le silent) few
  have room' : (firstSeen (heardBeacons trace')).length ≤ preferredParentMem :=
    Nat.le_trans (firstSeen_length_le fun i outside => by rw [same, silent i outside]) few
  have greatest := run_greatestSum notRoot run room usable
  have greatest' := run_greatestSum notRoot run' room' (same ▸ usable)
  rw [same] at greatest'
  have path : state.myPathRssi = state'.myPathRssi :=
    Int.le_antisymm (greatest'.2.2 _ _ greatest.1 greatest.2.1)
      (greatest.2.2 _ _ greatest'.1 greatest'.2.1)
  refine ⟨(run_listsHeard run).same_entries (run_listsHeard run') room (fun i => by rw [same])
    (fun i => by rw [same]), path, fun unique => ?_⟩
  rw [← path] at greatest'
  exact unique _ _ _ greatest greatest'

/-- Node 3 was heard twice, and node 4 once after that. -/
def otherLast : List (LinkAddr × (Beacon × Int)) :=
  [(⟨4, 0⟩, ⟨⟨4, 0⟩, -100⟩, -60), (⟨3, 0⟩, ⟨⟨3, 0⟩, -100⟩, -50), (⟨3, 0⟩, ⟨⟨3, 0⟩, -100⟩, -90)]

/-- Node 4 was heard first. -/
def otherFirst : List (LinkAddr × (Beacon × Int)) :=
  [(⟨3, 0⟩, ⟨⟨3, 0⟩, -100⟩, -50), (⟨3, 0⟩, ⟨⟨3, 0⟩, -100⟩, -90), (⟨4, 0⟩, ⟨⟨4, 0⟩, -100⟩, -60)]

/-- The events of some beacons, in the order of time. -/
def beaconEvents (heard : List (LinkAddr × (Beacon × Int))) : List NeighbourEvent :=
  heard.reverse.map fun e => .beacon e.1 e.2.1 e.2.2

/-- The two orders leave different lists, with the same entries and with node 3 as the parent. -/
theorem beaconOrder_irrelevant_twoNeighbours :
    ∃ trace trace' state state',
      Run (ParentState.next ⟨2, 0⟩) BeaconOnly (selectPreferedParent ⟨2, 0⟩) trace state ∧
      Run (ParentState.next ⟨2, 0⟩) BeaconOnly (selectPreferedParent ⟨2, 0⟩) trace' state' ∧
      state.preferredParentList ≠ state'.preferredParentList ∧
      (∀ p, p ∈ state.preferredParentList ↔ p ∈ state'.preferredParentList) ∧
      state.myPathRssi = state'.myPathRssi ∧ state.bestParentId = state'.bestParentId := by
  have beacons : ∀ heard s, ∀ l ∈ beaconEvents heard, BeaconOnly s l := by
    intro heard s l member p
    obtain ⟨e, -, rfl⟩ := List.mem_map.mp member
    simp
  have executed : execute (ParentState.next ⟨2, 0⟩) (selectPreferedParent ⟨2, 0⟩)
      (beaconEvents otherLast) =
        some ⟨[⟨⟨4, 0⟩, -160, -60⟩, ⟨⟨3, 0⟩, -150, -50⟩], ⟨3, 0⟩, -150⟩ := by decide
  have executed' : execute (ParentState.next ⟨2, 0⟩) (selectPreferedParent ⟨2, 0⟩)
      (beaconEvents otherFirst) =
        some ⟨[⟨⟨3, 0⟩, -150, -50⟩, ⟨⟨4, 0⟩, -160, -60⟩], ⟨3, 0⟩, -150⟩ := by decide
  have run := Run.of_execute BeaconOnly (beacons otherLast) executed
  have run' := Run.of_execute BeaconOnly (beacons otherFirst) executed'
  have heard : heardBeacons (history (ParentState.next ⟨2, 0⟩) (selectPreferedParent ⟨2, 0⟩)
      (beaconEvents otherLast)) = otherLast := by decide
  have heard' : heardBeacons (history (ParentState.next ⟨2, 0⟩) (selectPreferedParent ⟨2, 0⟩)
      (beaconEvents otherFirst)) = otherFirst := by decide
  have silent : ∀ i, i ∉ ({⟨3, 0⟩, ⟨4, 0⟩} : Finset LinkAddr) → stream otherLast i = [] := by
    intro i outside
    simp only [Finset.mem_insert, Finset.mem_singleton, not_or] at outside
    simp [stream, otherLast, Ne.symm outside.1, Ne.symm outside.2]
  have same : ∀ i, stream otherFirst i = stream otherLast i := by
    intro i
    by_cases three : i = ⟨3, 0⟩
    · subst three
      decide
    · simp only [otherFirst, otherLast, stream_cons, if_neg (Ne.symm three)]
  -- Only node 3 has the greatest sum.
  have greatest : ∀ i sum, GreatestSum (stream otherLast) i sum → i = ⟨3, 0⟩ := by
    rintro i sum ⟨⟨b, last, own⟩, -, bound⟩
    have three := bound ⟨3, 0⟩ (-150) ⟨(⟨⟨3, 0⟩, -100⟩, -50), by decide, by decide⟩ (by decide)
    by_contra away
    by_cases four : i = ⟨4, 0⟩
    · subst four
      cases last
      rw [← own] at three
      exact absurd three (by decide)
    · rw [silent i (by simp [away, four])] at last
      cases last
  obtain ⟨entries, path, parent⟩ := beaconOrder_irrelevant (by decide)
    (show ({⟨3, 0⟩, ⟨4, 0⟩} : Finset LinkAddr).card ≤ preferredParentMem by decide) silent
    ⟨⟨3, 0⟩, -150, ⟨(⟨⟨3, 0⟩, -100⟩, -50), by decide, by decide⟩, by decide⟩ run run'
    (fun i => by rw [heard]) (fun i => by rw [heard', same])
  exact ⟨_, _, _, _, run, run', by decide, entries, path,
    parent fun i j sum first second => (greatest i sum first).trans (greatest j sum second).symm⟩

end TreeRssi
