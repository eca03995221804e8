/-
Module: TreeRssi.Proofs.Restabilize
Layer: Proofs
Purpose: The neighbour plane after any past. Links may have changed, nodes fallen silent, and sums may be
  on their way to infinity; once the entries of the neighbours that are gone have expired, and every node
  that hears or is heard has a path to node 1, rounds of beacons bring the best paths back. The best sums
  climb from node 1, one rank in a round, as from a cold start. A sum that is too good is no path's, so it
  came from a neighbour with one that was better still; every round costs it 1 at least, and at -1000 it
  is gone.
Imports: TreeRssi.Proofs.BeaconRounds, TreeRssi.Proofs.Coherence
Trusted boundary: none
Main exports: AnyPast, BestSum, Promised, PromisedTo, Capped, round_entries, run_promisedTo, run_sinking,
  beacons_restabilize
Open obligations: none
-/
import TreeRssi.Proofs.BeaconRounds
import TreeRssi.Proofs.Coherence

namespace TreeRssi

open LabelledRun BestPath

variable {nodes : Finset LinkAddr} {links : Links nodes} {net net' mid : BeaconNet} {action : BeaconAction}
  {trace segment : List (BeaconNet × BeaconAction)}

/-! ### Any past -/

/-- What holds after any past when the entries of lost neighbours have expired: a node lists a neighbour at
    most once, what it announces is in range, and a node that hears anybody lists only neighbours that it
    hears. The stored sums may be anything. -/
structure AnyPast (links : Links nodes) (net : BeaconNet) : Prop where
  nodup : ∀ i, IdsNodup (net.parents i).preferredParentList
  listed : ∀ i : LinkAddr, i.u8_0 ≠ 1 → Listed (net.parents i)
  heard : ∀ {i j x}, links.rssi i j = some x →
    ∀ q ∈ (net.parents j).preferredParentList, (links.rssi q.id j).isSome

/-- A neighbour that is not listed finds room. -/
theorem AnyPast.stores (past : AnyPast links net) (few : links.FewNeighbours) {i j : LinkAddr} {x : Int}
    (link : links.rssi i j = some x) : Stores (net.parents j) i := by
  by_cases known : ∃ q ∈ (net.parents j).preferredParentList, q.id = i
  · exact .inl known
  · obtain ⟨near, small, covers⟩ := few j
    have ids : (i :: (net.parents j).preferredParentList.map PreferredParent.id).Nodup :=
      List.nodup_cons.mpr ⟨fun listed => known (List.mem_map.mp listed), past.nodup j⟩
    have inside : (i :: (net.parents j).preferredParentList.map PreferredParent.id).toFinset ⊆ near := by
      intro k member
      rw [List.mem_toFinset, List.mem_cons, List.mem_map] at member
      rcases member with rfl | ⟨q, listed, rfl⟩
      · exact covers _ _ link
      · obtain ⟨y, link'⟩ := Option.isSome_iff_exists.mp (past.heard link q listed)
        exact covers _ _ link'
    have count := Finset.card_le_card inside
    rw [List.toFinset_card_of_nodup ids, List.length_cons, List.length_map] at count
    exact .inr (Nat.lt_of_lt_of_le count small)

/-- The state after a stored beacon has elected, whatever it was before. -/
theorem registerParent_elects_stored {self sender : LinkAddr} {state : ParentState} {received : Beacon}
    {lastRssi : Int} (notRoot : self.u8_0 ≠ 1) (stores : Stores state sender) :
    Elects (registerParent self state sender received lastRssi) := by
  obtain ⟨list, stored⟩ : ∃ list, storeEntry sender (int16 (received.rssiP + lastRssi)) lastRssi
    state.preferredParentList = some list := stores.some
  rw [registerParent, stored]
  simp only [if_neg notRoot]
  split
  next none =>
    intro sum w elected
    rw [none] at elected
    cases elected
  next sum w elected =>
    intro sum' w' elected'
    cases elected.symm.trans elected'
    exact ⟨rfl, rfl⟩

/-- What a node does that hears a beacon over a link. -/
theorem AnyPast.hear (past : AnyPast links net) (few : links.FewNeighbours) {i j : LinkAddr} {x : Int}
    (link : links.rssi i j = some x) :
    (∀ q, q ∈ (net.hear i j x).preferredParentList ↔ q = ⟨i, net.announced i + x, x⟩ ∨
      q ∈ (net.parents j).preferredParentList ∧ q.id ≠ i) ∧
    (j.u8_0 ≠ 1 → Elects (net.hear i j x)) := by
  have range := links.range link
  have stores := past.stores few link
  refine ⟨fun q => ?_, fun notRoot => registerParent_elects_stored notRoot stores⟩
  have outcome := registerParent_cases j (net.parents j) i (broadcastRssi i (net.parents i)) x
  rw [stored_sum (past.listed i) range.1 (by omega)] at outcome
  change Registered _ _ _ _ _ (net.hear i j x) at outcome
  generalize net.hear i j x = state at outcome
  cases outcome with
  | refused full =>
      obtain ⟨list, stored⟩ : ∃ list, storeEntry i (net.announced i + x) x
        (net.parents j).preferredParentList = some list := stores.some
      cases full.symm.trans stored
  | root stored _ => exact storeEntry_mem (past.nodup j) stored q
  | nobody stored _ _ => exact storeEntry_mem (past.nodup j) stored q
  | elected stored _ _ => exact storeEntry_mem (past.nodup j) stored q

/-- Over constant links a step leaves a node as it is, or lets it hear a neighbour. -/
theorem step_hears (allowed : OverLinks links net action)
    (stepped : BeaconNet.step nodes net action = some net') (j : LinkAddr) :
    net'.parents j = net.parents j ∨
      ∃ i x, links.rssi i j = some x ∧ net'.parents j = net.hear i j x := by
  have atNode := step_node stepped j
  generalize net'.parents j = state at atNode
  cases atNode with
  | idle => exact .inl rfl
  | @heard sender heard rssi member => exact .inr ⟨sender, rssi, allowed _ member, rfl⟩
  | expired => exact allowed.elim

theorem AnyPast.step (past : AnyPast links net) (few : links.FewNeighbours)
    (allowed : OverLinks links net action) (stepped : BeaconNet.step nodes net action = some net') :
    AnyPast links net' := by
  refine ⟨fun j => (step_node stepped j).nodup (past.nodup j),
    fun j notRoot => (step_node stepped j).listed (past.nodup j) (past.listed j notRoot),
    fun {_ j _} known q member => ?_⟩
  rcases step_hears allowed stepped j with same | ⟨i, x, link, hears⟩
  · exact past.heard known q (same ▸ member)
  · rw [hears] at member
    rcases ((past.hear few link).1 q).mp member with rfl | ⟨old, -⟩
    · exact Option.isSome_iff_exists.mpr ⟨x, link⟩
    · exact past.heard known q old

/-- A round brings a new entry for every link. What every new entry has while the round lasts, all entries
    have then. -/
theorem round_entries (few : links.FewNeighbours) {I : BeaconNet → Prop}
    {K : LinkAddr → PreferredParent → Prop} (past : AnyPast links mid) (start : I mid)
    (kept : ∀ s l s', AnyPast links s → I s → OverLinks links s l → BeaconNet.step nodes s l = some s' → I s')
    (new : ∀ s i j x, AnyPast links s → I s → links.rssi i j = some x → K j ⟨i, s.announced i + x, x⟩)
    (run : Run (BeaconNet.step nodes) (OverLinks links) mid segment net)
    (round : BeaconRound links segment) :
    ∀ i j x, links.rssi i j = some x → (∀ q ∈ (net.parents j).preferredParentList, K j q) ∧
      ∃ q ∈ (net.parents j).preferredParentList, q.id = i := by
  have kept' : ∀ s l s', AnyPast links s ∧ I s → OverLinks links s l → BeaconNet.step nodes s l = some s' →
      AnyPast links s' ∧ I s' := fun s l s' ⟨past, inv⟩ allowed stepped =>
    ⟨past.step few allowed stepped, kept s l s' past inv allowed stepped⟩
  have each : ∀ i j x, links.rssi i j = some x →
      (∀ q ∈ (net.parents j).preferredParentList, q.id = i → K j q) ∧
        ∃ q ∈ (net.parents j).preferredParentList, q.id = i := by
    intro i j x link
    obtain ⟨pre, heard, member, hears⟩ := round i j x link
    refine run.since (I := fun s => AnyPast links s ∧ I s)
      (J := fun s => (∀ q ∈ (s.parents j).preferredParentList, q.id = i → K j q) ∧
        ∃ q ∈ (s.parents j).preferredParentList, q.id = i) ⟨past, start⟩ kept' member ?_ ?_
    · intro post ⟨past, inv⟩ allowed stepped
      rw [step_hear allowed stepped rfl hears link]
      have stored := (past.hear few link).1
      refine ⟨fun q listed own => ?_, _, (stored _).mpr (.inl rfl), rfl⟩
      rcases (stored q).mp listed with rfl | ⟨-, other⟩
      · exact new pre i j x past inv link
      · exact absurd own other
    · intro s l s' ⟨past, inv⟩ ⟨all, entry⟩ allowed stepped
      rcases step_hears allowed stepped j with same | ⟨u, y, link', state⟩
      · rw [same]
        exact ⟨all, entry⟩
      · rw [state]
        have stored := (past.hear few link').1
        refine ⟨fun q listed own => ?_, ?_⟩
        · rcases (stored q).mp listed with rfl | ⟨old, -⟩
          · exact new s u j y past inv link'
          · exact all q old own
        · obtain ⟨q, old, own⟩ := entry
          by_cases here : u = i
          · exact ⟨_, (stored _).mpr (.inl rfl), here⟩
          · exact ⟨q, (stored q).mpr (.inr ⟨old, fun same => here (same.symm.trans own)⟩), own⟩
  intro i j x link
  refine ⟨fun q listed => ?_, (each i j x link).2⟩
  have last : AnyPast links net := (run.invariant (I := fun s => AnyPast links s ∧ I s) ⟨past, start⟩ kept').1
  obtain ⟨y, link'⟩ := Option.isSome_iff_exists.mp (last.heard link q listed)
  exact (each q.id j y link').1 q listed rfl

/-! ### Best sums -/

/-- The best path of `v` has the sum `s`, which is above -1000. -/
structure BestSum (links : Links nodes) (v : LinkAddr) (s : Int) : Prop where
  best : Best links.rssi (IsRoot nodes) v s
  above : noPath < s

namespace BestSum

variable {u v : LinkAddr} {s t x : Int}

theorem of_path (path : PathSum links.rssi (IsRoot nodes) v s) (above : noPath < s) :
    ∃ M, BestSum links v M := by
  obtain ⟨M, best⟩ := exists_greatest_pathSum links path
  exact ⟨M, best, Int.lt_of_lt_of_le above (best.2 path)⟩

theorem nonpos (best : BestSum links v s) : s ≤ 0 :=
  best.best.1.nonpos fun link => by have := (links.range link).2; omega

theorem member (best : BestSum links v s) : v ∈ nodes :=
  best.best.1.mem (fun isRoot => isRoot.1) fun link => (links.ends link).2.1

theorem root (best : BestSum links v s) (isRoot : v.u8_0 = 1) : s = 0 :=
  Int.le_antisymm best.nonpos (best.best.2 (.root ⟨best.member, isRoot⟩))

/-- A link takes nothing to a better sum. -/
theorem link_le (best : BestSum links v s) (before : BestSum links u t) (link : links.rssi u v = some x) :
    t + x ≤ s := best.best.2 (PathSum.step before.best.1 link)

/-- It takes it to a higher rank. -/
theorem rank_lt (before : BestSum links u t) (link : links.rssi u v = some x) :
    rank links.rssi (IsRoot nodes) t < rank links.rssi (IsRoot nodes) (t + x) := by
  have negative := (links.range link).2
  exact before.best.rank_lt nodes.finite_toSet (fun isRoot => isRoot.1) (fun link => (links.ends link).2.1)
    (by omega)

/-- The best path comes from a neighbour. -/
theorem pred (best : BestSum links v s) (notRoot : v.u8_0 ≠ 1) :
    ∃ u t x, BestSum links u t ∧ links.rssi u v = some x ∧ s = t + x := by
  obtain ⟨isRoot, -⟩ | ⟨u, t, x, before, link, sum, better, -⟩ := links.pred best.best
  · exact absurd isRoot.2 notRoot
  · exact ⟨u, t, x, ⟨before, Int.lt_trans best.above better⟩, link, sum⟩

theorem rank_lt_card (best : BestSum links v s) : rank links.rssi (IsRoot nodes) s < nodes.card :=
  Best.rank_lt_card (fun isRoot => isRoot.1) (fun link => (links.ends link).2.1) best.best

end BestSum

/-! ### Best sums are held -/

/-- What `v` stores for `u` is worth `s` at least, and its parent is elected from what it stores. -/
structure Promised (u v : LinkAddr) (s : Int) (net : BeaconNet) : Prop where
  entry : ∃ q ∈ (net.parents v).preferredParentList, q.id = u ∧ s ≤ q.rssiP ∧ Eligible q.rssiP
  elects : Elects (net.parents v)

/-- An election among candidates designates one. -/
theorem Elects.designated {state : ParentState} (elects : Elects state)
    (candidate : HasCandidate state.preferredParentList) : Designated state := by
  rcases elect_cases state.preferredParentList with ⟨-, none⟩ | ⟨w, elected, winner⟩
  · obtain ⟨q, listed, eligible⟩ := candidate
    exact absurd eligible (none q listed)
  · exact ⟨w, winner, elects _ _ elected⟩

theorem Promised.designated {u v : LinkAddr} {s : Int} (held : Promised u v s net) :
    Designated (net.parents v) := by
  obtain ⟨q, listed, -, -, eligible⟩ := held.entry
  exact held.elects.designated ⟨q, listed, eligible⟩

/-- So `v` announces `s` at least. -/
theorem Promised.announced {u v : LinkAddr} {s : Int} (held : Promised u v s net) (notRoot : v.u8_0 ≠ 1) :
    s ≤ net.announced v := by
  obtain ⟨q, listed, -, worth, eligible⟩ := held.entry
  obtain ⟨w, winner, -, sum⟩ := held.designated
  rw [BeaconNet.announced_of_not_root notRoot, sum]
  exact Int.le_trans worth (winner.greatest q listed eligible)

/-- It is held from a beacon of `u` on, if `u` announces as much. -/
theorem Promised.of_hear (past : AnyPast links net) (few : links.FewNeighbours) {u v : LinkAddr} {s x : Int}
    (link : links.rssi u v = some x) (notRoot : v.u8_0 ≠ 1) (above : noPath < s)
    (lower : s ≤ net.announced u + x) (hears : net'.parents v = net.hear u v x) : Promised u v s net' := by
  obtain ⟨stored, elects⟩ := past.hear few link
  have high := (announced_range (past.listed u)).2
  have negative := (links.range link).2
  refine ⟨?_, hears ▸ elects notRoot⟩
  rw [hears]
  exact ⟨_, (stored _).mpr (.inl rfl), rfl, lower, Int.lt_of_lt_of_le above lower,
    by change net.announced u + x < 0; omega⟩

theorem Promised.step {u v : LinkAddr} {s x : Int} (held : Promised u v s net) (past : AnyPast links net)
    (few : links.FewNeighbours) (link : links.rssi u v = some x) (notRoot : v.u8_0 ≠ 1) (above : noPath < s)
    (lower : s ≤ net.announced u + x) (allowed : OverLinks links net action)
    (stepped : BeaconNet.step nodes net action = some net') : Promised u v s net' := by
  rcases step_hears allowed stepped v with same | ⟨i, y, link', hears⟩
  · exact ⟨same ▸ held.entry, same ▸ held.elects⟩
  · by_cases here : i = u
    · subst here
      cases link.symm.trans link'
      exact .of_hear past few link notRoot above lower hears
    · obtain ⟨stored, elects⟩ := past.hear few link'
      obtain ⟨q, listed, own, worth⟩ := held.entry
      refine ⟨⟨q, ?_, own, worth⟩, hears ▸ elects notRoot⟩
      rw [hears]
      exact (stored q).mpr (.inr ⟨listed, fun same => here (same.symm.trans own)⟩)

/-- Best sums up to rank `k` are held from the neighbours that they come from. -/
def PromisedTo (links : Links nodes) (k : Nat) (net : BeaconNet) : Prop :=
  ∀ u v t x, v.u8_0 ≠ 1 → BestSum links u t → links.rssi u v = some x → BestSum links v (t + x) →
    rank links.rssi (IsRoot nodes) (t + x) ≤ k → Promised u v (t + x) net

/-- Then they are announced. -/
theorem PromisedTo.announced {k : Nat} (promisedTo : PromisedTo links k net) {v : LinkAddr} {s : Int}
    (best : BestSum links v s) (lower : rank links.rssi (IsRoot nodes) s ≤ k) : s ≤ net.announced v := by
  by_cases isRoot : v.u8_0 = 1
  · rw [BeaconNet.announced_root isRoot]
    exact best.nonpos
  · obtain ⟨u, t, x, before, link, rfl⟩ := best.pred isRoot
    exact (promisedTo u v t x isRoot before link best lower).announced isRoot

/-- The neighbour that a best sum comes from announces enough for it. -/
theorem PromisedTo.sender {k : Nat} (promisedTo : PromisedTo links k net) {u v : LinkAddr} {t x : Int}
    (before : BestSum links u t) (link : links.rssi u v = some x)
    (lower : rank links.rssi (IsRoot nodes) (t + x) ≤ k + 1) : t + x ≤ net.announced u + x := by
  have earlier := before.rank_lt link
  have announced := promisedTo.announced before (by omega)
  omega

theorem PromisedTo.step {k : Nat} (promisedTo : PromisedTo links k net) (past : AnyPast links net)
    (few : links.FewNeighbours) (allowed : OverLinks links net action)
    (stepped : BeaconNet.step nodes net action = some net') : PromisedTo links k net' := by
  intro u v t x notRoot before link best lower
  exact (promisedTo u v t x notRoot before link best lower).step past few link notRoot best.above
    (promisedTo.sender before link (Nat.le_succ_of_le lower)) allowed stepped

/-- A round climbs one rank. -/
theorem PromisedTo.climb {k : Nat} (promisedTo : PromisedTo links k mid) (past : AnyPast links mid)
    (few : links.FewNeighbours) (run : Run (BeaconNet.step nodes) (OverLinks links) mid segment net)
    (round : BeaconRound links segment) : PromisedTo links (k + 1) net := by
  intro u v t x notRoot before link best lower
  obtain ⟨pre, heard, member, hears⟩ := round u v x link
  refine run.since (I := fun s => AnyPast links s ∧ PromisedTo links k s) (J := Promised u v (t + x))
    ⟨past, promisedTo⟩ ?_ member ?_ ?_
  · intro s l s' ⟨past, promisedTo⟩ allowed stepped
    exact ⟨past.step few allowed stepped, promisedTo.step past few allowed stepped⟩
  · intro post ⟨past, promisedTo⟩ allowed stepped
    exact .of_hear past few link notRoot best.above (promisedTo.sender before link lower)
      (step_hear allowed stepped rfl hears link)
  · intro s l s' ⟨past, promisedTo⟩ held allowed stepped
    exact held.step past few link notRoot best.above (promisedTo.sender before link lower) allowed stepped

/-- As many rounds as there are nodes bring all best sums. -/
theorem run_promisedTo (few : links.FewNeighbours) (past : AnyPast links mid) {k : Nat}
    (run : Run (BeaconNet.step nodes) (OverLinks links) mid trace net)
    (rounds : Rounds (BeaconRound links) k trace) : PromisedTo links k net := by
  refine rounds.level run (I := AnyPast links) past
    (fun _ _ _ past allowed stepped => past.step few allowed stepped) (fun s _ => ?_)
    (fun k segment mid s past promisedTo part round => promisedTo.climb past few part round)
  intro u v t x _ before link _ lower
  have earlier := before.rank_lt link
  omega

/-! ### What is too good is gone in the end -/

/-- Every node that hears or is heard has a path to node 1 with a sum above -1000. -/
def Links.Connected (links : Links nodes) : Prop :=
  ∀ i j x, links.rssi i j = some x → (∃ s, PathSum links.rssi (IsRoot nodes) i s ∧ noPath < s) ∧
    ∃ s, PathSum links.rssi (IsRoot nodes) j s ∧ noPath < s

/-- What a node stores is no better than its best sum, or at most `h`. -/
def Capped (links : Links nodes) (h : Int) (net : BeaconNet) : Prop :=
  ∀ v M, v.u8_0 ≠ 1 → BestSum links v M → ∀ q ∈ (net.parents v).preferredParentList, q.rssiP ≤ max M h

/-- All best sums are held, and what is too good is at most `h`. -/
structure Sinking (links : Links nodes) (h : Int) (net : BeaconNet) : Prop where
  past : AnyPast links net
  held : PromisedTo links nodes.card net
  capped : Capped links h net

namespace Sinking

variable {h : Int} {u v : LinkAddr} {t M x : Int}

theorem heldFrom (sinking : Sinking links h net) (best : BestSum links v M) (notRoot : v.u8_0 ≠ 1) :
    ∃ u, Promised u v M net := by
  obtain ⟨u, t, x, before, link, rfl⟩ := best.pred notRoot
  exact ⟨u, sinking.held u v t x notRoot before link best (Nat.le_of_lt best.rank_lt_card)⟩

theorem announced_le (sinking : Sinking links h net) (best : BestSum links v M) :
    net.announced v ≤ max M h := by
  by_cases isRoot : v.u8_0 = 1
  · rw [BeaconNet.announced_root isRoot, best.root isRoot]
    exact le_max_left 0 h
  · obtain ⟨u, held⟩ := sinking.heldFrom best isRoot
    obtain ⟨w, winner, -, sum⟩ := held.designated
    rw [BeaconNet.announced_of_not_root isRoot, sum]
    exact sinking.capped v M isRoot best w winner.listed

/-- A beacon takes what is too good down by 1 at least. -/
theorem new_le (sinking : Sinking links h net) (connected : links.Connected)
    (link : links.rssi u v = some x) (best : BestSum links v M) : net.announced u + x ≤ max M (h - 1) := by
  obtain ⟨⟨s, path, above⟩, -⟩ := connected u v x link
  obtain ⟨t, before⟩ := BestSum.of_path path above
  have negative := (links.range link).2
  have sum := best.link_le before link
  have bound := sinking.announced_le before
  omega

theorem step (sinking : Sinking links h net) (few : links.FewNeighbours) (connected : links.Connected)
    (allowed : OverLinks links net action) (stepped : BeaconNet.step nodes net action = some net') :
    Sinking links h net' := by
  refine ⟨sinking.past.step few allowed stepped, sinking.held.step sinking.past few allowed stepped,
    fun v M notRoot best q listed => ?_⟩
  rcases step_hears allowed stepped v with same | ⟨u, x, link, hears⟩
  · exact sinking.capped v M notRoot best q (same ▸ listed)
  · rw [hears] at listed
    rcases ((sinking.past.hear few link).1 q).mp listed with rfl | ⟨old, -⟩
    · have lower := sinking.new_le connected link best
      change net.announced u + x ≤ _
      omega
    · exact sinking.capped v M notRoot best q old

/-- And so does a round. -/
theorem round (sinking : Sinking links h mid) (few : links.FewNeighbours) (connected : links.Connected)
    (run : Run (BeaconNet.step nodes) (OverLinks links) mid segment net)
    (round : BeaconRound links segment) : Sinking links (h - 1) net := by
  have last : Sinking links h net :=
    run.invariant sinking fun _ _ _ sinking allowed stepped => sinking.step few connected allowed stepped
  have entries := round_entries few (I := Sinking links h)
    (K := fun v q => ∀ M, BestSum links v M → q.rssiP ≤ max M (h - 1)) sinking.past sinking
    (fun _ _ _ _ sinking allowed stepped => sinking.step few connected allowed stepped)
    (fun _ _ _ _ _ sinking link M best => sinking.new_le connected link best) run round
  refine ⟨last.past, last.held, fun v M notRoot best q listed => ?_⟩
  obtain ⟨u, -, x, -, link, -⟩ := best.pred notRoot
  exact (entries u v x link).1 q listed M best

end Sinking

/-- So do rounds. -/
theorem run_sinking {h : Int} (few : links.FewNeighbours) (connected : links.Connected) {k : Nat}
    (sinking : Sinking links h mid) (run : Run (BeaconNet.step nodes) (OverLinks links) mid trace net)
    (rounds : Rounds (BeaconRound links) k trace) : Sinking links (h - k) net := by
  refine rounds.level run (I := Sinking links h) (L := fun k => Sinking links (h - k)) sinking
    (fun _ _ _ sinking allowed stepped => sinking.step few connected allowed stepped)
    (fun s sinking => by simpa using sinking) (fun k segment mid s _ sinking part round => ?_)
  have lower := sinking.round few connected part round
  rwa [Int.sub_sub, ← Nat.cast_succ] at lower

/-- After as many rounds as there are nodes all best sums are held, and no stored sum is above -1. -/
theorem run_starts_sinking (few : links.FewNeighbours) (past : AnyPast links mid) (some_ : 0 < nodes.card)
    (run : Run (BeaconNet.step nodes) (OverLinks links) mid trace net)
    (rounds : Rounds (BeaconRound links) nodes.card trace) : Sinking links (-1) net := by
  have kept : ∀ s l s', AnyPast links s → OverLinks links s l → BeaconNet.step nodes s l = some s' →
      AnyPast links s' := fun _ _ _ past allowed stepped => past.step few allowed stepped
  refine ⟨run.invariant past kept, run_promisedTo few past run rounds, ?_⟩
  generalize nodes.card = n at some_ rounds
  cases rounds with
  | start => exact absurd some_ (Nat.lt_irrefl 0)
  | more _ round =>
      obtain ⟨start, before, last⟩ := run.split
      have entries := round_entries few (I := fun _ => True) (K := fun _ q => q.rssiP ≤ -1)
        (before.invariant past kept) trivial (fun _ _ _ _ _ _ _ => trivial) ?_ last round
      · intro v M notRoot best q listed
        obtain ⟨u, -, x, -, link, -⟩ := best.pred notRoot
        exact Int.le_trans ((entries u v x link).1 q listed) (le_max_right M (-1))
      · intro s i j x past _ link
        have high := (announced_range (past.listed i)).2
        have negative := (links.range link).2
        change s.announced i + x ≤ -1
        omega

/-! ### What is left -/

namespace Sinking

variable {u v : LinkAddr} {t M x : Int}

/-- At -999 nothing is too good any more. -/
theorem exact (sinking : Sinking links (-999) net) (best : BestSum links v M) : net.announced v = M := by
  have upper := sinking.announced_le best
  have lower := sinking.held.announced best (Nat.le_of_lt best.rank_lt_card)
  have above := best.above
  simp only [noPath] at above
  omega

/-- One round more, and every entry is the best sum of its neighbour with the link added. -/
theorem fresh (sinking : Sinking links (-999) mid) (few : links.FewNeighbours) (connected : links.Connected)
    (run : Run (BeaconNet.step nodes) (OverLinks links) mid segment net)
    (round : BeaconRound links segment) : Sinking links (-999) net ∧ Fresh links net := by
  have kept : ∀ s l s', Sinking links (-999) s → OverLinks links s l → BeaconNet.step nodes s l = some s' →
      Sinking links (-999) s' :=
    fun _ _ _ sinking allowed stepped => sinking.step few connected allowed stepped
  have last := run.invariant sinking kept
  have entries := round_entries few (I := Sinking links (-999))
    (K := fun v q => ∀ x t, links.rssi q.id v = some x → BestSum links q.id t → q = ⟨q.id, t + x, x⟩)
    sinking.past sinking (fun s l s' _ sinking => kept s l s' sinking) ?_ run round
  · refine ⟨last, fun i j x link => ?_⟩
    obtain ⟨worth, q, listed, rfl⟩ := entries i j x link
    obtain ⟨⟨s, path, above⟩, -⟩ := connected q.id j x link
    obtain ⟨t, best⟩ := BestSum.of_path path above
    have same := worth q listed x t link best
    rw [last.exact best, ← same]
    exact listed
  · intro s i j x _ sinking link x' t link' best
    cases link.symm.trans link'
    rw [sinking.exact best]

/-- Then a parent is a neighbour on a best path. -/
theorem tight (sinking : Sinking links (-999) net) (connected : links.Connected) (fresh : Fresh links net)
    (noNull : linkaddrNull ∉ nodes) (best : BestSum links v M) (notRoot : v.u8_0 ≠ 1) :
    ∃ u x, (∃ t, BestSum links u t) ∧ bestParent? net v = some u ∧ links.rssi u v = some x ∧
      net.announced v = net.announced u + x := by
  obtain ⟨u, held⟩ := sinking.heldFrom best notRoot
  obtain ⟨w, winner, parent, sum⟩ := held.designated
  obtain ⟨u, -, y, -, into, -⟩ := best.pred notRoot
  obtain ⟨x, link⟩ := Option.isSome_iff_exists.mp (sinking.past.heard into w winner.listed)
  have entry := (sinking.past.nodup v).eq_of_id (fresh w.id v x link) winner.listed rfl
  have proper : (net.parents v).bestParentId ≠ linkaddrNull := by
    rw [parent]
    intro null
    exact noNull (null ▸ (links.ends link).1)
  obtain ⟨⟨s, path, above⟩, -⟩ := connected w.id v x link
  refine ⟨w.id, x, BestSum.of_path path above, by rw [bestParent?, if_neg proper, parent], link, ?_⟩
  rw [BeaconNet.announced_of_not_root notRoot, sum, ← entry]

/-- The state is settled, and best parents trace the best sums back to node 1. -/
theorem settled (sinking : Sinking links (-999) net) (connected : links.Connected) (fresh : Fresh links net)
    (noNull : linkaddrNull ∉ nodes) : Settled links net ∧ ∀ v M, BestSum links v M → v.u8_0 ≠ 1 →
      (net.parents v).myPathRssi = M ∧ ParentSum links.rssi (bestParent? net) (IsRoot nodes) v M := by
  refine ⟨fresh.settled sinking.past.nodup sinking.past.listed fun i j x link notRoot => ?_,
    fun v M best notRoot => ?_⟩
  · obtain ⟨-, s, path, above⟩ := connected i j x link
    obtain ⟨M, best⟩ := BestSum.of_path path above
    obtain ⟨u, held⟩ := sinking.heldFrom best notRoot
    exact held.elects
  · have value := sinking.exact best
    refine ⟨(BeaconNet.announced_of_not_root notRoot).symm.trans value, ?_⟩
    rw [← value]
    refine parentSum_of_tight (f := net.announced) (P := fun v => ∃ M, BestSum links v M)
      (fun link => by have := (links.range link).2; omega)
      (fun {v} ⟨M, best⟩ => by rw [sinking.exact best]; exact best.nonpos)
      (fun isRoot => BeaconNet.announced_root isRoot.2) ?_ ⟨M, best⟩
    intro v ⟨M, best⟩ noRoot
    exact sinking.tight connected fresh noNull best fun isRoot => noRoot ⟨best.member, isRoot⟩

end Sinking

/-- From any past, as many rounds as there are nodes and 999 more bring the best paths back. -/
theorem AnyPast.restabilizes (past : AnyPast links mid) (few : links.FewNeighbours)
    (connected : links.Connected) (noNull : linkaddrNull ∉ nodes)
    (run : Run (BeaconNet.step nodes) (OverLinks links) mid trace net)
    (rounds : Rounds (BeaconRound links) (nodes.card + 999) trace) :
    Settled links net ∧ ∀ i M, i.u8_0 ≠ 1 → Best links.rssi (IsRoot nodes) i M → noPath < M →
      (net.parents i).myPathRssi = M ∧ ParentSum links.rssi (bestParent? net) (IsRoot nodes) i M := by
  by_cases some_ : 0 < nodes.card
  · -- The best sums climb, what is too good sinks, and one round more brings all entries up to date.
    obtain ⟨later, first, rfl, climb, later_⟩ := rounds.split
    obtain ⟨held, toHeld, fromHeld⟩ := run.split
    obtain ⟨last, sink, rfl, sinks, last_⟩ := Rounds.split (k := 998) (m := 1) later_
    obtain ⟨sunk, toSunk, fromSunk⟩ := fromHeld.split
    have sinking : Sinking links (-999) sunk :=
      run_sinking few connected (run_starts_sinking few past some_ toHeld climb) toSunk sinks
    cases last_ with
    | more _ round =>
        obtain ⟨start, waits, ends⟩ := fromSunk.split
        have still := waits.invariant sinking fun _ _ _ sinking allowed stepped =>
          sinking.step few connected allowed stepped
        obtain ⟨sinking, fresh⟩ := still.fresh few connected ends round
        obtain ⟨settled, optimal⟩ := sinking.settled connected fresh noNull
        exact ⟨settled, fun i M notRoot best above => optimal i M ⟨best, above⟩ notRoot⟩
  · have none : ∀ i, i ∉ nodes := fun i member => some_ (Finset.card_pos.mpr ⟨i, member⟩)
    exact ⟨fun i j x link => absurd (links.ends link).1 (none i),
      fun i M _ best above => absurd (BestSum.member ⟨best, above⟩) (none i)⟩

/-- After any run, with changing links, silent nodes, expired entries and sums on their way to infinity, let
    the links stay as they are, few enough at each node, connect every node that hears or is heard to node 1,
    and let no node that hears anybody keep the entry of a lost neighbour. Then after as many rounds of
    beacons as there are nodes and 999 more, no beacon changes anything any more, and every node with a path
    above -1000 has the best one and traces it back to node 1. -/
theorem beacons_restabilize (links : Links nodes) (few : links.FewNeighbours) (connected : links.Connected)
    (noNull : linkaddrNull ∉ nodes) {earlier : List (BeaconNet × BeaconAction)}
    (before : Run (BeaconNet.step nodes) anyStep BeaconNet.cold earlier mid)
    (expired : ∀ i j x, links.rssi i j = some x →
      ∀ q ∈ (mid.parents j).preferredParentList, (links.rssi q.id j).isSome)
    (run : Run (BeaconNet.step nodes) (OverLinks links) mid trace net)
    (rounds : Rounds (BeaconRound links) (nodes.card + 999) trace) :
    Settled links net ∧ ∀ i M, i.u8_0 ≠ 1 → Best links.rssi (IsRoot nodes) i M → noPath < M →
      (net.parents i).myPathRssi = M ∧ ParentSum links.rssi (bestParent? net) (IsRoot nodes) i M :=
  AnyPast.restabilizes
    ⟨run_nodup before, fun _ notRoot => run_listed before notRoot, fun link => expired _ _ _ link⟩
    few connected noNull run rounds

/-- Where no node is silent, node 1 can go on sending beacons to node 2. -/
theorem oneLink_rounds {mid : BeaconNet} (loud : mid.silent = []) (k : Nat) :
    ∃ trace net, Run (BeaconNet.step {⟨1, 0⟩, ⟨2, 0⟩}) (OverLinks oneLink) mid trace net ∧
      Rounds (BeaconRound oneLink) k trace ∧ net.silent = [] := by
  induction k with
  | zero => exact ⟨[], mid, .nil, .start [], loud⟩
  | succ k ih =>
      obtain ⟨trace, net, run, rounds, loud⟩ := ih
      let beacon : BeaconAction := .beacon ⟨1, 0⟩ [(⟨2, 0⟩, -10)]
      have live : ∀ i ∈ ({⟨1, 0⟩, ⟨2, 0⟩} : Finset LinkAddr), net.Live {⟨1, 0⟩, ⟨2, 0⟩} i := fun i member =>
        ⟨member, by rw [loud]; exact List.not_mem_nil⟩
      have stepped : BeaconNet.step {⟨1, 0⟩, ⟨2, 0⟩} net beacon =
          some (net.broadcast ⟨1, 0⟩ [(⟨2, 0⟩, -10)]) :=
        if_pos ⟨live _ (by decide), by simpa [BeaconNet.CanHear] using live _ (by decide)⟩
      exact ⟨_, _, run.snoc (by simp [OverLinks, oneLink, beacon]) stepped, rounds.more (oneLink_round net),
        loud⟩

/-- The only path to node 2 is the link. -/
theorem oneLink_best : Best oneLink.rssi (IsRoot {⟨1, 0⟩, ⟨2, 0⟩}) ⟨2, 0⟩ (-10) := by
  have root : PathSum oneLink.rssi (IsRoot {⟨1, 0⟩, ⟨2, 0⟩}) ⟨1, 0⟩ 0 := .root ⟨by decide, rfl⟩
  have path : PathSum oneLink.rssi (IsRoot {⟨1, 0⟩, ⟨2, 0⟩}) ⟨2, 0⟩ (0 + -10) := root.step rfl
  refine ⟨path, fun s other => ?_⟩
  have negative : ∀ {u v x}, oneLink.rssi u v = some x → x < 0 := fun link => by
    have := (oneLink.range link).2
    omega
  cases other with
  | root isRoot => cases isRoot.2
  | step before link =>
      obtain ⟨-, same⟩ := Option.ite_none_right_eq_some.mp link
      have top := before.nonpos negative
      have value := Option.some.inj same
      omega

theorem oneLink_connected : oneLink.Connected := by
  intro i j x link
  obtain ⟨⟨rfl, rfl⟩, -⟩ := Option.ite_none_right_eq_some.mp link
  exact ⟨⟨0, .root ⟨by decide, rfl⟩, by decide⟩, -10, oneLink_best.1, by decide⟩

/-- Node 2 once heard node 1 better than now. -/
theorem beacons_restabilize_oneLink :
    ∃ mid trace net, (mid.parents ⟨2, 0⟩).myPathRssi = -5 ∧
      Run (BeaconNet.step {⟨1, 0⟩, ⟨2, 0⟩}) (OverLinks oneLink) mid trace net ∧
      (net.parents ⟨2, 0⟩).myPathRssi = -10 := by
  let nodes : Finset LinkAddr := {⟨1, 0⟩, ⟨2, 0⟩}
  let mid := BeaconNet.cold.broadcast ⟨1, 0⟩ [(⟨2, 0⟩, -5)]
  have start : Run (BeaconNet.step nodes) anyStep BeaconNet.cold [] BeaconNet.cold := .nil
  have before : Run (BeaconNet.step nodes) anyStep BeaconNet.cold _ mid :=
    start.snoc (l := .beacon ⟨1, 0⟩ [(⟨2, 0⟩, -5)]) trivial rfl
  have expired : ∀ i j x, oneLink.rssi i j = some x →
      ∀ q ∈ (mid.parents j).preferredParentList, (oneLink.rssi q.id j).isSome := by
    intro i j x link q listed
    obtain ⟨⟨-, rfl⟩, -⟩ := Option.ite_none_right_eq_some.mp link
    have only : (mid.parents ⟨2, 0⟩).preferredParentList = [⟨⟨1, 0⟩, -5, -5⟩] := by decide
    rw [only, List.mem_singleton] at listed
    subst listed
    rfl
  have loud : mid.silent = [] := rfl
  obtain ⟨trace, net, run, rounds, -⟩ := oneLink_rounds loud (nodes.card + 999)
  have value := (beacons_restabilize oneLink oneLink_few oneLink_connected (by decide) before expired run
    rounds).2 ⟨2, 0⟩ (-10) (by decide) oneLink_best (by decide)
  exact ⟨mid, trace, net, by decide, run, value.1⟩

end TreeRssi
