/-
Module: TreeRssi.Proofs.Election
Layer: Proofs
Purpose: What `register_parent` and `keepalive_expired` can do to one node, said once. The election
  returns a listed entry of greatest eligible sum, or nobody exactly when no entry is eligible; storing
  an entry changes the sender's entry and no other. `Registered` lists the four outcomes of a beacon,
  guards included, and the network proofs use it instead of unfolding the callback.
Imports: TreeRssi.Core.Neighbours, Mathlib (lists)
Trusted boundary: none
Main exports: Winner, elect_cases, IdsNodup, storeEntry_mem, Registered, registerParent_cases,
  mem_keepaliveExpired
Open obligations: none
-/
import Mathlib.Data.List.Nodup
import TreeRssi.Core.Neighbours

namespace TreeRssi

/-! ### The election loop -/

/-- `w` is listed, eligible, and of greatest sum among the eligible entries. -/
structure Winner (list : List PreferredParent) (w : PreferredParent) : Prop where
  listed : w ∈ list
  eligible : Eligible w.rssiP
  greatest : ∀ q ∈ list, Eligible q.rssiP → q.rssiP ≤ w.rssiP

/-- What the loop leaves when it starts from `best`: either nothing was better, or the last
    improvement, which nothing in the list beats. -/
theorem foldl_electStep (list : List PreferredParent) (best : Int × Option PreferredParent)
    (floor : noPath ≤ best.1) :
    (list.foldl electStep best = best ∧ ∀ q ∈ list, q.rssiP < 0 → q.rssiP ≤ best.1) ∨
    ∃ w ∈ list, list.foldl electStep best = (w.rssiP, some w) ∧ best.1 < w.rssiP ∧ w.rssiP < 0 ∧
      ∀ q ∈ list, q.rssiP < 0 → q.rssiP ≤ w.rssiP := by
  induction list generalizing best with
  | nil => exact .inl ⟨rfl, by simp⟩
  | cons p rest ih =>
      by_cases better : p.rssiP > best.1 ∧ p.rssiP < 0
      · have taken : electStep best p = (p.rssiP, some p) := if_pos better
        have raised : noPath ≤ (p.rssiP, some p).1 := by
          change noPath ≤ p.rssiP
          omega
        rw [List.foldl_cons, taken]
        rcases ih _ raised with ⟨kept, bound⟩ | ⟨w, member, result, above, negative, bound⟩
        · exact .inr ⟨p, by simp, kept, better.1, better.2, by simpa using bound⟩
        · have order : p.rssiP < w.rssiP := above
          refine .inr ⟨w, by simp [member], result, by omega, negative, ?_⟩
          intro q listed below
          rcases List.mem_cons.mp listed with same | later
          · subst same
            omega
          · exact bound q later below
      · have skipped : electStep best p = best := if_neg better
        rw [List.foldl_cons, skipped]
        rcases ih _ floor with ⟨kept, bound⟩ | ⟨w, member, result, above, negative, bound⟩
        · refine .inl ⟨kept, ?_⟩
          intro q listed below
          rcases List.mem_cons.mp listed with same | later
          · subst same
            omega
          · exact bound q later below
        · refine .inr ⟨w, by simp [member], result, above, negative, ?_⟩
          intro q listed below
          rcases List.mem_cons.mp listed with same | later
          · subst same
            omega
          · exact bound q later below

/-- The loop finds a winner, or leaves its initial values when no listed entry is eligible. -/
theorem elect_cases (list : List PreferredParent) :
    (elect list = (noPath, none) ∧ ∀ q ∈ list, ¬ Eligible q.rssiP) ∨
    ∃ w, elect list = (w.rssiP, some w) ∧ Winner list w := by
  rcases foldl_electStep list (noPath, none) (Int.le_refl _) with
    ⟨kept, bound⟩ | ⟨w, member, result, above, negative, bound⟩
  · refine .inl ⟨kept, ?_⟩
    intro q listed eligible
    have := bound q listed eligible.2
    exact absurd eligible.1 (Int.not_lt.mpr this)
  · exact .inr ⟨w, result, member, ⟨above, negative⟩, fun q listed eligible =>
      bound q listed eligible.2⟩

/-! ### Storing an entry -/

/-- No two listed entries are of one neighbour. -/
def IdsNodup (list : List PreferredParent) : Prop := (list.map PreferredParent.id).Nodup

theorem IdsNodup.eq_of_id {list : List PreferredParent} (nodup : IdsNodup list)
    {p q : PreferredParent} (hp : p ∈ list) (hq : q ∈ list) (same : p.id = q.id) : p = q :=
  List.inj_on_of_nodup_map nodup hp hq same

theorem IdsNodup.erase {list : List PreferredParent} (nodup : IdsNodup list) (p : PreferredParent) :
    IdsNodup (list.erase p) :=
  List.Nodup.sublist (List.Sublist.map _ (List.erase_sublist)) nodup

theorem refreshEntry_none {sender : LinkAddr} {rssiP rssiA : Int} {list : List PreferredParent}
    (h : refreshEntry sender rssiP rssiA list = none) : ∀ q ∈ list, q.id ≠ sender := by
  induction list with
  | nil => simp
  | cons p rest ih =>
      by_cases hit : p.id = sender
      · simp [refreshEntry, hit] at h
      · simp only [refreshEntry, hit, if_false, Option.map_eq_none_iff] at h
        intro q listed
        rcases List.mem_cons.mp listed with same | later
        · rwa [same]
        · exact ih h q later

/-- Refreshing keeps the neighbours and their order, and rewrites the sender's values. -/
theorem refreshEntry_some {sender : LinkAddr} {rssiP rssiA : Int} {list new : List PreferredParent}
    (nodup : IdsNodup list) (h : refreshEntry sender rssiP rssiA list = some new) :
    new.map PreferredParent.id = list.map PreferredParent.id ∧
      ∀ q, q ∈ new ↔ q = ⟨sender, rssiP, rssiA⟩ ∨ (q ∈ list ∧ q.id ≠ sender) := by
  induction list generalizing new with
  | nil => simp [refreshEntry] at h
  | cons p rest ih =>
      have parts := List.nodup_cons.mp nodup
      by_cases hit : p.id = sender
      · simp only [refreshEntry, hit, if_true, Option.some.injEq] at h
        subst h
        refine ⟨by simp [hit], ?_⟩
        intro q
        have others : q ∈ rest → q.id ≠ sender := by
          intro member same
          exact parts.1 (List.mem_map.mpr ⟨q, member, by rw [same, hit]⟩)
        simp only [List.mem_cons]
        constructor
        · rintro (same | member)
          · exact .inl same
          · exact .inr ⟨.inr member, others member⟩
        · rintro (same | ⟨same | member, ne⟩)
          · exact .inl same
          · exact absurd (by rw [same, hit]) ne
          · exact .inr member
      · simp only [refreshEntry, hit, if_false, Option.map_eq_some_iff] at h
        obtain ⟨tail, found, rfl⟩ := h
        obtain ⟨ids, members⟩ := ih parts.2 found
        refine ⟨by simp [ids], ?_⟩
        intro q
        simp only [List.mem_cons, members]
        constructor
        · rintro (same | same | ⟨member, ne⟩)
          · exact .inr ⟨.inl same, by rwa [same]⟩
          · exact .inl same
          · exact .inr ⟨.inr member, ne⟩
        · rintro (same | ⟨same | member, ne⟩)
          · exact .inr (.inl same)
          · exact .inl same
          · exact .inr (.inr ⟨member, ne⟩)

/-- After a beacon is stored the list holds the sender's new entry and the other entries it held. -/
theorem storeEntry_mem {sender : LinkAddr} {rssiP rssiA : Int} {list new : List PreferredParent}
    (nodup : IdsNodup list) (h : storeEntry sender rssiP rssiA list = some new) :
    ∀ q, q ∈ new ↔ q = ⟨sender, rssiP, rssiA⟩ ∨ (q ∈ list ∧ q.id ≠ sender) := by
  cases refreshed : refreshEntry sender rssiP rssiA list with
  | some kept =>
      simp only [storeEntry, refreshed, Option.some.injEq] at h
      subst h
      exact (refreshEntry_some nodup refreshed).2
  | none =>
      have absent := refreshEntry_none refreshed
      simp only [storeEntry, refreshed, Option.ite_none_right_eq_some, Option.some.injEq] at h
      obtain ⟨-, rfl⟩ := h
      intro q
      rw [List.mem_cons]
      exact or_congr_right ⟨fun member => ⟨member, absent q member⟩, And.left⟩

theorem storeEntry_nodup {sender : LinkAddr} {rssiP rssiA : Int} {list new : List PreferredParent}
    (nodup : IdsNodup list) (h : storeEntry sender rssiP rssiA list = some new) : IdsNodup new := by
  cases refreshed : refreshEntry sender rssiP rssiA list with
  | some kept =>
      simp only [storeEntry, refreshed, Option.some.injEq] at h
      subst h
      unfold IdsNodup
      rw [(refreshEntry_some nodup refreshed).1]
      exact nodup
  | none =>
      have absent := refreshEntry_none refreshed
      simp only [storeEntry, refreshed, Option.ite_none_right_eq_some, Option.some.injEq] at h
      obtain ⟨-, rfl⟩ := h
      refine List.nodup_cons.mpr ⟨?_, nodup⟩
      rw [List.mem_map]
      rintro ⟨q, member, same⟩
      exact absent q member same

/-- Only a full list without the sender refuses a beacon. -/
theorem storeEntry_none {sender : LinkAddr} {rssiP rssiA : Int} {list : List PreferredParent}
    (h : storeEntry sender rssiP rssiA list = none) :
    preferredParentMem ≤ list.length ∧ ∀ q ∈ list, q.id ≠ sender := by
  cases refreshed : refreshEntry sender rssiP rssiA list with
  | some kept => simp [storeEntry, refreshed] at h
  | none =>
      refine ⟨?_, refreshEntry_none refreshed⟩
      simp only [storeEntry, refreshed] at h
      by_contra room
      rw [if_pos (by omega)] at h
      cases h

/-! ### The callbacks -/

/-- The four outcomes of a beacon at `self`. -/
inductive Registered (self : LinkAddr) (state : ParentState) (sender : LinkAddr)
    (rssiP rssiA : Int) : ParentState → Prop where
  | refused (full : storeEntry sender rssiP rssiA state.preferredParentList = none) :
      Registered self state sender rssiP rssiA state
  | root {list : List PreferredParent}
      (stored : storeEntry sender rssiP rssiA state.preferredParentList = some list)
      (isRoot : self.u8_0 = 1) :
      Registered self state sender rssiP rssiA { state with preferredParentList := list }
  | nobody {list : List PreferredParent}
      (stored : storeEntry sender rssiP rssiA state.preferredParentList = some list)
      (notRoot : self.u8_0 ≠ 1) (none : ∀ q ∈ list, ¬ Eligible q.rssiP) :
      Registered self state sender rssiP rssiA { state with preferredParentList := list }
  | elected {list : List PreferredParent} {w : PreferredParent}
      (stored : storeEntry sender rssiP rssiA state.preferredParentList = some list)
      (notRoot : self.u8_0 ≠ 1) (winner : Winner list w) :
      Registered self state sender rssiP rssiA
        { preferredParentList := list, bestParentId := w.id, myPathRssi := w.rssiP }

theorem registerParent_cases (self : LinkAddr) (state : ParentState) (sender : LinkAddr)
    (received : Beacon) (lastRssi : Int) :
    Registered self state sender (int16 (received.rssiP + lastRssi)) lastRssi
      (registerParent self state sender received lastRssi) := by
  unfold registerParent
  cases stored : storeEntry sender (int16 (received.rssiP + lastRssi)) lastRssi
      state.preferredParentList with
  | none => exact .refused stored
  | some list =>
      by_cases isRoot : self.u8_0 = 1
      · simpa only [isRoot, if_true] using .root stored isRoot
      · simp only [isRoot, if_false]
        rcases elect_cases list with ⟨result, none⟩ | ⟨w, result, winner⟩
        · rw [result]
          exact .nobody stored isRoot none
        · rw [result]
          exact .elected stored isRoot winner

/-- The list after a beacon has one entry for each neighbour, as before. -/
theorem Registered.nodup {self sender : LinkAddr} {state state' : ParentState} {rssiP rssiA : Int}
    (h : Registered self state sender rssiP rssiA state')
    (nodup : IdsNodup state.preferredParentList) : IdsNodup state'.preferredParentList := by
  cases h with
  | refused _ => exact nodup
  | root stored _ => exact storeEntry_nodup nodup stored
  | nobody stored _ _ => exact storeEntry_nodup nodup stored
  | elected stored _ _ => exact storeEntry_nodup nodup stored

/-- Every entry after a beacon is the sender's new one or an old one. -/
theorem Registered.mem {self sender : LinkAddr} {state state' : ParentState} {rssiP rssiA : Int}
    (h : Registered self state sender rssiP rssiA state')
    (nodup : IdsNodup state.preferredParentList) {q : PreferredParent}
    (member : q ∈ state'.preferredParentList) :
    q = ⟨sender, rssiP, rssiA⟩ ∨ q ∈ state.preferredParentList := by
  cases h with
  | refused _ => exact .inr member
  | root stored _ => exact ((storeEntry_mem nodup stored q).mp member).imp_right And.left
  | nobody stored _ _ => exact ((storeEntry_mem nodup stored q).mp member).imp_right And.left
  | elected stored _ _ => exact ((storeEntry_mem nodup stored q).mp member).imp_right And.left

/-- The root elects nobody. -/
theorem Registered.atRoot {self sender : LinkAddr} {state state' : ParentState} {rssiP rssiA : Int}
    (h : Registered self state sender rssiP rssiA state') (isRoot : self.u8_0 = 1) :
    state'.bestParentId = state.bestParentId := by
  cases h with
  | refused _ => rfl
  | root _ _ => rfl
  | nobody _ notRoot _ => exact absurd isRoot notRoot
  | elected _ notRoot _ => exact absurd isRoot notRoot

/-- The expiry of an entry that is not the parent's keeps the parent. -/
theorem keepaliveExpired_other {state : ParentState} {p : PreferredParent}
    (other : state.bestParentId ≠ p.id) :
    (keepaliveExpired state p).bestParentId = state.bestParentId ∧
      (keepaliveExpired state p).myPathRssi = state.myPathRssi := by
  simp [keepaliveExpired, other]

/-- An expired entry leaves the list; its neighbour's other data go with it. -/
theorem mem_keepaliveExpired {state : ParentState} {p q : PreferredParent}
    (nodup : IdsNodup state.preferredParentList) (listed : p ∈ state.preferredParentList) :
    q ∈ (keepaliveExpired state p).preferredParentList ↔
      q ∈ state.preferredParentList ∧ q.id ≠ p.id := by
  have kept : (keepaliveExpired state p).preferredParentList = state.preferredParentList.erase p := by
    unfold keepaliveExpired
    split <;> rfl
  rw [kept, (List.Nodup.of_map _ nodup).mem_erase_iff]
  constructor
  · rintro ⟨ne, member⟩
    exact ⟨member, fun same => ne (nodup.eq_of_id member listed same)⟩
  · rintro ⟨member, ne⟩
    exact ⟨fun same => ne (by rw [same]), member⟩

theorem keepaliveExpired_nodup {state : ParentState} (nodup : IdsNodup state.preferredParentList)
    (p : PreferredParent) : IdsNodup (keepaliveExpired state p).preferredParentList := by
  unfold keepaliveExpired
  split <;> exact nodup.erase p

end TreeRssi
