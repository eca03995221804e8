/-
Module: TreeRssi.Lib.KeyedStreams
Layer: Lib
Purpose: Arrivals that carry a key, and tables that keep one entry for each of the first keys, up to a
  capacity. The values that arrived under one key are its stream. A table tabulates the arrivals if what
  it says of a key depends on the stream of the key alone; three rules say how it is kept when one more
  value arrives. While the keys fit in the table, the order of arrivals of different keys leaves no trace
  in it.
Imports: Mathlib (permutations and lists without duplicates)
Trusted boundary: none
Main exports: stream, firstSeen, mem_firstSeen, firstSeen_length_le, Tabulates, Tabulates.again,
  Tabulates.first, Tabulates.full, Tabulates.mem_iff, Tabulates.mem_iff_of_few, Tabulates.same_entries
Open obligations: none
-/
import Mathlib.Data.Finset.Card
import Mathlib.Data.List.Nodup

namespace KeyedStreams

universe u v w

variable {K : Type u} {V : Type v} {E : Type w} [DecidableEq K]

/-- The values that arrived under a key. The latest arrival comes first, here and below. -/
def stream (arrivals : List (K × V)) (k : K) : List V :=
  arrivals.filterMap fun a => if a.1 = k then some a.2 else none

theorem stream_cons (k : K) (v : V) (arrivals : List (K × V)) (other : K) :
    stream ((k, v) :: arrivals) other =
      if k = other then v :: stream arrivals other else stream arrivals other := by
  by_cases same : k = other
  · simp [stream, same]
  · simp [stream, same]

theorem stream_perm {arrivals arrivals' : List (K × V)} (perm : arrivals.Perm arrivals') (k : K) :
    (stream arrivals k).Perm (stream arrivals' k) := perm.filterMap _

/-- The keys, each where it arrived for the first time: here the first key comes first. -/
def firstSeen : List (K × V) → List K
  | [] => []
  | a :: arrivals => if a.1 ∈ firstSeen arrivals then firstSeen arrivals else firstSeen arrivals ++ [a.1]

theorem firstSeen_nodup (arrivals : List (K × V)) : (firstSeen arrivals).Nodup := by
  induction arrivals with
  | nil => exact List.nodup_nil
  | cons a arrivals ih =>
      rw [firstSeen]
      by_cases old : a.1 ∈ firstSeen arrivals
      · rw [if_pos old]
        exact ih
      · rw [if_neg old]
        refine List.nodup_append.mpr ⟨ih, List.nodup_singleton _, fun k seen new last => ?_⟩
        rw [List.mem_singleton.mp last]
        exact fun same => old (same ▸ seen)

/-- A key was seen if something arrived under it. -/
theorem mem_firstSeen {arrivals : List (K × V)} {k : K} :
    k ∈ firstSeen arrivals ↔ stream arrivals k ≠ [] := by
  induction arrivals with
  | nil => simp [firstSeen, stream]
  | cons a arrivals ih =>
      have grown : k ∈ firstSeen (a :: arrivals) ↔ k ∈ firstSeen arrivals ∨ k = a.1 := by
        rw [firstSeen]
        by_cases old : a.1 ∈ firstSeen arrivals
        · rw [if_pos old]
          exact ⟨.inl, fun seen => seen.elim id fun same => same ▸ old⟩
        · rw [if_neg old, List.mem_append, List.mem_singleton]
      rw [grown, ih, stream_cons]
      by_cases same : a.1 = k
      · simp [same]
      · simp [same, Ne.symm same]

/-- The keys seen are no more than any set of keys to which the arrivals keep. -/
theorem firstSeen_length_le {arrivals : List (K × V)} {keys : Finset K}
    (silent : ∀ k, k ∉ keys → stream arrivals k = []) : (firstSeen arrivals).length ≤ keys.card := by
  rw [← List.toFinset_card_of_nodup (firstSeen_nodup arrivals)]
  apply Finset.card_le_card
  intro k seen
  by_contra outside
  exact mem_firstSeen.mp (List.mem_toFinset.mp seen) (silent k outside)

/-- Arrivals with the same streams show the same keys. -/
theorem firstSeen_perm {arrivals arrivals' : List (K × V)}
    (same : ∀ k, stream arrivals k = [] ↔ stream arrivals' k = []) :
    (firstSeen arrivals).Perm (firstSeen arrivals') := by
  rw [List.perm_ext_iff_of_nodup (firstSeen_nodup _) (firstSeen_nodup _)]
  intro k
  rw [mem_firstSeen, mem_firstSeen]
  exact not_congr (same k)

/-! ### Tables -/

/-- The table has one entry for each of the first keys, up to its capacity, and the entry is what `entry`
    makes of the stream of its key. -/
structure Tabulates (capacity : Nat) (key : E → K) (entry : K → List V → E) (arrivals : List (K × V))
    (table : List E) : Prop where
  keys : (table.map key).Perm ((firstSeen arrivals).take capacity)
  entries : ∀ e ∈ table, e = entry (key e) (stream arrivals (key e))

namespace Tabulates

variable {capacity : Nat} {key : E → K} {entry : K → List V → E} {arrivals arrivals' : List (K × V)}
  {table table' : List E} {k : K} {v : V}

theorem nil : Tabulates capacity key entry [] [] := ⟨by simp [firstSeen], by simp⟩

theorem nodup (tabulates : Tabulates capacity key entry arrivals table) : (table.map key).Nodup :=
  tabulates.keys.nodup_iff.mpr ((firstSeen_nodup arrivals).sublist (List.take_sublist _ _))

theorem length_eq (tabulates : Tabulates capacity key entry arrivals table) :
    table.length = min capacity (firstSeen arrivals).length := by
  rw [← List.length_map, tabulates.keys.length_eq, List.length_take]

/-- What the table holds after one more arrival, if the entry of its key is stored. -/
theorem entries_stored (tabulates : Tabulates capacity key entry arrivals table)
    (keyed : ∀ k vs, key (entry k vs) = k)
    (stored : ∀ e ∈ table', e = entry k (v :: stream arrivals k) ∨ e ∈ table ∧ key e ≠ k) :
    ∀ e ∈ table', e = entry (key e) (stream ((k, v) :: arrivals) (key e)) := by
  intro e member
  rcases stored e member with new | ⟨old, other⟩
  · have own : key e = k := by rw [new, keyed]
    rw [own, stream_cons, if_pos rfl]
    exact new
  · rw [stream_cons, if_neg (Ne.symm other)]
    exact tabulates.entries e old

/-- One more value arrives under a key of the table, and its entry is renewed. -/
theorem again (tabulates : Tabulates capacity key entry arrivals table)
    (keyed : ∀ k vs, key (entry k vs) = k) (listed : k ∈ table.map key)
    (sameKeys : (table'.map key).Perm (table.map key))
    (stored : ∀ e ∈ table', e = entry k (v :: stream arrivals k) ∨ e ∈ table ∧ key e ≠ k) :
    Tabulates capacity key entry ((k, v) :: arrivals) table' := by
  have seen : k ∈ firstSeen arrivals := List.mem_of_mem_take (tabulates.keys.mem_iff.mp listed)
  refine ⟨?_, tabulates.entries_stored keyed stored⟩
  rw [firstSeen, if_pos seen]
  exact sameKeys.trans tabulates.keys

/-- A value arrives under a key that is not in the table, and the table has room for its entry. -/
theorem first (tabulates : Tabulates capacity key entry arrivals table)
    (keyed : ∀ k vs, key (entry k vs) = k) (absent : k ∉ table.map key) (room : table.length < capacity)
    (newKeys : (table'.map key).Perm (k :: table.map key))
    (stored : ∀ e ∈ table', e = entry k [v] ∨ e ∈ table) :
    Tabulates capacity key entry ((k, v) :: arrivals) table' := by
  have length := tabulates.length_eq
  have uncut : (firstSeen arrivals).take capacity = firstSeen arrivals :=
    List.take_of_length_le (by omega)
  have keys := tabulates.keys
  rw [uncut] at keys
  have unseen : k ∉ firstSeen arrivals := fun seen => absent (keys.mem_iff.mpr seen)
  have silent : stream arrivals k = [] := by
    by_contra heard
    exact unseen (mem_firstSeen.mpr heard)
  refine ⟨?_, tabulates.entries_stored keyed fun e member => ?_⟩
  · have uncut' : (firstSeen arrivals ++ [k]).take capacity = firstSeen arrivals ++ [k] := by
      apply List.take_of_length_le
      rw [List.length_append, List.length_singleton]
      omega
    rw [firstSeen, if_neg unseen, uncut']
    exact (newKeys.trans (keys.cons k)).trans (List.perm_append_singleton k _).symm
  · rw [silent]
    exact (stored e member).imp_right fun old =>
      ⟨old, fun own => absent (own ▸ List.mem_map_of_mem old)⟩

/-- A value arrives under a key that is not in the table, and the table is full: it stays as it is. -/
theorem full (tabulates : Tabulates capacity key entry arrivals table) (absent : k ∉ table.map key)
    (full : capacity ≤ table.length) : Tabulates capacity key entry ((k, v) :: arrivals) table := by
  have length := tabulates.length_eq
  refine ⟨?_, fun e member => ?_⟩
  · rw [firstSeen]
    by_cases seen : k ∈ firstSeen arrivals
    · rw [if_pos seen]
      exact tabulates.keys
    · rw [if_neg seen, List.take_append_of_le_length (by omega)]
      exact tabulates.keys
  · have other : k ≠ key e := fun own => absent (own ▸ List.mem_map_of_mem member)
    rw [stream_cons, if_neg other]
    exact tabulates.entries e member

/-- The entries of the table. -/
theorem mem_iff (tabulates : Tabulates capacity key entry arrivals table) {e : E} :
    e ∈ table ↔ key e ∈ (firstSeen arrivals).take capacity ∧
      e = entry (key e) (stream arrivals (key e)) := by
  rw [← tabulates.keys.mem_iff]
  constructor
  · exact fun member => ⟨List.mem_map_of_mem member, tabulates.entries e member⟩
  · rintro ⟨listed, own⟩
    obtain ⟨e', member, same⟩ := List.mem_map.mp listed
    have own' := tabulates.entries e' member
    rw [same, ← own] at own'
    exact own' ▸ member

/-- The entries of the table, if every key has room. -/
theorem mem_iff_of_few (tabulates : Tabulates capacity key entry arrivals table)
    (few : (firstSeen arrivals).length ≤ capacity) {e : E} :
    e ∈ table ↔ stream arrivals (key e) ≠ [] ∧ e = entry (key e) (stream arrivals (key e)) := by
  rw [tabulates.mem_iff, List.take_of_length_le few, mem_firstSeen]

/-- Tables of arrivals whose streams the entries cannot tell apart have the same entries, if every key has
    room. -/
theorem same_entries (tabulates : Tabulates capacity key entry arrivals table)
    (tabulates' : Tabulates capacity key entry arrivals' table')
    (few : (firstSeen arrivals).length ≤ capacity)
    (sameKeys : ∀ k, stream arrivals k = [] ↔ stream arrivals' k = [])
    (same : ∀ k, entry k (stream arrivals k) = entry k (stream arrivals' k)) (e : E) :
    e ∈ table ↔ e ∈ table' := by
  have few' : (firstSeen arrivals').length ≤ capacity := by
    rw [← (firstSeen_perm sameKeys).length_eq]
    exact few
  rw [tabulates.mem_iff_of_few few, tabulates'.mem_iff_of_few few', same]
  exact and_congr_left' (not_congr (sameKeys _))

end Tabulates

end KeyedStreams
