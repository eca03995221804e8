/-
Module: TreeRssi.Lib.DepthFirst
Layer: Lib
Purpose: Depth-first search that keeps no record of the visited vertices, over a graph given by the list
  of children of each vertex. The recursion has no bound of its own, so it runs on fuel. An answer is
  right about reachability; the search for an absent vertex ends exactly where the children below the
  start are well founded, which in a finite graph means that no cycle can be reached. A search that ends
  is no deeper than there are vertices with children.
Imports: Mathlib (relations, finite types)
Trusted boundary: human-reviewed spec
Main exports: findFirst, search, Reaches, Grounded, search_mono, search_reaches, search_avoids,
  exists_search_of_grounded, grounded_of_search, search_depth, grounded_iff_no_cycle
Open obligations: none
-/
import Mathlib.Data.Fintype.Card
import Mathlib.Logic.Relation

namespace DepthFirst

universe u

variable {V : Type u}

/-- Ask one vertex after the other and stop at the first success. -/
def findFirst (ask : V → Option Bool) : List V → Option (Option V)
  | [] => some none
  | v :: rest =>
      match ask v with
      | none => none
      | some true => some (some v)
      | some false => findFirst ask rest

/-- Search for `dst` from a vertex on; `none` when the fuel runs out. -/
def search [DecidableEq V] (children : V → List V) (dst : V) : ℕ → V → Option Bool
  | 0, _ => none
  | fuel + 1, v =>
      if v = dst then some true
      else (findFirst (search children dst fuel) (children v)).map Option.isSome

/-- `Edge children p c`: `c` is a child of `p`. -/
def Edge (children : V → List V) (p c : V) : Prop := c ∈ children p

instance [DecidableEq V] (children : V → List V) (p c : V) : Decidable (Edge children p c) :=
  inferInstanceAs (Decidable (c ∈ children p))

/-- `c` can be reached from `p`. -/
def Reaches (children : V → List V) (p c : V) : Prop := Relation.ReflTransGen (Edge children) p c

/-- The children below `v` are well founded. -/
def Grounded (children : V → List V) (v : V) : Prop := Acc (fun c p => Edge children p c) v

/-! ### Asking a list -/

theorem findFirst_none {ask : V → Option Bool} {vs : List V} :
    findFirst ask vs = some none ↔ ∀ v ∈ vs, ask v = some false := by
  induction vs with
  | nil => simp [findFirst]
  | cons v vs ih =>
      rw [List.forall_mem_cons, ← ih, findFirst]
      split <;> simp [*]

theorem findFirst_some {ask : V → Option Bool} {vs : List V} {found : V}
    (h : findFirst ask vs = some (some found)) :
    ∃ before after, vs = before ++ found :: after ∧ ask found = some true ∧
      ∀ v ∈ before, ask v = some false := by
  induction vs with
  | nil => cases h
  | cons v vs ih =>
      rw [findFirst] at h
      split at h
      · cases h
      next success =>
        cases h
        exact ⟨[], vs, rfl, success, by simp⟩
      next failure =>
        obtain ⟨before, after, rfl, success, none⟩ := ih h
        exact ⟨v :: before, after, rfl, success, List.forall_mem_cons.mpr ⟨failure, none⟩⟩

/-- Answers that stay the same give the same result. -/
theorem findFirst_mono {ask ask' : V → Option Bool} {vs : List V} {r : Option V}
    (same : ∀ v b, ask v = some b → ask' v = some b) (h : findFirst ask vs = some r) :
    findFirst ask' vs = some r := by
  induction vs with
  | nil => exact h
  | cons v vs ih =>
      rw [findFirst] at h ⊢
      split at h
      · cases h
      next success => rwa [same v true success]
      next failure =>
        rw [same v false failure]
        exact ih h

/-- So do answers that stay the same on the list. -/
theorem findFirst_mono_on {ask ask' : V → Option Bool} {vs : List V} {r : Option V}
    (same : ∀ v ∈ vs, ∀ b, ask v = some b → ask' v = some b) (h : findFirst ask vs = some r) :
    findFirst ask' vs = some r := by
  induction vs with
  | nil => exact h
  | cons v vs ih =>
      obtain ⟨first, others⟩ := List.forall_mem_cons.mp same
      rw [findFirst] at h ⊢
      split at h
      · cases h
      next success => rwa [first true success]
      next failure =>
        rw [first false failure]
        exact ih others h

/-! ### Searching -/

variable [DecidableEq V] {children : V → List V} {dst : V}

/-- More fuel does not change an answer. -/
theorem search_mono {fuel more : ℕ} (le : fuel ≤ more) {v : V} {b : Bool}
    (h : search children dst fuel v = some b) : search children dst more v = some b := by
  induction fuel generalizing more v b with
  | zero => cases h
  | succ fuel ih =>
      have positive : 1 ≤ more := by omega
      obtain ⟨more, rfl⟩ := Nat.exists_eq_add_of_le' positive
      rw [search] at h ⊢
      split at h
      next here => rwa [if_pos here]
      next elsewhere =>
        rw [if_neg elsewhere]
        obtain ⟨r, found, rfl⟩ := Option.map_eq_some_iff.mp h
        rw [findFirst_mono (fun v b => ih (by omega)) found]
        rfl

/-- What the search finds can be reached. -/
theorem search_reaches {fuel : ℕ} {v : V} (h : search children dst fuel v = some true) :
    Reaches children v dst := by
  induction fuel generalizing v with
  | zero => cases h
  | succ fuel ih =>
      rw [search] at h
      split at h
      next here => rw [here]; exact .refl
      next elsewhere =>
        obtain ⟨r, found, some_⟩ := Option.map_eq_some_iff.mp h
        obtain ⟨child, rfl⟩ := Option.isSome_iff_exists.mp some_
        obtain ⟨before, after, split, success, -⟩ := findFirst_some found
        have edge : Edge children v child := by simp [Edge, split]
        exact .head edge (ih success)

/-- A search that fails has searched every child. -/
theorem search_false {fuel : ℕ} {v : V} (h : search children dst (fuel + 1) v = some false) :
    v ≠ dst ∧ ∀ c ∈ children v, search children dst fuel c = some false := by
  rw [search] at h
  split at h
  · cases h
  next elsewhere =>
    obtain ⟨r, found, none_⟩ := Option.map_eq_some_iff.mp h
    rw [Option.isSome_eq_false_iff, Option.isNone_iff_eq_none] at none_
    rw [none_] at found
    exact ⟨elsewhere, findFirst_none.mp found⟩

/-- What the search does not find cannot be reached. -/
theorem search_avoids {fuel : ℕ} {v : V} (h : search children dst fuel v = some false) :
    ¬ Reaches children v dst := by
  induction fuel generalizing v with
  | zero => cases h
  | succ fuel ih =>
      obtain ⟨elsewhere, failed⟩ := search_false h
      intro path
      rcases path.cases_head with here | ⟨c, edge, rest⟩
      · exact elsewhere here
      · exact ih (failed c edge) rest

/-- A search that fails has found no end to go on below the start. -/
theorem grounded_of_search {fuel : ℕ} {v : V} (h : search children dst fuel v = some false) :
    Grounded children v := by
  induction fuel generalizing v with
  | zero => cases h
  | succ fuel ih => exact .intro v fun c edge => ih ((search_false h).2 c edge)

/-- If every vertex of a list gets an answer, asking the list gets one. -/
theorem exists_findFirst {vs : List V}
    (answers : ∀ v ∈ vs, ∃ fuel b, search children dst fuel v = some b) :
    ∃ fuel r, findFirst (search children dst fuel) vs = some r := by
  induction vs with
  | nil => exact ⟨0, none, rfl⟩
  | cons v vs ih =>
      obtain ⟨⟨fuel, b, first⟩, others⟩ := List.forall_mem_cons.mp answers
      obtain ⟨fuel', r, rest⟩ := ih others
      have first' := search_mono (Nat.le_max_left fuel fuel') first
      have rest' := findFirst_mono (fun v b => search_mono (Nat.le_max_right fuel fuel')) rest
      refine ⟨max fuel fuel', ?_⟩
      rw [findFirst, first']
      cases b with
      | true => exact ⟨some v, rfl⟩
      | false => exact ⟨r, rest'⟩

/-- Where the children are well founded the search ends. -/
theorem exists_search_of_grounded {v : V} (grounded : Grounded children v) :
    ∃ fuel b, search children dst fuel v = some b := by
  induction grounded with
  | intro v _ ih =>
      obtain ⟨fuel, r, found⟩ := exists_findFirst ih
      by_cases here : v = dst
      · exact ⟨1, true, by rw [search, if_pos here]⟩
      · exact ⟨fuel + 1, r.isSome, by rw [search, if_neg here, found]; rfl⟩

/-! ### How deep the search goes -/

/-- The search from `v` ends with the fuel `k + 1`, and not with less. -/
def Needs (children : V → List V) (dst : V) (k : ℕ) (v : V) : Prop :=
  search children dst k v = none ∧ ∃ b, search children dst (k + 1) v = some b

theorem exists_needs {fuel : ℕ} {v : V} {b : Bool} (found : search children dst fuel v = some b) :
    ∃ k < fuel, Needs children dst k v := by
  induction fuel with
  | zero => cases found
  | succ fuel ih =>
      cases before : search children dst fuel v with
      | none => exact ⟨fuel, Nat.lt_succ_self _, before, b, found⟩
      | some b' =>
          rw [search_mono (Nat.le_succ fuel) before] at found
          obtain ⟨k, less, needs⟩ := ih (before.trans found)
          exact ⟨k, Nat.lt_succ_of_lt less, needs⟩

theorem Needs.unique {k k' : ℕ} {v : V} (needs : Needs children dst k v) (needs' : Needs children dst k' v) :
    k = k' := by
  obtain ⟨none, b, found⟩ := needs
  obtain ⟨none', b', found'⟩ := needs'
  by_contra different
  rcases Nat.lt_or_gt_of_ne different with less | more
  · rw [search_mono less found] at none'
    cases none'
  · rw [search_mono more found'] at none
    cases none

/-- A vertex that needs one call more than nothing has a child that needs one call less. -/
theorem Needs.child {k : ℕ} {v : V} (needs : Needs children dst (k + 1) v) :
    v ≠ dst ∧ ∃ c ∈ children v, Needs children dst k c := by
  obtain ⟨fails, b, found⟩ := needs
  rw [search] at fails found
  split at found
  next here =>
      rw [if_pos here] at fails
      cases fails
  next elsewhere =>
      refine ⟨elsewhere, ?_⟩
      obtain ⟨r, asked, -⟩ := Option.map_eq_some_iff.mp found
      rw [if_neg elsewhere, Option.map_eq_none_iff] at fails
      by_contra none
      have shallow : findFirst (search children dst k) (children v) = some r := by
        refine findFirst_mono_on (fun c edge b answer => ?_) asked
        cases before : search children dst k c with
        | none => exact absurd ⟨c, edge, before, b, answer⟩ none
        | some b' => rw [← answer, search_mono (Nat.le_succ k) before]
      rw [shallow] at fails
      cases fails

/-- The vertices on the way down are different ones, since each needs less than the one before. -/
theorem Needs.stack {k : ℕ} {v : V} (needs : Needs children dst k v) :
    ∃ stack : Finset V, stack.card = k ∧ ∀ w ∈ stack, w ≠ dst ∧ children w ≠ [] ∧
      ∃ j, 0 < j ∧ j ≤ k ∧ Needs children dst j w := by
  induction k generalizing v with
  | zero => exact ⟨∅, rfl, fun w member => absurd member (Finset.notMem_empty w)⟩
  | succ k ih =>
      obtain ⟨elsewhere, c, edge, below⟩ := needs.child
      obtain ⟨stack, depth, all⟩ := ih below
      have new : v ∉ stack := fun member => by
        obtain ⟨-, -, j, -, le, again⟩ := all v member
        have := needs.unique again
        omega
      refine ⟨insert v stack, by rw [Finset.card_insert_of_notMem new, depth], ?_⟩
      intro w member
      rcases Finset.mem_insert.mp member with rfl | member
      · exact ⟨elsewhere, List.ne_nil_of_mem edge, k + 1, Nat.succ_pos k, Nat.le_refl _, needs⟩
      · obtain ⟨other, inner, j, pos, le, needs'⟩ := all w member
        exact ⟨other, inner, j, pos, Nat.le_succ_of_le le, needs'⟩

/-- A search that ends is no deeper than there are inner vertices: one call for each, and one more. -/
theorem search_depth {inner : Finset V} (covers : ∀ v, v ≠ dst → children v ≠ [] → v ∈ inner) {fuel : ℕ}
    {v : V} {b : Bool} (found : search children dst fuel v = some b) :
    search children dst (inner.card + 1) v = some b := by
  obtain ⟨k, less, needs⟩ := exists_needs found
  obtain ⟨stack, depth, all⟩ := needs.stack
  have inside : stack ⊆ inner := fun w member => covers w (all w member).1 (all w member).2.1
  have bound := Finset.card_le_card inside
  obtain ⟨-, b', answer⟩ := needs
  have same := search_mono less answer
  rw [found] at same
  cases same
  exact search_mono (by omega) answer

/-! ### Well-founded children -/

omit [DecidableEq V]

theorem Grounded.of_reaches {v u : V} (grounded : Grounded children v) (path : Reaches children v u) :
    Grounded children u := by
  induction path with
  | refl => exact grounded
  | tail _ edge ih => exact ih.inv edge

theorem Grounded.no_cycle {v : V} (grounded : Grounded children v) :
    ¬ Relation.TransGen (Edge children) v v := by
  have below := grounded.transGen
  induction below with
  | intro v _ ih =>
      intro cycle
      exact ih v (Relation.transGen_swap.mp cycle) grounded cycle

/-- In a finite graph the children below `v` are well founded exactly if no cycle can be reached. -/
theorem grounded_iff_no_cycle [Finite V] {v : V} :
    Grounded children v ↔
      ∀ u, Reaches children v u → ¬ Relation.TransGen (Edge children) u u := by
  refine ⟨fun grounded u path => (grounded.of_reaches path).no_cycle, fun noCycle => ?_⟩
  -- Below the vertices that can be reached, the descendants form a strict order.
  let Under (c p : V) : Prop := Reaches children v p ∧ Relation.TransGen (Edge children) p c
  have trans : IsTrans V Under := ⟨fun a b c ab bc => ⟨bc.1, bc.2.trans ab.2⟩⟩
  have irrefl : Std.Irrefl Under := ⟨fun a loop => noCycle a loop.1 loop.2⟩
  have wf : WellFounded Under := Finite.wellFounded_of_trans_of_irrefl Under
  have all : ∀ u, Reaches children v u → Grounded children u := fun u =>
    wf.induction (C := fun u => Reaches children v u → Grounded children u) u fun u ih path =>
      .intro u fun c edge => ih c ⟨path, .single edge⟩ (path.tail edge)
  exact all v .refl

end DepthFirst
