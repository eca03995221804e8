/-
Module: TreeRssi.Lib.SequenceLog
Layer: Lib
Purpose: Sequence numbers that arrive in any order, with losses and repetitions. A sender numbers its
  messages from 1 on; the log of a receiver holds the numbers that arrived, the latest first. The numbers
  below the greatest one split into those that arrived and those that are missing, and the arrivals into
  those that brought a new number and the stale ones.
Imports: Mathlib (intervals of naturals)
Trusted boundary: human-reviewed spec
Main exports: top, missing, stale, fresh, missing_add_fresh, length_eq_stale_add_fresh
Open obligations: none
-/
import Mathlib.Order.Interval.Finset.Nat

namespace SequenceLog

/-- The greatest number that arrived. -/
def top (log : List ℕ) : ℕ := log.foldr max 0

/-- How many of the numbers from 1 to the greatest one never arrived. -/
def missing (log : List ℕ) : ℕ := ((Finset.Icc 1 (top log)).filter (· ∉ log)).card

/-- How many arrivals brought nothing new: the number 0, or one that was in the log already. -/
def stale : List ℕ → ℕ
  | [] => 0
  | seq :: log => stale log + if seq = 0 ∨ seq ∈ log then 1 else 0

/-- How many numbers from 1 on arrived. -/
def fresh (log : List ℕ) : ℕ := (log.toFinset.erase 0).card

theorem le_top {log : List ℕ} {seq : ℕ} (arrived : seq ∈ log) : seq ≤ top log := by
  induction log with
  | nil => cases arrived
  | cons last log ih =>
      rw [top, List.foldr_cons]
      rcases List.mem_cons.mp arrived with rfl | earlier
      · exact Nat.le_max_left _ _
      · exact Nat.le_trans (ih earlier) (Nat.le_max_right _ _)

theorem top_perm {log log' : List ℕ} (perm : log.Perm log') : top log = top log' := perm.foldr_eq 0

theorem top_lt {log : List ℕ} {bound : ℕ} (positive : 0 < bound) (below : ∀ seq ∈ log, seq < bound) :
    top log < bound := by
  induction log with
  | nil => exact positive
  | cons last log ih =>
      obtain ⟨first, others⟩ := List.forall_mem_cons.mp below
      exact Nat.max_lt.mpr ⟨first, ih others⟩

/-- Up to the greatest number every one is missing or has arrived. -/
theorem missing_add_fresh (log : List ℕ) : missing log + fresh log = top log := by
  have arrived : (Finset.Icc 1 (top log)).filter (· ∈ log) = log.toFinset.erase 0 := by
    ext seq
    simp only [Finset.mem_filter, Finset.mem_Icc, Finset.mem_erase, List.mem_toFinset]
    constructor
    · rintro ⟨⟨positive, -⟩, member⟩
      exact ⟨Nat.pos_iff_ne_zero.mp positive, member⟩
    · rintro ⟨nonzero, member⟩
      exact ⟨⟨Nat.pos_iff_ne_zero.mpr nonzero, le_top member⟩, member⟩
  have both := Finset.card_filter_add_card_filter_not (s := Finset.Icc 1 (top log)) (· ∈ log)
  rw [arrived, Nat.card_Icc, Nat.add_sub_cancel] at both
  rw [missing, fresh, Nat.add_comm]
  exact both

theorem missing_le_top (log : List ℕ) : missing log ≤ top log := by
  have both := missing_add_fresh log
  omega

/-- Every arrival is stale or brought a new number. -/
theorem length_eq_stale_add_fresh (log : List ℕ) : log.length = stale log + fresh log := by
  induction log with
  | nil => rfl
  | cons seq log ih =>
      have grown : fresh (seq :: log) = fresh log + if seq = 0 ∨ seq ∈ log then 0 else 1 := by
        rw [fresh, List.toFinset_cons]
        by_cases zero : seq = 0
        · subst zero
          simp [fresh]
        · by_cases old : seq ∈ log
          · simp [old, fresh]
          · have new : seq ∉ log.toFinset.erase 0 := by simp [old]
            rw [Finset.erase_insert_of_ne zero, Finset.card_insert_of_notMem new]
            simp [zero, old, fresh]
      rw [List.length_cons, stale, grown, ih]
      split <;> omega

/-- Different numbers from 1 on are all new. -/
theorem stale_of_nodup {log : List ℕ} (nodup : log.Nodup) (positive : ∀ seq ∈ log, 1 ≤ seq) :
    stale log = 0 := by
  induction log with
  | nil => rfl
  | cons seq log ih =>
      obtain ⟨new, nodup⟩ := List.nodup_cons.mp nodup
      obtain ⟨first, others⟩ := List.forall_mem_cons.mp positive
      have fresh_ : ¬ (seq = 0 ∨ seq ∈ log) := by
        rintro (rfl | old)
        · cases first
        · exact new old
      rw [stale, ih nodup others, if_neg fresh_]

end SequenceLog
