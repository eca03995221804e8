/-
Module: TreeRssi.Lib.Settle
Layer: Lib
Purpose: Operations that settle: done once, an operation changes nothing when it is done again, and no
  other operation undoes that. Doing a whole list of such operations twice is then doing it once, also
  where some of them are refused for lack of space.
Imports: none
Trusted boundary: none
Main exports: Settled, Settles, Settles.foldl_twice
Open obligations: none
-/

namespace Settling

universe u v

variable {σ : Type u} {α : Type v}

/-- In the state `s` the operation `a` changes nothing. -/
def Settled (act : σ → α → σ) (s : σ) (a : α) : Prop := act s a = s

/-- In the states of `I` an operation settles itself, and what is settled stays settled. -/
structure Settles (act : σ → α → σ) (I : σ → Prop) : Prop where
  keeps : ∀ s a, I s → I (act s a)
  once : ∀ s a, I s → Settled act (act s a) a
  stays : ∀ s a b, I s → Settled act s a → Settled act (act s b) a

variable {act : σ → α → σ} {I : σ → Prop}

/-- Settled operations change nothing. -/
theorem foldl_of_settled {s : σ} {ops : List α} (settled : ∀ a ∈ ops, Settled act s a) :
    ops.foldl act s = s := by
  induction ops with
  | nil => rfl
  | cons a ops ih =>
      obtain ⟨first, others⟩ := List.forall_mem_cons.mp settled
      rw [List.foldl_cons, first]
      exact ih others

namespace Settles

/-- What is settled stays settled in a sequence of operations. -/
theorem foldl_stays (settles : Settles act I) {s : σ} (start : I s) {a : α}
    (settled : Settled act s a) (ops : List α) : Settled act (ops.foldl act s) a := by
  induction ops generalizing s with
  | nil => exact settled
  | cons b ops ih => exact ih (settles.keeps s b start) (settles.stays s a b start settled)

/-- A sequence of operations settles each of them. -/
theorem foldl_settled (settles : Settles act I) {s : σ} (start : I s) (ops : List α) :
    ∀ a ∈ ops, Settled act (ops.foldl act s) a := by
  induction ops generalizing s with
  | nil => simp
  | cons b ops ih =>
      have next := settles.keeps s b start
      exact List.forall_mem_cons.mpr
        ⟨settles.foldl_stays next (settles.once s b start) ops, ih next⟩

/-- Doing a sequence of operations twice is doing it once. -/
theorem foldl_twice (settles : Settles act I) {s : σ} (start : I s) (ops : List α) :
    ops.foldl act (ops.foldl act s) = ops.foldl act s :=
  foldl_of_settled (settles.foldl_settled start ops)

end Settles

end Settling
