/-
Module: TreeRssi.Lib.BlockPool
Layer: Lib
Purpose: A fixed pool of blocks and a list through some of them, as embedded programs allocate their
  records. Nothing ties the two together: a block may be in use and in no list, or listed and free.
  `Owned` says that neither is the case, and is kept by allocating a block and pushing it and by taking
  a block off the list and freeing it.
Imports: Mathlib (lists, functions updated at a point)
Trusted boundary: human-reviewed spec
Main exports: Pool, alloc, free, push, Owned, Owned.length_le, Owned.push, Owned.remove, Owned.alloc_none
Open obligations: none
-/
import Mathlib.Data.List.FinRange
import Mathlib.Data.List.Nodup
import Mathlib.Data.List.Perm.Subperm
import Mathlib.Logic.Function.Basic

namespace BlockPool

variable {n : Nat} {α : Type*}

/-- Which of the `n` blocks are in use. -/
abbrev Pool (n : Nat) := Fin n → Bool

/-- The pool with no block in use. -/
def empty : Pool n := fun _ => false

/-- The first block that is not in use, if there is one, and the pool in which it is. -/
def alloc (pool : Pool n) : Option (Fin n × Pool n) :=
  ((List.finRange n).find? fun b => !pool b).map fun b => (b, Function.update pool b true)

/-- Give a block back. -/
def free (pool : Pool n) (b : Fin n) : Pool n := Function.update pool b false

/-- Put a block at the head of a list; a block that is listed already moves there. -/
def push (b : Fin n) (list : List (Fin n)) : List (Fin n) := b :: list.erase b

/-- A block is in use exactly if it is listed, and no block is listed twice. -/
structure Owned (pool : Pool n) (list : List (Fin n)) : Prop where
  nodup : list.Nodup
  used : ∀ b, pool b = true ↔ b ∈ list

variable {pool pool' : Pool n} {list : List (Fin n)} {b : Fin n}

theorem owned_empty : Owned (empty : Pool n) [] where
  nodup := List.nodup_nil
  used _ := by simp [empty]

/-- Allocating takes a block that was not in use, and only that one. -/
theorem alloc_some (allocated : alloc pool = some (b, pool')) :
    pool b = false ∧ pool' = Function.update pool b true := by
  obtain ⟨c, found, same⟩ := Option.map_eq_some_iff.mp allocated
  cases same
  exact ⟨by simpa using List.find?_some found, rfl⟩

/-- Allocating fails only when every block is in use. -/
theorem alloc_none : alloc pool = none ↔ ∀ b, pool b = true := by
  rw [alloc, Option.map_eq_none_iff, List.find?_eq_none]
  simp

theorem push_new (fresh : b ∉ list) : push b list = b :: list := by
  rw [push, List.erase_of_not_mem fresh]

namespace Owned

theorem subperm (owned : Owned pool list) : list.Subperm (List.finRange n) :=
  List.Nodup.subperm owned.nodup fun b _ => List.mem_finRange b

/-- No more blocks are listed than there are. -/
theorem length_le (owned : Owned pool list) : list.length ≤ n := by
  have bound := owned.subperm.length_le
  rwa [List.length_finRange] at bound

/-- A block that was not in use is not listed. -/
theorem fresh (owned : Owned pool list) (allocated : alloc pool = some (b, pool')) : b ∉ list := by
  intro listed
  have inUse := (owned.used b).mpr listed
  rw [(alloc_some allocated).1] at inUse
  cases inUse

/-- The pool is exhausted exactly when `n` blocks are listed. -/
theorem alloc_none (owned : Owned pool list) : alloc pool = none ↔ n ≤ list.length := by
  rw [BlockPool.alloc_none]
  constructor
  · intro all
    have inside : List.finRange n ⊆ list := fun b _ => (owned.used b).mp (all b)
    have count := (List.Nodup.subperm (List.nodup_finRange n) inside).length_le
    rwa [List.length_finRange] at count
  · intro full b
    have perm : list.Perm (List.finRange n) :=
      owned.subperm.perm_of_length_le (by rwa [List.length_finRange])
    exact (owned.used b).mpr (perm.mem_iff.mpr (List.mem_finRange b))

/-- Allocating a block and pushing it keeps the two in step. -/
theorem push (owned : Owned pool list) (allocated : alloc pool = some (b, pool')) :
    Owned pool' (BlockPool.push b list) := by
  have fresh := owned.fresh allocated
  rw [(alloc_some allocated).2, push_new fresh]
  refine ⟨List.nodup_cons.mpr ⟨fresh, owned.nodup⟩, fun c => ?_⟩
  by_cases same : c = b
  · simp [same]
  · simp [same, owned.used c]

/-- Taking a block off the list and freeing it keeps the two in step. -/
theorem remove (owned : Owned pool list) (b : Fin n) : Owned (free pool b) (list.erase b) := by
  refine ⟨owned.nodup.erase b, fun c => ?_⟩
  rw [owned.nodup.mem_erase_iff, free]
  by_cases same : c = b
  · simp [same]
  · simp [same, owned.used c]

end Owned

/-! ### The contents of the listed blocks -/

/-- Writing to a block that is not listed changes nothing that is. -/
theorem contents_update (block : Fin n → α) (value : α) (fresh : b ∉ list) :
    list.map (Function.update block b value) = list.map block := by
  apply List.map_congr_left
  intro c listed
  have other : c ≠ b := by
    rintro rfl
    exact fresh listed
  exact Function.update_of_ne other _ _

end BlockPool
