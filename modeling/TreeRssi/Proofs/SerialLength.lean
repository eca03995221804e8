/-
Module: TreeRssi.Proofs.SerialLength
Layer: Proofs
Purpose: The length that `Serialize` returns. It is the length of the C string in the buffer unless
  `snprintf` has left digits behind the last position, and `DigitsLeft` says for which tables and buffers
  it does: where an entry has space for a part of its id only, and where a child of three digits has
  space for two, so that the semicolon overwrites one of them and the next entry leaves a digit behind.
Imports: TreeRssi.Core.Control, TreeRssi.Proofs.Codec
Trusted boundary: none
Main exports: ChildLeft, DigitsLeft, ReturnsLength, serialize_length_fails, serialize_length
Open obligations: none
-/
import TreeRssi.Core.Control
import TreeRssi.Proofs.Codec

namespace TreeRssi

open CText

/-! ### Tables that leave digits behind -/

/-- Of the children of an entry, written from position `start` on, one has three digits and two bytes of
    space before the terminator. -/
inductive ChildLeft (bufLen : Nat) : Nat → Bool → List UInt8 → Prop where
  | here {start : Nat} {first : Bool} {child : UInt8} {rest : List UInt8}
      (digits : (decimal child.toNat).length = 3)
      (space : start + (commaBefore first).length + 3 = bufLen) :
      ChildLeft bufLen start first (child :: rest)
  | later {start : Nat} {first : Bool} {child : UInt8} {rest : List UInt8}
      (tail : ChildLeft bufLen (start + (commaBefore first).length + (decimal child.toNat).length) false
        rest) :
      ChildLeft bufLen start first (child :: rest)

/-- Of the entries, written from position `start` on, one has space for a part of its id only, or one
    that is not the last leaves two bytes of space before a child of three digits. -/
inductive DigitsLeft (bufLen : Nat) : Nat → RoutingTree → Prop where
  | id {start : Nat} {node : TreeNode} {rest : RoutingTree} (space : start + 1 < bufLen)
      (long : bufLen ≤ start + (idText node).length) : DigitsLeft bufLen start (node :: rest)
  | child {start : Nat} {node next : TreeNode} {rest : RoutingTree}
      (cut : ChildLeft bufLen (start + (idText node).length) true node.children) :
      DigitsLeft bufLen start (node :: next :: rest)
  | later {start : Nat} {node : TreeNode} {rest : RoutingTree}
      (tail : DigitsLeft bufLen (start + (entryText node).length) rest) :
      DigitsLeft bufLen start (node :: rest)

theorem ChildLeft.space {bufLen start : Nat} {first : Bool} {children : List UInt8}
    (left : ChildLeft bufLen start first children) :
    start + 3 ≤ bufLen ∧ bufLen ≤ start + (childrenText first children).length := by
  induction left with
  | here digits space =>
      simp only [childrenText_cons, List.length_append]
      omega
  | later _ ih =>
      simp only [childrenText_cons, List.length_append]
      omega

theorem DigitsLeft.space {bufLen start : Nat} {tree : RoutingTree}
    (left : DigitsLeft bufLen start tree) : start + 1 < bufLen := by
  induction left with
  | id space => exact space
  | child cut =>
      have space := cut.space.1
      omega
  | later _ ih => omega

/-! ### The loop over the children -/

/-- Where the entry is cut, the loop stops two bytes before the end exactly if a child of three digits has
    that space. -/
theorem serializeChildren_left {bufLen : Nat} (small : bufLen ≤ 255) {s : Cursor} {text : List UInt8}
    (first : Bool) (children : List UInt8) (clean : Clean s text)
    (long : bufLen ≤ text.length + (childrenText first children).length + 1) :
    (serializeChildren bufLen first children s).pos + 3 = bufLen ↔
      ChildLeft bufLen text.length first children := by
  induction children generalizing first s text with
  | nil =>
      have pos := clean.pos
      rw [serializeChildren]
      simp only [childrenText, List.length_nil] at long
      constructor
      · omega
      · rintro ⟨⟩
  | cons child rest ih =>
      have pos := clean.pos
      rw [serializeChildren]
      split
      next space =>
        have clean' := put_comma first clean (by omega)
        generalize (if first then s else s.put (ch ',')) = s' at clean'
        have pos' := clean'.pos
        have digits := decimal_u8_length child
        rw [List.length_append] at pos'
        simp only [childrenText_cons, List.length_append] at long
        simp only
        split
        next overflow =>
          constructor
          · intro two
            have three : (decimal child.toNat).length = 3 := by
              change s'.pos + 3 = bufLen at two
              omega
            exact .here three (by rw [← pos', ← two])
          · intro left
            change s'.pos + 3 = bufLen
            cases left with
            | here _ two => omega
            | later tail =>
                have room := tail.space.1
                omega
        next fits =>
          have cleanNext := snprintf_fits clean' (decimal child.toNat) (Nat.not_le.mp fits) (by omega)
          have start : (text ++ commaBefore first ++ decimal child.toNat).length =
              text.length + (commaBefore first).length + (decimal child.toNat).length := by
            simp only [List.length_append]
          rw [ih false cleanNext (by omega), start]
          constructor
          · exact .later
          · intro left
            cases left with
            | here three two => omega
            | later tail => exact tail
      next full =>
        constructor
        · omega
        · intro left
          have room := left.space.1
          omega

/-! ### The loop over the entries -/

/-- The position is that of the terminator exactly if no digits are left behind it. -/
theorem Leaves.terminated_iff {bufLen : Nat} {s : Cursor} {text residue : List UInt8}
    (leaves : Leaves bufLen s text residue) (digits : ∀ b ∈ residue, isDigit b = true) :
    s.buf s.pos = 0 ↔ residue = [] := by
  have inside : text.length < (text ++ residue ++ [0]).length := by simp
  rw [leaves.pos, leaves.holds.get inside]
  cases residue with
  | nil => simp
  | cons b residue =>
      have digit := digits b (by simp)
      simpa using ne_of_isDigit digit (by decide)

/-- Behind an entry that was cut digits are left exactly if another entry follows and the loop over the
    children stopped two bytes before the end. -/
theorem ChildrenCut.terminated_iff {bufLen : Nat} (small : bufLen ≤ 255) {s : Cursor} {text : List UInt8}
    {first : Bool} {children : List UInt8} (cut : ChildrenCut bufLen text first children s)
    (rest : RoutingTree) :
    (serializeNodes bufLen rest (closeEntry bufLen s)).buf
        (serializeNodes bufLen rest (closeEntry bufLen s)).pos = 0 ↔
      (rest ≠ [] → s.pos + 3 ≠ bufLen) := by
  have near := cut.nearEnd
  obtain ⟨k, separator, semicolon, -, closing, closed, front⟩ := cut.close small
  have closedLength : (text ++ childrenText first (children.take k) ++ separator ++ semicolon).length =
      (text ++ childrenText first (children.take k) ++ separator).length + semicolon.length :=
    List.length_append
  have semicolonLength : (semicolon = [] ∧ semicolon.length = 0 ∧ s.pos + 1 = bufLen) ∨
      (semicolon.length = 1 ∧ s.pos + 2 ≤ bufLen) := by
    rcases closing with ⟨rfl, full⟩ | ⟨rfl, space⟩
    · exact .inl ⟨rfl, rfl, full⟩
    · exact .inr ⟨rfl, space⟩
  obtain ⟨residue, digits, none, leaves⟩ := serializeNodes_full bufLen rest closed (by omega) (by omega)
  rw [leaves.terminated_iff digits, none]
  constructor
  · rintro (empty | full) more two
    · exact more empty
    · omega
  · intro excluded
    by_cases more : rest = []
    · exact .inl more
    · have two := excluded more
      exact .inr (by omega)

/-- Where the id of the first entry fits, digits are left by its children or by a later entry. -/
theorem digitsLeft_cons {bufLen start : Nat} {node : TreeNode} {rest : RoutingTree}
    (fits : start + (idText node).length < bufLen) :
    DigitsLeft bufLen start (node :: rest) ↔
      (rest ≠ [] ∧ ChildLeft bufLen (start + (idText node).length) true node.children) ∨
        DigitsLeft bufLen (start + (entryText node).length) rest := by
  constructor
  · intro left
    cases left with
    | id _ long => omega
    | child cut => exact .inl ⟨List.cons_ne_nil _ _, cut⟩
    | later tail => exact .inr tail
  · rintro (⟨more, cut⟩ | tail)
    · obtain ⟨next, rest, rfl⟩ := List.exists_cons_of_ne_nil more
      exact .child cut
    · exact .later tail

/-- The position is that of the terminator exactly if the entries leave no digits behind. -/
theorem serializeNodes_left {bufLen : Nat} (small : bufLen ≤ 255) {s : Cursor} {text : List UInt8}
    (nodes : RoutingTree) (clean : Clean s text) (room : text.length + 1 ≤ bufLen) :
    (serializeNodes bufLen nodes s).buf (serializeNodes bufLen nodes s).pos = 0 ↔
      ¬ DigitsLeft bufLen text.length nodes := by
  induction nodes generalizing s text with
  | nil =>
      rw [serializeNodes, (clean.leaves room).terminated_iff (by simp)]
      simp only [true_iff]
      rintro ⟨⟩
  | cons node rest ih =>
      have pos := clean.pos
      have entryLength := entryText_length_eq node
      by_cases fits : s.pos + (idText node).length < bufLen
      · have cleanId := snprintf_fits clean (idText node) fits (by omega)
        have idLength : (text ++ idText node).length = text.length + (idText node).length :=
          List.length_append
        rw [serializeNodes_id fits, digitsLeft_cons (by omega)]
        rcases serializeChildren_spec small true node.children cleanId (by omega) with
          ⟨done, space⟩ | cut
        · -- The entry is whole.
          have noChild : ¬ ChildLeft bufLen (text.length + (idText node).length) true node.children := by
            intro left
            have space' := left.space.2
            omega
          have length : (text ++ entryText node).length = text.length + (entryText node).length :=
            List.length_append
          rw [ih (closeEntry_whole small done space) (by omega), length]
          simp [noChild]
        · -- The entry is cut, so nothing but digits follows.
          have left := serializeChildren_left small true node.children cleanId cut.long
          have long := cut.long
          have noLater : ¬ DigitsLeft bufLen (text.length + (entryText node).length) rest := by
            intro tail
            have space := tail.space
            omega
          rw [idLength] at left
          rw [cut.terminated_iff small rest, ← left]
          simp only [noLater, or_false, not_and, ne_eq]
      · obtain ⟨residue, digits, none, leaves⟩ := serializeNodes_noId node rest clean room (by omega)
        rw [leaves.terminated_iff digits, none]
        constructor
        · intro full left
          have space := left.space
          omega
        · intro excluded
          by_contra more
          exact excluded (.id (by omega) (by omega))

/-! ### The returned length -/

/-- The returned position is the length of the C string in the buffer. -/
def ReturnsLength (s : Cursor) : Prop := s.buf s.pos = 0 ∧ ∀ i < s.pos, s.buf i ≠ 0

/-- Sixteen entries fill 125 bytes; of the next id two digits fit, and stay behind the position. -/
def digitsLeftTable : RoutingTree :=
  ⟨2, [10]⟩ :: (List.range 15).map (fun i => ⟨.ofNat (100 + i), [.ofNat (130 + i)]⟩) ++ [⟨150, [160]⟩]

/-- A table of 17 entries whose serialised text is not terminated at the returned length. -/
theorem serialize_length_fails :
    ¬ ∀ (tree : RoutingTree) (buf : Memory) (bufLen : Nat), 1 ≤ bufLen → bufLen ≤ 255 →
      ReturnsLength (serialize tree buf bufLen) := by
  intro returns
  have terminated := (returns digitsLeftTable (fun _ => 0) treeSerialBuf (by decide) (by decide)).1
  revert terminated
  decide +kernel

/-- `Serialize` returns the length of the C string that it leaves exactly if the table and the buffer
    leave no digits behind. -/
theorem serialize_length {bufLen : Nat} (positive : 1 ≤ bufLen) (small : bufLen ≤ 255)
    (tree : RoutingTree) (buf : Memory) :
    ReturnsLength (serialize tree buf bufLen) ↔ ¬ DigitsLeft bufLen 0 tree := by
  have empty : Clean { buf := store buf 0 [0], pos := 0 } [] := by
    have nothing : Holds buf ([] ++ []) := rfl
    exact ⟨nothing.store, rfl⟩
  have left : (serialize tree buf bufLen).buf (serialize tree buf bufLen).pos = 0 ↔
      ¬ DigitsLeft bufLen 0 tree := serializeNodes_left small tree empty positive
  rw [ReturnsLength, left, and_iff_left_iff_imp]
  -- No byte of the text is NUL, whatever follows it.
  intro _ i before
  obtain ⟨text, residue, serialized, holds, pos, -⟩ := serialize_spec small positive tree buf
  have inside : i < (text ++ residue).length := by
    rw [List.length_append]
    omega
  rw [holds.left.get inside]
  exact serialized.ne_zero _ (List.getElem_mem inside)

/-- In three bytes the id 200 leaves the digits `20` behind the returned length 0. -/
theorem serialize_length_threeBytes : ¬ ReturnsLength (serialize [⟨200, []⟩] (fun _ => 0) 3) := by
  intro terminated
  exact (serialize_length (by decide) (by decide) [⟨200, []⟩] (fun _ => 0)).mp terminated
    (.id (by decide) (by decide))

end TreeRssi
