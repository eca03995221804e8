/-
Module: TreeRssi.Proofs.Serialize
Layer: Proofs
Purpose: What `Serialize` leaves in its buffer at every cut point. `Serialized` lists the texts that a
  serialisation can leave, with the digits of the next id that `snprintf` may leave behind them. The
  position is an 8-bit one, so the buffer has at most 255 bytes.
Imports: TreeRssi.Core.Codec, Mathlib (lists)
Trusted boundary: none
Main exports: fullText, Serialized, serializeChildren_spec, serializeNodes_spec, serialize_spec
Open obligations: none
-/
import Mathlib.Data.List.Basic
import TreeRssi.Core.Codec

namespace TreeRssi

open CText

/-! ### The text of a table -/

/-- The children of an entry, separated by commas; `first` says that no child precedes them. -/
def childrenText : Bool → List UInt8 → List UInt8
  | _, [] => []
  | first, child :: rest =>
      (if first then [] else [ch ',']) ++ decimal child.toNat ++ childrenText false rest

/-- `id:` -/
def idText (node : TreeNode) : List UInt8 := decimal node.id.toNat ++ [ch ':']

/-- `id:h1,h2,...;` -/
def entryText (node : TreeNode) : List UInt8 :=
  idText node ++ childrenText true node.children ++ [ch ';']

/-- The text of a whole table. -/
def fullText (tree : RoutingTree) : List UInt8 := tree.flatMap entryText

/-- The text that a serialisation from position `start` on leaves before `pos`, and the digits left
    behind it. -/
inductive Serialized (bufLen : Nat) : Nat → RoutingTree → List UInt8 → List UInt8 → Prop where
  | done (start : Nat) : Serialized bufLen start [] [] []
  | stop {start : Nat} {node : TreeNode} {rest : RoutingTree} {residue : List UInt8}
      (digits : ∀ b ∈ residue, isDigit b = true)
      (long : bufLen ≤ start + (entryText node).length) :
      Serialized bufLen start (node :: rest) [] residue
  | cut {start : Nat} {node : TreeNode} {rest : RoutingTree} {residue separator semicolon : List UInt8}
      (k : Nat) (comma : separator = [] ∨ separator = [ch ','])
      (closed : (semicolon = [] ∧ residue = []) ∨ semicolon = [ch ';'])
      (digits : ∀ b ∈ residue, isDigit b = true)
      (long : bufLen ≤ start + (entryText node).length) :
      Serialized bufLen start (node :: rest)
        (idText node ++ childrenText true (node.children.take k) ++ separator ++ semicolon) residue
  | whole {start : Nat} {node : TreeNode} {rest : RoutingTree} {text residue : List UInt8}
      (tail : Serialized bufLen (start + (entryText node).length) rest text residue) :
      Serialized bufLen start (node :: rest) (entryText node ++ text) residue

/-! ### The buffer -/

/-- The buffer holds `text` and its terminator, and the position is at the terminator. -/
structure Clean (s : Cursor) (text : List UInt8) : Prop where
  holds : Holds s.buf (text ++ [0])
  pos : s.pos = text.length

/-- Putting one character overwrites whatever stood at the position. -/
theorem put_clean {s : Cursor} {text junk : List UInt8} (holds : Holds s.buf (text ++ junk))
    (pos : s.pos = text.length) (small : text.length + 1 < 256) (c : UInt8) :
    Clean (s.put c) (text ++ [c]) := by
  have next : u8 (s.pos + 1) = (text ++ [c]).length := by
    rw [pos, u8_of_lt small, List.length_append]
    rfl
  refine ⟨?_, next⟩
  change Holds (store (store s.buf s.pos [c]) (u8 (s.pos + 1)) [0]) _
  rw [next, pos]
  have first : Holds (store s.buf text.length [c]) (text ++ [c]) := holds.store
  have whole : Holds (store s.buf text.length [c]) (text ++ [c] ++ []) := by rwa [List.append_nil]
  exact whole.store

/-- A text that fits is appended. -/
theorem snprintf_fits {s : Cursor} {text : List UInt8} (clean : Clean s text) (new : List UInt8)
    {bufLen : Nat} (fits : s.pos + new.length < bufLen) (small : bufLen ≤ 256) :
    Clean { buf := snprintf s.buf s.pos (bufLen - s.pos) new, pos := u8 (s.pos + new.length) }
      (text ++ new) := by
  have whole : new.take (bufLen - s.pos - 1) = new := List.take_of_length_le (by omega)
  refine ⟨?_, ?_⟩
  · change Holds (snprintf s.buf s.pos (bufLen - s.pos) new) _
    rw [snprintf, if_neg (by omega), whole, clean.pos, List.append_assoc]
    exact clean.holds.store
  · change u8 (s.pos + new.length) = _
    rw [u8_of_lt (by omega), clean.pos, List.length_append]

/-- A text that does not fit leaves the part that does, behind the position. -/
theorem snprintf_cut {s : Cursor} {text : List UInt8} (clean : Clean s text) (new : List UInt8)
    {bufLen : Nat} (room : s.pos < bufLen) :
    Holds (snprintf s.buf s.pos (bufLen - s.pos) new)
      (text ++ (new.take (bufLen - s.pos - 1) ++ [0])) := by
  rw [snprintf, if_neg (by omega), clean.pos]
  exact clean.holds.store

/-! ### Serialising the children -/

/-- What stands before a child: a comma, unless it is the first. -/
def commaBefore (first : Bool) : List UInt8 := if first then [] else [ch ',']

theorem commaBefore_cases (first : Bool) : commaBefore first = [] ∨ commaBefore first = [ch ','] := by
  cases first with
  | true => exact .inl rfl
  | false => exact .inr rfl

theorem childrenText_cons (first : Bool) (child : UInt8) (rest : List UInt8) :
    childrenText first (child :: rest) =
      commaBefore first ++ decimal child.toNat ++ childrenText false rest := rfl

/-- The comma is written cleanly. -/
theorem put_comma {s : Cursor} {text : List UInt8} (first : Bool) (clean : Clean s text)
    (small : text.length + 1 < 256) :
    Clean (if first then s else s.put (ch ',')) (text ++ commaBefore first) := by
  cases first with
  | true => simpa [commaBefore] using clean
  | false => exact put_clean clean.holds clean.pos small _

/-- What the loop over the children leaves when the entry is not written whole: some whole children,
    maybe the comma after them, and behind the position maybe a part of the next child. -/
structure ChildrenCut (bufLen : Nat) (text : List UInt8) (first : Bool) (children : List UInt8)
    (s : Cursor) : Prop where
  parts : ∃ k separator partialChild, (separator = [] ∨ separator = [ch ',']) ∧
    Holds s.buf (text ++ childrenText first (children.take k) ++ separator ++ (partialChild ++ [0])) ∧
    s.pos = (text ++ childrenText first (children.take k) ++ separator).length ∧
    (s.pos + 1 = bufLen → partialChild = [])
  room : s.pos + 1 ≤ bufLen
  nearEnd : bufLen ≤ s.pos + 3
  long : bufLen ≤ text.length + (childrenText first children).length + 1

/-- Where the loop stops without writing anything of the next child. -/
theorem ChildrenCut.clean {bufLen : Nat} {s : Cursor} {text : List UInt8} (first : Bool)
    (children : List UInt8) (clean : Clean s text) (room : text.length + 1 ≤ bufLen)
    (full : bufLen ≤ text.length + 1) : ChildrenCut bufLen text first children s where
  parts := ⟨0, [], [], .inl rfl, by simpa [childrenText] using clean.holds,
    by simpa [childrenText] using clean.pos, fun _ => rfl⟩
  room := by
    have pos := clean.pos
    omega
  nearEnd := by
    have pos := clean.pos
    omega
  long := by omega

/-- Where the next child does not fit: the part of it that does stays behind the position. -/
theorem ChildrenCut.overflow {bufLen : Nat} {s : Cursor} {text : List UInt8} {first : Bool}
    (child : UInt8) (rest : List UInt8) (clean : Clean s (text ++ commaBefore first))
    (room : s.pos < bufLen) (overflow : bufLen ≤ s.pos + (decimal child.toNat).length) :
    ChildrenCut bufLen text first (child :: rest)
      { buf := snprintf s.buf s.pos (bufLen - s.pos) (decimal child.toNat), pos := s.pos } where
  parts := by
    refine ⟨0, commaBefore first, (decimal child.toNat).take (bufLen - s.pos - 1),
      commaBefore_cases first, ?_, ?_, fun atEnd => ?_⟩
    · simpa [childrenText] using snprintf_cut clean (decimal child.toNat) room
    · simpa [childrenText] using clean.pos
    · have none : bufLen - s.pos - 1 = 0 := by
        have last : s.pos + 1 = bufLen := atEnd
        omega
      rw [none, List.take_zero]
  room := room
  nearEnd := by
    have short := decimal_u8_length child
    change bufLen ≤ s.pos + 3
    omega
  long := by
    have pos := clean.pos
    rw [List.length_append] at pos
    simp only [childrenText_cons, List.length_append]
    omega

/-- Where the loop stops at a later child. -/
theorem ChildrenCut.cons {bufLen : Nat} {s : Cursor} {text : List UInt8} {first : Bool} {child : UInt8}
    {rest : List UInt8}
    (cut : ChildrenCut bufLen (text ++ commaBefore first ++ decimal child.toNat) false rest s) :
    ChildrenCut bufLen text first (child :: rest) s := by
  obtain ⟨⟨k, separator, partialChild, kind, holds, at_, full⟩, room, near, long⟩ := cut
  refine ⟨⟨k + 1, separator, partialChild, kind, ?_, ?_, full⟩, room, near, ?_⟩
  · simpa [childrenText_cons, List.append_assoc] using holds
  · simpa [childrenText_cons, Nat.add_assoc] using at_
  · simp only [childrenText_cons, List.length_append] at long ⊢
    omega

/-- The loop over the children writes all of them and leaves space for the semicolon, or cuts the
    entry. -/
theorem serializeChildren_spec {bufLen : Nat} (small : bufLen ≤ 255) {s : Cursor} {text : List UInt8}
    (first : Bool) (children : List UInt8) (clean : Clean s text) (room : text.length + 1 ≤ bufLen) :
    (Clean (serializeChildren bufLen first children s) (text ++ childrenText first children) ∧
      text.length + (childrenText first children).length + 2 ≤ bufLen) ∨
    ChildrenCut bufLen text first children (serializeChildren bufLen first children s) := by
  induction children generalizing first s text with
  | nil =>
      rw [serializeChildren]
      by_cases full : bufLen ≤ text.length + 1
      · exact .inr (.clean first [] clean room full)
      · refine .inl ⟨by simpa [childrenText] using clean, ?_⟩
        rw [childrenText, List.length_nil]
        omega
  | cons child rest ih =>
      have pos := clean.pos
      rw [serializeChildren]
      split
      next space =>
        have clean' := put_comma first clean (by omega)
        generalize (if first then s else s.put (ch ',')) = s' at clean'
        have pos' := clean'.pos
        have commaLength : (commaBefore first).length ≤ 1 := by
          rcases commaBefore_cases first with none | comma
          · simp [none]
          · simp [comma]
        rw [List.length_append] at pos'
        simp only
        split
        next overflow => exact .inr (.overflow child rest clean' (by omega) overflow)
        next fits =>
          have cleanNext := snprintf_fits clean' (decimal child.toNat) (Nat.not_le.mp fits) (by omega)
          rcases ih false cleanNext (by simp only [List.length_append]; omega) with
            ⟨done, length⟩ | cut
          · refine .inl ⟨by simpa [childrenText_cons, List.append_assoc] using done, ?_⟩
            simp only [childrenText_cons, List.length_append] at length ⊢
            omega
          · exact .inr cut.cons
      next noSpace => exact .inr (.clean first (child :: rest) clean room (by omega))

/-! ### Serialising the entries -/

/-- The buffer holds `text`, behind the position maybe the digits `residue`, and then the
    terminator. -/
structure Leaves (bufLen : Nat) (s : Cursor) (text residue : List UInt8) : Prop where
  holds : Holds s.buf (text ++ residue ++ [0])
  pos : s.pos = text.length
  total : text.length + residue.length + 1 ≤ bufLen

theorem Clean.leaves {bufLen : Nat} {s : Cursor} {text : List UInt8} (clean : Clean s text)
    (room : text.length + 1 ≤ bufLen) : Leaves bufLen s text [] :=
  ⟨by simpa using clean.holds, clean.pos, by simpa using room⟩

theorem idText_length (node : TreeNode) :
    (idText node).length = (decimal node.id.toNat).length + 1 := by
  rw [idText, List.length_append, List.length_singleton]

theorem entryText_length_eq (node : TreeNode) : (entryText node).length =
    (idText node).length + (childrenText true node.children).length + 1 := by
  rw [entryText, List.length_append, List.length_append, List.length_singleton]

/-- An entry whose id does not fit leaves the digits for which there is space. -/
theorem serializeNodes_noId {bufLen : Nat} {s : Cursor} {text : List UInt8} (node : TreeNode)
    (rest : RoutingTree) (clean : Clean s text) (room : text.length + 1 ≤ bufLen)
    (long : bufLen ≤ text.length + (idText node).length) :
    ∃ residue, (∀ b ∈ residue, isDigit b = true) ∧ (residue = [] ↔ bufLen = text.length + 1) ∧
      Leaves bufLen (serializeNodes bufLen (node :: rest) s) text residue := by
  have pos := clean.pos
  have length := idText_length node
  by_cases space : s.pos < bufLen - 1
  · have overflow : bufLen ≤ s.pos + (idText node).length := by omega
    have unfolded : serializeNodes bufLen (node :: rest) s =
        { buf := snprintf s.buf s.pos (bufLen - s.pos) (idText node), pos := s.pos } := by
      rw [serializeNodes, if_pos space]
      exact if_pos overflow
    have holds := snprintf_cut clean (idText node) (Nat.lt_of_lt_of_le space (Nat.sub_le _ _))
    rw [idText, List.take_append_of_le_length (by omega)] at holds
    rw [unfolded]
    refine ⟨(decimal node.id.toNat).take (bufLen - s.pos - 1), fun b member => ?_, ?_, ?_, pos, ?_⟩
    · exact isDigit_of_mem_decimal (List.mem_of_mem_take member)
    · have digits := decimal_length_pos node.id.toNat
      rw [← List.length_eq_zero_iff, List.length_take]
      omega
    · simpa [idText, List.append_assoc] using holds
    · rw [List.length_take]
      omega
  · have unfolded : serializeNodes bufLen (node :: rest) s = s := by
      rw [serializeNodes, if_neg space]
    rw [unfolded]
    exact ⟨[], by simp, by simp only [true_iff]; omega, clean.leaves room⟩

/-- Once at most one character fits, no further entry is written, and only if that one fits does a
    further entry leave a digit. -/
theorem serializeNodes_full (bufLen : Nat) {s : Cursor} {text : List UInt8} (nodes : RoutingTree)
    (clean : Clean s text) (room : text.length + 1 ≤ bufLen) (full : bufLen ≤ text.length + 2) :
    ∃ residue, (∀ b ∈ residue, isDigit b = true) ∧
      (residue = [] ↔ nodes = [] ∨ bufLen = text.length + 1) ∧
      Leaves bufLen (serializeNodes bufLen nodes s) text residue := by
  cases nodes with
  | nil => exact ⟨[], by simp, by simp, clean.leaves room⟩
  | cons node rest =>
      have positive := decimal_length_pos node.id.toNat
      have length := idText_length node
      simpa using serializeNodes_noId node rest clean room (by omega)

/-- The end of an entry: the semicolon, where there is space for it. -/
def closeEntry (bufLen : Nat) (s : Cursor) : Cursor :=
  if s.pos < bufLen - 1 then s.put (ch ';') else s

/-- An entry whose id fits is the id, the children and the end. -/
theorem serializeNodes_id {bufLen : Nat} {s : Cursor} {node : TreeNode} {rest : RoutingTree}
    (fits : s.pos + (idText node).length < bufLen) :
    serializeNodes bufLen (node :: rest) s =
      serializeNodes bufLen rest (closeEntry bufLen (serializeChildren bufLen true node.children
        { buf := snprintf s.buf s.pos (bufLen - s.pos) (idText node)
          pos := u8 (s.pos + (idText node).length) })) := by
  have length := idText_length node
  have positive := decimal_length_pos node.id.toNat
  have space : s.pos < bufLen - 1 := by omega
  rw [serializeNodes, if_pos space]
  exact if_neg (Nat.not_le.mpr fits)

/-- The end of an entry that was cut: the semicolon overwrites the partial child, or the buffer is full
    and there is no partial child. -/
theorem ChildrenCut.close {bufLen : Nat} (small : bufLen ≤ 255) {s : Cursor} {text : List UInt8}
    {first : Bool} {children : List UInt8} (cut : ChildrenCut bufLen text first children s) :
    ∃ k separator semicolon, (separator = [] ∨ separator = [ch ',']) ∧
      ((semicolon = [] ∧ s.pos + 1 = bufLen) ∨ (semicolon = [ch ';'] ∧ s.pos + 2 ≤ bufLen)) ∧
      Clean (closeEntry bufLen s)
        (text ++ childrenText first (children.take k) ++ separator ++ semicolon) ∧
      (text ++ childrenText first (children.take k) ++ separator).length = s.pos := by
  obtain ⟨⟨k, separator, partialChild, kind, holds, at_, full⟩, room, -, -⟩ := cut
  by_cases closes : s.pos < bufLen - 1
  · rw [closeEntry, if_pos closes]
    exact ⟨k, separator, [ch ';'], kind, .inr ⟨rfl, by omega⟩, put_clean holds at_ (by omega) (ch ';'),
      at_.symm⟩
  · rw [closeEntry, if_neg closes]
    have none := full (by omega)
    subst none
    exact ⟨k, separator, [], kind, .inl ⟨rfl, by omega⟩,
      ⟨by simpa [List.append_assoc] using holds, by simpa using at_⟩, at_.symm⟩

/-- Behind an entry that was cut nothing but digits follows. -/
theorem ChildrenCut.serialized {bufLen : Nat} (small : bufLen ≤ 255) {s : Cursor} {text : List UInt8}
    {node : TreeNode} (rest : RoutingTree)
    (cut : ChildrenCut bufLen (text ++ idText node) true node.children s) :
    ∃ new residue, Serialized bufLen text.length (node :: rest) new residue ∧
      Leaves bufLen (serializeNodes bufLen rest (closeEntry bufLen s)) (text ++ new) residue := by
  obtain ⟨k, separator, semicolon, kind, closing, closed, front⟩ := cut.close small
  have near := cut.nearEnd
  have entryLong : bufLen ≤ text.length + (entryText node).length := by
    have long := cut.long
    rw [List.length_append] at long
    rw [entryText_length_eq]
    omega
  rcases closing with ⟨rfl, full⟩ | ⟨rfl, space⟩
  · obtain ⟨residue, digits, -, leaves⟩ := serializeNodes_full bufLen rest closed
      (by rw [List.append_nil]; omega) (by rw [List.append_nil]; omega)
    have total := leaves.total
    rw [List.append_nil] at total
    have empty : residue = [] := List.length_eq_zero_iff.mp (by omega)
    subst empty
    exact ⟨_, [], .cut k kind (.inl ⟨rfl, rfl⟩) digits entryLong,
      by simpa [List.append_assoc] using leaves⟩
  · obtain ⟨residue, digits, -, leaves⟩ := serializeNodes_full bufLen rest closed
      (by rw [List.length_append, List.length_singleton]; omega)
      (by rw [List.length_append, List.length_singleton]; omega)
    exact ⟨_, residue, .cut k kind (.inr rfl) digits entryLong,
      by simpa [List.append_assoc] using leaves⟩

/-- The end of an entry whose children are all written. -/
theorem closeEntry_whole {bufLen : Nat} (small : bufLen ≤ 255) {s : Cursor} {text : List UInt8}
    {node : TreeNode} (done : Clean s (text ++ idText node ++ childrenText true node.children))
    (space : (text ++ idText node).length + (childrenText true node.children).length + 2 ≤ bufLen) :
    Clean (closeEntry bufLen s) (text ++ entryText node) := by
  have pos := done.pos
  rw [List.length_append] at pos
  have asEntry : text ++ idText node ++ childrenText true node.children ++ [ch ';'] =
      text ++ entryText node := by
    simp [entryText, List.append_assoc]
  rw [closeEntry, if_pos (by omega), ← asEntry]
  exact put_clean done.holds done.pos (by rw [List.length_append]; omega) (ch ';')

/-- Every way the loop over the entries can end. -/
theorem serializeNodes_spec {bufLen : Nat} (small : bufLen ≤ 255) {s : Cursor} {text : List UInt8}
    (nodes : RoutingTree) (clean : Clean s text) (room : text.length + 1 ≤ bufLen) :
    ∃ new residue, Serialized bufLen text.length nodes new residue ∧
      Leaves bufLen (serializeNodes bufLen nodes s) (text ++ new) residue := by
  induction nodes generalizing s text with
  | nil =>
      rw [serializeNodes]
      exact ⟨[], [], .done _, by simpa using clean.leaves room⟩
  | cons node rest ih =>
      have pos := clean.pos
      by_cases fits : s.pos + (idText node).length < bufLen
      · have cleanId := snprintf_fits clean (idText node) fits (by omega)
        rw [serializeNodes_id fits]
        rcases serializeChildren_spec small true node.children cleanId
          (by rw [List.length_append]; omega) with ⟨done, length⟩ | cut
        · -- The entry is whole.
          have closed := closeEntry_whole small done length
          rw [List.length_append] at length
          have entryLength := entryText_length_eq node
          obtain ⟨new, residue, serialized, leaves⟩ := ih closed (by rw [List.length_append]; omega)
          rw [List.length_append] at serialized
          exact ⟨entryText node ++ new, residue, .whole serialized,
            by simpa [List.append_assoc] using leaves⟩
        · exact cut.serialized small rest
      · have entryLength := entryText_length_eq node
        obtain ⟨residue, digits, -, leaves⟩ := serializeNodes_noId node rest clean room (by omega)
        exact ⟨[], residue, .stop digits (by omega), by simpa using leaves⟩

/-- What `Serialize` leaves: one of the texts of `Serialized`, maybe some digits, and a terminator. -/
theorem serialize_spec {bufLen : Nat} (small : bufLen ≤ 255) (positive : 1 ≤ bufLen)
    (tree : RoutingTree) (buf : Memory) :
    ∃ text residue, Serialized bufLen 0 tree text residue ∧
      Holds (serialize tree buf bufLen).buf (text ++ residue ++ [0]) ∧
      (serialize tree buf bufLen).pos = text.length ∧
      text.length + residue.length + 1 ≤ bufLen := by
  have empty : Clean { buf := store buf 0 [0], pos := 0 } [] := by
    have nothing : Holds buf ([] ++ []) := rfl
    exact ⟨nothing.store, rfl⟩
  obtain ⟨text, residue, serialized, holds, pos, total⟩ :=
    serializeNodes_spec small tree empty positive
  exact ⟨text, residue, serialized, holds, pos, total⟩

end TreeRssi
