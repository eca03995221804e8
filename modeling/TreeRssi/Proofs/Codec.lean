/-
Module: TreeRssi.Proofs.Codec
Layer: Proofs
Purpose: What `Deserialize` makes of the texts that `Serialize` leaves. Each of them decodes to a
  truncation of the table: some whole entries, then possibly one with a prefix of its children. No id
  is invented, and a table whose text fits comes back whole.
Imports: TreeRssi.Proofs.Serialize, Mathlib (prefixes of lists)
Trusted boundary: none
Main exports: Truncation, deserializeNodes_entry, Serialized.decodes, serialize_deserialize
Open obligations: none
-/
import Mathlib.Data.List.TakeWhile
import TreeRssi.Proofs.Serialize

namespace TreeRssi

open CText

/-! ### Parsing children -/

/-- The byte after a printed child: a comma, a semicolon or the end. -/
def AfterChild (rest : List UInt8) : Prop := ∀ b ∈ rest.head?, b = ch ',' ∨ b = ch ';'

/-- The byte after the children of an entry: a semicolon or the end. -/
def AfterChildren (rest : List UInt8) : Prop := ∀ b ∈ rest.head?, b = ch ';'

theorem AfterChild.noDigit {rest : List UInt8} (after : AfterChild rest) :
    ∀ b ∈ rest.head?, isDigit b = false := by
  intro b first
  rcases after b first with rfl | rfl <;> decide

theorem skipChild_decimal (n : Nat) {rest : List UInt8} (after : AfterChild rest) :
    skipChild (decimal n ++ rest) = skipOne (ch ',') rest := by
  have digits : ∀ b ∈ decimal n, (b ≠ ch ',' && b ≠ ch ';') = true := by
    intro b member
    have digit := isDigit_of_mem_decimal member
    simp [ne_comma_of_isDigit digit, ne_semicolon_of_isDigit digit]
  rw [skipChild, List.dropWhile_append_of_pos digits]
  cases rest with
  | nil => rfl
  | cons b rest =>
      rw [List.dropWhile_cons_of_neg]
      rcases after b rfl with rfl | rfl <;> decide

/-- One printed child is read, and the comma behind it skipped. -/
theorem deserializeChildren_child (child : UInt8) {rest acc : List UInt8} (after : AfterChild rest)
    (room : acc.length < maxChildren) :
    deserializeChildren (decimal child.toNat ++ rest) acc =
      deserializeChildren (skipOne (ch ',') rest) (acc ++ [child]) := by
  have value : toU8 (atoi (decimal child.toNat ++ rest)) = child := by
    rw [atoi_decimal (by have := child.toNat_lt; omega) after.noDigit, toU8_natCast]
  have skipped := skipChild_decimal child.toNat after
  obtain ⟨b, digits, printed⟩ := List.exists_cons_of_ne_nil (decimal_ne_nil child.toNat)
  have digit : isDigit b = true := isDigit_of_mem_decimal (n := child.toNat) (by simp [printed])
  rw [printed, List.cons_append] at value skipped ⊢
  rw [deserializeChildren]
  simp only [ne_semicolon_of_isDigit digit, digit, value, skipped,
    room, if_true, if_false, dif_pos]

/-- The children loop stops at the semicolon or at the end. -/
theorem deserializeChildren_stop {rest acc : List UInt8} (after : AfterChildren rest) :
    deserializeChildren rest acc = (acc, rest) := by
  cases rest with
  | nil => rw [deserializeChildren]
  | cons b rest => rw [deserializeChildren, if_pos (after b rfl)]

/-- Behind a comma the loop goes on. -/
theorem deserializeChildren_comma (rest acc : List UInt8) :
    deserializeChildren (ch ',' :: rest) acc = deserializeChildren rest acc := by
  rw [deserializeChildren, if_neg (by decide), dif_neg (by decide)]

/-- The printed children are read in order, also when a comma is left behind the last one. -/
theorem deserializeChildren_text (children acc : List UInt8) {separator rest : List UInt8}
    (comma : separator = [] ∨ separator = [ch ',']) (after : AfterChildren rest)
    (room : acc.length + children.length ≤ maxChildren) :
    deserializeChildren (childrenText true children ++ separator ++ rest) acc =
      (acc ++ children, rest) := by
  induction children generalizing acc separator with
  | nil =>
      rcases comma with rfl | rfl
      · simpa [childrenText] using deserializeChildren_stop after
      · simpa [childrenText, deserializeChildren_comma] using deserializeChildren_stop after
  | cons child children ih =>
      rw [List.length_cons] at room
      have grown : (acc ++ [child]).length + children.length ≤ maxChildren := by
        rw [List.length_append, List.length_singleton]
        omega
      -- Whatever follows the child, skipping a comma leaves the text of the other children.
      obtain ⟨separator', comma', behind, skipped⟩ : ∃ separator' : List UInt8,
          (separator' = [] ∨ separator' = [ch ',']) ∧
          AfterChild (childrenText false children ++ separator ++ rest) ∧
          skipOne (ch ',') (childrenText false children ++ separator ++ rest) =
            childrenText true children ++ separator' ++ rest := by
        cases children with
        | nil =>
            refine ⟨[], .inl rfl, ?_⟩
            rcases comma with rfl | rfl
            · refine ⟨fun b first => .inr (after b (by simpa [childrenText] using first)), ?_⟩
              cases rest with
              | nil => rfl
              | cons b rest =>
                  rw [show b = ch ';' from after b rfl]
                  rfl
            · exact ⟨by simp [AfterChild, childrenText], by simp [childrenText, skipOne]⟩
        | cons next children =>
            exact ⟨separator, comma, by simp [AfterChild, childrenText],
              by simp [childrenText, skipOne]⟩
      have text : childrenText true (child :: children) ++ separator ++ rest =
          decimal child.toNat ++ (childrenText false children ++ separator ++ rest) := by
        simp [childrenText]
      rw [text, deserializeChildren_child child behind (by omega), skipped, ih _ comma' grown]
      simp

/-! ### Parsing entries -/

theorem takeWhile_colon (node : TreeNode) (rest : List UInt8) :
    (idText node ++ rest).dropWhile (· ≠ ch ':') = ch ':' :: rest := by
  have digits : ∀ b ∈ decimal node.id.toNat, decide (b ≠ ch ':') = true := fun b member =>
    decide_eq_true (ne_of_isDigit (isDigit_of_mem_decimal member) (by decide))
  rw [idText, List.append_assoc, List.dropWhile_append_of_pos digits]
  exact List.dropWhile_cons_of_neg (by simp)

/-- An entry is read from its id on. -/
theorem deserializeNodes_id (room : Nat) (node : TreeNode) (rest : List UInt8) :
    deserializeNodes (room + 1) (idText node ++ rest) =
      { id := node.id, children := (deserializeChildren rest []).1 } ::
        deserializeNodes room (skipOne (ch ';') (deserializeChildren rest []).2) := by
  have value : toU8 (atoi (idText node ++ rest)) = node.id := by
    have stop : ∀ b ∈ (ch ':' :: rest).head?, isDigit b = false := by
      simp only [List.head?_cons, Option.mem_some_iff, forall_eq']
      decide
    rw [idText, List.append_assoc, List.singleton_append,
      atoi_decimal (by have := node.id.toNat_lt; omega) stop, toU8_natCast]
  have colon := takeWhile_colon node rest
  obtain ⟨b, text, first⟩ := List.exists_cons_of_ne_nil (l := idText node ++ rest) (by simp [idText])
  rw [first] at value colon ⊢
  simp only [deserializeNodes, value, colon]

/-- A whole entry is read as it was. -/
theorem deserializeNodes_entry (room : Nat) {node : TreeNode} (rest : List UInt8)
    (short : node.children.length ≤ maxChildren) :
    deserializeNodes (room + 1) (entryText node ++ rest) = node :: deserializeNodes room rest := by
  have after : AfterChildren (ch ';' :: rest) := by simp [AfterChildren]
  have children := deserializeChildren_text node.children [] (.inl rfl) after (by simpa using short)
  rw [List.append_nil, List.nil_append] at children
  rw [show entryText node ++ rest =
      idText node ++ (childrenText true node.children ++ ch ';' :: rest) by simp [entryText],
    deserializeNodes_id, children]
  simp [skipOne]

/-- Digits without a colon are no entry. -/
theorem deserializeNodes_digits (room : Nat) {digits : List UInt8}
    (only : ∀ b ∈ digits, isDigit b = true) : deserializeNodes room digits = [] := by
  cases room with
  | zero => rfl
  | succ room =>
      cases digits with
      | nil => rfl
      | cons b rest =>
          have none : (b :: rest).dropWhile (· ≠ ch ':') = [] := by
            apply List.dropWhile_eq_nil_iff.mpr
            intro b member
            exact decide_eq_true (ne_of_isDigit (only b member) (by decide))
          simp only [deserializeNodes, none]

/-! ### Truncations -/

/-- A table cut short: some whole entries, then possibly one with only the first of its children. -/
inductive Truncation : RoutingTree → RoutingTree → Prop where
  | stop (tree : RoutingTree) : Truncation tree []
  | cut (node : TreeNode) (rest : RoutingTree) (k : Nat) :
      Truncation (node :: rest) [{ node with children := node.children.take k }]
  | whole (node : TreeNode) {rest out : RoutingTree} (tail : Truncation rest out) :
      Truncation (node :: rest) (node :: out)

namespace Truncation

variable {tree out : RoutingTree}

theorem length_le (truncation : Truncation tree out) : out.length ≤ tree.length := by
  induction truncation with
  | stop => exact Nat.zero_le _
  | cut => simp
  | whole => simpa using ‹_›

/-- The ids are those of the table, in order. -/
theorem ids (truncation : Truncation tree out) :
    out.map TreeNode.id = (tree.take out.length).map TreeNode.id := by
  induction truncation with
  | stop => rfl
  | cut => rfl
  | whole _ _ ih => simpa using ih

/-- Every entry but the last is as it was. -/
theorem dropLast (truncation : Truncation tree out) : out.dropLast = tree.take (out.length - 1) := by
  induction truncation with
  | stop => rfl
  | cut => rfl
  | @whole node rest out _ ih =>
      cases out with
      | nil => rfl
      | cons next out => simpa using ih

/-- The last entry has the first children of the one it comes from. -/
theorem last (truncation : Truncation tree out) {node : TreeNode} (isLast : out.getLast? = some node) :
    ∃ original, tree[out.length - 1]? = some original ∧ node.children <+: original.children := by
  induction truncation with
  | stop => cases isLast
  | cut original _ k =>
      cases isLast
      exact ⟨original, rfl, List.take_prefix k _⟩
  | @whole first rest out _ ih =>
      cases out with
      | nil =>
          cases isLast
          exact ⟨first, rfl, List.prefix_refl _⟩
      | cons next out =>
          obtain ⟨original, at_, isPrefix⟩ := ih (by simpa using isLast)
          exact ⟨original, by simpa using at_, isPrefix⟩

/-- No edge is invented. -/
theorem hasEdge (truncation : Truncation tree out) {parent child : UInt8}
    (edge : HasEdge out parent child) : HasEdge tree parent child := by
  induction truncation with
  | stop =>
      obtain ⟨_, none, _⟩ := edge
      cases none
  | cut node rest k =>
      obtain ⟨_, listed, same, member⟩ := edge
      cases List.mem_singleton.mp listed
      exact ⟨node, by simp, same, List.mem_of_mem_take member⟩
  | whole node _ ih =>
      obtain ⟨entry, listed, same, member⟩ := edge
      rcases List.mem_cons.mp listed with rfl | later
      · exact ⟨_, by simp, same, member⟩
      · obtain ⟨original, listed, same, member⟩ := ih ⟨entry, later, same, member⟩
        exact ⟨original, List.mem_cons_of_mem _ listed, same, member⟩

end Truncation

theorem exists_room {node : TreeNode} {rest : RoutingTree} {room : Nat}
    (few : (node :: rest).length ≤ room) : ∃ left, room = left + 1 ∧ rest.length ≤ left := by
  cases room with
  | zero => cases few
  | succ left => exact ⟨left, rfl, Nat.le_of_succ_le_succ few⟩

/-- Of the digits behind a text nothing is read. -/
theorem deserializeNodes_residue (room m : Nat) {residue : List UInt8}
    (digits : ∀ b ∈ residue, isDigit b = true) : deserializeNodes room (residue.take m) = [] :=
  deserializeNodes_digits room fun b member => digits b (List.mem_of_mem_take member)

/-- An entry cut behind some of its children is read with these children; the digits behind it are not
    read. -/
theorem deserializeNodes_cut (room m : Nat) {node : TreeNode} (k : Nat)
    {separator semicolon residue : List UInt8} (comma : separator = [] ∨ separator = [ch ','])
    (closed : (semicolon = [] ∧ residue = []) ∨ semicolon = [ch ';'])
    (digits : ∀ b ∈ residue, isDigit b = true) (short : node.children.length ≤ maxChildren) :
    deserializeNodes (room + 1) (idText node ++ childrenText true (node.children.take k) ++ separator ++
        semicolon ++ residue.take m) = [{ node with children := node.children.take k }] := by
  have after : AfterChildren (semicolon ++ residue.take m) := by
    rcases closed with ⟨rfl, rfl⟩ | rfl
    · simp [AfterChildren]
    · simp [AfterChildren]
  have behind : skipOne (ch ';') (semicolon ++ residue.take m) = residue.take m := by
    rcases closed with ⟨rfl, rfl⟩ | rfl
    · simp [skipOne]
    · simp [skipOne]
  have taken : ([] : List UInt8).length + (node.children.take k).length ≤ maxChildren := by
    rw [List.length_nil, Nat.zero_add]
    exact Nat.le_trans (List.length_take_le' k _) short
  have children := deserializeChildren_text (node.children.take k) [] comma after taken
  rw [List.append_assoc, List.append_assoc, List.append_assoc, deserializeNodes_id,
    ← List.append_assoc, children, behind, deserializeNodes_residue room m digits]
  rfl

/-- Every text that a serialisation leaves decodes to a truncation, whatever part of the digits behind
    it is read along. -/
theorem Serialized.decodes {bufLen start : Nat} {tree : RoutingTree} {text residue : List UInt8}
    (serialized : Serialized bufLen start tree text residue) (m : Nat) {room : Nat}
    (few : tree.length ≤ room) (short : ∀ node ∈ tree, node.children.length ≤ maxChildren) :
    Truncation tree (deserializeNodes room (text ++ residue.take m)) := by
  induction serialized generalizing room with
  | done =>
      rw [deserializeNodes_digits room (by simp)]
      exact .stop _
  | stop digits =>
      rw [List.nil_append, deserializeNodes_residue room m digits]
      exact .stop _
  | @cut start node rest residue separator semicolon k comma closed digits =>
      obtain ⟨room, rfl, -⟩ := exists_room few
      rw [deserializeNodes_cut room m k comma closed digits (short node (by simp))]
      exact .cut node rest k
  | @whole start node rest text residue _ ih =>
      obtain ⟨room, rfl, fewer⟩ := exists_room few
      rw [List.append_assoc, deserializeNodes_entry room _ (short node (by simp))]
      exact .whole node (ih fewer fun node member => short node (by simp [member]))

/-- A table whose text fits is serialised whole. -/
theorem Serialized.eq_fullText {bufLen start : Nat} {tree : RoutingTree} {text residue : List UInt8}
    (serialized : Serialized bufLen start tree text residue)
    (fits : start + (fullText tree).length < bufLen) : text = fullText tree ∧ residue = [] := by
  have grow : ∀ (node : TreeNode) rest, (fullText (node :: rest)).length =
      (entryText node).length + (fullText rest).length := by
    simp [fullText]
  induction serialized with
  | done => exact ⟨rfl, rfl⟩
  | stop _ long =>
      rw [grow] at fits
      omega
  | cut _ _ _ _ long =>
      rw [grow] at fits
      omega
  | whole _ ih =>
      rw [grow] at fits
      obtain ⟨rfl, none⟩ := ih (by omega)
      exact ⟨rfl, none⟩

/-- The full text of a table decodes to the table. -/
theorem deserializeNodes_fullText {tree : RoutingTree} {room : Nat} (few : tree.length ≤ room)
    (short : ∀ node ∈ tree, node.children.length ≤ maxChildren) :
    deserializeNodes room (fullText tree) = tree := by
  induction tree generalizing room with
  | nil => exact deserializeNodes_digits room (by simp [fullText])
  | cons node rest ih =>
      obtain ⟨room, rfl, fewer⟩ := exists_room few
      rw [fullText, List.flatMap_cons, deserializeNodes_entry room _ (short node (by simp))]
      exact congrArg _ (ih fewer fun node member => short node (by simp [member]))

/-! ### No terminator inside a text -/

theorem childrenText_ne_zero (first : Bool) (children : List UInt8) :
    ∀ b ∈ childrenText first children, b ≠ 0 := by
  induction children generalizing first with
  | nil => simp [childrenText]
  | cons child rest ih =>
      intro b member
      simp only [childrenText, List.mem_append] at member
      rcases member with (comma | digit) | later
      · cases first with
        | true => cases comma
        | false =>
            cases List.mem_singleton.mp comma
            decide
      · exact decimal_ne_zero _ b digit
      · exact ih false b later

theorem idText_ne_zero (node : TreeNode) : ∀ b ∈ idText node, b ≠ 0 := by
  intro b member
  rcases List.mem_append.mp member with digit | colon
  · exact decimal_ne_zero _ b digit
  · cases List.mem_singleton.mp colon
    decide

theorem Serialized.ne_zero {bufLen start : Nat} {tree : RoutingTree} {text residue : List UInt8}
    (serialized : Serialized bufLen start tree text residue) : ∀ b ∈ text ++ residue, b ≠ 0 := by
  have digit : ∀ b, isDigit b = true → b ≠ 0 := fun b isOne => ne_of_isDigit isOne (by decide)
  induction serialized with
  | done => simp
  | stop digits => simpa using fun b member => digit b (digits b member)
  | @cut _ node _ _ _ _ k comma closed digits _ =>
      intro b member
      simp only [List.mem_append] at member
      rcases member with (((inId | inChildren) | inSeparator) | inSemicolon) | inResidue
      · exact idText_ne_zero node b inId
      · exact childrenText_ne_zero _ _ b inChildren
      · rcases comma with rfl | rfl
        · cases inSeparator
        · cases List.mem_singleton.mp inSeparator
          decide
      · rcases closed with ⟨rfl, -⟩ | rfl
        · cases inSemicolon
        · cases List.mem_singleton.mp inSemicolon
          decide
      · exact digit b (digits b inResidue)
  | @whole _ node _ _ _ _ ih =>
      intro b member
      rw [List.append_assoc] at member
      rcases List.mem_append.mp member with inEntry | later
      · simp only [entryText, List.mem_append] at inEntry
        rcases inEntry with (inId | inChildren) | inSemicolon
        · exact idText_ne_zero node b inId
        · exact childrenText_ne_zero _ _ b inChildren
        · cases List.mem_singleton.mp inSemicolon
          decide
      · exact ih b later

/-! ### Round trip -/

/-- Whatever the size of the buffer, the serialised text is terminated inside it and decodes to the
    first entries of the table, only the last of which may have lost children, from the end. A table
    whose text fits comes back exactly. -/
theorem serialize_deserialize (tree : RoutingTree) (few : tree.length ≤ maxTreeNodes)
    (short : ∀ node ∈ tree, node.children.length ≤ maxChildren) (buf : Memory) (bufLen : Nat)
    (positive : 1 ≤ bufLen) (small : bufLen ≤ 255) :
    ∃ out, deserialize (cstring (serialize tree buf bufLen).buf bufLen) maxTreeNodes = out ∧
      0 ∈ bytes (serialize tree buf bufLen).buf bufLen ∧
      out.length ≤ tree.length ∧
      out.map TreeNode.id = (tree.take out.length).map TreeNode.id ∧
      out.dropLast = tree.take (out.length - 1) ∧
      (∀ last, out.getLast? = some last →
        ∃ original, tree[out.length - 1]? = some original ∧ last.children <+: original.children) ∧
      ((fullText tree).length ≤ bufLen - 1 → out = tree) := by
  obtain ⟨text, residue, serialized, holds, -, total⟩ := serialize_spec small positive tree buf
  have room : (text ++ residue).length < bufLen := by
    rw [List.length_append]
    omega
  have string := holds.cstring serialized.ne_zero room
  have truncation := serialized.decodes residue.length few short
  rw [List.take_length] at truncation
  refine ⟨_, rfl, ?_, ?_⟩
  · -- The terminator stands right behind the text.
    refine List.mem_map.mpr ⟨(text ++ residue).length, List.mem_range.mpr room, ?_⟩
    rw [holds.get (by simp)]
    simp
  · rw [string]
    refine ⟨truncation.length_le, truncation.ids, truncation.dropLast, fun _ => truncation.last,
      fun fits => ?_⟩
    obtain ⟨rfl, rfl⟩ := serialized.eq_fullText (by omega)
    rw [List.append_nil]
    exact deserializeNodes_fullText few short

/-- A table with the text `3:4;1:2,30,41;`. -/
def twoEntries : RoutingTree := [⟨3, [4]⟩, ⟨1, [2, 30, 41]⟩]

/-- Of its text a buffer of ten bytes holds `3:4;1:2,;`: the first entry comes back whole, the second one
    without its last two children. -/
theorem serialize_deserialize_tenBytes :
    deserialize (cstring (serialize twoEntries (fun _ => 0) 10).buf 10) maxTreeNodes =
        [⟨3, [4]⟩, ⟨1, [2]⟩] ∧
      0 ∈ bytes (serialize twoEntries (fun _ => 0) 10).buf 10 ∧
      [⟨3, [4]⟩] = twoEntries.take 1 ∧
      ∃ original, twoEntries[1]? = some original ∧ [2] <+: original.children := by
  obtain ⟨out, same, terminated, -, -, whole, cut, -⟩ := serialize_deserialize twoEntries (by decide)
    (by decide) (fun _ => 0) 10 (by decide) (by decide)
  have decoded : deserialize (cstring (serialize twoEntries (fun _ => 0) 10).buf 10) maxTreeNodes =
      [⟨3, [4]⟩, ⟨1, [2]⟩] := by
    decide +kernel
  rw [decoded] at same
  subst same
  exact ⟨decoded, terminated, whole, cut _ rfl⟩

end TreeRssi
