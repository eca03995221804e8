/-
Module: TreeRssi.Proofs.EdgeLoss
Layer: Proofs
Purpose: Which edges of a table a control message carries. Serialising never rewrites what stands before
  its position, so the message carries an edge exactly if the text of the table up to the child fits the
  buffer. The limits of the arrays allow tables whose text is far longer, and the edges at its end are
  lost without notice, message after message.
Imports: TreeRssi.Proofs.MergeLaws, Mathlib (prefixes of lists)
Trusted boundary: none
Main exports: Keeps, serializeNodes_keeps, EdgeFits, serialize_hasEdge_iff, sendRoutingTable_edges,
  EdgeArrives, lost_edge, controlMessage_lossless
Open obligations: none
-/
import Mathlib.Data.List.Infix
import TreeRssi.Proofs.MergeLaws

namespace TreeRssi

open CText

/-! ### Serialising keeps what it has written -/

/-- The position has not moved back, and nothing before it has changed. -/
structure Keeps (s s' : Cursor) : Prop where
  pos : s.pos ≤ s'.pos
  buf : ∀ i < s.pos, s'.buf i = s.buf i

namespace Keeps

theorem refl (s : Cursor) : Keeps s s := ⟨Nat.le_refl _, fun _ _ => rfl⟩

theorem trans {s s' s'' : Cursor} (first : Keeps s s') (second : Keeps s' s'') : Keeps s s'' :=
  ⟨Nat.le_trans first.pos second.pos, fun i before =>
    (second.buf i (Nat.lt_of_lt_of_le before first.pos)).trans (first.buf i before)⟩

theorem put {s : Cursor} (small : s.pos + 1 < 256) (c : UInt8) : Keeps s (s.put c) := by
  have next : u8 (s.pos + 1) = s.pos + 1 := u8_of_lt small
  refine ⟨?_, fun i before => ?_⟩
  · change s.pos ≤ u8 (s.pos + 1)
    omega
  · change store (store s.buf s.pos [c]) (u8 (s.pos + 1)) [0] i = s.buf i
    rw [store_outside (.inl (by omega)), store_outside (.inl before)]

theorem snprintf (s : Cursor) (size : Nat) (text : List UInt8) {pos : Nat} (forward : s.pos ≤ pos) :
    Keeps s { buf := snprintf s.buf s.pos size text, pos := pos } := by
  refine ⟨forward, fun i before => ?_⟩
  change CText.snprintf s.buf s.pos size text i = s.buf i
  rw [CText.snprintf]
  split
  · rfl
  · exact store_outside (.inl before)

/-- A text held before the position is still held. -/
theorem holds {s s' : Cursor} (keeps : Keeps s s') {text : List UInt8} (holds : Holds s.buf text)
    (behind : text.length ≤ s.pos) : Holds s'.buf text := by
  apply holds_of_get
  intro i inside
  rw [keeps.buf i (by omega), holds.get inside]

end Keeps

/-- The comma before a child. -/
theorem keeps_comma {bufLen : Nat} (small : bufLen ≤ 255) (first : Bool) {s : Cursor}
    (space : s.pos < bufLen - 1) : Keeps s (if first then s else s.put (ch ',')) := by
  cases first with
  | true => exact .refl s
  | false => exact .put (by omega) _

theorem serializeChildren_keeps {bufLen : Nat} (small : bufLen ≤ 255) (first : Bool)
    (children : List UInt8) (s : Cursor) : Keeps s (serializeChildren bufLen first children s) := by
  induction children generalizing first s with
  | nil => exact .refl s
  | cons child rest ih =>
      rw [serializeChildren]
      split
      next space =>
        have comma := keeps_comma small first space
        generalize (if first then s else s.put (ch ',')) = s' at comma
        apply comma.trans
        simp only
        split
        next => exact .snprintf s' _ _ (Nat.le_refl _)
        next fits =>
          have next_ : u8 (s'.pos + (decimal child.toNat).length) =
              s'.pos + (decimal child.toNat).length := u8_of_lt (by omega)
          exact (Keeps.snprintf s' _ _ (by omega)).trans (ih false _)
      next => exact .refl s

theorem closeEntry_keeps {bufLen : Nat} (small : bufLen ≤ 255) (s : Cursor) :
    Keeps s (closeEntry bufLen s) := by
  rw [closeEntry]
  split
  · exact .put (by omega) _
  · exact .refl s

theorem serializeNodes_keeps {bufLen : Nat} (small : bufLen ≤ 255) (nodes : RoutingTree) (s : Cursor) :
    Keeps s (serializeNodes bufLen nodes s) := by
  induction nodes generalizing s with
  | nil => exact .refl s
  | cons node rest ih =>
      by_cases fits : s.pos + (idText node).length < bufLen
      · have next : u8 (s.pos + (idText node).length) = s.pos + (idText node).length :=
          u8_of_lt (by omega)
        rw [serializeNodes_id fits]
        exact (Keeps.snprintf s _ _ (by omega)).trans
          ((serializeChildren_keeps small true node.children _).trans
            ((closeEntry_keeps small _).trans (ih _)))
      · rw [serializeNodes]
        split
        next space =>
          simp only
          split
          next => exact .snprintf s _ _ (Nat.le_refl _)
          next fits' => exact absurd (Nat.not_le.mp fits') fits
        next => exact .refl s

/-! ### The text of an edge -/

/-- The text of a table up to one child of one entry. -/
def textUpTo (before : RoutingTree) (node : TreeNode) (k : Nat) : List UInt8 :=
  fullText before ++ idText node ++ childrenText true (node.children.take (k + 1))

/-- The text of the table up to the child of the edge fits the buffer behind `start` bytes. -/
def EdgeFits (bufLen start : Nat) (tree : RoutingTree) (parent child : UInt8) : Prop :=
  ∃ before node after k, tree = before ++ node :: after ∧ node.id = parent ∧
    node.children[k]? = some child ∧ start + (textUpTo before node k).length < bufLen

theorem fullText_cons (node : TreeNode) (rest : RoutingTree) :
    fullText (node :: rest) = entryText node ++ fullText rest := rfl

theorem textUpTo_cons (first : TreeNode) (before : RoutingTree) (node : TreeNode) (k : Nat) :
    textUpTo (first :: before) node k = entryText first ++ textUpTo before node k := by
  simp [textUpTo, fullText_cons]

/-- The children that fit are written. -/
theorem serializeChildren_writes {bufLen : Nat} (small : bufLen ≤ 255) {s : Cursor} {text : List UInt8}
    (first : Bool) (children : List UInt8) (clean : Clean s text) (k : Nat)
    (fits : text.length + (childrenText first (children.take k)).length < bufLen) :
    Holds (serializeChildren bufLen first children s).buf
        (text ++ childrenText first (children.take k)) ∧
      (text ++ childrenText first (children.take k)).length ≤
        (serializeChildren bufLen first children s).pos := by
  induction children generalizing first s text k with
  | nil =>
      have pos := clean.pos
      rw [serializeChildren]
      simp only [List.take_nil, childrenText, List.append_nil]
      exact ⟨clean.holds.left, by omega⟩
  | cons child rest ih =>
      have pos := clean.pos
      cases k with
      | zero =>
          have keeps := serializeChildren_keeps small first (child :: rest) s
          simp only [List.take_zero, childrenText, List.append_nil]
          exact ⟨keeps.holds clean.holds.left (by omega), by have := keeps.pos; omega⟩
      | succ k =>
          simp only [List.take_succ_cons, childrenText_cons, List.length_append] at fits
          have digits := decimal_length_pos child.toNat
          rw [serializeChildren, if_pos (by omega)]
          have clean' := put_comma first clean (by omega)
          generalize (if first then s else s.put (ch ',')) = s' at clean'
          have pos' := clean'.pos
          rw [List.length_append] at pos'
          have fitsChild : s'.pos + (decimal child.toNat).length < bufLen := by omega
          have cleanNext := snprintf_fits clean' (decimal child.toNat) fitsChild (by omega)
          have written := ih false cleanNext k (by simp only [List.length_append]; omega)
          simp only
          rw [if_neg (by omega)]
          simpa [childrenText_cons, List.append_assoc] using written

/-- The text up to a child that fits is written. -/
theorem serializeNodes_writes {bufLen : Nat} (small : bufLen ≤ 255) {s : Cursor} {text : List UInt8}
    (before : RoutingTree) (node : TreeNode) (after : RoutingTree) (clean : Clean s text) (k : Nat)
    (fits : text.length + (textUpTo before node k).length < bufLen) :
    Holds (serializeNodes bufLen (before ++ node :: after) s).buf (text ++ textUpTo before node k) ∧
      (text ++ textUpTo before node k).length ≤
        (serializeNodes bufLen (before ++ node :: after) s).pos := by
  induction before generalizing s text with
  | nil =>
      have pos := clean.pos
      have whole : textUpTo [] node k = idText node ++ childrenText true (node.children.take (k + 1)) :=
        rfl
      rw [whole, List.length_append] at fits
      have fitsId : s.pos + (idText node).length < bufLen := by omega
      have cleanId := snprintf_fits clean (idText node) fitsId (by omega)
      obtain ⟨holds, behind⟩ := serializeChildren_writes small true node.children cleanId (k + 1)
        (by rw [List.length_append]; omega)
      rw [List.nil_append, serializeNodes_id fitsId, whole, ← List.append_assoc]
      generalize serializeChildren bufLen true node.children _ = s' at holds behind ⊢
      have keeps := (closeEntry_keeps small s').trans (serializeNodes_keeps small after _)
      exact ⟨keeps.holds holds behind, Nat.le_trans behind keeps.pos⟩
  | cons first before ih =>
      have pos := clean.pos
      have entryLength := entryText_length_eq first
      rw [textUpTo_cons, List.length_append] at fits
      have fitsId : s.pos + (idText first).length < bufLen := by omega
      have cleanId := snprintf_fits clean (idText first) fitsId (by omega)
      rw [List.cons_append, serializeNodes_id fitsId, textUpTo_cons, ← List.append_assoc]
      rcases serializeChildren_spec small true first.children cleanId
        (by rw [List.length_append]; omega) with ⟨done, space⟩ | cut
      · exact ih (closeEntry_whole small done space) (by rw [List.length_append]; omega)
      · -- An entry that is cut has no room for what follows it.
        have long := cut.long
        rw [List.length_append] at long
        have positive : 0 < (textUpTo before node k).length := by
          simp [textUpTo, idText]
        omega

/-! ### The edges of a message -/

/-- A text held up to the position starts the text that is left. -/
theorem prefix_of_holds {memory : Memory} {text behind front : List UInt8}
    (holds : Holds memory (text ++ behind)) (front_ : Holds memory front)
    (short : front.length ≤ text.length) : front <+: text := by
  have same : bytes memory front.length = text.take front.length := holds.left.bytes_eq_take short
  rw [front_] at same
  rw [same]
  exact List.take_prefix _ _

theorem childrenText_append (first : Bool) (xs ys : List UInt8) :
    ∃ tail, childrenText first (xs ++ ys) = childrenText first xs ++ tail ∧
      ∀ y ∈ ys, ∀ b ∈ decimal y.toNat, b ∈ tail := by
  induction xs generalizing first with
  | nil =>
      refine ⟨childrenText first ys, by simp [childrenText], ?_⟩
      induction ys generalizing first with
      | nil => simp
      | cons y ys ih =>
          intro z listed b digit
          rw [childrenText_cons]
          rcases List.mem_cons.mp listed with rfl | later
          · simp [digit]
          · exact List.mem_append_right _ (ih false z later b digit)
  | cons x xs ih =>
      obtain ⟨tail, text, digits⟩ := ih false
      exact ⟨tail, by simp [childrenText_cons, text], digits⟩

/-- The children up to a later one are the children up to an earlier one and those between. -/
theorem take_split {α : Type} (xs : List α) {j k : Nat} (le : j ≤ k) :
    xs.take k = xs.take j ++ (xs.take k).drop j := by
  have parts := List.take_append_drop j (xs.take k)
  rw [List.take_take, Nat.min_eq_left le] at parts
  exact parts.symm

/-- A shorter list of children has no longer text. -/
theorem childrenText_take_le (children : List UInt8) {j k : Nat} (le : j ≤ k) :
    (childrenText true (children.take j)).length ≤ (childrenText true (children.take k)).length := by
  obtain ⟨tail, text, -⟩ := childrenText_append true (children.take j) ((children.take k).drop j)
  rw [take_split children le, text, List.length_append]
  exact Nat.le_add_right _ _

/-- The separators behind the last child that is kept are no digits. -/
theorem noDigit_of_separators {separator semicolon : List UInt8}
    (comma : separator = [] ∨ separator = [ch ',']) (closing : semicolon = [] ∨ semicolon = [ch ';'])
    {b : UInt8} (member : b ∈ separator ++ semicolon) : isDigit b = false := by
  have mark : b = ch ',' ∨ b = ch ';' := by
    rcases comma with rfl | rfl <;> rcases closing with rfl | rfl <;> simp_all
  rcases mark with rfl | rfl <;> decide

/-- Before the separators of an entry that was cut stand only children that were kept. -/
theorem kept_of_front {node : TreeNode} {k kept : Nat} {child : UInt8}
    {separator semicolon : List UInt8} (listed : node.children[k]? = some child)
    (comma : separator = [] ∨ separator = [ch ',']) (closing : semicolon = [] ∨ semicolon = [ch ';'])
    (front : textUpTo [] node k <+:
      idText node ++ childrenText true (node.children.take kept) ++ separator ++ semicolon) :
    k < kept := by
  by_contra beyond
  -- Otherwise the separators would hold the digits of the child.
  have same := take_split node.children (j := kept) (k := k + 1) (by omega)
  have member : child ∈ (node.children.take (k + 1)).drop kept := by
    apply List.mem_of_getElem? (i := k - kept)
    rw [List.getElem?_drop, List.getElem?_take_of_lt (by omega), ← listed]
    congr 1
    omega
  obtain ⟨tail, text, inTail⟩ := childrenText_append true (node.children.take kept)
    ((node.children.take (k + 1)).drop kept)
  have whole : textUpTo [] node k =
      idText node ++ childrenText true (node.children.take kept) ++ tail := by
    rw [List.append_assoc, ← text, ← same]
    rfl
  rw [whole, List.append_assoc (idText node ++ _) separator, List.prefix_append_right_inj] at front
  obtain ⟨b, bs, printed⟩ := List.exists_cons_of_ne_nil (decimal_ne_nil child.toNat)
  have digit : b ∈ decimal child.toNat := by simp [printed]
  have other := noDigit_of_separators comma closing (front.subset (inTail child member b digit))
  rw [isDigit_of_mem_decimal digit] at other
  cases other

section
variable {bufLen start : Nat} {tree : RoutingTree} {text residue : List UInt8} {room : Nat}

/-- An edge whose text starts the text that is left is read. -/
theorem Serialized.carries (serialized : Serialized bufLen start tree text residue)
    {before after : RoutingTree} {node : TreeNode} (split : tree = before ++ node :: after) {k : Nat}
    {child : UInt8} (listed : node.children[k]? = some child)
    (front : textUpTo before node k <+: text)
    (fits : start + (textUpTo before node k).length < bufLen) (m : Nat) (few : tree.length ≤ room)
    (short : ∀ node ∈ tree, node.children.length ≤ maxChildren) :
    HasEdge (deserializeNodes room (text ++ residue.take m)) node.id child := by
  have nonempty : ∀ before, textUpTo before node k ≠ [] := by
    simp [textUpTo, idText]
  induction serialized generalizing before room with
  | done => simp at split
  | stop => exact absurd (List.prefix_nil.mp front) (nonempty before)
  | @cut start first rest residue separator semicolon kept comma closed digits long =>
      obtain ⟨room, rfl, -⟩ := exists_room few
      cases before with
      | cons _ before =>
          obtain ⟨rfl, -⟩ := List.cons_eq_cons.mp split
          rw [textUpTo_cons, List.length_append] at fits
          omega
      | nil =>
          obtain ⟨rfl, -⟩ := List.cons_eq_cons.mp split
          rw [deserializeNodes_cut room m kept comma closed digits (short first (by simp))]
          refine ⟨_, List.mem_singleton.mpr rfl, rfl, ?_⟩
          have inside := kept_of_front listed comma (closed.imp_left And.left) front
          apply List.mem_of_getElem? (i := k)
          rw [List.getElem?_take_of_lt inside, listed]
  | @whole start first rest text residue _ ih =>
      obtain ⟨room, rfl, fewer⟩ := exists_room few
      rw [List.append_assoc, deserializeNodes_entry room _ (short first (by simp))]
      cases before with
      | nil =>
          obtain ⟨rfl, -⟩ := List.cons_eq_cons.mp split
          exact ⟨first, by simp, rfl, List.mem_of_getElem? listed⟩
      | cons _ before =>
          obtain ⟨rfl, behind⟩ := List.cons_eq_cons.mp split
          rw [textUpTo_cons, List.prefix_append_right_inj] at front
          rw [textUpTo_cons, List.length_append] at fits
          obtain ⟨entry, member, own, child_⟩ := ih behind front (by omega) fewer
            fun node member => short node (by simp [member])
          exact ⟨entry, by simp [member], own, child_⟩

/-- An edge that is read has its text in the buffer. -/
theorem Serialized.fits_of_hasEdge (serialized : Serialized bufLen start tree text residue)
    (within : start + text.length < bufLen) (m : Nat) (few : tree.length ≤ room)
    (short : ∀ node ∈ tree, node.children.length ≤ maxChildren) {parent child : UInt8}
    (edge : HasEdge (deserializeNodes room (text ++ residue.take m)) parent child) :
    EdgeFits bufLen start tree parent child := by
  induction serialized generalizing room with
  | done =>
      rw [deserializeNodes_digits room (by simp)] at edge
      exact absurd edge (by simp [HasEdge])
  | stop digits =>
      rw [List.nil_append, deserializeNodes_residue room m digits] at edge
      exact absurd edge (by simp [HasEdge])
  | @cut start node rest residue separator semicolon kept comma closed digits =>
      obtain ⟨room, rfl, -⟩ := exists_room few
      rw [deserializeNodes_cut room m kept comma closed digits (short node (by simp))] at edge
      obtain ⟨entry, member, own, listed⟩ := edge
      cases List.mem_singleton.mp member
      obtain ⟨k, inside, at_⟩ := List.getElem_of_mem listed
      simp only [List.length_take] at inside
      refine ⟨[], node, rest, k, rfl, own, ?_, ?_⟩
      · rw [← at_, List.getElem_take]
        exact List.getElem?_eq_getElem (by omega)
      · have shorter := childrenText_take_le node.children (j := k + 1) (k := kept) (by omega)
        have whole : (textUpTo [] node k).length =
            (idText node).length + (childrenText true (node.children.take (k + 1))).length :=
          List.length_append
        simp only [List.length_append] at within
        omega
  | @whole start node rest text residue _ ih =>
      obtain ⟨room, rfl, fewer⟩ := exists_room few
      rw [List.append_assoc, deserializeNodes_entry room _ (short node (by simp))] at edge
      rw [List.length_append] at within
      obtain ⟨entry, member, own, listed⟩ := edge
      rcases List.mem_cons.mp member with rfl | later
      · obtain ⟨k, inside, at_⟩ := List.getElem_of_mem listed
        refine ⟨[], entry, rest, k, rfl, own, by rw [← at_]; exact List.getElem?_eq_getElem inside, ?_⟩
        have shorter := childrenText_take_le entry.children (j := k + 1) (k := entry.children.length)
          inside
        have whole : (textUpTo [] entry k).length =
            (idText entry).length + (childrenText true (entry.children.take (k + 1))).length :=
          List.length_append
        have entryLength := entryText_length_eq entry
        rw [List.take_length] at shorter
        omega
      · obtain ⟨before, node', after, k, split, own', listed', fits⟩ := ih (by omega) fewer
          (fun node member => short node (by simp [member])) ⟨entry, later, own, listed⟩
        refine ⟨node :: before, node', after, k, by rw [split]; rfl, own', listed', ?_⟩
        rw [textUpTo_cons, List.length_append]
        omega

end

/-- What is left in the buffer carries exactly the edges that fit. -/
theorem serialize_hasEdge_iff {bufLen room : Nat} (small : bufLen ≤ 255) {tree : RoutingTree}
    {buf : Memory} {text residue : List UInt8} (serialized : Serialized bufLen 0 tree text residue)
    (holds : Holds (serialize tree buf bufLen).buf (text ++ residue ++ [0]))
    (pos : (serialize tree buf bufLen).pos = text.length)
    (total : text.length + residue.length + 1 ≤ bufLen) (m : Nat) (few : tree.length ≤ room)
    (short : ∀ node ∈ tree, node.children.length ≤ maxChildren) {parent child : UInt8} :
    HasEdge (deserializeNodes room (text ++ residue.take m)) parent child ↔
      EdgeFits bufLen 0 tree parent child := by
  constructor
  · exact serialized.fits_of_hasEdge (by omega) m few short
  · rintro ⟨before, node, after, k, rfl, rfl, listed, fits⟩
    have nothing : Holds buf ([] ++ []) := rfl
    have empty : Clean { buf := store buf 0 [0], pos := 0 } [] := ⟨nothing.store, rfl⟩
    obtain ⟨written, behind⟩ :=
      serializeNodes_writes small before node after empty k (by simpa using fits)
    rw [List.nil_append] at written behind
    change (textUpTo before node k).length ≤ (serialize _ buf bufLen).pos at behind
    rw [List.append_assoc] at holds
    exact serialized.carries rfl listed (prefix_of_holds holds written (pos ▸ behind)) fits m few short

/-- What the receiver of a control message reads: the first id of the sender's table and exactly the
    edges that fit. -/
theorem sendRoutingTable_edges {packetbufSize : Nat} (big : 128 ≤ packetbufSize)
    {self bestParentId : LinkAddr} {s : ControlState} {frame : Frame} (fits : FitsArrays s.routingTree)
    (sent : (sendRoutingTable packetbufSize self bestParentId s).2 = some frame) :
    ∃ payload, recvUc frame.data = .control payload ∧
      headId (deserialize (cstr payload) maxTreeNodes) = headId (sentTree self s.routingTree) ∧
      ∀ p c, HasEdge (deserialize (cstr payload) maxTreeNodes) p c ↔
        EdgeFits treeSerialBuf 0 s.routingTree p c := by
  obtain ⟨text, residue, serialized, holds, pos, total⟩ := s.serialise_spec self
  obtain ⟨-, payload, m, received, read⟩ :=
    sendRoutingTable_packet big sent holds pos total serialized.ne_zero
  have sentFits := sentTree_fits self fits
  have truncation : Truncation (sentTree self s.routingTree)
      (deserialize (text ++ residue.take m) maxTreeNodes) :=
    serialized.decodes m sentFits.entries sentFits.children
  refine ⟨payload, received, ?_, fun p c => ?_⟩
  · rw [read]
    exact truncation.headId
      (serialized.decodes_nonempty (sentTree_ne_nil _ _) sentFits.children m)
  · rw [read]
    by_cases empty : s.routingTree.length = 0
    · constructor
      · intro edge
        obtain ⟨node, member, -⟩ := hasEdge_sentTree.mp (truncation.hasEdge edge)
        rw [List.length_eq_zero_iff.mp empty] at member
        cases member
      · rintro ⟨before, node, after, k, split, -⟩
        rw [List.length_eq_zero_iff.mp empty] at split
        simp at split
    · have table : sentTree self s.routingTree = s.routingTree := if_neg empty
      have serial : s.serialise self = serialize s.routingTree s.serialBuf treeSerialBuf := if_neg empty
      rw [table] at serialized
      rw [serial] at holds pos
      exact serialize_hasEdge_iff (by decide) serialized holds pos total m fits.entries
        fits.children

/-! ### The parent's table -/

/-- Fewer edges need no more room. -/
theorem FitsLimits.mono {tree : RoutingTree} {edges fewer : List (UInt8 × UInt8)}
    (fits : FitsLimits tree edges) (subset : fewer ⊆ edges) : FitsLimits tree fewer := by
  constructor
  · refine Nat.le_trans (Finset.card_le_card fun id member => ?_) fits.entries
    simp only [List.mem_toFinset, List.mem_append] at member ⊢
    exact member.imp_right fun listed => List.map_subset _ subset listed
  · intro p
    refine Nat.le_trans (Finset.card_le_card fun c member => ?_) (fits.children p)
    rw [mem_childrenIn, List.mem_append] at member ⊢
    exact member.imp_right fun listed => subset listed

/-- The parent has the edge already, or it is the edge to the sender, or its text fits the serial
    buffer. -/
def EdgeArrives (table : RoutingTree) (parentId : UInt8) (tree : RoutingTree) (p c : UInt8) : Prop :=
  HasEdge table p c ∨ (p = parentId ∧ headId tree = some c) ∨ EdgeFits treeSerialBuf 0 tree p c

theorem headId_sentTree_of_hasEdge {self : LinkAddr} {tree : RoutingTree} {p c : UInt8}
    (edge : HasEdge tree p c) : headId (sentTree self tree) = headId tree := by
  obtain ⟨node, member, -⟩ := edge
  rw [sentTree, if_neg (Nat.ne_of_gt (List.length_pos_of_mem member))]

/-- The delivery of a received control string. -/
theorem ControlState.receive_deliver {self : LinkAddr} {s s' : ControlState} {raw payload : List UInt8}
    {posted : Bool} (taken : recvUc raw = .control payload)
    (merged : (s.receive raw posted).deliver self = some s') :
    s'.routingTree = updateRoutingTable self.u8_0 s.routingTree (cstr payload) := by
  have copied : (s.receive raw posted).ctrlPayload = payload := by
    rw [ControlState.receive, taken]
  rw [(ControlState.deliver_some merged).1, copied, ControlState.receive_routingTree]

/-- Nineteen nodes in a line. -/
def longLine : RoutingTree :=
  ⟨2, [101]⟩ :: (List.range 18).map fun i => ⟨.ofNat (101 + i), [.ofNat (102 + i)]⟩

/-- Node 2 with the table of the line. -/
def longLineSender : ControlState := { ControlState.boot ⟨2, 0⟩ with routingTree := longLine }

/-- The table of the line is within the limits, and so is the table of node 1 with all its edges, but the
    end of the line does not arrive. -/
theorem lost_edge :
    ¬ ∀ (packetbufSize : Nat) (self parent : LinkAddr) (s receiver receiver' : ControlState)
      (frame : Frame) (posted : Bool), 128 ≤ packetbufSize → TableOk s.routingTree →
      TableOk receiver.routingTree →
      FitsLimits receiver.routingTree (mergeEdges parent.u8_0 (sentTree self s.routingTree)) →
      (sendRoutingTable packetbufSize self parent s).2 = some frame →
      (receiver.receive frame.data posted).deliver parent = some receiver' →
      ∀ p c, HasEdge s.routingTree p c → HasEdge receiver'.routingTree p c := by
  intro lossless
  let root := ControlState.boot ⟨1, 0⟩
  have someFrame : (sendRoutingTable 128 ⟨2, 0⟩ ⟨1, 0⟩ longLineSender).2.isSome := by decide +kernel
  obtain ⟨frame, sent⟩ := Option.isSome_iff_exists.mp someFrame
  have merged : (((sendRoutingTable 128 ⟨2, 0⟩ ⟨1, 0⟩ longLineSender).2.bind fun frame =>
      (root.receive frame.data true).deliver ⟨1, 0⟩).map fun s =>
        decide (116 ∈ s.routingTree.map TreeNode.id)) = some false := by
    decide +kernel
  rw [sent, Option.bind_some] at merged
  obtain ⟨receiver', delivered, noEntry⟩ := Option.map_eq_some_iff.mp merged
  have room : FitsLimits root.routingTree (mergeEdges 1 (sentTree ⟨2, 0⟩ longLine)) := by
    -- Every node of the line has one child.
    have single : ((treeEdges root.routingTree ++ mergeEdges 1 (sentTree ⟨2, 0⟩ longLine)).map
        Prod.fst).Nodup := by
      decide +kernel
    refine ⟨by decide +kernel, fun p => ?_⟩
    calc _ ≤ _ := childrenIn_card_le_count _ p
      _ ≤ 1 := List.nodup_iff_count_le_one.mp single p
      _ ≤ maxChildren := by decide
  have edge : HasEdge longLine 116 117 := ⟨⟨116, [117]⟩, by decide, rfl, by decide⟩
  obtain ⟨node, member, own, -⟩ := lossless 128 ⟨2, 0⟩ ⟨1, 0⟩ longLineSender root receiver' frame true
    (by decide) (by decide) (.boot _) room sent delivered 116 117 edge
  exact of_decide_eq_false noEntry (List.mem_map.mpr ⟨node, member, own⟩)

/-- A control message, received and merged with room for all of its sender's edges, brings the parent
    every edge of the sender's table exactly if each of them arrives: it was there before, leads to the
    sender, or has its text in the first 127 bytes. -/
theorem controlMessage_lossless {packetbufSize : Nat} (big : 128 ≤ packetbufSize)
    {self parent : LinkAddr} {s receiver receiver' : ControlState} {frame : Frame} {posted : Bool}
    (ok : TableOk s.routingTree) (okReceiver : TableOk receiver.routingTree)
    (room : FitsLimits receiver.routingTree (mergeEdges parent.u8_0 (sentTree self s.routingTree)))
    (sent : (sendRoutingTable packetbufSize self parent s).2 = some frame)
    (merged : (receiver.receive frame.data posted).deliver parent = some receiver') :
    (∀ p c, HasEdge s.routingTree p c → HasEdge receiver'.routingTree p c) ↔
      ∀ p c, HasEdge s.routingTree p c →
        EdgeArrives receiver.routingTree parent.u8_0 s.routingTree p c := by
  obtain ⟨payload, received, first, carried⟩ := sendRoutingTable_edges big ok.fits sent
  -- What is read is a part of what was sent, so there is room for it.
  have fewer : mergeEdges parent.u8_0 (deserialize (cstr payload) maxTreeNodes) ⊆
      mergeEdges parent.u8_0 (sentTree self s.routingTree) := by
    rintro ⟨p, c⟩ member
    rw [mem_mergeEdges] at member ⊢
    rcases member with ⟨own, head⟩ | edge
    · exact .inl ⟨own, first ▸ head⟩
    · obtain ⟨before, node, after, k, split, rfl, listed, -⟩ := (carried p c).mp edge
      exact .inr (hasEdge_sentTree.mpr
        ⟨node, by simp [split], rfl, List.mem_of_getElem? listed⟩)
  have union : ∀ p c, HasEdge s.routingTree p c → (HasEdge receiver'.routingTree p c ↔
      EdgeArrives receiver.routingTree parent.u8_0 s.routingTree p c) := by
    intro p c edge
    rw [ControlState.receive_deliver received merged, updateRoutingTable, mergeRecv_eq,
      hasEdge_addEdges okReceiver (room.mono fewer), mem_mergeEdges, carried, first,
      headId_sentTree_of_hasEdge edge, EdgeArrives]
  constructor
  · exact fun all p c edge => (union p c edge).mp (all p c edge)
  · exact fun all p c edge => (union p c edge).mpr (all p c edge)

/-- The report `2:3;` of node 2 brings node 1 the edge from 2 to 3. -/
theorem controlMessage_lossless_twoNodes :
    ∃ frame receiver', (sendRoutingTable 128 ⟨2, 0⟩ ⟨1, 0⟩
        { ControlState.boot ⟨2, 0⟩ with routingTree := [⟨2, [3]⟩] }).2 = some frame ∧
      ((ControlState.boot ⟨1, 0⟩).receive frame.data true).deliver ⟨1, 0⟩ = some receiver' ∧
      HasEdge receiver'.routingTree 2 3 := by
  let sender : ControlState := { ControlState.boot ⟨2, 0⟩ with routingTree := [⟨2, [3]⟩] }
  let root := ControlState.boot ⟨1, 0⟩
  have runs : ((sendRoutingTable 128 ⟨2, 0⟩ ⟨1, 0⟩ sender).2.bind fun frame =>
      (root.receive frame.data true).deliver ⟨1, 0⟩).isSome := by
    decide +kernel
  obtain ⟨receiver', ran⟩ := Option.isSome_iff_exists.mp runs
  obtain ⟨frame, sent, delivered⟩ := Option.bind_eq_some_iff.mp ran
  have room : FitsLimits root.routingTree (mergeEdges 1 (sentTree ⟨2, 0⟩ sender.routingTree)) :=
    ⟨by decide, fun p => Nat.le_trans (childrenIn_card_le _ p) (by decide)⟩
  have fits : ∀ p c, HasEdge sender.routingTree p c →
      EdgeArrives root.routingTree 1 sender.routingTree p c := by
    rintro p c ⟨node, member, rfl, listed⟩
    obtain rfl := List.mem_singleton.mp member
    obtain rfl := List.mem_singleton.mp listed
    exact .inr (.inr ⟨[], ⟨2, [3]⟩, [], 0, rfl, rfl, rfl, by decide +kernel⟩)
  exact ⟨frame, receiver', sent, delivered,
    (controlMessage_lossless (by decide) (by decide) (.boot _) room sent delivered).mpr fits 2 3
      ⟨⟨2, [3]⟩, by simp [sender], rfl, by decide⟩⟩

end TreeRssi
