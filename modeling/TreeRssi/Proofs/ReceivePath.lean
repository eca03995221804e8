/-
Module: TreeRssi.Proofs.ReceivePath
Layer: Proofs
Purpose: The receive path stays in its arrays. For each function on the arrays one lemma says that it
  gives a result, that the counters still bound what is used, and what the result is in terms of the model
  on lists, so that the two models agree. In every run no packet and no event can make an access fail.
Imports: TreeRssi.Core.ReceivePath, TreeRssi.Lib.Run
Trusted boundary: none
Main exports: NodeCell.view, treeView, FitsCells, readChildren_some, readNodes_some, addChildAt_some,
  updateRoutingTableAt_some, recvUcAt_some, MemorySound, run_sound, receivePath_refines,
  receivePath_inBounds
Open obligations: none
-/
import TreeRssi.Core.ReceivePath
import TreeRssi.Lib.Run

namespace TreeRssi

open CText Bounds LabelledRun

/-! ### Arrays and lists -/

/-- The used part of an entry. -/
def NodeCell.view (node : NodeCell) : TreeNode where
  id := node.id
  children := bytes node.children node.numChildren

/-- The used entries of an array. -/
def treeView (tree : Nat → NodeCell) (n : Nat) : RoutingTree := contents (fun i => (tree i).view) n

/-- The counters do not exceed the arrays. -/
structure FitsCells (tree : Nat → NodeCell) (n : Nat) : Prop where
  entries : n ≤ maxTreeNodes
  children : ∀ i < n, (tree i).numChildren ≤ maxChildren

/-- An array and its counter hold a table, within their bounds. -/
structure Represents (tree : (Nat → NodeCell) × Nat) (table : RoutingTree) : Prop where
  fits : FitsCells tree.1 tree.2
  view : treeView tree.1 tree.2 = table

variable {size n p : Nat} {buf : Memory} {text : List UInt8} {tree : Nat → NodeCell}
  (atoi : List UInt8 → Int)

@[simp] theorem view_children_length (node : NodeCell) :
    node.view.children.length = node.numChildren := by
  simp [NodeCell.view, bytes]

theorem treeView_succ (tree : Nat → NodeCell) (n : Nat) :
    treeView tree (n + 1) = treeView tree n ++ [(tree n).view] := contents_succ _ _

theorem treeView_congr {tree' : Nat → NodeCell} (same : ∀ i < n, tree' i = tree i) :
    treeView tree' n = treeView tree n :=
  contents_congr fun i below => congrArg NodeCell.view (same i below)

/-- A child is appended if the entry is not full. -/
theorem NodeCell.push_some {node : NodeCell} (fits : node.numChildren ≤ maxChildren) (child : UInt8) :
    ∃ node', node.push child = some node' ∧ node'.numChildren ≤ maxChildren ∧
      node'.view = { node.view with
        children := if node.view.children.length < maxChildren then node.view.children ++ [child]
          else node.view.children } := by
  rw [NodeCell.push]
  by_cases room : node.numChildren < maxChildren
  · have small : u8 (node.numChildren + 1) = node.numChildren + 1 :=
      u8_of_lt (by simp only [maxChildren] at room; omega)
    rw [if_pos room, writeAt_some room, Option.map_some, small]
    refine ⟨_, rfl, room, ?_⟩
    simp only [view_children_length, if_pos room]
    exact congrArg (TreeNode.mk node.id) (contents_write node.children node.numChildren child)
  · rw [if_neg room]
    refine ⟨node, rfl, fits, ?_⟩
    simp only [view_children_length, if_neg room]

/-! ### Pointers -/

theorem skipIf_some (textAt : TextAt size buf text) {c : UInt8} (proper : c ≠ 0)
    (inside : p ≤ text.length) :
    ∃ q, skipIf size buf c p = some q ∧ q ≤ text.length ∧ text.drop q = skipOne c (text.drop p) := by
  obtain ⟨q, skipped, within, dropped⟩ := textAt.skipIf proper inside
  refine ⟨q, skipped, within, ?_⟩
  rw [dropped]
  cases text.drop p with
  | nil => simp [skipOne]
  | cons b rest => simp [skipOne]

/-- A scan up to a separator and over it ends inside the string. -/
theorem scan_skipIf_some (textAt : TextAt size buf text) (keep : UInt8 → Bool) {c : UInt8}
    (proper : c ≠ 0) (inside : p ≤ text.length) :
    ∃ q, (scan size buf keep size p).bind (skipIf size buf c) = some q ∧ q ≤ text.length ∧
      text.drop q = skipOne c ((text.drop p).dropWhile keep) := by
  obtain ⟨q, scanned, within, dropped⟩ := textAt.scan keep inside
    (Nat.lt_of_le_of_lt (Nat.sub_le _ _) textAt.room)
  obtain ⟨r, skipped, within', dropped'⟩ := skipIf_some textAt proper within
  exact ⟨r, by rw [scanned, Option.bind_some, skipped], within', by rw [dropped', dropped]⟩

/-- What is left of a string tells how far the pointer is. -/
theorem le_of_drop_length {q : Nat} (inside : p ≤ text.length)
    (shorter : (text.drop q).length ≤ (text.drop p).length) (within : q ≤ text.length) : p ≤ q := by
  simp only [List.length_drop] at shorter
  omega

/-! ### Deserialize -/

/-- The loop over the children ends inside the string, and touches only the entry `n`. -/
theorem readChildren_some (tree : Nat → NodeCell) (textAt : TextAt size buf text)
    (entry : n < maxTreeNodes) {turns : Nat} (inside : p ≤ text.length) (enough : text.length - p < turns)
    (fits : (tree n).numChildren ≤ maxChildren) :
    ∃ tree' q, readChildren atoi size buf n turns tree p = some (tree', q) ∧ q ≤ text.length ∧
      p ≤ q ∧ (∀ i ≠ n, tree' i = tree i) ∧ (tree' n).numChildren ≤ maxChildren ∧
      (tree' n).id = (tree n).id ∧
      (atoi = CText.atoi → ((tree' n).view.children, text.drop q) =
        deserializeChildren (text.drop p) (tree n).view.children) := by
  induction turns generalizing p tree with
  | zero => exact absurd enough (Nat.not_lt_zero _)
  | succ turns ih =>
      rw [readChildren, textAt.charAt inside, Option.bind_some]
      cases rest : text.drop p with
      | nil =>
          refine ⟨tree, p, if_pos (.inr rfl), inside, Nat.le_refl _, fun _ _ => rfl, fits, rfl,
            fun _ => ?_⟩
          rw [deserializeChildren, rest]
      | cons b rest' =>
          obtain ⟨below, next⟩ := drop_succ_of_cons rest
          have proper : b ≠ 0 := textAt.noNul b (List.mem_of_mem_drop (by rw [rest]; simp))
          rw [List.headD_cons, deserializeChildren]
          by_cases stop : b = ch ';'
          · refine ⟨tree, p, if_pos (.inl stop), inside, Nat.le_refl _, fun _ _ => rfl, fits, rfl,
              fun _ => ?_⟩
            rw [if_pos stop, rest]
          · rw [if_neg (by simp [stop, proper]), if_neg stop]
            by_cases digit : isDigit b = true
            · rw [if_pos digit, textAt.stringFrom inside, Option.bind_some]
              obtain ⟨node, pushed, fits', view⟩ :=
                NodeCell.push_some fits (toU8 (atoi (text.drop p)))
              rw [updateAt_some entry pushed, Option.bind_some]
              obtain ⟨q, skipped, within, dropped⟩ := scan_skipIf_some textAt
                (fun b => b ≠ ch ',' && b ≠ ch ';') (c := ch ',') (by decide) inside
              have child : text.drop q = skipChild (b :: rest') := by
                rw [dropped, rest]
                rfl
              have shorter : (skipChild (b :: rest')).length < (b :: rest').length :=
                skipChild_length_lt digit
              rw [← child, ← rest, List.length_drop, List.length_drop] at shorter
              obtain ⟨scanned, found, skipped⟩ := Option.bind_eq_some_iff.mp skipped
              rw [found, Option.bind_some, skipped, Option.bind_some]
              obtain ⟨tree', r, read, within', after, others, fits'', id, same⟩ :=
                ih (fun j => if j = n then node else tree j) (p := q) within (by omega)
                  (by simpa using fits')
              refine ⟨tree', r, read, within', by omega, fun i other => ?_, fits'', ?_, fun real => ?_⟩
              · rw [others i other, if_neg other]
              · rw [id, if_pos rfl]
                exact congrArg TreeNode.id view
              · rw [same real, dif_pos digit, child, if_pos rfl, view, real, rest]
            · rw [if_neg digit]
              obtain ⟨tree', q, read, within, after, others, fits', id, same⟩ :=
                ih tree (p := p + 1) below (by omega) fits
              refine ⟨tree', q, read, within, by omega, others, fits', id, fun real => ?_⟩
              rw [same real, next, dif_neg digit]

/-- One entry more, within the bounds. -/
theorem FitsCells.snoc {tree' : Nat → NodeCell} (fits : FitsCells tree n) (room : n < maxTreeNodes)
    (kept : ∀ i < n, tree' i = tree i) (last : (tree' n).numChildren ≤ maxChildren) :
    FitsCells tree' (n + 1) := by
  refine ⟨room, fun i below => ?_⟩
  rcases Nat.lt_succ_iff_lt_or_eq.mp below with earlier | rfl
  · rw [kept i earlier]
    exact fits.children i earlier
  · exact last

/-- The entry `n` is read from the text behind its colon, with its semicolon. -/
theorem readEntry_some (tree : Nat → NodeCell) (textAt : TextAt size buf text) (room : n < maxTreeNodes)
    (inside : p ≤ text.length) (id : UInt8) :
    ∃ tree' r r', readChildren atoi size buf n size
        (fun j => if j = n then { tree n with id := id, numChildren := 0 } else tree j) p =
          some (tree', r) ∧
      skipIf size buf (ch ';') r = some r' ∧ r' ≤ text.length ∧ p ≤ r' ∧
      (∀ i < n, tree' i = tree i) ∧ (tree' n).numChildren ≤ maxChildren ∧
      (atoi = CText.atoi →
        (tree' n).view = ⟨id, (deserializeChildren (text.drop p) []).1⟩ ∧
          text.drop r' = skipOne (ch ';') (deserializeChildren (text.drop p) []).2) := by
  obtain ⟨tree', r, read, within, after, others, fits, own, same⟩ := readChildren_some atoi
    (fun j => if j = n then { tree n with id := id, numChildren := 0 } else tree j) textAt room inside
    (Nat.lt_of_le_of_lt (Nat.sub_le _ _) textAt.room) (by simp)
  obtain ⟨r', skipped, within', dropped⟩ := skipIf_some textAt (c := ch ';') (by decide) within
  have forward : r ≤ r' := by
    apply le_of_drop_length within _ within'
    rw [dropped]
    exact skipOne_length_le _ _
  refine ⟨tree', r, r', read, skipped, within', Nat.le_trans after forward, fun i before => ?_, fits,
    fun real => ?_⟩
  · rw [others i (Nat.ne_of_lt before), if_neg (Nat.ne_of_lt before)]
  · have walked := same real
    rw [if_pos rfl] at walked own
    have children : (tree' n).view.children = (deserializeChildren (text.drop p) []).1 :=
      congrArg Prod.fst walked
    have behind : text.drop r = (deserializeChildren (text.drop p) []).2 := congrArg Prod.snd walked
    refine ⟨?_, by rw [dropped, behind]⟩
    rw [← children]
    exact congrArg (TreeNode.mk · (tree' n).view.children) own

/-- The loop over the entries ends inside the string and the array. -/
theorem readNodes_some (tree : Nat → NodeCell) (textAt : TextAt size buf text) {turns : Nat}
    (inside : p ≤ text.length) (enough : text.length - p < turns) (fits : FitsCells tree n) :
    ∃ tree' n', readNodes atoi size buf maxTreeNodes turns tree n p = some (tree', n') ∧
      FitsCells tree' n' ∧
      (atoi = CText.atoi → treeView tree' n' =
        treeView tree n ++ deserializeNodes (maxTreeNodes - n) (text.drop p)) := by
  induction turns generalizing p tree n with
  | zero => exact absurd enough (Nat.not_lt_zero _)
  | succ turns ih =>
      rw [readNodes, textAt.charAt inside, Option.bind_some]
      cases rest : text.drop p with
      | nil =>
          refine ⟨tree, n, if_pos (.inl rfl), fits, fun _ => ?_⟩
          cases maxTreeNodes - n <;> simp [deserializeNodes]
      | cons b rest' =>
          obtain ⟨below, next⟩ := drop_succ_of_cons rest
          have proper : b ≠ 0 := textAt.noNul b (List.mem_of_mem_drop (by rw [rest]; simp))
          rw [List.headD_cons]
          by_cases full : n < maxTreeNodes
          swap
          · refine ⟨tree, n, if_pos (.inr full), fits, fun _ => ?_⟩
            rw [Nat.sub_eq_zero_of_le (Nat.not_lt.mp full), deserializeNodes, List.append_nil]
          · obtain ⟨left, slots⟩ := Nat.exists_eq_add_of_lt full
            have slots' : maxTreeNodes - n = left + 1 := by omega
            rw [if_neg (by simp [proper, full]), textAt.stringFrom inside, Option.bind_some, slots']
            obtain ⟨q, scanned, within, dropped⟩ := textAt.scan (· ≠ ch ':') inside
              (Nat.lt_of_le_of_lt (Nat.sub_le _ _) textAt.room)
            have forward : p ≤ q := by
              apply le_of_drop_length inside _ within
              rw [dropped]
              exact (List.dropWhile_sublist _).length_le
            rw [scanned, Option.bind_some, textAt.charAt within, Option.bind_some, deserializeNodes,
              ← rest, ← dropped]
            cases colon : text.drop q with
            | nil => exact ⟨tree, n, if_pos rfl, fits, fun _ => by rw [List.append_nil]⟩
            | cons c rest'' =>
                obtain ⟨below', next'⟩ := drop_succ_of_cons colon
                have proper' : c ≠ 0 := textAt.noNul c (List.mem_of_mem_drop (by rw [colon]; simp))
                obtain ⟨tree', r, r', read, skipped, within', after, kept, children, entry⟩ :=
                  readEntry_some atoi tree textAt full below' (toU8 (atoi (text.drop p)))
                have small : u8 (n + 1) = n + 1 := u8_of_lt (by simp only [maxTreeNodes] at full; omega)
                obtain ⟨tree'', n'', read', fits', view⟩ := ih tree' within' (by omega)
                  (fits.snoc full kept children)
                rw [List.headD_cons, if_neg proper', updateAt_const full, Option.bind_some, read,
                  Option.bind_some, skipped, Option.bind_some, small]
                refine ⟨tree'', n'', read', fits', fun real => ?_⟩
                obtain ⟨own, behind⟩ := entry real
                dsimp only
                rw [view real, treeView_succ, treeView_congr kept, List.append_assoc, own, behind, next',
                  real, show maxTreeNodes - (n + 1) = left by omega]
                rfl

/-! ### Add_child -/

theorem treeView_cons (tree : Nat → NodeCell) (n : Nat) :
    treeView tree (n + 1) = (tree 0).view :: treeView (fun i => tree (i + 1)) n := contents_cons _ _

theorem addToEntry_eq_changeFirst (parent child : UInt8) (table : RoutingTree) :
    addToEntry parent child table = changeFirst (·.id = parent) (·.addChild child) table := by
  induction table with
  | nil => rfl
  | cons node rest ih =>
      rw [addToEntry, changeFirst, ih]
      simp

/-- Changing the first entry of an id in the array changes it in the list. -/
theorem addToEntry_treeView {parent child : UInt8} {i : Nat} {node : NodeCell} (below : i < n)
    (own : (tree i).view.id = parent) (first : ∀ j < i, (tree j).view.id ≠ parent)
    (added : node.view = (tree i).view.addChild child) :
    addToEntry parent child (treeView tree n) =
      some (treeView (fun j => if j = i then node else tree j) n) := by
  rw [addToEntry_eq_changeFirst, treeView, changeFirst_some below (by simpa using own)
    fun j before => by simpa using first j before]
  refine congrArg some (contents_congr fun j _ => ?_)
  by_cases same : j = i
  · simp [same, added]
  · simp [same]

/-- The end of `Add_child` on one entry. -/
theorem attach_some {node : NodeCell} (fits : node.numChildren ≤ maxChildren) (child : UInt8) :
    ∃ node', ((firstIndex maxChildren node.children (· = child) node.numChildren).bind fun found =>
        if found.isSome then some node else node.push child) = some node' ∧
      node'.numChildren ≤ maxChildren ∧ node'.view = node.view.addChild child := by
  have listed : child ∈ node.view.children ↔ ∃ j < node.numChildren, node.children j = child := by
    simp [NodeCell.view, bytes]
  rw [TreeNode.addChild]
  rcases firstIndex_some node.children fits (· = child) with
    ⟨result, none⟩ | ⟨j, below, result, hit, -⟩
  · have absent : child ∉ node.view.children := by
      rw [listed]
      rintro ⟨j, below, same⟩
      have miss := none j below
      simp [same] at miss
    obtain ⟨node', pushed, fits', view⟩ := NodeCell.push_some fits child
    refine ⟨node', by rw [result]; exact pushed, fits', ?_⟩
    rw [view, if_neg absent]
    split <;> rfl
  · have present : child ∈ node.view.children := listed.mpr ⟨j, below, of_decide_eq_true hit⟩
    exact ⟨node, by rw [result]; rfl, fits, by rw [if_pos present]⟩

theorem attachAt_some (tree : Nat → NodeCell) {i : Nat} (inside : i < maxTreeNodes)
    (fits : (tree i).numChildren ≤ maxChildren) (child : UInt8) :
    ∃ node, attachAt tree i child = some (fun j => if j = i then node else tree j) ∧
      node.numChildren ≤ maxChildren ∧ node.view = (tree i).view.addChild child := by
  obtain ⟨node, attached, fits', view⟩ := attach_some fits child
  exact ⟨node, updateAt_some inside attached, fits', view⟩

/-- `Add_child` stays inside the arrays and does to their view what the model of the table says. -/
theorem addChildAt_view (fits : FitsCells tree n) (parent child : UInt8) :
    ∃ tree' n', addChildAt maxTreeNodes parent child (tree, n) = some (tree', n') ∧
      FitsCells tree' n' ∧
      treeView tree' n' = addChild (treeView tree n) maxTreeNodes parent child := by
  rw [addChildAt, addChild]
  rcases firstIndex_some tree fits.entries (·.id = parent) with
    ⟨result, none⟩ | ⟨i, below, result, own, first⟩
  · have absent : addToEntry parent child (treeView tree n) = .none := by
      rw [addToEntry_eq_changeFirst]
      exact changeFirst_none none
    have length : (treeView tree n).length = n := contents_length _ _
    rw [result, Option.bind_some, absent, length]
    by_cases full : maxTreeNodes ≤ n
    · exact ⟨tree, n, if_pos full, fits, by simp only [if_pos full]⟩
    · have room : n < maxTreeNodes := Nat.not_le.mp full
      have small : u8 (n + 1) = n + 1 := u8_of_lt (by simp only [maxTreeNodes] at room; omega)
      simp only [if_neg full]
      rw [updateAt_const room, Option.bind_some]
      obtain ⟨node, attached, fits', view⟩ := attachAt_some
        (fun j => if j = n then { tree n with id := parent, numChildren := 0 } else tree j)
        room (by simp) child
      have kept : ∀ i < n, (if i = n then node else
          if i = n then { tree n with id := parent, numChildren := 0 } else tree i) = tree i :=
        fun i below => by rw [if_neg (Nat.ne_of_lt below), if_neg (Nat.ne_of_lt below)]
      refine ⟨_, _, by rw [attached, Option.map_some, small],
        fits.snoc room kept (by simpa using fits'), ?_⟩
      · rw [treeView_succ]
        congr 1
        · apply treeView_congr
          intro j below
          simp only [if_neg (Nat.ne_of_lt below)]
        · rw [if_pos rfl, view, if_pos rfl]
          rfl
  · have own' : (tree i).id = parent := by simpa using own
    have first' : ∀ j < i, (tree j).id ≠ parent := fun j before => by simpa using first j before
    obtain ⟨node, attached, fits', view⟩ := attachAt_some tree (Nat.lt_of_lt_of_le below fits.entries)
      (fits.children i below) child
    rw [result, Option.bind_some, addToEntry_treeView below own' first' view]
    refine ⟨_, n, by simp only [attached, Option.map_some], ⟨fits.entries, fun j before => ?_⟩, rfl⟩
    by_cases same : j = i
    · simp only [if_pos same]
      exact fits'
    · simp only [if_neg same]
      exact fits.children j before

theorem addChildAt_some {cells : (Nat → NodeCell) × Nat} {table : RoutingTree}
    (represents : Represents cells table) (parent child : UInt8) :
    ∃ cells', addChildAt maxTreeNodes parent child cells = some cells' ∧
      Represents cells' (addChild table maxTreeNodes parent child) := by
  obtain ⟨tree', n', added, fits, view⟩ := addChildAt_view represents.fits parent child
  rw [represents.view] at view
  exact ⟨(tree', n'), added, fits, view⟩

/-! ### update_routing_table -/

variable {recvTree : Nat → NodeCell} {recvN : Nat}

/-- The loop over the children of one received entry. -/
theorem mergeEntryAt_some (recvFits : FitsCells recvTree recvN) {i : Nat} (below : i < recvN)
    {cells : (Nat → NodeCell) × Nat} {table : RoutingTree} (represents : Represents cells table) :
    ∃ cells', mergeEntryAt recvTree i cells = some cells' ∧
      Represents cells' ((recvTree i).view.children.foldl
        (fun tree child => addChild tree maxTreeNodes (recvTree i).view.id child) table) := by
  have inside : i < maxTreeNodes := Nat.lt_of_lt_of_le below recvFits.entries
  rw [mergeEntryAt, readAt_some inside, Option.bind_some]
  apply forLoop_some (P := fun j (merged : (Nat → NodeCell) × Nat) => Represents merged
    ((bytes (recvTree i).children j).foldl
      (fun tree child => addChild tree maxTreeNodes (recvTree i).view.id child) table))
  · exact represents
  · intro j before merged represents'
    have child : j < maxChildren := Nat.lt_of_lt_of_le before (recvFits.children i below)
    obtain ⟨merged', added, represents''⟩ :=
      addChildAt_some represents' (recvTree i).id ((recvTree i).children j)
    refine ⟨merged', by rw [readAt_some child, Option.bind_some]; exact added, ?_⟩
    rw [bytes, List.range_succ, List.map_append, List.foldl_append]
    exact represents''

/-- The merge of a received array. -/
theorem mergeEntries_some (recvFits : FitsCells recvTree recvN) {cells : (Nat → NodeCell) × Nat}
    {table : RoutingTree} (represents : Represents cells table) :
    ∃ cells', forLoop (mergeEntryAt recvTree) recvN cells = some cells' ∧
      Represents cells' ((treeView recvTree recvN).foldl
        (fun tree node =>
          node.children.foldl (fun tree child => addChild tree maxTreeNodes node.id child) tree)
        table) := by
  apply forLoop_some (P := fun i (merged : (Nat → NodeCell) × Nat) => Represents merged
    ((treeView recvTree i).foldl
      (fun tree node =>
        node.children.foldl (fun tree child => addChild tree maxTreeNodes node.id child) tree)
      table))
  · exact represents
  · intro i below merged represents'
    obtain ⟨merged', added, represents''⟩ := mergeEntryAt_some recvFits below represents'
    refine ⟨merged', added, ?_⟩
    rw [treeView_succ, List.foldl_append]
    exact represents''

/-- A delivery stays inside the arrays and does to the table what the model of the table says. -/
theorem updateRoutingTableAt_some (me : LinkAddr) {s : NodeMemory} {table : RoutingTree}
    (textAt : TextAt treeSerialBuf s.ctrlPayload text)
    (represents : Represents (s.routingTree, s.treeNNodes) table) :
    ∃ recv tree n, updateRoutingTableAt atoi me s =
        some { s with recvTree := recv, routingTree := tree, treeNNodes := n } ∧
      FitsCells tree n ∧
      (atoi = CText.atoi → Represents (tree, n) (updateRoutingTable me.u8_0 table text)) := by
  obtain ⟨recv, recvN, read, recvFits, decoded⟩ := readNodes_some atoi s.recvTree (n := 0)
    (p := 0) textAt (Nat.zero_le _) textAt.room
    ⟨Nat.zero_le _, fun i below => absurd below (Nat.not_lt_zero i)⟩
  have received : atoi = CText.atoi → deserialize text maxTreeNodes = treeView recv recvN := fun real => by
    rw [decoded real]
    rfl
  rw [updateRoutingTableAt, read, Option.bind_some]
  cases recvN with
  | zero =>
      refine ⟨recv, s.routingTree, s.treeNNodes, if_pos rfl, represents.fits, fun real => ?_⟩
      rw [updateRoutingTable, received real]
      exact represents
  | succ last =>
      have first : 0 < maxTreeNodes := by decide
      obtain ⟨cells, added, represents'⟩ := addChildAt_some represents me.u8_0 (recv 0).id
      obtain ⟨cells', merged, represents''⟩ := mergeEntries_some recvFits represents'
      simp only [if_neg (Nat.succ_ne_zero last), readAt_some first, Option.bind_some, added, merged,
        Option.map_some]
      refine ⟨recv, cells'.1, cells'.2, rfl, represents''.fits, fun real => ?_⟩
      rw [updateRoutingTable, received real, treeView_cons recv last, mergeRecv]
      rw [treeView_cons recv last] at represents''
      exact represents''

/-! ### The scanners of recv_uc -/

variable {msg : Memory}

theorem skipFieldAt_some (textAt : TextAt dataMsgSize msg text) (inside : p ≤ text.length) :
    ∃ q, skipFieldAt msg p = some q ∧ q ≤ text.length ∧ text.drop q = skipField (text.drop p) :=
  scan_skipIf_some textAt (· ≠ ch ':') (by decide) inside

/-- A text that starts with a tag is long enough to skip it. -/
theorem le_of_isPrefixOf {tag : List UInt8} (inside : p ≤ text.length)
    (tagged : tag.isPrefixOf (text.drop p) = true) : p + tag.length ≤ text.length := by
  have short := (List.isPrefixOf_iff_prefix.mp tagged).length_le
  rw [List.length_drop] at short
  omega

/-- The scan for the sequence number and the source stays inside the message. -/
theorem parseStatsAt_some (textAt : TextAt dataMsgSize msg text) :
    ∃ stats, parseStatsAt atoi msg = some stats ∧ (atoi = CText.atoi → stats = parseStats text) := by
  -- The position of `SEQ:`.
  have field : ∃ sp, (if dstTag.isPrefixOf text then skipFieldAt msg 4 else some 0) = some sp ∧
      sp ≤ text.length ∧
      text.drop sp = if dstTag.isPrefixOf text then skipField (text.drop 4) else text := by
    by_cases routed : dstTag.isPrefixOf text = true
    · rw [if_pos routed, if_pos routed]
      exact skipFieldAt_some textAt (le_of_isPrefixOf (p := 0) (Nat.zero_le _) routed)
    · rw [if_neg routed, if_neg routed]
      exact ⟨0, rfl, Nat.zero_le _, rfl⟩
  obtain ⟨sp, skipped, inside, dropped⟩ := field
  rw [parseStatsAt, textAt.startsWith (ne_zero_of_all (by decide)) (Nat.zero_le _), Option.bind_some,
    List.drop_zero, skipped, Option.bind_some,
    textAt.startsWith (ne_zero_of_all (by decide)) inside, Option.bind_some, parseStats, ← dropped]
  by_cases numbered : seqTag.isPrefixOf (text.drop sp) = true
  · have behind : sp + 4 ≤ text.length := le_of_isPrefixOf inside numbered
    obtain ⟨sp', skipped', inside', dropped'⟩ := skipFieldAt_some textAt behind
    simp only [if_pos numbered, textAt.stringFrom behind, skipped', Option.bind_some,
      textAt.stringFrom inside', Option.map_some]
    refine ⟨_, rfl, fun real => ?_⟩
    rw [real, dropped', List.drop_drop]
  · simp only [if_neg numbered]
    exact ⟨_, rfl, fun _ => rfl⟩

/-! ### The statistics table -/

theorem countIn_eq_changeFirst (pktSrc : UInt8) (pktSeq : Nat) (table : List PktStats) :
    countIn pktSrc pktSeq table = changeFirst (·.srcId = pktSrc) (·.count pktSeq) table := by
  induction table with
  | nil => rfl
  | cons ps rest ih =>
      rw [countIn, changeFirst, ih]
      simp

/-- The statistics stay inside their table, and are those of the model on lists. -/
theorem updateStatsAt_some (table : Nat → PktStats) {count : Nat} (fits : count ≤ maxPktSources)
    (pktSrc : UInt8) (pktSeq : Nat) :
    ∃ table' count', updateStatsAt pktSrc pktSeq table count = some (table', count') ∧
      count' ≤ maxPktSources ∧
      contents table' count' = updateStats pktSrc pktSeq (contents table count) := by
  rw [updateStatsAt, updateStats]
  by_cases anonymous : pktSrc = 0
  · rw [if_pos anonymous, if_pos anonymous]
    exact ⟨table, count, rfl, fits, rfl⟩
  · rw [if_neg anonymous, if_neg anonymous, countIn_eq_changeFirst]
    rcases firstIndex_some table fits (·.srcId = pktSrc) with
      ⟨result, none⟩ | ⟨i, below, result, own, first⟩
    · rw [result, Option.bind_some, changeFirst_none none, contents_length]
      by_cases room : count < maxPktSources
      · have small : u8 (count + 1) = count + 1 :=
          u8_of_lt (by simp only [maxPktSources] at room; omega)
        simp only [if_pos room, writeAt_some room, Option.bind_some, updateAt_const room, if_true,
          Option.map_some, small]
        refine ⟨_, _, rfl, room, ?_⟩
        rw [contents_write, contents_congr fun i below => if_neg (Nat.ne_of_lt below)]
      · simp only [if_neg room]
        exact ⟨table, count, rfl, fits, rfl⟩
    · rw [result, Option.bind_some, changeFirst_some below own first]
      simp only [updateAt_const (Nat.lt_of_lt_of_le below fits), Option.map_some]
      exact ⟨_, count, rfl, fits, rfl⟩

/-! ### The queued entry -/

/-- A block holds an entry. -/
structure PktCell.HoldsEntry (cell : PktCell) (entry : PktEntry) : Prop where
  dst : cell.dst = entry.dst
  msg : TextAt dataMsgSize cell.msg entry.msg.text

/-- The copy into the block ends with a terminator inside the block. -/
theorem fillMsgAt_some (textAt : TextAt dataMsgSize msg text) (inside : p ≤ text.length) (dst : Memory) :
    ∃ dst', fillMsgAt msg p dst = some dst' ∧ TextAt dataMsgSize dst' (strncpyMsg (text.drop p)).text := by
  obtain ⟨dst', copied, same, -⟩ := textAt.strncpy dst inside (Nat.sub_le dataMsgSize 1)
  have proper : ∀ b ∈ text.drop p, b ≠ 0 := fun b member => textAt.noNul b (List.mem_of_mem_drop member)
  have stored : (strncpyMsg (text.drop p)).text = (text.drop p).take (dataMsgSize - 1) := by
    have whole : cstr (text.drop p ++ []) = text.drop p := cstr_append proper (by simp)
    rw [List.append_nil] at whole
    exact congrArg (List.take (dataMsgSize - 1)) whole
  rw [fillMsgAt, copied, Option.bind_some, writeAt_some (by decide)]
  refine ⟨_, rfl, ⟨holds_of_get fun i below => ?_, (strncpyMsg _).noNul, (strncpyMsg _).short⟩⟩
  have cut := List.length_take_le (dataMsgSize - 1) (text.drop p)
  simp only [stored, List.length_append, List.length_singleton] at below ⊢
  by_cases last : i = dataMsgSize - 1
  · have full : ((text.drop p).take (dataMsgSize - 1)).length = i := by omega
    rw [if_pos last, List.getElem_append_right (by omega)]
    simp
  · rw [if_neg last, same i (by omega)]
    by_cases kept : i < ((text.drop p).take (dataMsgSize - 1)).length
    · rw [List.getElem_append_left kept, List.getElem_take, List.getElem?_eq_getElem]
      rfl
    · have ended : (text.drop p).length ≤ i := by
        rw [List.length_take] at kept
        omega
      rw [List.getElem_append_right (by omega), List.getElem?_eq_none ended]
      simp

/-- The block is filled from inside the message, with the entry of the model on lists. -/
theorem packetEntryAt_some (textAt : TextAt dataMsgSize msg text) (source : LinkAddr) (pe : PktCell) :
    ∃ filled, packetEntryAt atoi source msg pe = some filled ∧
      (atoi = CText.atoi → filled.HoldsEntry (packetEntry source text)) := by
  rw [packetEntryAt, textAt.startsWith (ne_zero_of_all (by decide)) (Nat.zero_le _), Option.bind_some,
    List.drop_zero, packetEntry]
  by_cases routed : dstTag.isPrefixOf text = true
  · have behind : 4 ≤ text.length := le_of_isPrefixOf (p := 0) (Nat.zero_le _) routed
    obtain ⟨p2, skipped, inside, dropped⟩ := skipFieldAt_some textAt behind
    obtain ⟨filled, copied, holds⟩ := fillMsgAt_some textAt inside pe.msg
    simp only [if_pos routed, textAt.stringFrom behind, skipped, copied, Option.bind_some,
      Option.map_some]
    refine ⟨_, rfl, fun real => ⟨by rw [real], ?_⟩⟩
    rw [← dropped]
    exact holds
  · obtain ⟨filled, copied, holds⟩ := fillMsgAt_some textAt (Nat.zero_le _) pe.msg
    simp only [if_neg routed, copied, Option.map_some]
    exact ⟨_, rfl, fun _ => ⟨rfl, holds⟩⟩

/-! ### recv_uc -/

variable {raw : List UInt8} (stack : Memory)

/-- The local copy of a payload is cut to its array, and terminated. -/
theorem copyPayload_some {payloadLen : Nat} (positive : 0 < size) (there : payloadLen < raw.length) :
    ∃ buf n, copyPayload size stack raw payloadLen = some (buf, n) ∧ n < size ∧
      Holds buf ((raw.tail.take payloadLen).take (size - 1) ++ [0]) ∧
      ((raw.tail.take payloadLen).take (size - 1)).length = n := by
  obtain ⟨n, cut⟩ : ∃ n, (if size ≤ payloadLen then size - 1 else payloadLen) = n := ⟨_, rfl⟩
  have least : n = min payloadLen (size - 1) := by
    rw [← cut]
    split <;> omega
  have small : n ≤ raw.tail.length := by
    rw [List.length_tail]
    omega
  have front : (raw.tail.take payloadLen).take (size - 1) = raw.tail.take n := by
    rw [List.take_take, least, Nat.min_comm]
  obtain ⟨buf, copied, same, -⟩ := copy_some stack (raw.getD · 0) (show 0 + n ≤ size by omega)
    (show 1 + n ≤ raw.length by omega)
  simp only [Nat.zero_add] at same
  have length : (raw.tail.take n).length = n := List.length_take_of_le small
  have holds : Holds (fun j => if j = n then 0 else buf j) (raw.tail.take n ++ [0]) := by
    apply holds_of_get
    intro i below
    rw [List.length_append, length, List.length_singleton] at below
    by_cases last : i = n
    · subst last
      rw [if_pos rfl, List.getElem_append_right (by omega)]
      simp
    · rw [if_neg last, same i (by omega), List.getElem_append_left (by omega), List.getElem_take,
        List.getElem_tail, List.getD_eq_getElem?_getD, Nat.add_comm, List.getElem?_eq_getElem]
      rfl
  have textAt : TextAt size _ _ := textAt_of_holds holds (by omega)
  have printed := textAt.stringFrom (Nat.zero_le _)
  rw [copyPayload]
  simp only [cut, copied, Option.bind_some, writeAt_some (show n < size by omega), printed,
    Option.map_some, front]
  exact ⟨_, n, rfl, by omega, holds, length⟩

/-- The counters bound the arrays, and `ctrl_payload` holds a string. -/
structure MemorySound (s : NodeMemory) : Prop where
  table : FitsCells s.routingTree s.treeNNodes
  stats : s.pktStatsCount ≤ maxPktSources
  payload : ∃ text, TextAt treeSerialBuf s.ctrlPayload text

/-- The static data is that of the models on lists. -/
structure NodeMemory.Mirrors (s : NodeMemory) (control : ControlState) (data : DataState) : Prop where
  table : treeView s.routingTree s.treeNNodes = control.routingTree
  payload : cstring s.ctrlPayload treeSerialBuf = cstr control.ctrlPayload
  pending : s.pending = control.pending
  stats : contents s.pktStatsTable s.pktStatsCount = data.pktStatsTable

variable (me source : LinkAddr) {s : NodeMemory} {control : ControlState} {data : DataState}

/-- The sink counts in its table, any other node leaves it alone. -/
theorem countPacketAt_some (textAt : TextAt dataMsgSize msg text) (fits : s.pktStatsCount ≤ maxPktSources) :
    ∃ table count, countPacketAt atoi me msg s =
        some { s with pktStatsTable := table, pktStatsCount := count } ∧
      count ≤ maxPktSources ∧
      (atoi = CText.atoi → contents table count =
        if me.u8_0 = 1 then
          updateStats (parseStats text).2 (parseStats text).1 (contents s.pktStatsTable s.pktStatsCount)
        else contents s.pktStatsTable s.pktStatsCount) := by
  rw [countPacketAt]
  by_cases sink : me.u8_0 = 1
  · obtain ⟨stats, parsed, same⟩ := parseStatsAt_some atoi textAt
    obtain ⟨table, count, counted, fits', contents_⟩ :=
      updateStatsAt_some s.pktStatsTable fits stats.2 stats.1
    simp only [if_pos sink, parsed, Option.bind_some, counted, Option.map_some]
    refine ⟨table, count, rfl, fits', fun real => ?_⟩
    rw [contents_, same real]
  · simp only [if_neg sink]
    exact ⟨_, _, rfl, fits, fun _ => rfl⟩

/-- The control branch: the copy into `ctrl_payload` is a string again. -/
theorem recvControlAt_some {payloadLen : Nat} (there : payloadLen < raw.length) (dst : Memory) :
    ∃ serial payload, copyPayload treeSerialBuf stack raw payloadLen = some serial ∧
      copy treeSerialBuf dst 0 treeSerialBuf serial.1 0 (serial.2 + 1) = some payload ∧
      TextAt treeSerialBuf payload
        (cstr ((raw.tail.take payloadLen).take (treeSerialBuf - 1) ++ [0])) := by
  obtain ⟨buf, n, copied, small, holds, length⟩ :=
    copyPayload_some stack (show 0 < treeSerialBuf by decide) there
  obtain ⟨payload, copied', same, -⟩ := copy_some dst buf (show 0 + (n + 1) ≤ treeSerialBuf by omega)
    (show 0 + (n + 1) ≤ treeSerialBuf by omega)
  simp only [Nat.zero_add] at same
  refine ⟨(buf, n), payload, copied, copied', textAt_of_holds ?_ (by omega)⟩
  apply holds_of_get
  intro i below
  have inside := below
  rw [List.length_append, length, List.length_singleton] at inside
  rw [same i inside]
  exact holds.get below

namespace NodeMemory.Mirrors

theorem control_ {payload : List UInt8} {stored : Memory} {posted : Bool} (mirrors : s.Mirrors control data)
    (received : recvUc raw = .control payload) (textAt : TextAt treeSerialBuf stored (cstr payload)) :
    NodeMemory.Mirrors
      { s with ctrlPayload := stored, pending := if posted then s.pending + 1 else s.pending }
      (control.receive raw posted) (data.receive me source raw) := by
  have noData : ∀ msg, recvUc raw ≠ .data msg := by simp [received]
  rw [data.receive_other noData, ControlState.receive, received]
  exact ⟨mirrors.table, textAt.cstring_eq, by simp only [mirrors.pending], mirrors.stats⟩

theorem data_ {msg : List UInt8} {table : Nat → PktStats} {count : Nat} {posted : Bool}
    (mirrors : s.Mirrors control data) (received : recvUc raw = .data msg)
    (counted : contents table count =
      if me.u8_0 = 1 then
        updateStats (parseStats (cstr msg)).2 (parseStats (cstr msg)).1
          (contents s.pktStatsTable s.pktStatsCount)
      else contents s.pktStatsTable s.pktStatsCount) :
    NodeMemory.Mirrors { s with pktStatsTable := table, pktStatsCount := count }
      (control.receive raw posted) (data.receive me source raw) := by
  rw [mirrors.stats] at counted
  rw [ControlState.receive, received]
  exact ⟨mirrors.table, mirrors.payload, mirrors.pending,
    by rw [data.receive_pktStatsTable received]; exact counted⟩

theorem nothing {posted : Bool} (mirrors : s.Mirrors control data) (received : recvUc raw = .nothing) :
    s.Mirrors (control.receive raw posted) (data.receive me source raw) := by
  have noData : ∀ msg, recvUc raw ≠ .data msg := by simp [received]
  rw [data.receive_other noData, ControlState.receive, received]
  exact mirrors

end NodeMemory.Mirrors

/-- The data branch: the copy into `msg` is a string again, and the packet is counted. -/
theorem recvDataAt_some {payloadLen : Nat} (there : payloadLen < raw.length) (sound : MemorySound s) :
    ∃ msg n s', copyPayload dataMsgSize stack raw payloadLen = some (msg, n) ∧
      TextAt dataMsgSize msg
        (cstr ((raw.tail.take payloadLen).take (dataMsgSize - 1) ++ [0])) ∧
      countPacketAt atoi me msg s = some s' ∧ MemorySound s' ∧
      (atoi = CText.atoi → ∀ control data posted,
        recvUc raw = .data ((raw.tail.take payloadLen).take (dataMsgSize - 1) ++ [0]) →
          s.Mirrors control data →
            s'.Mirrors (control.receive raw posted) (data.receive me source raw)) := by
  obtain ⟨msg, n, copied, small, holds, length⟩ :=
    copyPayload_some stack (show 0 < dataMsgSize by decide) there
  have textAt : TextAt dataMsgSize msg _ := textAt_of_holds holds (by omega)
  obtain ⟨table, count, counted, fits, same⟩ := countPacketAt_some atoi me textAt sound.stats
  exact ⟨msg, n, _, copied, textAt, counted, ⟨sound.table, fits, sound.payload⟩,
    fun real _ _ _ received mirrors => mirrors.data_ me source received (same real)⟩

/-- A reception stays inside the arrays, keeps the counters within them, and does to the static data what
    the models on lists say. -/
theorem recvUcAt_some (sound : MemorySound s) (raw : List UInt8) (pe : Option PktCell) (posted : Bool) :
    ∃ s' filled, recvUcAt atoi me source raw stack pe posted s = some (s', filled) ∧ MemorySound s' ∧
      (atoi = CText.atoi → raw.length < 65536 → ∀ control data, s.Mirrors control data →
        s'.Mirrors (control.receive raw posted) (data.receive me source raw)) := by
  rw [recvUcAt]
  cases raw with
  | nil => exact ⟨s, none, if_pos rfl, sound, fun _ _ _ _ mirrors => mirrors.nothing me source rfl⟩
  | cons msgType payload =>
      by_cases empty : u16 (msgType :: payload).length = 0
      · refine ⟨s, none, if_pos empty, sound, fun _ short => ?_⟩
        rw [u16, Nat.mod_eq_of_lt short] at empty
        cases empty
      · -- The stored length reaches no further than the packet, and is exact for a short one.
        have wraps : u16 (msgType :: payload).length ≤ (msgType :: payload).length := Nat.mod_le _ _
        have there : u16 (msgType :: payload).length - 1 < (msgType :: payload).length := by omega
        have exactLength : (msgType :: payload).length < 65536 →
            payload.take (u16 (msgType :: payload).length - 1) = payload := fun short => by
          rw [u16, Nat.mod_eq_of_lt short, List.length_cons, Nat.add_sub_cancel, List.take_length]
        have byte : readAt (msgType :: payload).length ((msgType :: payload).getD · 0) 0 = some msgType :=
          readAt_some (Nat.succ_pos _)
        simp only [if_neg empty, byte, Option.bind_some]
        by_cases isControl : msgType = uControl
        · obtain ⟨serial, stored, copied, copied', textAt⟩ :=
            recvControlAt_some stack there s.ctrlPayload
          simp only [if_pos isControl, copied, copied', Option.bind_some, Option.map_some]
          refine ⟨_, _, rfl, ⟨sound.table, sound.stats, _, textAt⟩, fun _ short _ _ mirrors => ?_⟩
          rw [List.tail_cons, exactLength short] at textAt
          exact mirrors.control_ me source (if_pos isControl) textAt
        · by_cases isData : msgType = uData
          · obtain ⟨msg, n, s', copied, textAt, counted, sound', mirrored⟩ :=
              recvDataAt_some atoi stack me source there sound
            simp only [if_neg isControl, if_pos isData, copied, counted, Option.bind_some]
            have same : atoi = CText.atoi → (msgType :: payload).length < 65536 →
                ∀ control data, s.Mirrors control data →
                s'.Mirrors (control.receive (msgType :: payload) posted)
                  (data.receive me source (msgType :: payload)) := by
              intro real short control data mirrors
              refine mirrored real control data posted ?_ mirrors
              rw [recvUc, if_neg isControl, if_pos isData, List.tail_cons, exactLength short]
            cases pe with
            | none => exact ⟨s', none, rfl, sound', same⟩
            | some pe =>
                obtain ⟨filled, entry, -⟩ := packetEntryAt_some atoi textAt source pe
                simp only [entry, Option.map_some]
                exact ⟨s', some filled, rfl, sound', same⟩
          · simp only [if_neg isControl, if_neg isData]
            refine ⟨s, none, rfl, sound, fun _ _ _ _ mirrors => mirrors.nothing me source ?_⟩
            rw [recvUc, if_neg isControl, if_neg isData]

/-! ### Runs -/

/-- A delivery keeps the counters within the arrays, and does to the table what the model on lists says. -/
theorem updateRoutingTableAt_sound (sound : MemorySound s) :
    ∃ s', updateRoutingTableAt atoi me s = some s' ∧ MemorySound s' ∧
      (atoi = CText.atoi → ∀ control data, s.Mirrors control data →
        s'.Mirrors
          { control with
            routingTree := updateRoutingTable me.u8_0 control.routingTree (cstr control.ctrlPayload) }
          data) := by
  obtain ⟨text, textAt⟩ := sound.payload
  obtain ⟨recv, tree, n, updated, fits, merged⟩ :=
    updateRoutingTableAt_some atoi me textAt ⟨sound.table, rfl⟩
  refine ⟨_, updated, ⟨fits, sound.stats, text, textAt⟩, fun real control data mirrors => ?_⟩
  have string : text = cstr control.ctrlPayload := textAt.cstring_eq.symm.trans mirrors.payload
  refine ⟨?_, mirrors.payload, mirrors.pending, mirrors.stats⟩
  rw [← mirrors.table, ← string]
  exact (merged real).view

theorem MemorySound.boot (me : LinkAddr) : MemorySound (.boot me) := by
  refine ⟨⟨?_, fun i _ => Nat.zero_le _⟩, Nat.zero_le _, [], ?_⟩
  · simp only [NodeMemory.boot]
    split <;> decide
  · exact ⟨rfl, by simp, by decide⟩

theorem MemorySound.next {s' : NodeMemory} {event : MemoryEvent} (sound : MemorySound s)
    (stepped : s.next atoi me event = some s') : MemorySound s' := by
  cases event with
  | receive source raw stack pe posted =>
      obtain ⟨after, filled, received, sound', -⟩ :=
        recvUcAt_some atoi stack me source sound raw pe posted
      rw [NodeMemory.next, received] at stepped
      cases stepped
      exact sound'
  | update =>
      rw [NodeMemory.next] at stepped
      split at stepped
      · cases stepped
      next pending _ =>
        have sound' : MemorySound { s with pending := pending } :=
          ⟨sound.table, sound.stats, sound.payload⟩
        obtain ⟨after, updated, kept, -⟩ := updateRoutingTableAt_sound atoi me sound'
        rw [updated] at stepped
        cases stepped
        exact kept

/-- Every state that a run reaches keeps the counters within the arrays. -/
theorem run_sound {trace : List (NodeMemory × MemoryEvent)} {allowed : NodeMemory → MemoryEvent → Prop}
    (run : Run (NodeMemory.next atoi me) allowed (.boot me) trace s) : MemorySound s :=
  run.invariant (MemorySound.boot me) fun _ _ _ sound _ stepped => sound.next atoi me stepped

/-- The models on lists, side by side: a packet of any bytes arrives, or an event is delivered. -/
def receiveStep (me : LinkAddr) (s : ControlState × DataState) :
    MemoryEvent → Option (ControlState × DataState)
  | .receive source raw _ _ posted => some (s.1.receive raw posted, s.2.receive me source raw)
  | .update => (s.1.deliver me).map fun control => (control, s.2)

/-- The packet is shorter than its `uint16_t` length can tell. -/
def MemoryEvent.short : MemoryEvent → Prop
  | .receive _ raw _ _ _ => raw.length < 65536
  | .update => True

/-- One step on the arrays is one step of the models on lists. -/
theorem NodeMemory.next_mirrors {s' : NodeMemory} {event : MemoryEvent} (sound : MemorySound s)
    (mirrors : s.Mirrors control data) (short : event.short)
    (stepped : s.next CText.atoi me event = some s') :
    ∃ control' data', receiveStep me (control, data) event = some (control', data') ∧
      s'.Mirrors control' data' := by
  cases event with
  | receive source raw stack pe posted =>
      obtain ⟨after, filled, received, -, same⟩ :=
        recvUcAt_some CText.atoi stack me source sound raw pe posted
      rw [NodeMemory.next, received] at stepped
      cases stepped
      exact ⟨_, _, rfl, same rfl short control data mirrors⟩
  | update =>
      rw [NodeMemory.next] at stepped
      split at stepped
      · cases stepped
      next pending waiting =>
        have sound' : MemorySound { s with pending := pending } :=
          ⟨sound.table, sound.stats, sound.payload⟩
        obtain ⟨after, updated, -, merged⟩ := updateRoutingTableAt_sound CText.atoi me sound'
        rw [updated] at stepped
        cases stepped
        have event : control.pending = pending + 1 := mirrors.pending.symm.trans waiting
        refine ⟨_, data, ?_, merged rfl { control with pending := pending } data
          ⟨mirrors.table, mirrors.payload, rfl, mirrors.stats⟩⟩
        rw [receiveStep, ControlState.deliver, event]
        rfl

/-- The receive path on the arrays refines the models on lists. -/
theorem receivePath_refines {me : LinkAddr} {trace : List (NodeMemory × MemoryEvent)} {s : NodeMemory}
    (run : Run (NodeMemory.next CText.atoi me) (fun _ event => event.short) (.boot me) trace s) :
    ∃ trace' models, Run (receiveStep me) anyStep (.boot me, .boot) trace' models ∧
      trace'.map Prod.snd = trace.map Prod.snd ∧ s.Mirrors models.1 models.2 := by
  induction run with
  | nil =>
      refine ⟨[], _, .nil, rfl, ?_, rfl, rfl, rfl⟩
      simp only [NodeMemory.boot, ControlState.boot]
      by_cases sink : me.u8_0 = 1
      · simp [sink, treeView, contents, NodeCell.view, bytes]
      · simp [sink, treeView, contents]
  | snoc run short stepped ih =>
      have sound : MemorySound _ := run_sound CText.atoi me run
      obtain ⟨trace', models, run', labels, mirrors⟩ := ih
      obtain ⟨control, data, stepped', mirrors'⟩ := NodeMemory.next_mirrors me sound mirrors short stepped
      exact ⟨_, _, run'.snoc trivial stepped', by rw [List.map_cons, List.map_cons, labels], mirrors'⟩

/-- In every state that a run of the receive path reaches, whatever `atoi` returns, every packet is received
    and the pending string is merged without an access outside an array or past a terminator, and every
    loop ends. -/
theorem receivePath_inBounds {me : LinkAddr} {trace : List (NodeMemory × MemoryEvent)} {s : NodeMemory}
    (run : Run (NodeMemory.next atoi me) anyStep (.boot me) trace s) :
    (∀ source raw stack pe posted, ∃ after, recvUcAt atoi me source raw stack pe posted s = some after) ∧
      ∃ after, updateRoutingTableAt atoi me s = some after := by
  have sound : MemorySound s := run_sound atoi me run
  refine ⟨fun source raw stack pe posted => ?_, ?_⟩
  · obtain ⟨after, filled, received, -⟩ := recvUcAt_some atoi stack me source sound raw pe posted
    exact ⟨_, received⟩
  · obtain ⟨after, updated, -⟩ := updateRoutingTableAt_sound atoi me sound
    exact ⟨_, updated⟩

/-- The sink receives a control string with a long run of digits and without its last separator, merges it,
    and receives a data packet whose fields break off. -/
theorem receivePath_inBounds_malformed :
    ∃ trace s, Run (NodeMemory.next CText.atoi ⟨1, 0⟩) anyStep (.boot ⟨1, 0⟩) trace s ∧
      s.treeNNodes = 2 ∧
      (∀ source raw stack pe posted, ∃ after,
        recvUcAt CText.atoi ⟨1, 0⟩ source raw stack pe posted s = some after) ∧
      ∃ after, updateRoutingTableAt CText.atoi ⟨1, 0⟩ s = some after := by
  let control : List UInt8 := uControl :: (decimal 2 ++ [ch ':', ch 'x'] ++ decimal 99999999999)
  let data : List UInt8 := uData :: (dstTag ++ [0, ch ':'] ++ seqTag)
  let steps : List MemoryEvent :=
    [.receive ⟨2, 0⟩ control (fun _ => 255) none true, .update,
      .receive ⟨2, 0⟩ data (fun _ => 255) (some ⟨0, fun _ => 255⟩) true]
  have runs : ((execute (NodeMemory.next CText.atoi ⟨1, 0⟩) (.boot ⟨1, 0⟩) steps).map
      (·.treeNNodes)) = some 2 := by decide +kernel
  obtain ⟨s, executed, entries⟩ := Option.map_eq_some_iff.mp runs
  have run := Run.of_execute anyStep (fun _ _ _ => trivial) executed
  exact ⟨_, s, run, entries, receivePath_inBounds CText.atoi run⟩

end TreeRssi
