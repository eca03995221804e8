/-
Module: TreeRssi.Lib.Bounds
Layer: Lib
Purpose: Memory accesses that are checked, for programs whose safety is in question. An array is the
  memory from its first cell on together with its size, and an access outside it gives `none`; so does the
  reading of a character past the terminator of a C string, and a loop that is still going after the turns
  it was given. A computation that gives `some` has therefore stayed inside its arrays and has ended.
Imports: TreeRssi.Lib.CText
Trusted boundary: human-reviewed spec
Main exports: readAt, writeAt, updateAt, copy, snprintfAt, readAll, forLoop, firstIndex, contents,
  changeFirst, charAt, scan, skipIf, stringFrom, startsWith, strncpy, TextAt, forLoop_some,
  firstIndex_some, firstIndex_find, changeFirst_some, copy_some, snprintfAt_some, textAt_of_holds,
  TextAt.scan, TextAt.strncpy
Open obligations: none
-/
import TreeRssi.Lib.CText

namespace Bounds

open CText

universe u v

variable {α : Type u} {σ : Type v}

/-! ### Arrays -/

/-- Read one cell of an array. -/
def readAt (size : Nat) (cells : Nat → α) (i : Nat) : Option α :=
  if i < size then some (cells i) else none

/-- Write one cell of an array. -/
def writeAt (size : Nat) (cells : Nat → α) (i : Nat) (value : α) : Option (Nat → α) :=
  if i < size then some fun j => if j = i then value else cells j else none

/-- Read one cell and write it back changed. -/
def updateAt (size : Nat) (cells : Nat → α) (i : Nat) (change : α → Option α) : Option (Nat → α) :=
  (readAt size cells i).bind fun value => (change value).bind (writeAt size cells i)

/-- `memcpy(dst + offset, src + start, n)` -/
def copy (dstSize : Nat) (dst : Memory) (offset srcSize : Nat) (src : Memory) (start : Nat) :
    Nat → Option Memory
  | 0 => some dst
  | n + 1 =>
      (copy dstSize dst offset srcSize src start n).bind fun dst =>
        (readAt srcSize src (start + n)).bind (writeAt dstSize dst (offset + n))

/-- Store bytes one after the other from position `start`. -/
def storeAt (size : Nat) (memory : Memory) (start : Nat) : List UInt8 → Option Memory
  | [] => some memory
  | b :: rest => (writeAt size memory start b).bind fun memory => storeAt size memory (start + 1) rest

/-- `snprintf(memory + pos, room, ...)`: a room that is not positive would be no size. -/
def snprintfAt (size : Nat) (memory : Memory) (pos : Nat) (room : Int) (text : List UInt8) :
    Option Memory :=
  if 0 < room then storeAt size memory pos (text.take (room.toNat - 1) ++ [0]) else none

/-- Read the first `n` cells. -/
def readAll (size : Nat) (cells : Nat → α) (n : Nat) : Option (List α) :=
  if n ≤ size then some ((List.range n).map cells) else none

/-- `for(i = 0; i < n; i++)` -/
def forLoop (turn : Nat → σ → Option σ) : Nat → σ → Option σ
  | 0, s => some s
  | n + 1, s => (forLoop turn n s).bind (turn n)

/-- The first index below `n`, from `start` on, whose cell is a hit. -/
def firstIndexFrom (size : Nat) (cells : Nat → α) (hit : α → Bool) : Nat → Nat → Option (Option Nat)
  | 0, _ => some none
  | n + 1, start =>
      (readAt size cells start).bind fun value =>
        if hit value then some (some start) else firstIndexFrom size cells hit n (start + 1)

/-- The first index below `n` whose cell is a hit: `for(i = 0; i < n; i++) if(...) break;` -/
def firstIndex (size : Nat) (cells : Nat → α) (hit : α → Bool) (n : Nat) : Option (Option Nat) :=
  firstIndexFrom size cells hit n 0

variable {size i n : Nat} {cells : Nat → α} {value : α}

theorem readAt_some (inside : i < size) : readAt size cells i = some (cells i) := if_pos inside

theorem writeAt_some (inside : i < size) (value : α) :
    writeAt size cells i value = some fun j => if j = i then value else cells j := if_pos inside

theorem updateAt_some (inside : i < size) {change : α → Option α}
    (changed : change (cells i) = some value) :
    updateAt size cells i change = some fun j => if j = i then value else cells j := by
  rw [updateAt, readAt_some inside, Option.bind_some, changed, Option.bind_some, writeAt_some inside]

theorem updateAt_const (inside : i < size) (change : α → α) :
    updateAt size cells i (fun value => some (change value)) =
      some fun j => if j = i then change (cells i) else cells j := updateAt_some inside rfl

/-- A loop whose turns keep an invariant ends with it. -/
theorem forLoop_some {turn : Nat → σ → Option σ} {P : Nat → σ → Prop} {s : σ} (start : P 0 s)
    (kept : ∀ k < n, ∀ s, P k s → ∃ s', turn k s = some s' ∧ P (k + 1) s') :
    ∃ s', forLoop turn n s = some s' ∧ P n s' := by
  induction n with
  | zero => exact ⟨s, rfl, start⟩
  | succ n ih =>
      obtain ⟨s', looped, inv⟩ := ih fun k below => kept k (Nat.lt_succ_of_lt below)
      obtain ⟨s'', turned, inv'⟩ := kept n (Nat.lt_succ_self n) s' inv
      exact ⟨s'', by rw [forLoop, looped, Option.bind_some, turned], inv'⟩

/-- A search inside the array ends: it finds the first hit, or there is none. -/
theorem firstIndex_some (cells : Nat → α) (inside : n ≤ size) (hit : α → Bool) :
    (firstIndex size cells hit n = some none ∧ ∀ j < n, hit (cells j) = false) ∨
    ∃ i < n, firstIndex size cells hit n = some (some i) ∧ hit (cells i) = true ∧
      ∀ j < i, hit (cells j) = false := by
  have searches : ∀ k start, start + k ≤ size →
      (firstIndexFrom size cells hit k start = some none ∧
        ∀ j, start ≤ j → j < start + k → hit (cells j) = false) ∨
      ∃ i, start ≤ i ∧ i < start + k ∧ firstIndexFrom size cells hit k start = some (some i) ∧
        hit (cells i) = true ∧ ∀ j, start ≤ j → j < i → hit (cells j) = false := by
    intro k
    induction k with
    | zero => exact fun start _ => .inl ⟨rfl, fun j low high => absurd high (by omega)⟩
    | succ k ih =>
        intro start fits
        rw [firstIndexFrom, readAt_some (by omega), Option.bind_some]
        by_cases here : hit (cells start) = true
        · refine .inr ⟨start, Nat.le_refl _, by omega, if_pos here, here, fun j low high => ?_⟩
          exact absurd high (Nat.not_lt.mpr low)
        · rw [if_neg here]
          have miss : hit (cells start) = false := by simpa using here
          rcases ih (start + 1) (by omega) with ⟨result, none⟩ | ⟨i, low, high, result, found, first⟩
          · refine .inl ⟨result, fun j low high => ?_⟩
            rcases Nat.eq_or_lt_of_le low with same | later
            · rw [← same, miss]
            · exact none j later (by omega)
          · refine .inr ⟨i, by omega, by omega, result, found, fun j low high => ?_⟩
            rcases Nat.eq_or_lt_of_le low with same | later
            · rw [← same, miss]
            · exact first j later high
  rcases searches n 0 (by omega) with ⟨result, none⟩ | ⟨i, -, high, result, found, first⟩
  · exact .inl ⟨result, fun j below => none j (Nat.zero_le _) (by omega)⟩
  · exact .inr ⟨i, by omega, result, found, fun j below => first j (Nat.zero_le _) below⟩

/-! ### Arrays as lists -/

/-- The first `n` cells. -/
def contents (cells : Nat → α) (n : Nat) : List α := (List.range n).map cells

@[simp] theorem contents_length (cells : Nat → α) (n : Nat) : (contents cells n).length = n := by
  simp [contents]

theorem contents_succ (cells : Nat → α) (n : Nat) :
    contents cells (n + 1) = contents cells n ++ [cells n] := by
  simp [contents, List.range_succ]

theorem contents_cons (cells : Nat → α) (n : Nat) :
    contents cells (n + 1) = cells 0 :: contents (fun i => cells (i + 1)) n := by
  simp [contents, List.range_succ_eq_map, Function.comp_def]

theorem contents_congr {cells' : Nat → α} (same : ∀ i < n, cells' i = cells i) :
    contents cells' n = contents cells n := by
  apply List.map_congr_left
  intro i member
  exact same i (List.mem_range.mp member)

/-- A cell written behind the first `n` extends them. -/
theorem contents_write (cells : Nat → α) (n : Nat) (value : α) :
    contents (fun j => if j = n then value else cells j) (n + 1) = contents cells n ++ [value] := by
  rw [contents_succ, contents_congr fun i below => if_neg (Nat.ne_of_lt below), if_pos rfl]

/-- A search in the array finds the cell that the search in its list finds. -/
theorem firstIndex_find (cells : Nat → α) (inside : n ≤ size) (hit : α → Bool) :
    ∃ found, firstIndex size cells hit n = some found ∧ (∀ i ∈ found, i < n) ∧
      (contents cells n).find? hit = found.map cells := by
  rcases firstIndex_some cells inside hit with ⟨result, misses⟩ | ⟨i, below, result, own, first⟩
  · refine ⟨none, result, by simp, List.find?_eq_none.mpr fun value member => ?_⟩
    obtain ⟨j, before, rfl⟩ := List.mem_map.mp member
    rw [misses j (List.mem_range.mp before)]
    decide
  · refine ⟨some i, result, by simpa using below, List.find?_eq_some_iff_getElem.mpr ⟨own, i, ?_⟩⟩
    refine ⟨by simpa using below, by simp [contents], fun j before => ?_⟩
    simp [contents, first j before]

/-- Change the first hit of a list; `none` when there is none. -/
def changeFirst (hit : α → Bool) (change : α → α) : List α → Option (List α)
  | [] => none
  | a :: rest => if hit a then some (change a :: rest) else (changeFirst hit change rest).map (a :: ·)

theorem changeFirst_none {hit : α → Bool} {change : α → α} (none : ∀ j < n, hit (cells j) = false) :
    changeFirst hit change (contents cells n) = .none := by
  induction n generalizing cells with
  | zero => rfl
  | succ n ih =>
      rw [contents_cons, changeFirst, none 0 (Nat.succ_pos n),
        ih fun j below => none (j + 1) (Nat.succ_lt_succ below)]
      rfl

/-- Changing the cell of the first hit changes the first hit of the list. -/
theorem changeFirst_some {hit : α → Bool} {change : α → α} (below : i < n) (own : hit (cells i) = true)
    (first : ∀ j < i, hit (cells j) = false) :
    changeFirst hit change (contents cells n) =
      some (contents (fun j => if j = i then change (cells i) else cells j) n) := by
  induction n generalizing cells i with
  | zero => cases below
  | succ n ih =>
      rw [contents_cons, contents_cons, changeFirst]
      cases i with
      | zero =>
          rw [if_pos own, if_pos rfl]
          simp
      | succ i =>
          have later := @ih i (fun j => cells (j + 1)) (Nat.lt_of_succ_lt_succ below) own
            fun j before => first (j + 1) (Nat.succ_lt_succ before)
          rw [first 0 (Nat.succ_pos i), later]
          simp

/-! ### Copies -/

/-- A copy between two arrays stays inside them if both are large enough. -/
theorem copy_some {dstSize srcSize offset start : Nat} (dst src : Memory) (room : offset + n ≤ dstSize)
    (there : start + n ≤ srcSize) :
    ∃ dst', copy dstSize dst offset srcSize src start n = some dst' ∧
      (∀ i < n, dst' (offset + i) = src (start + i)) ∧ ∀ i, i < offset ∨ offset + n ≤ i → dst' i = dst i := by
  induction n with
  | zero => exact ⟨dst, rfl, fun i below => absurd below (Nat.not_lt_zero i), fun _ _ => rfl⟩
  | succ n ih =>
      obtain ⟨dst', copied, same, rest⟩ := ih (by omega) (by omega)
      refine ⟨fun j => if j = offset + n then src (start + n) else dst' j, ?_, fun i below => ?_,
        fun i outside => ?_⟩
      · rw [copy, copied, Option.bind_some, readAt_some (by omega), Option.bind_some,
          writeAt_some (by omega)]
      · by_cases last : i = n
        · simp [last]
        · simp only [if_neg (show offset + i ≠ offset + n by omega)]
          exact same i (by omega)
      · simp only [if_neg (show i ≠ offset + n by omega)]
        exact rest i (by omega)

theorem storeAt_some {memory : Memory} {text : List UInt8} {start : Nat}
    (room : start + text.length ≤ size) :
    storeAt size memory start text = some (store memory start text) := by
  induction text generalizing memory start with
  | nil => rfl
  | cons b rest ih =>
      rw [List.length_cons] at room
      rw [storeAt, writeAt_some (by omega), Option.bind_some, ih (by omega), store]

/-- A print stays inside the buffer if its size does. -/
theorem snprintfAt_some {memory : Memory} {text : List UInt8} {pos : Nat} {room : Int}
    (positive : 0 < room) (inside : pos + room ≤ size) :
    snprintfAt size memory pos room text = some (snprintf memory pos room.toNat text) := by
  have cut := List.length_take_le (room.toNat - 1) text
  have length : pos + (text.take (room.toNat - 1) ++ [0]).length ≤ size := by
    rw [List.length_append, List.length_singleton]
    omega
  rw [snprintfAt, if_pos positive, storeAt_some length, snprintf, if_neg (by omega)]

theorem readAll_some (inside : n ≤ size) (cells : Nat → α) :
    readAll size cells n = some ((List.range n).map cells) := if_pos inside

/-! ### C strings -/

/-- Read a character of the C string in a buffer: not past its terminator. -/
def charAt (size : Nat) (memory : Memory) (i : Nat) : Option UInt8 :=
  if i < size ∧ ∀ j < i, memory j ≠ 0 then some (memory i) else none

/-- `while(keep(*p) && *p != '\0') p++;` for so many turns at most. -/
def scan (size : Nat) (memory : Memory) (keep : UInt8 → Bool) : Nat → Nat → Option Nat
  | 0, _ => none
  | turns + 1, p =>
      (charAt size memory p).bind fun b =>
        if b = 0 || !keep b then some p else scan size memory keep turns (p + 1)

/-- `if(*p == c) p++;` -/
def skipIf (size : Nat) (memory : Memory) (c : UInt8) (p : Nat) : Option Nat :=
  (charAt size memory p).map fun b => if b = c then p + 1 else p

/-- The C string that starts at `p`, for a function that reads it up to its terminator. -/
def stringFrom (size : Nat) (memory : Memory) (p : Nat) : Option (List UInt8) :=
  (charAt size memory p).bind fun _ =>
    if 0 ∈ (bytes memory size).drop p then some (cstr ((bytes memory size).drop p)) else none

/-- The characters at `p` are those of a text: `p[0] == 'D' && p[1] == 'S' && ...` -/
def startsWith (size : Nat) (memory : Memory) : List UInt8 → Nat → Option Bool
  | [], _ => some true
  | c :: rest, p =>
      (charAt size memory p).bind fun b =>
        if b = c then startsWith size memory rest (p + 1) else some false

/-- `strncpy(dst + i, src + p, n)`: the string, and then NULs; `ended` says that they have begun. -/
def strncpy (dstSize srcSize : Nat) (src : Memory) : Nat → Bool → Nat → Nat → Memory → Option Memory
  | 0, _, _, _, dst => some dst
  | n + 1, true, i, p, dst =>
      (writeAt dstSize dst i 0).bind (strncpy dstSize srcSize src n true (i + 1) p)
  | n + 1, false, i, p, dst =>
      (charAt srcSize src p).bind fun b =>
        (writeAt dstSize dst i b).bind (strncpy dstSize srcSize src n (b = 0) (i + 1) (p + 1))

/-- `n` characters from `i` on are those of `text`, and then NULs; the others are as before. -/
structure Copied (dst dst' : Memory) (i n : Nat) (text : List UInt8) : Prop where
  same : ∀ j < n, dst' (i + j) = (text[j]?).getD 0
  others : ∀ j, j < i ∨ i + n ≤ j → dst' j = dst j

theorem Copied.nil {dst : Memory} {i : Nat} {text : List UInt8} : Copied dst dst i 0 text :=
  ⟨fun j below => absurd below (Nat.not_lt_zero j), fun _ _ => rfl⟩

theorem Copied.cons {dst dst' : Memory} {i n : Nat} {text : List UInt8}
    (later : Copied (fun j => if j = i then (text.head?).getD 0 else dst j) dst' (i + 1) n text.tail) :
    Copied dst dst' i (n + 1) text := by
  refine ⟨fun j below => ?_, fun j outside => ?_⟩
  · cases j with
    | zero => rw [later.others (i + 0) (by omega)]; simp [List.head?_eq_getElem?]
    | succ j => rw [show i + (j + 1) = i + 1 + j by omega, later.same j (by omega)]; simp
  · rw [later.others j (by omega), if_neg (by omega)]

/-- The buffer holds a terminated string. -/
structure TextAt (size : Nat) (memory : Memory) (text : List UInt8) : Prop where
  holds : Holds memory (text ++ [0])
  noNul : ∀ b ∈ text, b ≠ 0
  room : text.length < size

/-- A pointer that is not at the end of the string can be advanced. -/
theorem drop_succ_of_cons {text rest : List UInt8} {p : Nat} {b : UInt8} (here : text.drop p = b :: rest) :
    p < text.length ∧ text.drop (p + 1) = rest := by
  have length := congrArg List.length here
  rw [List.length_drop, List.length_cons] at length
  refine ⟨by omega, ?_⟩
  rw [← List.tail_drop, here]
  rfl

theorem textAt_of_bytes {memory : Memory} {text rest : List UInt8}
    (whole : bytes memory size = text ++ 0 :: rest) (noNul : ∀ b ∈ text, b ≠ 0) :
    TextAt size memory text := by
  have length : (bytes memory size).length = size := by simp [bytes]
  rw [whole, List.length_append, List.length_cons] at length
  have front : (text ++ 0 :: rest).take (text ++ [0]).length = text ++ [0] := by
    rw [List.append_cons text 0 rest, List.take_left]
  refine ⟨?_, noNul, by omega⟩
  have short : (text ++ [0]).length ≤ size := by
    rw [List.length_append, List.length_singleton]
    omega
  rw [Holds, ← bytes_take short, whole, front]

/-- A buffer with a NUL in it holds the string before the first one. -/
theorem textAt_cstring {memory : Memory} {k : Nat} (inside : k < size) (nul : memory k = 0) :
    TextAt size memory (cstring memory size) := by
  have kept := List.all_takeWhile (p := (· ≠ 0)) (l := bytes memory size)
  have noNul : ∀ b ∈ cstring memory size, b ≠ 0 := fun b member =>
    of_decide_eq_true (List.all_eq_true.mp kept b member)
  have split := List.takeWhile_append_dropWhile (p := (· ≠ 0)) (l := bytes memory size)
  cases rest : (bytes memory size).dropWhile (· ≠ 0) with
  | nil =>
      have member : memory k ∈ bytes memory size := List.mem_map_of_mem (List.mem_range.mpr inside)
      rw [rest, List.append_nil] at split
      rw [← split] at member
      exact absurd nul (noNul _ member)
  | cons b rest' =>
      have first := List.head?_dropWhile_not (p := (· ≠ 0)) (l := bytes memory size)
      rw [rest] at first
      have stop : b = 0 := by simpa using first
      subst stop
      rw [rest] at split
      exact textAt_of_bytes split.symm noNul

/-- What stands behind the first NUL is not part of the string. -/
theorem cstr_append_nul (front rest : List UInt8) : cstr (front ++ 0 :: rest) = cstr (front ++ [0]) := by
  induction front with
  | nil => rfl
  | cons b front ih =>
      rw [cstr, cstr] at ih
      rw [List.cons_append, List.cons_append, cstr, cstr, List.takeWhile_cons, List.takeWhile_cons, ih]

/-- A terminated text at the start of a buffer, and what stands behind it. -/
theorem bytes_of_holds {memory : Memory} {front : List UInt8} (holds : Holds memory (front ++ [0]))
    (room : front.length < size) :
    bytes memory size = front ++ 0 :: (bytes memory size).drop (front.length + 1) := by
  have length : (front ++ [0]).length = front.length + 1 := List.length_append
  have split := List.take_append_drop (front ++ [0]).length (bytes memory size)
  rw [bytes_take (by omega), holds, length, ← List.append_cons] at split
  exact split.symm

/-- A buffer into which bytes and a terminator were copied holds a string. -/
theorem textAt_of_holds {memory : Memory} {front : List UInt8} (holds : Holds memory (front ++ [0]))
    (room : front.length < size) : TextAt size memory (cstr (front ++ [0])) := by
  have last : memory front.length = 0 := by
    rw [holds.get (by simp)]
    simp
  have string : cstring memory size = cstr (front ++ [0]) := by
    rw [cstring, bytes_of_holds holds room, cstr_append_nul]
  rw [← string]
  exact textAt_cstring room last

namespace TextAt

variable {memory : Memory} {text : List UInt8} {p : Nat}

/-- The character at a position of the string, its terminator included. -/
theorem charAt (textAt : TextAt size memory text) (inside : p ≤ text.length) :
    Bounds.charAt size memory p = some ((text.drop p).headD 0) := by
  have room := textAt.room
  have get : ∀ j, (below : j < (text ++ [0]).length) → memory j = (text ++ [0])[j] := fun j below =>
    textAt.holds.get below
  have length : (text ++ [0]).length = text.length + 1 := by simp
  have earlier : ∀ j < p, memory j ≠ 0 := by
    intro j before
    rw [get j (by omega), List.getElem_append_left (by omega)]
    exact textAt.noNul _ (List.getElem_mem _)
  rw [Bounds.charAt, if_pos ⟨by omega, earlier⟩, get p (by omega)]
  by_cases last : p = text.length
  · subst last
    simp
  · have below : p < text.length := by omega
    rw [List.getElem_append_left below, List.drop_eq_getElem_cons below]
    rfl

theorem bytes_eq (textAt : TextAt size memory text) : ∃ rest, bytes memory size = text ++ 0 :: rest :=
  ⟨_, bytes_of_holds textAt.holds textAt.room⟩

/-- What a function reads that is given a pointer into the string. -/
theorem stringFrom (textAt : TextAt size memory text) (inside : p ≤ text.length) :
    Bounds.stringFrom size memory p = some (text.drop p) := by
  obtain ⟨rest, whole⟩ := textAt.bytes_eq
  rw [Bounds.stringFrom, textAt.charAt inside, Option.bind_some, whole,
    List.drop_append_of_le_length inside, if_pos (by simp),
    cstr_append (fun b member => textAt.noNul b (List.mem_of_mem_drop member)) (by simp)]

theorem cstring_eq (textAt : TextAt size memory text) : cstring memory size = text := by
  obtain ⟨rest, whole⟩ := textAt.bytes_eq
  rw [cstring, whole, cstr_append textAt.noNul (by simp)]

/-- A scan stops inside the string, where the text that it keeps ends. -/
theorem scan (textAt : TextAt size memory text) (keep : UInt8 → Bool) {turns : Nat}
    (inside : p ≤ text.length) (enough : text.length - p < turns) :
    ∃ q, Bounds.scan size memory keep turns p = some q ∧ q ≤ text.length ∧
      text.drop q = (text.drop p).dropWhile keep := by
  induction turns generalizing p with
  | zero => exact absurd enough (Nat.not_lt_zero _)
  | succ turns ih =>
      rw [Bounds.scan, textAt.charAt inside, Option.bind_some]
      cases rest : text.drop p with
      | nil => exact ⟨p, by simp, inside, rest⟩
      | cons b rest' =>
          obtain ⟨below, next⟩ := drop_succ_of_cons rest
          have proper : b ≠ 0 := textAt.noNul b (List.mem_of_mem_drop (by rw [rest]; simp))
          by_cases kept : keep b = true
          · obtain ⟨q, scanned, within, dropped⟩ := ih below (by omega)
            refine ⟨q, by simpa [proper, kept] using scanned, within, ?_⟩
            rw [dropped, next, List.dropWhile_cons_of_pos kept]
          · exact ⟨p, by simp [kept], inside, by rw [rest, List.dropWhile_cons_of_neg kept]⟩

/-- Comparing the characters at a position with a text, up to the first that differs. -/
theorem startsWith (textAt : TextAt size memory text) {tag : List UInt8} (proper : ∀ c ∈ tag, c ≠ 0)
    (inside : p ≤ text.length) :
    Bounds.startsWith size memory tag p = some (tag.isPrefixOf (text.drop p)) := by
  induction tag generalizing p with
  | nil => simp [Bounds.startsWith]
  | cons c tag ih =>
      obtain ⟨first, others⟩ := List.forall_mem_cons.mp proper
      rw [Bounds.startsWith, textAt.charAt inside, Option.bind_some]
      cases rest : text.drop p with
      | nil => simp [Ne.symm first]
      | cons b rest' =>
          obtain ⟨below, next⟩ := drop_succ_of_cons rest
          by_cases same : b = c
          · subst same
            simpa [next] using ih others below
          · have other : (c == b) = false := beq_false_of_ne (Ne.symm same)
            simp [same, List.isPrefixOf, other]

theorem skipIf (textAt : TextAt size memory text) {c : UInt8} (proper : c ≠ 0) (inside : p ≤ text.length) :
    ∃ q, Bounds.skipIf size memory c p = some q ∧ q ≤ text.length ∧
      text.drop q = if (text.drop p).head? = some c then (text.drop p).tail else text.drop p := by
  rw [Bounds.skipIf, textAt.charAt inside, Option.map_some]
  cases rest : text.drop p with
  | nil => exact ⟨p, by simp [Ne.symm proper], inside, by simp [rest]⟩
  | cons b rest' =>
      by_cases same : b = c
      · obtain ⟨below, next⟩ := drop_succ_of_cons rest
        exact ⟨p + 1, by simp [same], below, by simp [next, same]⟩
      · exact ⟨p, by simp [same], inside, by simp [rest, same]⟩

/-- The loop of `strncpy`, before and after the string has ended. -/
theorem strncpy_loop (textAt : TextAt size memory text) {dstSize : Nat} (ended : Bool) (i : Nat)
    (dst : Memory) (inside : ended = false → p ≤ text.length) (room : i + n ≤ dstSize) :
    ∃ dst', Bounds.strncpy dstSize size memory n ended i p dst = some dst' ∧
      Copied dst dst' i n (if ended then [] else text.drop p) := by
  induction n generalizing ended i p dst with
  | zero => exact ⟨dst, rfl, .nil⟩
  | succ n ih =>
      cases ended with
      | true =>
          obtain ⟨dst', filled, copied⟩ := ih true (i + 1) (fun j => if j = i then 0 else dst j)
            (by simp) (by omega)
          rw [Bounds.strncpy, writeAt_some (by omega), Option.bind_some]
          exact ⟨dst', filled, .cons copied⟩
      | false =>
          have within := inside rfl
          simp only [Bounds.strncpy, textAt.charAt within, Option.bind_some,
            writeAt_some (show i < dstSize by omega)]
          cases rest : text.drop p with
          | nil =>
              -- The terminator: from here on only NULs are written.
              obtain ⟨dst', filled, copied⟩ := ih true (i + 1) (fun j => if j = i then 0 else dst j)
                (p := p + 1) (by simp) (by omega)
              exact ⟨dst', by simpa using filled, .cons copied⟩
          | cons b rest' =>
              obtain ⟨below, next⟩ := drop_succ_of_cons rest
              have proper : b ≠ 0 := textAt.noNul b (List.mem_of_mem_drop (by rw [rest]; simp))
              obtain ⟨dst', filled, copied⟩ := ih false (i + 1) (fun j => if j = i then b else dst j)
                (fun _ => below) (by omega)
              rw [next] at copied
              exact ⟨dst', by simpa [proper] using filled, .cons copied⟩

/-- Copying a string cut to `n` characters, and filling up with NULs. -/
theorem strncpy (textAt : TextAt size memory text) {dstSize : Nat} (dst : Memory)
    (inside : p ≤ text.length) (room : n ≤ dstSize) :
    ∃ dst', Bounds.strncpy dstSize size memory n false 0 p dst = some dst' ∧
      (∀ j < n, dst' j = ((text.drop p)[j]?).getD 0) ∧ ∀ j, n ≤ j → dst' j = dst j := by
  obtain ⟨dst', filled, copied⟩ := textAt.strncpy_loop false 0 dst (fun _ => inside)
    (show 0 + n ≤ dstSize by omega)
  exact ⟨dst', filled, fun j below => by simpa using copied.same j below,
    fun j above => copied.others j (by omega)⟩

end TextAt

end Bounds
