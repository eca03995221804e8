/-
Module: TreeRssi.Core.Codec
Layer: Core
Purpose: `Serialize` and `Deserialize` of `Lab3/tree_lib.c`. Serialising writes into a buffer and moves
  the `uint8_t` position `pos`; every exit of the loops leaves the buffer as the source does, partial
  digits included. Parsing walks the C string: the pointer is the rest of the string, and its end is
  the terminator.
Imports: TreeRssi.Core.Table, TreeRssi.Lib.CText
Trusted boundary: human-reviewed spec
Main exports: Cursor, serialize, deserialize
Open obligations: none
-/
import TreeRssi.Core.Table
import TreeRssi.Lib.CText

namespace TreeRssi

open CText

/-- The value that a `uint8_t` keeps of a natural number. -/
def u8 (n : Nat) : Nat := n % 256

theorem u8_of_lt {n : Nat} (small : n < 256) : u8 n = n := Nat.mod_eq_of_lt small

/-! ### Serialize -/

/-- The buffer of `Serialize` and its position. -/
structure Cursor where
  buf : Memory
  pos : Nat

/-- `buf[pos++] = c; buf[pos] = '\0';` -/
def Cursor.put (s : Cursor) (c : UInt8) : Cursor :=
  let buf := store s.buf s.pos [c]
  let pos := u8 (s.pos + 1)
  { buf := store buf pos [0], pos := pos }

/-- The loop over the children of one entry; `first` says that `j` is 0. -/
def serializeChildren (bufLen : Nat) : Bool → List UInt8 → Cursor → Cursor
  | _, [], s => s
  | first, child :: rest, s =>
      if s.pos < bufLen - 1 then
        let s := if first then s else s.put (ch ',')
        let text := decimal child.toNat
        let buf := snprintf s.buf s.pos (bufLen - s.pos) text
        if bufLen ≤ s.pos + text.length then { buf := buf, pos := s.pos }
        else serializeChildren bufLen false rest { buf := buf, pos := u8 (s.pos + text.length) }
      else s

/-- The loop over the entries. -/
def serializeNodes (bufLen : Nat) : List TreeNode → Cursor → Cursor
  | [], s => s
  | node :: rest, s =>
      if s.pos < bufLen - 1 then
        let text := decimal node.id.toNat ++ [ch ':']
        let buf := snprintf s.buf s.pos (bufLen - s.pos) text
        if bufLen ≤ s.pos + text.length then { buf := buf, pos := s.pos }
        else
          let s := serializeChildren bufLen true node.children
            { buf := buf, pos := u8 (s.pos + text.length) }
          let s := if s.pos < bufLen - 1 then s.put (ch ';') else s
          serializeNodes bufLen rest s
      else s

/-- `Serialize`: the buffer and the returned length. -/
def serialize (tree : RoutingTree) (buf : Memory) (bufLen : Nat) : Cursor :=
  serializeNodes bufLen tree { buf := store buf 0 [0], pos := 0 }

/-! ### Deserialize -/

/-- Skip one separator if the pointer stands on it. -/
def skipOne (separator : UInt8) : List UInt8 → List UInt8
  | [] => []
  | b :: rest => if b = separator then rest else b :: rest

theorem skipOne_length_le (separator : UInt8) (p : List UInt8) :
    (skipOne separator p).length ≤ p.length := by
  cases p with
  | nil => exact Nat.le_refl _
  | cons b rest =>
      by_cases hit : b = separator
      · simp [skipOne, hit]
      · simp [skipOne, hit]

/-- `while(*p != ',' && *p != ';' && *p != '\0') p++; if(*p == ',') p++;` -/
def skipChild (p : List UInt8) : List UInt8 :=
  skipOne (ch ',') (p.dropWhile fun b => b ≠ ch ',' && b ≠ ch ';')

theorem ne_comma_of_isDigit {b : UInt8} (digit : isDigit b = true) : b ≠ ch ',' :=
  ne_of_isDigit digit (by decide)

theorem ne_semicolon_of_isDigit {b : UInt8} (digit : isDigit b = true) : b ≠ ch ';' :=
  ne_of_isDigit digit (by decide)

/-- Skipping a child moves the pointer past its first digit. -/
theorem skipChild_length_lt {b : UInt8} {rest : List UInt8} (digit : isDigit b = true) :
    (skipChild (b :: rest)).length < (b :: rest).length := by
  have skips : (b :: rest).dropWhile (fun b => b ≠ ch ',' && b ≠ ch ';') =
      rest.dropWhile fun b => b ≠ ch ',' && b ≠ ch ';' := by
    rw [List.dropWhile_cons_of_pos]
    simp [ne_comma_of_isDigit digit, ne_semicolon_of_isDigit digit]
  have shorter := (List.dropWhile_sublist (l := rest) fun b => b ≠ ch ',' && b ≠ ch ';').length_le
  have skipped := skipOne_length_le (ch ',') (rest.dropWhile fun b => b ≠ ch ',' && b ≠ ch ';')
  rw [skipChild, skips, List.length_cons]
  omega

/-- The loop over the children of one entry: the children read and the pointer behind them. -/
def deserializeChildren (p children : List UInt8) : List UInt8 × List UInt8 :=
  match p with
  | [] => (children, [])
  | b :: rest =>
      if b = ch ';' then (children, b :: rest)
      else if _digit : isDigit b = true then
        let childId := toU8 (atoi (b :: rest))
        let children :=
          if children.length < maxChildren then children ++ [childId] else children
        deserializeChildren (skipChild (b :: rest)) children
      else deserializeChildren rest children
termination_by p.length
decreasing_by
  · exact skipChild_length_lt (by assumption)
  · exact Nat.lt_succ_self _

/-- The loop over the entries, with room for `room` more. -/
def deserializeNodes : Nat → List UInt8 → RoutingTree
  | 0, _ => []
  | _ + 1, [] => []
  | room + 1, b :: rest =>
      let nodeId := toU8 (atoi (b :: rest))
      match (b :: rest).dropWhile (· ≠ ch ':') with
      | [] => []
      | _ :: p =>
          let (children, p) := deserializeChildren p []
          { id := nodeId, children := children } :: deserializeNodes room (skipOne (ch ';') p)

/-- `Deserialize` of a C string into an array of `maxN` entries. -/
def deserialize (text : List UInt8) (maxN : Nat) : RoutingTree := deserializeNodes maxN text

end TreeRssi
