/-
Module: TreeRssi.Lib.CText
Layer: Lib
Purpose: Bytes, decimal text and character buffers as C programs use them. A buffer is the memory from
  its first byte on, so nothing limits where a write may land; `Holds` says which text stands at its
  start. `decimal` is what `%u` prints, `atoi` reads it back, and `snprintf` stores a truncated text
  with its terminator.
Imports: Mathlib (powers of naturals)
Trusted boundary: human-reviewed spec
Main exports: ch, isDigit, decimal, atoi, atoi_decimal, Memory, store, snprintf, cstring, Holds,
  Holds.store, Holds.cstring
Open obligations: none
-/
import Mathlib.Algebra.Group.Nat.Defs

namespace CText

/-! ### Characters and numbers -/

/-- The byte of an ASCII character. -/
def ch (c : Char) : UInt8 := UInt8.ofNat c.toNat

/-- `'0' <= b && b <= '9'`. -/
def isDigit (b : UInt8) : Bool := ch '0' ≤ b && b ≤ ch '9'

/-- `isspace` in the C locale. -/
def isSpace (b : UInt8) : Bool := b = ch ' ' || (9 ≤ b && b ≤ 13)

/-- The value of a run of digits. -/
def digitsValue (digits : List UInt8) : Nat :=
  digits.foldl (fun value b => 10 * value + (b.toNat - 48)) 0

/-- The text that `%u` prints for `n`. -/
def decimal (n : Nat) : List UInt8 := (Nat.toDigits 10 n).map ch

/-- `strtol` returns the end of the range that a value leaves. -/
def saturate (value : Int) : Int := max (-2147483648) (min 2147483647 value)

/-- `atoi`: leading white space, an optional sign, and a run of digits, with 32-bit `int` and
    `long`. -/
def atoi (text : List UInt8) : Int :=
  match text.dropWhile isSpace with
  | [] => 0
  | b :: rest =>
      if b = ch '-' then saturate (-(digitsValue (rest.takeWhile isDigit) : Int))
      else if b = ch '+' then saturate (digitsValue (rest.takeWhile isDigit))
      else saturate (digitsValue ((b :: rest).takeWhile isDigit))

/-- The conversion of an `int` to a `uint8_t`. -/
def toU8 (value : Int) : UInt8 := UInt8.ofNat (value % 256).toNat

theorem ch_toNat {c : Char} (small : c.toNat < 256) : (ch c).toNat = c.toNat := by
  simp [ch, Nat.mod_eq_of_lt small]

theorem isDigit_iff {b : UInt8} : isDigit b = true ↔ 48 ≤ b.toNat ∧ b.toNat ≤ 57 := by
  simp [isDigit, UInt8.le_iff_toNat_le, ch_toNat]

theorem isDigit_ch {c : Char} (digit : c.isDigit = true) : isDigit (ch c) = true := by
  have range : 48 ≤ c.toNat ∧ c.toNat ≤ 57 := Char.isDigit_iff_toNat.mp digit
  rw [isDigit_iff, ch_toNat (by omega)]
  exact range

theorem isDigit_of_mem_decimal {n : Nat} {b : UInt8} (member : b ∈ decimal n) : isDigit b = true := by
  obtain ⟨c, digit, rfl⟩ := List.mem_map.mp member
  exact isDigit_ch (Nat.isDigit_of_mem_toDigits (by decide) (by decide) digit)

theorem decimal_ne_nil (n : Nat) : decimal n ≠ [] := by
  simp [decimal]

theorem decimal_length_pos (n : Nat) : 0 < (decimal n).length :=
  List.length_pos_iff.mpr (decimal_ne_nil n)

theorem decimal_length_le {n k : Nat} (positive : 0 < k) (bound : n < 10 ^ k) :
    (decimal n).length ≤ k := by
  rw [decimal, List.length_map]
  exact (Nat.length_toDigits_le_iff (by decide) positive).mpr bound

theorem decimal_u8_length (b : UInt8) : (decimal b.toNat).length ≤ 3 :=
  decimal_length_le (by decide) (by have := b.toNat_lt; omega)

theorem digitsValue_decimal (n : Nat) : digitsValue (decimal n) = n := by
  have digits : ∀ c ∈ Nat.toDigits 10 n, c.isDigit = true := fun c member =>
    Nat.isDigit_of_mem_toDigits (by decide) (by decide) member
  have folds : ∀ (cs : List Char) (start : Nat), (∀ c ∈ cs, c.isDigit = true) →
      (cs.map ch).foldl (fun value b => 10 * value + (b.toNat - 48)) start =
        Nat.ofDigitChars 10 cs start := by
    intro cs
    induction cs with
    | nil => intros; rfl
    | cons c cs ih =>
        intro start all
        have range : 48 ≤ c.toNat ∧ c.toNat ≤ 57 := Char.isDigit_iff_toNat.mp (all c (by simp))
        rw [List.map_cons, List.foldl_cons, ch_toNat (by omega), Nat.ofDigitChars_cons]
        exact ih _ fun d member => all d (List.mem_cons_of_mem c member)
  rw [digitsValue, decimal, folds _ _ digits, Nat.ofDigitChars_ten_toDigits]

/-- A digit is no separator. -/
theorem ne_of_isDigit {b c : UInt8} (digit : isDigit b = true) (other : isDigit c = false) : b ≠ c := by
  rintro rfl
  rw [digit] at other
  cases other

theorem decimal_ne_zero (n : Nat) : ∀ b ∈ decimal n, b ≠ 0 := fun _ member =>
  ne_of_isDigit (isDigit_of_mem_decimal member) (by decide)

theorem ne_zero_of_all {text : List UInt8} (noNul : text.all (· ≠ 0) = true) : ∀ b ∈ text, b ≠ 0 :=
  fun b member => of_decide_eq_true (List.all_eq_true.mp noNul b member)

theorem not_isSpace_of_isDigit {b : UInt8} (digit : isDigit b = true) : isSpace b = false := by
  have range := isDigit_iff.mp digit
  simp only [isSpace, Bool.or_eq_false_iff, decide_eq_false_iff_not, Bool.and_eq_false_iff,
    UInt8.le_iff_toNat_le]
  refine ⟨ne_of_isDigit digit (by decide), .inr ?_⟩
  change ¬ b.toNat ≤ 13
  omega

/-- Reading a printed number stops at the first byte that is no digit. -/
theorem takeWhile_decimal (n : Nat) {rest : List UInt8}
    (stop : ∀ b ∈ rest.head?, isDigit b = false) :
    (decimal n ++ rest).takeWhile isDigit = decimal n := by
  rw [List.takeWhile_append_of_pos fun b => isDigit_of_mem_decimal]
  cases rest with
  | nil => simp
  | cons b rest => simp [stop b (by simp)]

/-- `atoi` reads back what `%u` printed. -/
theorem atoi_decimal {n : Nat} (small : n < 2147483648) {rest : List UInt8}
    (stop : ∀ b ∈ rest.head?, isDigit b = false) : atoi (decimal n ++ rest) = n := by
  have taken := takeWhile_decimal n stop
  obtain ⟨b, digits, printed⟩ := List.exists_cons_of_ne_nil (decimal_ne_nil n)
  have digit : isDigit b = true := isDigit_of_mem_decimal (n := n) (by simp [printed])
  have noSpace : (decimal n ++ rest).dropWhile isSpace = b :: (digits ++ rest) := by
    rw [printed, List.cons_append, List.dropWhile_cons, not_isSpace_of_isDigit digit]
    rfl
  rw [printed, List.cons_append] at taken
  rw [atoi, noSpace]
  have noMinus : b ≠ ch '-' := ne_of_isDigit digit (by decide)
  have noPlus : b ≠ ch '+' := ne_of_isDigit digit (by decide)
  simp only [noMinus, noPlus, if_false]
  rw [taken, ← printed, digitsValue_decimal]
  unfold saturate
  omega

theorem toU8_natCast (b : UInt8) : toU8 (b.toNat : Int) = b := by
  have small := b.toNat_lt
  have same : ((b.toNat : Int) % 256).toNat = b.toNat := by omega
  rw [toU8, same, UInt8.ofNat_toNat]

/-! ### Buffers -/

/-- The memory from the first byte of a buffer on. -/
abbrev Memory := Nat → UInt8

/-- Store bytes one after the other from position `start`. -/
def store (memory : Memory) (start : Nat) : List UInt8 → Memory
  | [] => memory
  | b :: rest => store (fun i => if i = start then b else memory i) (start + 1) rest

/-- `snprintf` with a buffer of `size` bytes at position `start`. -/
def snprintf (memory : Memory) (start size : Nat) (text : List UInt8) : Memory :=
  if size = 0 then memory else store memory start (text.take (size - 1) ++ [0])

/-- The first `n` bytes. -/
def bytes (memory : Memory) (n : Nat) : List UInt8 := (List.range n).map memory

/-- The C string among some bytes: everything before the terminator. -/
def cstr (text : List UInt8) : List UInt8 := text.takeWhile (· ≠ 0)

/-- The C string at the start of a buffer of `n` bytes. -/
def cstring (memory : Memory) (n : Nat) : List UInt8 := cstr (bytes memory n)

/-- The buffer starts with `text`. -/
def Holds (memory : Memory) (text : List UInt8) : Prop := bytes memory text.length = text

theorem store_outside {memory : Memory} {text : List UInt8} {start i : Nat}
    (outside : i < start ∨ start + text.length ≤ i) : store memory start text i = memory i := by
  induction text generalizing memory start with
  | nil => rfl
  | cons b rest ih =>
      rw [List.length_cons] at outside
      rw [store, ih (by omega)]
      exact if_neg (by omega)

theorem store_inside (memory : Memory) {text : List UInt8} (start : Nat) {i : Nat}
    (inside : i < text.length) : store memory start text (start + i) = text[i] := by
  induction text generalizing memory start i with
  | nil => cases inside
  | cons b rest ih =>
      cases i with
      | zero =>
          rw [store, store_outside (.inl (by omega))]
          simp
      | succ i =>
          have within : i < rest.length := by simpa using inside
          have shifted := ih (fun j => if j = start then b else memory j) (start + 1) within
          rw [store, show start + (i + 1) = start + 1 + i by omega, shifted]
          simp

theorem Holds.get {memory : Memory} {text : List UInt8} (holds : Holds memory text) {i : Nat}
    (inside : i < text.length) : memory i = text[i] := by
  have here : i < (bytes memory text.length).length := by simpa [bytes] using inside
  have entry : (bytes memory text.length)[i] = memory i := by simp [bytes]
  rw [← entry]
  congr 1

theorem holds_of_get {memory : Memory} {text : List UInt8}
    (get : ∀ i, (inside : i < text.length) → memory i = text[i]) : Holds memory text := by
  apply List.ext_getElem (by simp [bytes])
  intro i _ inside
  simpa [bytes] using get i inside

theorem Holds.left {memory : Memory} {front back : List UInt8} (holds : Holds memory (front ++ back)) :
    Holds memory front := by
  apply holds_of_get
  intro i inside
  rw [holds.get (by rw [List.length_append]; omega), List.getElem_append_left inside]

/-- The first byte of a held text can be replaced. -/
theorem Holds.store_head {memory : Memory} {a : UInt8} {text : List UInt8}
    (holds : Holds memory (a :: text)) (b : UInt8) : Holds (store memory 0 [b]) (b :: text) := by
  apply holds_of_get
  intro i inside
  cases i with
  | zero => simp [CText.store]
  | succ i =>
      rw [store_outside (.inr (by simp)), holds.get (by simpa using inside)]
      simp

/-- A text stored where the held text ends extends it. -/
theorem Holds.store {memory : Memory} {front back new : List UInt8}
    (holds : Holds memory (front ++ back)) : Holds (store memory front.length new) (front ++ new) := by
  apply holds_of_get
  intro i inside
  by_cases before : i < front.length
  · rw [store_outside (.inl before), holds.left.get before, List.getElem_append_left before]
  · obtain ⟨j, rfl⟩ := Nat.exists_eq_add_of_le (Nat.not_lt.mp before)
    rw [List.length_append] at inside
    rw [store_inside _ _ (by omega), List.getElem_append_right (by omega)]
    congr 1
    omega

theorem bytes_take {memory : Memory} {k n : Nat} (short : k ≤ n) :
    (bytes memory n).take k = bytes memory k := by
  rw [bytes, bytes, ← List.map_take, List.take_range, Nat.min_eq_left short]

/-- The bytes of a buffer that starts with `text`. -/
theorem Holds.bytes_eq_take {memory : Memory} {text : List UInt8} (holds : Holds memory text) {n : Nat}
    (short : n ≤ text.length) : bytes memory n = text.take n := by
  rw [← bytes_take short, holds]

/-- Everything before the first NUL is the C string. -/
theorem cstr_append {text rest : List UInt8} (noNul : ∀ b ∈ text, b ≠ 0)
    (stop : ∀ b ∈ rest.head?, b = 0) : cstr (text ++ rest) = text := by
  rw [cstr, List.takeWhile_append_of_pos (by simpa using noNul)]
  cases rest with
  | nil => simp
  | cons b rest => simp [stop b (by simp)]

/-- Cutting a terminated text and terminating it again. -/
theorem cstr_take {text : List UInt8} (noNul : ∀ b ∈ text, b ≠ 0) (n : Nat) :
    cstr ((text ++ [0]).take n ++ [0]) = text.take n := by
  have cut : (text ++ [0]).take n ++ [0] =
      text.take n ++ (([0] : List UInt8).take (n - text.length) ++ [0]) := by
    rw [List.take_append, List.append_assoc]
  rw [cut]
  apply cstr_append (fun b member => noNul b (List.mem_of_mem_take member))
  cases n - text.length with
  | zero => simp
  | succ k => simp

/-- A terminated text is the C string of its buffer. -/
theorem Holds.cstring {memory : Memory} {text : List UInt8} (holds : Holds memory (text ++ [0]))
    (noNul : ∀ b ∈ text, b ≠ 0) {n : Nat} (room : text.length < n) : cstring memory n = text := by
  have front : (bytes memory n).take (text ++ [0]).length = text ++ [0] := by
    rw [bytes_take (by rw [List.length_append]; exact room)]
    exact holds
  rw [CText.cstring, ← List.take_append_drop (text ++ [0]).length (bytes memory n), front,
    List.append_assoc]
  exact cstr_append noNul (by simp)

end CText
