import StyleRules.Text.Basic

/-!
# Code points as bytes

The UTF-8 forms of a range of code points, as a list of byte sequences: each sequence gives a range
for every byte, and stands for all choices of one byte from each.

* `Utf8.digitRanges`: a range of numbers as ranges of digits to the base 64;
* **`Utf8.sequences`**: the byte sequences of a range of code points;
* `Utf8.encode`: the bytes of one code point.
-/

namespace StyleRules.Utf8

/-- A range for each byte of a code point. -/
abbrev ByteSequence := List (Nat × Nat)

/-- The numbers from `low` to `high`, written with a leading digit and `n` digits to the base 64
after it: sequences of digit ranges, in increasing order. All numbers with leading digits between
those of `low` and `high` make one sequence. -/
def digitRanges : Nat → Nat → Nat → List ByteSequence
  | 0, low, high => [[(low, high)]]
  | n + 1, low, high =>
    let unit := Nat.pow 64 (n + 1)
    let first := low / unit
    let last := high / unit
    if first = last then (digitRanges n (low % unit) (high % unit)).map ((first, first) :: ·)
    else
      let isFirstWhole := low % unit == 0
      let isLastWhole := high % unit + 1 == unit
      let head := if isFirstWhole then []
        else (digitRanges n (low % unit) (unit - 1)).map ((first, first) :: ·)
      let from_ := if isFirstWhole then first else first + 1
      let to_ := if isLastWhole then last else last - 1
      let middle := if from_ ≤ to_ then [(from_, to_) :: List.replicate (n + 1) (0, 63)] else []
      let tail := if isLastWhole then []
        else (digitRanges n 0 (high % unit)).map ((last, last) :: ·)
      head ++ middle ++ tail

/-- A block of code points with forms of one length. -/
structure Block where
  low : Nat
  high : Nat
  /-- The number of bytes after the first. -/
  more : Nat
  /-- What is added to the leading digit to make the first byte. -/
  lead : Nat

/-- The blocks of code points, in increasing order. -/
def blocks : List Block :=
  [⟨0x0, 0x7F, 0, 0x00⟩, ⟨0x80, 0x7FF, 1, 0xC0⟩, ⟨0x800, 0xD7FF, 2, 0xE0⟩,
    ⟨0xE000, 0xFFFF, 2, 0xE0⟩, ⟨0x10000, 0x10FFFF, 3, 0xF0⟩]

/-- The bytes of digits in a block: each digit but the first is marked as one that follows. -/
def Block.bytes (b : Block) : ByteSequence → ByteSequence
  | [] => []
  | (low, high) :: rest =>
    (low + b.lead, high + b.lead) :: rest.map fun (low, high) => (low + 0x80, high + 0x80)

/-- **The byte sequences of a range of code points**, in increasing order. -/
def sequences (low high : Nat) : List ByteSequence :=
  blocks.flatMap fun b =>
    let low := max low b.low
    let high := min high b.high
    if low ≤ high then (digitRanges b.more low high).map b.bytes else []

/-- The bytes of a code point. -/
def encode (n : Nat) : List Nat := (sequences n n).flatMap fun bytes => bytes.map Prod.fst

end StyleRules.Utf8
