import StyleRules.Text.Basic

/-!
# Spans of code points

A set of characters, written as the ranges of its code points in increasing order, with a gap
between each two. No character has one of the code points from `0xD800` to `0xDFFF`.

* `Spans.insert`, `Spans.union`: joining;
* `Spans.complement`: all other characters;
* `Spans.inter`, `Spans.diff`, `Spans.symmDiff`: from these.
-/

namespace StyleRules.Pattern

/-- Ranges of code points, both ends included, in increasing order and apart from each other. -/
abbrev Spans := List (Nat × Nat)

namespace Spans

/-- The spans with one more range; ranges that overlap it or touch it become one with it. -/
def insert (low high : Nat) : Spans → Spans
  | [] => [(low, high)]
  | (a, b) :: rest =>
    if high + 1 < a then (low, high) :: (a, b) :: rest
    else if b + 1 < low then (a, b) :: insert low high rest
    else insert (min a low) (max b high) rest

/-- The characters of either set. -/
def union (s u : Spans) : Spans := u.foldl (fun s r => insert r.1 r.2 s) s

/-- The next code point of a character. -/
def next (n : Nat) : Nat := if n = 0xD7FF then 0xE000 else n + 1

/-- The previous code point of a character. -/
def previous (n : Nat) : Nat := if n = 0xE000 then 0xD7FF else n - 1

/-- The gaps between the spans, and after them, from a code point on. -/
def gapsFrom (start : Nat) : Spans → Spans
  | [] => if start ≤ 0x10FFFF then [(start, 0x10FFFF)] else []
  | (a, b) :: rest =>
    if start < a then (start, previous a) :: gapsFrom (next b) rest else gapsFrom (next b) rest

/-- All other characters. -/
def complement (s : Spans) : Spans := gapsFrom 0 s

/-- The characters of both sets. -/
def inter (s u : Spans) : Spans := complement (union (complement s) (complement u))

/-- The characters of the first set that are not in the second. -/
def diff (s u : Spans) : Spans := inter s (complement u)

/-- The characters of exactly one of the sets. -/
def symmDiff (s u : Spans) : Spans := union (diff s u) (diff u s)

@[simp] theorem union_nil (s : Spans) : union s [] = s := rfl

end Spans

end StyleRules.Pattern
