/-!
# Text

* `Text`: a piece of text, as the list of its characters.
* `Text.utf8Size`: the number of bytes of its UTF-8 form.
* `Text.join`: pieces with a separator between them.
* `Text.inRanges`: membership of a character in a table of code point ranges.
-/

namespace StyleRules

/-- A piece of text: its characters in order. -/
abbrev Text := List Char

namespace Text

/-- The number of bytes that `t` takes in UTF-8. -/
def utf8Size : Text → Nat
  | [] => 0
  | c :: t => c.utf8Size + utf8Size t

@[simp] theorem utf8Size_nil : utf8Size [] = 0 := rfl

@[simp] theorem utf8Size_cons (c : Char) (t : Text) :
    utf8Size (c :: t) = c.utf8Size + utf8Size t := rfl

@[simp] theorem utf8Size_append (s t : Text) : utf8Size (s ++ t) = utf8Size s + utf8Size t := by
  induction s with
  | nil => simp
  | cons c s ih => simp [ih, Nat.add_assoc]

/-- The pieces in order, with `separator` between each two neighbours. -/
def join (separator : Text) (pieces : List Text) : Text := separator.intercalate pieces

@[simp] theorem join_nil (separator : Text) : join separator [] = [] := rfl

@[simp] theorem join_singleton (separator t : Text) : join separator [t] = t :=
  List.intercalate_singleton

theorem join_cons_cons (separator s t : Text) (rest : List Text) :
    join separator (s :: t :: rest) = s ++ separator ++ join separator (t :: rest) :=
  List.intercalate_cons_cons

/-- Whether the code point of `c` lies in one of the ranges, both ends included. -/
def inRanges (ranges : List (Nat × Nat)) (c : Char) : Bool :=
  ranges.any fun r => r.1 ≤ c.toNat && c.toNat ≤ r.2

end Text

end StyleRules
