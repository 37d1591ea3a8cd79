import StyleRules.Text.Basic

/-!
# Blanks and words

* `Text.isBlank`: the characters with the Unicode property `White_Space`.
* `Text.trim`: a text without its leading and trailing blanks.
* `Text.words`: the maximal blank-free pieces of a text.
* `Text.collapse`: every run of blanks becomes one space.
-/

namespace StyleRules.Text

/-! ## The blank characters -/

/-- The code points with the Unicode property `White_Space`, in increasing order. -/
def blankRanges : List (Nat × Nat) :=
  [(0x09, 0x0D), (0x20, 0x20), (0x85, 0x85), (0xA0, 0xA0), (0x1680, 0x1680), (0x2000, 0x200A),
    (0x2028, 0x2029), (0x202F, 0x202F), (0x205F, 0x205F), (0x3000, 0x3000)]

/-- Whether `c` has the Unicode property `White_Space`. -/
def isBlank (c : Char) : Bool := inRanges blankRanges c

@[simp] theorem isBlank_space : isBlank ' ' = true := by decide

@[simp] theorem isBlank_newline : isBlank '\n' = true := by decide

/-! ## Trimming -/

/-- `t` without its leading blanks. -/
def trimLeft (t : Text) : Text := t.dropWhile isBlank

/-- `t` without its trailing blanks. -/
def trimRight (t : Text) : Text := (t.reverse.dropWhile isBlank).reverse

/-- `t` without its leading and trailing blanks. -/
def trim (t : Text) : Text := trimRight (trimLeft t)

@[simp] theorem trim_nil : trim [] = [] := rfl

/-! ## Words -/

/-- The maximal blank-free pieces of `t`, in order. -/
def words (t : Text) : List Text := (t.splitOnP isBlank).filter fun w => !w.isEmpty

@[simp] theorem words_nil : words [] = [] := rfl

theorem ne_nil_of_mem_words {t w : Text} (h : w ∈ words t) : w ≠ [] := by
  simp only [words, List.mem_filter] at h
  simpa using h.2

/-! ## Collapsing -/

/-- Whether `t` starts with a blank. -/
def startsBlank : Text → Bool
  | [] => false
  | c :: _ => isBlank c

/-- `t` with every maximal run of blanks replaced by one space. -/
def collapse : Text → Text
  | [] => []
  | c :: t =>
    if isBlank c then
      if startsBlank t then collapse t else ' ' :: collapse t
    else c :: collapse t

@[simp] theorem collapse_nil : collapse [] = [] := rfl

/-- A collapsed text holds no blank but the space. -/
theorem eq_space_of_mem_collapse {t : Text} {c : Char} (h : c ∈ collapse t)
    (hc : isBlank c = true) : c = ' ' := by
  induction t with
  | nil => simp at h
  | cons d t ih =>
    rw [collapse] at h
    split at h
    · split at h
      · exact ih h
      · exact (List.mem_cons.1 h).elim id ih
    · rename_i hd
      rcases List.mem_cons.1 h with rfl | h
      · exact absurd hc hd
      · exact ih h

end StyleRules.Text
