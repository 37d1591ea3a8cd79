import StyleRules.Text.Basic

/-!
# Comments in style text

* `hasClose`: whether a block comment that is open here is closed further on;
* **`stripBlockComments`**: the text without its closed block comments;
* **`stripLineComments`**: the text without its line comments, web addresses being kept.
-/

namespace StyleRules.Source

/-! ## Block comments -/

/-- Whether `*/` occurs in the text. -/
def hasClose : Text → Bool
  | [] => false
  | '*' :: '/' :: _ => true
  | _ :: t => hasClose t

/-- The text without its block comments, reading from `inside` a comment or outside of one. A
comment that is never closed is no comment. -/
def stripBlockCommentsFrom : Bool → Text → Text
  | _, [] => []
  | true, '*' :: '/' :: t => stripBlockCommentsFrom false t
  | true, _ :: t => stripBlockCommentsFrom true t
  | false, '/' :: '*' :: t =>
    if hasClose t then stripBlockCommentsFrom true t else '/' :: '*' :: t
  | false, c :: t => c :: stripBlockCommentsFrom false t

/-- **The text without its block comments.** -/
def stripBlockComments (t : Text) : Text := stripBlockCommentsFrom false t

/-! ## Line comments -/

/-- Where the reader of line comments stands. -/
inductive LinePlace where
  /-- Outside of a comment, after the given character; after none at the start, behind a kept `//`
  and behind a comment. -/
  | code (before : Option Char)
  | comment

/-- Whether `//` after this character belongs to a web address. -/
def startsAddress : Option Char → Bool
  | some c => c == ':' || c == '('
  | none => false

/-- The text without its line comments, reading from the given place. -/
def stripLineCommentsFrom : LinePlace → Text → Text
  | _, [] => []
  | .comment, c :: t => stripLineCommentsFrom (if c = '\n' then .code none else .comment) t
  | .code before, '/' :: '/' :: t =>
    if startsAddress before then '/' :: '/' :: stripLineCommentsFrom (.code none) t
    else if '\n' ∈ t then stripLineCommentsFrom .comment t
    else '/' :: '/' :: t
  | .code _, c :: t => c :: stripLineCommentsFrom (.code (some c)) t

/-- **The text without its line comments.** A comment goes from `//` through the next line break.
After `:` or `(` the two slashes belong to a web address and are kept, and so is a comment that no
line break ends. -/
def stripLineComments (t : Text) : Text := stripLineCommentsFrom (.code none) t

end StyleRules.Source
