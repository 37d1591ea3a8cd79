import StyleRules.Value

/-!
# Switches of the query engine

* `Switch`: the four switches and their names;
* `Switches`: a setting of all four, with `Switches.get` and `Switches.put`;
* **`Switches.ofValue?`**: the setting that a JSON value stands for.
-/

namespace StyleRules

/-- A switch of the query engine. What is ignored, a null or an undefined part of a query, admits
anything. -/
inductive Switch where
  /-- Non-empty strings of a query are found as words, whatever the blanks between them. -/
  | stringToRegex
  /-- What a key of a query gives that the target does not have. -/
  | resultIfNoTarget
  | ignoreNull
  | ignoreUndefined
  deriving DecidableEq, Repr

namespace Switch

/-- All switches, in order. -/
def all : List Switch := [stringToRegex, resultIfNoTarget, ignoreNull, ignoreUndefined]

/-- The name of a switch. -/
def name : Switch → Text
  | stringToRegex => "stringToRegex".toList
  | resultIfNoTarget => "resultIfNoTarget".toList
  | ignoreNull => "ignoreNull".toList
  | ignoreUndefined => "ignoreUndefined".toList

/-- The switch with the given name. -/
def ofName? (t : Text) : Option Switch := all.find? fun switch => switch.name == t

end Switch

/-- A setting of the four switches. -/
structure Switches where
  stringToRegex : Bool := true
  resultIfNoTarget : Bool := false
  ignoreNull : Bool := true
  ignoreUndefined : Bool := true
  deriving DecidableEq, Repr

namespace Switches

/-- The position of a switch. -/
def get (s : Switches) : Switch → Bool
  | .stringToRegex => s.stringToRegex
  | .resultIfNoTarget => s.resultIfNoTarget
  | .ignoreNull => s.ignoreNull
  | .ignoreUndefined => s.ignoreUndefined

/-- The setting with one switch put. -/
def put (s : Switches) (switch : Switch) (position : Bool) : Switches :=
  match switch with
  | .stringToRegex => { s with stringToRegex := position }
  | .resultIfNoTarget => { s with resultIfNoTarget := position }
  | .ignoreNull => { s with ignoreNull := position }
  | .ignoreUndefined => { s with ignoreUndefined := position }

/-- Puts the switch that a field of the given object names; a missing field changes nothing, and
only booleans are positions. -/
def putField? (fields : Entries Value) (s : Switches) (switch : Switch) : Option Switches :=
  match fields.get? switch.name with
  | none => some s
  | some (.bool position) => some (s.put switch position)
  | some _ => none

/-- Puts switches in order, one for each item of an array. -/
def putItems? (s : Switches) : List Switch → List Value → Option Switches
  | _, [] => some s
  | switch :: rest, .bool position :: items => putItems? (s.put switch position) rest items
  | _, _ => none

/-- **The setting that a JSON value stands for**: an object with booleans under the names of
switches, other keys being ignored, or an array of at most four booleans. What is not given stays
as it is by default. -/
def ofValue? : Value → Option Switches
  | .object fields => Switch.all.foldlM (putField? fields) {}
  | .array items => putItems? {} Switch.all items
  | _ => none

end Switches

end StyleRules
