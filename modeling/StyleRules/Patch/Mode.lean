import StyleRules.Error
import StyleRules.Value

/-!
# Setter modes

* `Mode`: which keys of a target a setter may touch;
* `Mode.adds`, `Mode.changes`;
* `Mode.name`, `Mode.ofName`, `Mode.ofValue?`: names of modes and how they are read.
-/

namespace StyleRules

/-- Which keys of a target may be touched. -/
inductive Mode where
  /-- Only keys that the target does not have. -/
  | add
  /-- Only keys that the target has. -/
  | change
  | both
  deriving DecidableEq, Repr

/-- Where no mode is given, all keys may be touched. -/
instance : Inhabited Mode := ⟨.both⟩

namespace Mode

/-- Whether missing keys may be added. -/
def adds : Mode → Bool
  | add | both => true
  | change => false

/-- Whether present keys may be changed. -/
def changes : Mode → Bool
  | change | both => true
  | add => false

/-- The name of a mode. -/
def name : Mode → Text
  | add => "add".toList
  | change => "change".toList
  | both => "both".toList

/-- The mode with the given name. -/
def ofName? (t : Text) : Option Mode := [add, change, both].find? fun mode => mode.name == t

/-- The mode with the given name, or the reason why there is none. -/
def ofName (t : Text) : Except Error Mode :=
  match ofName? t with
  | some mode => .ok mode
  | none => .error (.unknownMode t)

/-- The mode that a JSON value stands for: its name, or an object with the name as its only key and
null under it. -/
def ofValue? : Value → Option Mode
  | .string t => ofName? t
  | .object [(t, .null)] => ofName? t
  | _ => none

theorem ofName?_name (mode : Mode) : ofName? mode.name = some mode := by
  cases mode <;> rfl

end Mode

end StyleRules
