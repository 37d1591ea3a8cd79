import StyleRules.Text.Basic

/-!
# Errors

* `Error`: the causes for which reading, filtering or changing is refused;
* `Error.message`: their wording;
* `Error.isMalformed`, `Error.isMisfit`: refused text, and arguments of the wrong shape.
-/

namespace StyleRules

/-- Why a request is refused. Offsets count the bytes of a normal form. -/
inductive Error where
  | unmatchedClose (offset : Nat)
  | unmatchedOpen (offset : Nat)
  | unknownPseudo (header pseudo : Text)
  | emptySelector (header : Text)
  /-- A block header that should open a property block and holds no property. -/
  | missingProperty (header : Text)
  | emptyQuery
  | queryNotObject
  | badPattern
  | unknownMode (name : Text)
  | noProperties
  | targetNotObject
  deriving DecidableEq, Repr

namespace Error

/-- The wording of a fault at a byte offset. -/
def atOffset (offset : Nat) (fault : String) : Text :=
  "Syntax error at offset ".toList ++ Nat.toDigits 10 offset ++ ": ".toList ++ fault.toList

/-- The wording of a refused block header. -/
def aboutHeader (header fault : Text) : Text :=
  "Illegal selector '".toList ++ header ++ "': ".toList ++ fault

/-- The wording of an argument of the wrong shape. -/
def aboutArgument (argument : String) (fault : Text) : Text :=
  "Invalid '".toList ++ argument.toList ++ "' argument: ".toList ++ fault

/-- The wording of an error. A pattern that cannot be read has none of its own. -/
def message : Error → Text
  | unmatchedClose offset => atOffset offset "Unmatched '\x7d'"
  | unmatchedOpen offset => atOffset offset "Unmatched '\x7b'"
  | unknownPseudo header pseudo =>
    aboutHeader header ("unknown pseudo-class '".toList ++ pseudo ++ "'".toList)
  | emptySelector header => aboutHeader header "empty selector".toList
  | missingProperty header => aboutHeader header "expected a property segment".toList
  | emptyQuery => "Invalid query: query text must not be empty".toList
  | queryNotObject => "Invalid query: predicate must be an object".toList
  | badPattern => []
  | unknownMode name =>
    aboutArgument "mode" ("invalid mode '".toList ++ name ++
      "'; possible values: 'add', 'change', 'both'".toList)
  | noProperties => aboutArgument "properties" "should be an object with properties".toList
  | targetNotObject => aboutArgument "target" "should be an object".toList

/-- Whether an argument has the wrong shape. -/
def isMisfit : Error → Bool
  | unknownMode _ | noProperties | targetNotObject => true
  | _ => false

/-- Whether a style text, query or pattern is refused. -/
def isMalformed (e : Error) : Bool := !e.isMisfit

end Error

end StyleRules
