import SwitchSynth.Text.Quoted

/-!
# Errors

Everything that can go wrong, as causes. `Error.message` gives the wording of the causes that have one.
-/

namespace SwitchSynth

/-- The conditions that are checked on the way. -/
inductive Check where
  | noStateVariable
  | repeatedHole
  | repeatedArgument
  | negativeWidth
  | noMuxInput
  | noOperand
  /-- A sketch is wanted for a mode that has none. -/
  | modeWithoutSketch
  | unterminatedUpdate
  | incompleteIndicator
  | notStateless (word : String)
  /-- A primitive that a stateless ALU must not use. -/
  | unexpectedKeyword (word : String)
  /-- A hole has no value, or more than one, in a solved sketch. -/
  | ambiguousHole (hole : String) (values : List (List String))
  | unassignedHole
  /-- The synthesiser could not read a sketch. -/
  | unreadableSketch
  /-- A switch is given neither as on nor as off. -/
  | notASwitch
  | tooManyFields (fields alus : Int)
  | tooManyInputs (fields alus : Int)
  | tooManyChecked (fields alus : Int)
  /-- A file of assertions has none or more than one. -/
  | assertionCount (file : String)
  | notQuantified
  | sourceType (line : String)
  | notABit
  /-- A selector that is neither a truth value nor an integer variable. -/
  | selectorType
  | constantType (type : String)
  | unknownOperation (line : String)
  | noGrammar (path : String)
  | nothingGenerated
  deriving DecidableEq, Repr

/-- How a failed check is worded; several have no words. -/
def Check.message : Check → String
  | noStateVariable | repeatedHole | repeatedArgument | negativeWidth | noMuxInput | noOperand
  | modeWithoutSketch | unassignedHole | unreadableSketch | notASwitch | notABit => ""
  | unterminatedUpdate => "Every update must end with a semicolon."
  | incompleteIndicator =>
    "Error: invalid state indicator argument provided for type. Insert +                 " ++
      "'stateful' or 'stateless'"
  | notStateless word =>
    "Error:  type is declared as " ++ word ++ " and not 'stateless' for stateless ALU "
  | unexpectedKeyword word => "Unexpected keyword " ++ word ++ " in stateless ALU."
  | ambiguousHole hole values =>
    "Unexpected number of assignment statements found for hole " ++ hole ++ ", with values " ++
      "[" ++ String.intercalate ", " (values.map Text.quotedTuple) ++ "]"
  | tooManyFields fields alus =>
    "Number of fields in program " ++ toString fields ++
      " is greater than number of alus per stage " ++ toString alus ++
      ". Try increasing number of alus per stage."
  | tooManyInputs fields alus =>
    "Number of input fields in program " ++ toString fields ++
      " isgreater than number of alus per stage " ++ toString alus ++
      ". Try increasing number of alus per stage."
  | tooManyChecked fields alus =>
    "Number of checked fields in program " ++ toString fields ++
      " is greater than number of alus per stage " ++ toString alus ++
      ". Try increasing number of alus per stage."
  | assertionCount file => file ++ " contains 0 or more than 1 asserts."
  | notQuantified => "Formula is not a quantifier:\n"
  | sourceType line =>
    "Unexpected variable type found in                         sketch IR: " ++ line
  | selectorType => "Variable type not supported"
  | constantType type => "Constant type " ++ type ++ " not supported"
  | unknownOperation line => "Unknown operation: " ++ line
  | noGrammar path => "Can't find grammar file: " ++ path
  | nothingGenerated => "Antlr4 failed to generate Parser/Lexer."

/-- The causes of failure. -/
inductive Error where
  /-- A checked condition does not hold. -/
  | check (c : Check)
  /-- A name that is not in a table. -/
  | missingKey (key : String)
  /-- A position beyond the ends of a list. -/
  | outOfRange
  | noSuchFile (path : String)
  | isADirectory (path : String)
  | notADirectory (path : String)
  /-- A byte that is not ASCII in a text that is read. -/
  | wideByte (byte offset : Nat)
  /-- A run of characters that are not ASCII in a text that is written, by its first one. -/
  | wideChars (first : Char) (offset length : Nat)
  | notANumeral (text : String)
  /-- A numeral with more digits than are read. -/
  | longNumeral (digits : Nat)
  /-- The logarithm of a number that is not positive. -/
  | noLogarithm
  | noWorkers
  /-- A field that a page needs and that its data lack. -/
  | undefinedField (name : String)
  | wrongType
  /-- A part of an object that is not there. -/
  | absentPart
  /-- A local value used before it is given. -/
  | unboundValue
  | illFormed
  /-- A text that is no pattern. -/
  | notAPattern
  | rejectedSketch (file output : String)
  /-- A grammar rule without a predicate. -/
  | noPredicate (rule : Int)
  /-- The program ends with a code. -/
  | exit (code : Int)
  | commandFailed
  deriving DecidableEq, Repr

/-- The wording of a cause; some causes have none. -/
def Error.message : Error → Option String
  | check c => some c.message
  | missingKey key => some key
  | outOfRange => some "list index out of range"
  | noSuchFile path => some ("[Errno 2] No such file or directory: " ++ Text.quoted path)
  | isADirectory path => some ("[Errno 21] Is a directory: " ++ Text.quoted path)
  | notADirectory path => some ("[Errno 20] Not a directory: " ++ Text.quoted path)
  | wideByte byte offset =>
    some ("'ascii' codec can't decode byte 0x" ++ Text.hex 2 byte ++ " in position " ++
      toString offset ++ ": ordinal not in range(128)")
  | wideChars first offset length =>
    let place :=
      if length = 1 then " '" ++ Text.numberEscape first ++ "' in position " ++ toString offset
      else "s in position " ++ toString offset ++ "-" ++ toString (offset + length - 1)
    some ("'ascii' codec can't encode character" ++ place ++ ": ordinal not in range(128)")
  | notANumeral text =>
    some ("invalid literal for int() with base 10: " ++ ((Text.quoted text).take 200).toString)
  | longNumeral digits =>
    some ("Exceeds the limit (4300 digits) for integer string conversion: value has " ++
      toString digits ++ " digits; use sys.set_int_max_str_digits() to increase the limit")
  | noLogarithm => some "math domain error"
  | noWorkers => some "max_workers must be greater than 0"
  | undefinedField name => some ("'dict object' has no attribute " ++ Text.quoted name)
  | rejectedSketch file output =>
    some (file ++ " contains a syntax error.Output pasted below:\n\n" ++ output)
  | noPredicate rule => some ("No predicate with index:" ++ toString rule)
  | exit code => some (toString code)
  | wrongType | absentPart | unboundValue | illFormed | notAPattern | commandFailed => none

end SwitchSynth
