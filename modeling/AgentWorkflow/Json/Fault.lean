import AgentWorkflow.Json.Value
import AgentWorkflow.Number.Shortest
import AgentWorkflow.Text.Quoted

/-!
What can be wrong with a document: its text is no JSON, or its value has another shape than the
reader asked for. A fault is a cause and a place; `Cause.message` holds all the wording.
-/

namespace AgentWorkflow.Json

/-- A place in a text: the line, counted from one, and the number of bytes before it on that line. -/
structure Position where
  line : Nat
  column : Nat
  deriving DecidableEq, Repr

/-- The kind of value found where another was expected. -/
inductive Found where
  | scalar (s : Scalar)
  | sequence
  | map
  deriving DecidableEq, Repr

inductive Expected where
  | string
  | boolean
  | float
  | word32
  | unit
  | sequence
  | map
  | record (name : String)
  | recordOf (name : String) (fields : Nat)
  | choice
  | choiceName
  | singleKey
  | tagged (name : String)
  | fewerElements
  | elements (count : Nat)
  deriving DecidableEq, Repr

inductive Cause where
  | endOfValue
  | endOfList
  | endOfObject
  | endOfString
  | expectedValue
  | expectedWord
  | expectedColon
  | expectedListEnd
  | expectedObjectEnd
  | danglingComma
  | surplusText
  | keyNotString
  | badNumber
  | numberTooLarge
  | badEscape
  | loneSurrogate
  | cutSurrogate
  | controlCharacter
  | tooDeep
  | wrongType (found : Found) (expected : Expected)
  | wrongValue (found : Found) (expected : Expected)
  | wrongLength (count : Nat) (expected : Expected)
  | unknownVariant (name : String) (known : List String)
  | missingField (name : String)
  | repeatedField (name : String)
  | noVariant (name : String)
  deriving DecidableEq, Repr

structure Fault where
  cause : Cause
  position : Position
  deriving DecidableEq, Repr

def Found.message : Found → String
  | .scalar .null => "null"
  | .scalar (.bool b) => "boolean `" ++ (if b then "true" else "false") ++ "`"
  | .scalar (.number (.natural n)) => "integer `" ++ toString n ++ "`"
  | .scalar (.number (.negative n)) => "integer `-" ++ toString n ++ "`"
  | .scalar (.number (.float x)) => "floating point `" ++ x.documentText ++ "`"
  | .scalar (.string s) => "string " ++ Text.quoted s
  | .sequence => "sequence"
  | .map => "map"

def Expected.message : Expected → String
  | .string => "a string"
  | .boolean => "a boolean"
  | .float => "f64"
  | .word32 => "u32"
  | .unit => "unit"
  | .sequence => "a sequence"
  | .map => "a map"
  | .record name => "struct " ++ name
  | .recordOf name fields =>
    "struct " ++ name ++ " with " ++ toString fields ++ (if fields = 1 then " element" else " elements")
  | .choice => "string or map"
  | .choiceName => "variant identifier"
  | .singleKey => "map with a single key"
  | .tagged name => "adjacently tagged enum " ++ name
  | .fewerElements => "fewer elements in array"
  | .elements count =>
    toString count ++ (if count = 1 then " element" else " elements") ++ " in sequence"

/-- The known names of a choice, as a message lists them. -/
def knownNames : List String → String
  | [] => "there are no variants"
  | [a] => "expected `" ++ a ++ "`"
  | [a, b] => "expected `" ++ a ++ "` or `" ++ b ++ "`"
  | names => "expected one of " ++ ", ".intercalate (names.map fun name => "`" ++ name ++ "`")

def Cause.message : Cause → String
  | .endOfValue => "EOF while parsing a value"
  | .endOfList => "EOF while parsing a list"
  | .endOfObject => "EOF while parsing an object"
  | .endOfString => "EOF while parsing a string"
  | .expectedValue => "expected value"
  | .expectedWord => "expected ident"
  | .expectedColon => "expected `:`"
  | .expectedListEnd => "expected `,` or `]`"
  | .expectedObjectEnd => "expected `,` or `\x7d`"
  | .danglingComma => "trailing comma"
  | .surplusText => "trailing characters"
  | .keyNotString => "key must be a string"
  | .badNumber => "invalid number"
  | .numberTooLarge => "number out of range"
  | .badEscape => "invalid escape"
  | .loneSurrogate => "lone leading surrogate in hex escape"
  | .cutSurrogate => "unexpected end of hex escape"
  | .controlCharacter => "control character (\\u0000-\\u001F) found while parsing a string"
  | .tooDeep => "recursion limit exceeded"
  | .wrongType found expected => "invalid type: " ++ found.message ++ ", expected " ++ expected.message
  | .wrongValue found expected =>
    "invalid value: " ++ found.message ++ ", expected " ++ expected.message
  | .wrongLength count expected =>
    "invalid length " ++ toString count ++ ", expected " ++ expected.message
  | .unknownVariant name known => "unknown variant `" ++ name ++ "`, " ++ knownNames known
  | .missingField name => "missing field `" ++ name ++ "`"
  | .repeatedField name => "duplicate field `" ++ name ++ "`"
  | .noVariant name => "data did not match any variant of untagged enum " ++ name

/-- A fault in words, with its place. -/
def Fault.message (f : Fault) : String :=
  f.cause.message ++ " at line " ++ toString f.position.line ++ " column " ++
    toString f.position.column

end AgentWorkflow.Json
