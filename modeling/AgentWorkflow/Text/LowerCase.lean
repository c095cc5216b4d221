/-!
Lower case, as far as identifiers need it.

Only four kinds of characters have an ASCII character in their lower-case form: ASCII letters, the
Kelvin sign, and the capital I with a dot above. Identifiers keep nothing outside ASCII, so any other
character may stand for itself here.
-/

namespace AgentWorkflow.Text

/-- The lower-case form of a character, exact wherever that form has an ASCII character. -/
def lowerChar (c : Char) : List Char :=
  if c = '\u212A' then ['k']
  else if c = '\u0130' then ['i', '\u0307']
  else [c.toLower]

/-- The lower-case form of a text, exact in its ASCII characters. -/
def lowerChars (cs : List Char) : List Char :=
  cs.flatMap lowerChar

/-- A letter or digit of ASCII. -/
def isAsciiAlphanumeric (c : Char) : Bool :=
  c.isAlphanum

end AgentWorkflow.Text
