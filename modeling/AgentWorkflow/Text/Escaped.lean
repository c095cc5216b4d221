/-!
Escaped texts: a text between double quotes on one line, with quotes, backslashes and control
characters written as escapes. Documents and programs share this form.
-/

namespace AgentWorkflow.Text

def hexDigit (n : Nat) : Char :=
  if n < 10 then Char.ofNat (n + 48) else Char.ofNat (n + 87)

def escapedChar (c : Char) : List Char :=
  match c with
  | '"' => ['\\', '"']
  | '\\' => ['\\', '\\']
  | '\x08' => ['\\', 'b']
  | '\x0c' => ['\\', 'f']
  | '\n' => ['\\', 'n']
  | '\r' => ['\\', 'r']
  | '\t' => ['\\', 't']
  | c =>
    if c.toNat < 0x20 then
      ['\\', 'u', '0', '0', hexDigit (c.toNat / 16), hexDigit (c.toNat % 16)]
    else [c]

def escapedChars (cs : List Char) : List Char :=
  '"' :: cs.flatMap escapedChar ++ ['"']

def escaped (s : String) : String :=
  .ofList (escapedChars s.toList)

end AgentWorkflow.Text
