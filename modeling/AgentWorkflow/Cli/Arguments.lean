import AgentWorkflow.Compile.Options

/-!
The arguments of the command line.

There is one command, `compile`, with a graph file and options. An option has a long name and maybe a
letter; its value follows as a word of its own or within the same one. Letters can be joined. After two
hyphens alone nothing is an option any more.
-/

namespace AgentWorkflow.Cli

/-- What a command line asks for. -/
structure Arguments where
  graph : Option String
  mode : Option Mode
  options : Option String
  defaultPrompt : Option String
  out : Option String
  json : Bool
  validateOnly : Bool
  deriving DecidableEq, Repr

def Arguments.empty : Arguments := ⟨none, none, none, none, none, false, false⟩

/-- Why a command line is not followed: it is wrong, or it asks about the program itself. -/
inductive Refusal where
  | noCommand
  | unknownCommand (word : String)
  | noGraph
  | surplus (word : String)
  | repeated (option : String)
  | noValue (option : String)
  | badValue (option value : String)
  | help
  | version
  deriving DecidableEq, Repr

inductive Flag where
  | verbose
  | help
  | version
  | mode
  | options
  | defaultPrompt
  | out
  | json
  | validateOnly
  deriving DecidableEq, Repr

namespace Flag

def longNames : List (String × Flag) :=
  [("verbose", .verbose), ("help", .help), ("version", .version), ("mode", .mode),
    ("options", .options), ("default-prompt", .defaultPrompt), ("out", .out), ("json", .json),
    ("validate-only", .validateOnly)]

def letters : List (Char × Flag) :=
  [('v', .verbose), ('h', .help), ('V', .version), ('m', .mode), ('o', .out)]

def takesValue : Flag → Bool
  | .mode | .options | .defaultPrompt | .out => true
  | _ => false

/-- Whether an option is known before the command, or else after it. -/
def isKnown (inCommand : Bool) : Flag → Bool
  | .verbose | .help => true
  | .version => !inCommand
  | _ => inCommand

def ofName? (inCommand : Bool) (name : String) : Option Flag :=
  (longNames.lookup name).filter (isKnown inCommand)

def ofLetter? (inCommand : Bool) (letter : Char) : Option Flag :=
  (letters.lookup letter).filter (isKnown inCommand)

end Flag

namespace Arguments

def setOnce {α : Type} (option : String) (old : Option α) (value : α) : Except Refusal (Option α) :=
  match old with
  | none => .ok (some value)
  | some _ => .error (.repeated option)

/-- Sets a file; its name cannot be empty. -/
def setPath (option : String) (old : Option String) (value : String) :
    Except Refusal (Option String) :=
  if value = "" then .error (.noValue option) else setOnce option old value

def turnOn (option : String) (old : Bool) : Except Refusal Bool :=
  if old then .error (.repeated option) else .ok true

def setFlag (a : Arguments) : Flag → Except Refusal Arguments
  | .help => .error .help
  | .version => .error .version
  | .json => do return { a with json := ← turnOn "json" a.json }
  | .validateOnly => do return { a with validateOnly := ← turnOn "validate-only" a.validateOnly }
  | _ => .ok a

def setValue (a : Arguments) (flag : Flag) (value : String) : Except Refusal Arguments :=
  match flag with
  | .mode =>
    match Mode.choice.spellings.lookup value with
    | some mode => do return { a with mode := ← setOnce "mode" a.mode mode }
    | none => .error (.badValue "mode" value)
  | .options => do return { a with options := ← setPath "options" a.options value }
  | .defaultPrompt => do
    return { a with defaultPrompt := ← setOnce "default-prompt" a.defaultPrompt value }
  | .out => do return { a with out := ← setPath "out" a.out value }
  | _ => .ok a

def setGraph (a : Arguments) (word : String) : Except Refusal Arguments :=
  match a.graph with
  | none => do return { a with graph := ← setPath "graph" none word }
  | some _ => .error (.surplus word)

end Arguments

/-- What a word of the command line is by its form. -/
inductive Word where
  | long (name : String) (value : Option String)
  | letters (letters : List Char)
  | separator
  | plain
  deriving DecidableEq, Repr

def Word.of (text : String) : Word :=
  match text.toList with
  | ['-', '-'] => .separator
  | '-' :: '-' :: rest =>
    let name : String := .ofList (rest.takeWhile (· ≠ '='))
    match rest.dropWhile (· ≠ '=') with
    | [] => .long name none
    | _ :: value => .long name (some (.ofList value))
  | '-' :: c :: rest => .letters (c :: rest)
  | _ => .plain

/-- What reading a word leaves to be done: an option may wait for its value in the next word. -/
structure Step where
  arguments : Arguments
  waiting : Option Flag

/-- Reads joined letters. What follows the letter of an option with a value is the value, with or
without an equals sign. -/
def readLetters (inCommand : Bool) (text : String) (a : Arguments) :
    List Char → Except Refusal Step
  | [] => .ok ⟨a, none⟩
  | c :: rest =>
    match Flag.ofLetter? inCommand c with
    | none => .error (.surplus text)
    | some flag =>
      if flag.takesValue then
        match rest with
        | [] => .ok ⟨a, some flag⟩
        | '=' :: value | value => do return ⟨← a.setValue flag (.ofList value), none⟩
      else do readLetters inCommand text (← a.setFlag flag) rest

def readLong (inCommand : Bool) (text name : String) (value : Option String) (a : Arguments) :
    Except Refusal Step :=
  match Flag.ofName? inCommand name, value with
  | none, _ => .error (.surplus text)
  | some flag, some value => do
    if flag.takesValue then return ⟨← a.setValue flag value, none⟩
    else throw (.badValue name value)
  | some flag, none => do
    if flag.takesValue then return ⟨a, some flag⟩ else return ⟨← a.setFlag flag, none⟩

def readCommand (a : Arguments) (waiting : Option Flag) (onlyPlain : Bool) :
    List String → Except Refusal Arguments
  | [] =>
    match waiting with
    | some _ => .error (.noValue "")
    | none => .ok a
  | text :: rest =>
    match waiting, Word.of text with
    | some flag, .plain => do readCommand (← a.setValue flag text) none onlyPlain rest
    | some _, _ => .error (.noValue text)
    | none, word => do
      if onlyPlain then readCommand (← a.setGraph text) none true rest
      else
        match word with
        | .separator => readCommand a none true rest
        | .plain => readCommand (← a.setGraph text) none false rest
        | .letters letters =>
          let step ← readLetters true text a letters
          readCommand step.arguments step.waiting false rest
        | .long name value =>
          let step ← readLong true text name value a
          readCommand step.arguments step.waiting false rest

def readHelp : List String → Refusal
  | [] | ["compile"] | ["help"] => .help
  | word :: _ => .unknownCommand word

def readArguments : List String → Except Refusal Arguments
  | [] => .error .noCommand
  | text :: rest =>
    match Word.of text with
    | .separator => .error .noCommand
    | .plain =>
      if text = "compile" then readCommand .empty none false rest
      else if text = "help" then .error (readHelp rest)
      else .error (.unknownCommand text)
    | .letters letters => do
      discard (readLetters false text .empty letters)
      readArguments rest
    | .long name value => do
      discard (readLong false text name value .empty)
      readArguments rest

end AgentWorkflow.Cli
