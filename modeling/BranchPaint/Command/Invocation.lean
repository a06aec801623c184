/-!
# Invocations

What the arguments of the command line ask for. Arguments are read from left to right, and the first
thing that settles the matter wins: a request for help, or a misuse.

An option takes its value from the same argument (`--params=1`, `-p1`, `-p=1`) or from the next one,
unless that starts with a dash; the lone dash is a value. No option may be given twice at one level.
Behind `--` everything is input.
-/

namespace BranchPaint

/-- How painted source is printed. -/
inductive Format where
  | html
  | json
deriving Repr, DecidableEq

/-- The format with a name. -/
def Format.ofText? : String → Option Format
  | "html" => some .html
  | "json" => some .json
  | _ => none

/-- What to do. -/
inductive Action where
  | simplify (input : String)
  | paint (input params : String) (format : Format)
  | analyze (input params : String) (format : Format)
  | showSettings
deriving Repr, DecidableEq

/-- The input that an action reads. -/
def Action.input? : Action → Option String
  | simplify input => some input
  | paint input _ _ => some input
  | analyze input _ _ => some input
  | showSettings => none

/-- What to do, and with which settings file. -/
structure Invocation where
  settingsPath : Option String
  action : Action
deriving Repr, DecidableEq

/-- Why arguments ask for no action. -/
inductive Refusal where
  | help
  | misuse
deriving Repr, DecidableEq

/-- A word that chooses an action. -/
inductive Verb where
  | simplify
  | paint
  | analyze
  | config
deriving Repr, DecidableEq

/-- The verb that a word is. -/
def Verb.ofText? : String → Option Verb
  | "simplify" => some .simplify
  | "paint" => some .paint
  | "analyze" => some .analyze
  | "config" => some .config
  | _ => none

/-- An option that takes a value. -/
inductive Flag where
  | config
  | params
  | format
deriving Repr, DecidableEq

/-- Has the verb this option? Without a verb only the settings file can be named. -/
def Flag.isOf (f : Flag) (verb : Option Verb) : Bool :=
  match f with
  | .config => true
  | .params | .format => verb = some .paint || verb = some .analyze

/-- The option with a long name. -/
def Flag.ofName? : String → Option Flag
  | "config" => some .config
  | "params" => some .params
  | "format" => some .format
  | _ => none

/-- The option with a letter. -/
def Flag.ofLetter? : Char → Option Flag
  | 'p' => some .params
  | 'f' => some .format
  | _ => none

/-! ## Single arguments -/

/-- What a single argument looks like. -/
inductive Token where
  /-- The mark behind which everything is input. -/
  | divider
  | long (name : String) (value : Option String)
  | short (letter : Char) (tail : List Char)
  | plain (text : String)
deriving Repr, DecidableEq

/-- The look of an argument. -/
def Token.ofText (arg : String) : Token :=
  match arg.toList with
  | ['-', '-'] => .divider
  | '-' :: '-' :: cs =>
    let name := String.ofList (cs.takeWhile (· ≠ '='))
    match cs.dropWhile (· ≠ '=') with
    | _ :: value => .long name (some (String.ofList value))
    | [] => .long name none
  | '-' :: c :: tail => .short c tail
  | _ => .plain arg

/-- The value that the tail of a short option gives, if any; an equals sign in front is not part of
it. -/
def Token.attached? : List Char → Option String
  | [] => none
  | '=' :: value => some (String.ofList value)
  | value => some (String.ofList value)

/-- What an argument means to a command with these options. -/
inductive Meaning where
  | divider
  | word (text : String)
  | help
  | flag (f : Flag) (value : Option String)
  | unknown
deriving Repr, DecidableEq

/-- Reads an argument. -/
def Meaning.ofText (verb : Option Verb) (arg : String) : Meaning :=
  let known (f? : Option Flag) (value : Option String) : Meaning :=
    match f? with
    | some f => if f.isOf verb then .flag f value else .unknown
    | none => .unknown
  match Token.ofText arg with
  | .divider => .divider
  | .plain text => .word text
  | .long "help" none => .help
  | .long name value => known (Flag.ofName? name) value
  | .short 'h' _ => .help
  | .short c tail => known (Flag.ofLetter? c) (Token.attached? tail)

/-! ## Lists of arguments -/

/-- What a command has been given so far. -/
structure Given where
  config : Option String := none
  params : Option String := none
  format : Option Format := none
  input : Option String := none
deriving Repr, DecidableEq

namespace Given

/-- Takes the value of an option that has none yet. -/
def supply (g : Given) (f : Flag) (value : String) : Except Refusal Given :=
  match f with
  | .config =>
    if g.config.isSome || value.isEmpty then .error .misuse else .ok { g with config := some value }
  | .params => if g.params.isSome then .error .misuse else .ok { g with params := some value }
  | .format =>
    match g.format, Format.ofText? value with
    | none, some fmt => .ok { g with format := some fmt }
    | _, _ => .error .misuse

/-- Takes an input; there is room for one, and none with `config`. -/
def take (verb : Verb) (g : Given) (input : String) : Except Refusal Given :=
  if verb = .config || g.input.isSome then .error .misuse else .ok { g with input := some input }

/-- Takes inputs in order. -/
def takeAll (verb : Verb) : List String → Given → Except Refusal Given
  | [], g => .ok g
  | a :: args, g => do takeAll verb args (← g.take verb a)

/-- Reads the arguments behind a verb. An option that waits for its value comes first. -/
def scan (verb : Verb) : Option Flag → List String → Given → Except Refusal Given
  | none, [], g => .ok g
  | some _, [], _ => .error .misuse
  | some f, a :: args, g =>
    match Token.ofText a with
    | .plain value => do scan verb none args (← g.supply f value)
    | _ => .error .misuse
  | none, a :: args, g =>
    match Meaning.ofText (some verb) a with
    | .divider => takeAll verb args g
    | .word text => do scan verb none args (← g.take verb text)
    | .help => .error .help
    | .flag f (some value) => do scan verb none args (← g.supply f value)
    | .flag f none => scan verb (some f) args g
    | .unknown => .error .misuse

/-- The action that a verb asks for with what it was given. -/
def action (g : Given) (verb : Verb) : Except Refusal Action :=
  match verb, g.input with
  | .config, _ => .ok .showSettings
  | .simplify, some input => .ok (.simplify input)
  | .paint, some input => .ok (.paint input (g.params.getD "") (g.format.getD .html))
  | .analyze, some input => .ok (.analyze input (g.params.getD "") (g.format.getD .html))
  | _, none => .error .misuse

end Given

/-- Is this a word that help can be asked about? Nothing, or one verb. -/
def isHelpTopic : List String → Bool
  | [] => true
  | [word] => word = "help" || (Verb.ofText? word).isSome
  | _ => false

namespace Invocation

/-- Reads arguments up to the verb and hands over the rest. A settings file named behind the verb
wins over one named before it. -/
def scan : Option Flag → List String → Given → Except Refusal Invocation
  | _, [], _ => .error .misuse
  | some f, a :: args, g =>
    match Token.ofText a with
    | .plain value => do scan none args (← g.supply f value)
    | _ => .error .misuse
  | none, a :: args, g =>
    match Meaning.ofText none a with
    | .word "help" => .error (if isHelpTopic args then .help else .misuse)
    | .word text =>
      match Verb.ofText? text with
      | some verb => do
        let inner ← Given.scan verb none args {}
        let action ← inner.action verb
        pure ⟨inner.config.or g.config, action⟩
      | none => .error .misuse
    | .help => .error .help
    | .flag f (some value) => do scan none args (← g.supply f value)
    | .flag f none => scan (some f) args g
    | .divider | .unknown => .error .misuse

/-- What arguments ask for. -/
def ofArguments (args : List String) : Except Refusal Invocation := scan none args {}

end Invocation

end BranchPaint
