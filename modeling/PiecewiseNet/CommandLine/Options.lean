/-!
# Options

A command line is a sequence of options, each `--name value`, `--name=value`, `-n value`, `-nvalue`
or a flag without a value, up to the name of a command or to the end.

## Main definitions

- `OptionSpec`, `Level`: the options and commands that are known at a place.
- `Given`: the options that were given.
- `Level.read`: reads the options up to the next command.

## Design notes

Every fault of a command line is the same to a caller, so readings yield `none` for it.
-/

namespace PiecewiseNet.CommandLine

/-- What an option does. -/
inductive OptionRole where
  /-- A mark without a value. -/
  | flag (repeats : Bool)
  /-- An option with a value that passes `check`. With `hyphens` any text is taken as the value. -/
  | value (check : String → Bool) (hyphens repeats : Bool)
  | help
  | version

/-- An option. -/
structure OptionSpec where
  /-- The name behind two hyphens. -/
  long : String
  /-- The letter behind one hyphen. -/
  short : Option Char
  /-- What it does. -/
  role : OptionRole

/-- The options and commands that are known at a place. -/
structure Level where
  options : List OptionSpec
  commands : List String

/-- The options that were given, by their long names and in order; a flag has an empty value. -/
abbrev Given := List (String × String)

namespace Given

/-- An option was given. -/
def has (given : Given) (name : String) : Bool :=
  given.any (·.1 == name)

/-- The values of an option. -/
def values (given : Given) (name : String) : List String :=
  (given.filter (·.1 == name)).map (·.2)

end Given

/-- How the options of a level end. -/
inductive Ending where
  /-- With the command line. -/
  | done
  /-- With a command, before its own options. -/
  | command (name : String) (rest : List String)
  | help
  | version

/-- What is known behind an argument. -/
inductive Step where
  /-- Options were given. -/
  | taken (given : Given)
  /-- An option awaits its value. -/
  | awaits (option : OptionSpec) (given : Given)
  /-- The options end. -/
  | ends (e : Ending)

namespace OptionSpec

/-- The option may be given more than once. -/
def repeats (o : OptionSpec) : Bool :=
  match o.role with
  | .flag repeats => repeats
  | .value _ _ repeats => repeats
  | _ => true

/-- The option takes any text as its value. -/
def hyphens (o : OptionSpec) : Bool :=
  match o.role with
  | .value _ hyphens _ => hyphens
  | _ => false

/-- Adds an option with its value to those given. -/
def give (o : OptionSpec) (value : String) (given : Given) : Option Given :=
  let passes :=
    match o.role with
    | .value check _ _ => check value
    | _ => true
  if passes && (o.repeats || !given.has o.long) then some (given ++ [(o.long, value)]) else none

/-- What is known behind an option with the value attached to it, if there is one. -/
def step (o : OptionSpec) (attached : Option String) (given : Given) : Option Step :=
  match o.role, attached with
  | .value .., some v => .taken <$> o.give v given
  | .value .., none => some (.awaits o given)
  | _, some _ => none
  | .flag _, none => .taken <$> o.give "" given
  | .help, none => some (.ends .help)
  | .version, none => some (.ends .version)

end OptionSpec

namespace Level

/-- What is known behind letters that stand behind one hyphen: flags, and at the end perhaps an
option with its value. -/
def readLetters (l : Level) : List Char → Given → Option Step
  | [], given => some (.taken given)
  | c :: rest, given =>
    match l.options.find? (·.short == some c) with
    | none => none
    | some o =>
      match o.role with
      | .value .. =>
        let attached :=
          match rest with
          | [] => none
          | '=' :: value => some (String.ofList value)
          | value => some (String.ofList value)
        o.step attached given
      | _ =>
        match o.step none given with
        | some (.taken given) => l.readLetters rest given
        | s => s

/-- What is known behind a name that stands behind two hyphens, with a value behind an equals
sign. -/
def readName (l : Level) (body : List Char) (given : Given) : Option Step :=
  let name := String.ofList (body.takeWhile (· != '='))
  let attached :=
    match body.dropWhile (· != '=') with
    | _ :: value => some (String.ofList value)
    | [] => none
  match l.options.find? (·.long == name) with
  | none => none
  | some o => o.step attached given

/-- What is known behind the value of an option that awaited it. -/
def readValue (o : OptionSpec) (value : String) (given : Given) : Option Given :=
  match value.toList with
  | '-' :: _ :: _ => if o.hyphens then o.give value given else none
  | _ => o.give value given

/-- Reads the options up to the next command. Two hyphens alone may only stand at the end. -/
def read (l : Level) : Option OptionSpec → Given → List String → Option (Given × Ending)
  | none, given, [] => some (given, .done)
  | some _, _, [] => none
  | some o, given, value :: rest =>
    match readValue o value given with
    | some given => l.read none given rest
    | none => none
  | none, given, arg :: rest =>
    -- The name of a command counts wherever an option could stand.
    if l.commands.contains arg then
      some (given, .command arg rest)
    else
      let step : Option Step :=
        match arg.toList with
        | ['-', '-'] => if rest.isEmpty then some (.taken given) else none
        | '-' :: '-' :: body => l.readName body given
        | '-' :: c :: letters => l.readLetters (c :: letters) given
        | _ => none
      match step with
      | none => none
      | some (.taken given) => l.read none given rest
      | some (.awaits o given) => l.read (some o) given rest
      | some (.ends e) => some (given, e)

end Level

end PiecewiseNet.CommandLine
