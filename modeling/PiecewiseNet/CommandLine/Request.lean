import PiecewiseNet.Analysis.NeuronOverride
import PiecewiseNet.CommandLine.Options
import PiecewiseNet.Comparison
import PiecewiseNet.Decimal.Reader
import PiecewiseNet.StateCheck
import PiecewiseNet.Text.Numeral

/-!
# Requests

What a command line asks for.

## Main definitions

- `Command`: the commands with their arguments.
- `Request`: a command to run, a help page or the version.
- `Request.ofArguments?`: the request of a command line.
-/

namespace PiecewiseNet.CommandLine

open Text

/-- The kinds of queries. -/
inductive QueryKind where
  /-- Can the overrides move an output by the margin in a direction? -/
  | exact (overrides : List NeuronOverride) (direction : Direction) (output : Nat)
  /-- Can the overrides make another output beat a winning one? -/
  | minimum (overrides : List NeuronOverride) (output counter : Nat)
  /-- The network with and without the overrides, side by side. -/
  | joined (overrides : List NeuronOverride)
  /-- Is the neuron ever outside the phase? -/
  | state (layer neuron : Nat) (phase : Phase)

/-- The options of all queries. -/
structure QueryOptions where
  /-- The path of the network. -/
  network : String
  /-- The path of the written query. -/
  out : Option String
  firstLayer : Option Nat
  firstCut : Option Nat
  lastLayer : Option Nat
  lastCut : Option Nat
  /-- The digits of a part of the input box. -/
  subspace : Option String
  /-- The number of slices of a round. -/
  splits : Nat

/-- A command. -/
inductive Command where
  /-- Shows the layers and the input box of a network. -/
  | inspect (network : String) (json : Bool)
  /-- Evaluates a network, with overrides also the overridden one. -/
  | evaluate (network : String) (input : List Float) (overrides : List NeuronOverride)
      (json : Bool)
  /-- Writes a query. -/
  | query (options : QueryOptions) (kind : QueryKind)

/-- What a command line asks for. -/
inductive Request where
  /-- A command, with the path of the settings. -/
  | run (config : Option String) (command : Command)
  | help (page : List String)
  | version

/-! ## Values -/

/-- The index that a text stands for. -/
def index? (s : String) : Option Nat :=
  (readNat indexLimit s.toList).toOption

/-- The path that a text stands for. -/
def path? (s : String) : Option String :=
  if s.isEmpty then none else some s

/-- The numbers with commas between them. -/
def numbers? (s : String) : Option (List Float) :=
  (fields ',' s.toList).mapM fun f => (Decimal.readFloat f).toOption

/-- The override that a text stands for. -/
def override? (s : String) : Option NeuronOverride :=
  (NeuronOverride.parse s : Except (AnalysisError Float) NeuronOverride).toOption

/-- The direction that a text stands for. -/
def direction? (s : String) : Option Direction :=
  if s = "gt" then some .gt else if s = "lt" then some .lt else none

/-- The phase that a text stands for. -/
def phase? (s : String) : Option Phase :=
  if s = "active" then some .active else if s = "inactive" then some .inactive else none

/-! ## Levels -/

variable {β : Type}

/-- An option with a value, given once at most. -/
def single (long : String) (short : Option Char) (read : String → Option β) : OptionSpec :=
  ⟨long, short, .value (fun s => (read s).isSome) false false⟩

/-- An option with a value, given any number of times. -/
def repeated (long : String) (read : String → Option β) : OptionSpec :=
  ⟨long, none, .value (fun s => (read s).isSome) false true⟩

/-- The options of all levels. -/
def globalOptions : List OptionSpec :=
  [single "config" (some 'c') path?, ⟨"verbose", some 'v', .flag true⟩, ⟨"help", some 'h', .help⟩]

/-- The option for the path of a network. -/
def networkOption : OptionSpec :=
  single "network" (some 'n') path?

/-- The option for output as JSON. -/
def jsonOption : OptionSpec :=
  ⟨"json", none, .flag false⟩

/-- The option for overrides. -/
def overrideOption : OptionSpec :=
  repeated "override" override?

/-- The options in front of a command. -/
def topLevel : Level :=
  ⟨globalOptions ++ [⟨"version", some 'V', .version⟩], ["inspect", "evaluate", "query", "help"]⟩

/-- The options of `inspect`. -/
def inspectLevel : Level :=
  ⟨globalOptions ++ [networkOption, jsonOption], []⟩

/-- The options of `evaluate`. -/
def evaluateLevel : Level :=
  ⟨globalOptions ++ [networkOption,
    ⟨"input", some 'i', .value (fun s => (numbers? s).isSome) true true⟩, overrideOption,
    jsonOption], []⟩

/-- The options of `query`. -/
def queryLevel : Level :=
  ⟨globalOptions ++ [networkOption, single "out" (some 'o') path?,
    single "first-layer" none index?, single "first-cut" none index?,
    single "last-layer" none index?, single "last-cut" none index?,
    single "subspace" none some, single "splits" none index?],
    ["exact", "minimum", "joined", "state", "help"]⟩

/-- The options of `query exact`. -/
def exactLevel : Level :=
  ⟨globalOptions ++ [overrideOption, single "op" none direction?, single "output" none index?], []⟩

/-- The options of `query minimum`. -/
def minimumLevel : Level :=
  ⟨globalOptions ++ [overrideOption, single "output" none index?, single "counter" none index?], []⟩

/-- The options of `query joined`. -/
def joinedLevel : Level :=
  ⟨globalOptions ++ [overrideOption], []⟩

/-- The options of `query state`. -/
def stateLevel : Level :=
  ⟨globalOptions ++ [single "layer" none index?, single "neuron" none index?,
    single "phase" none phase?], []⟩

/-- The commands of a level that a page is about. -/
def pageCommands : List String → List String
  | [] => ["inspect", "evaluate", "query", "help"]
  | ["query"] => ["exact", "minimum", "joined", "state", "help"]
  | _ => []

/-- The help page behind a page, for the rest of a command line. -/
def page? : List String → List String → Option (List String)
  | page, [] => some page
  | page, c :: rest => if (pageCommands page).contains c then page? (page ++ [c]) rest else none

/-! ## Reading requests -/

namespace Given

/-- The value of an option that may be absent. -/
def value? (given : Given) (name : String) (read : String → Option β) : Option β :=
  (given.values name).getLast? >>= read

/-- The values of an option. -/
def all (given : Given) (name : String) (read : String → Option β) : List β :=
  (given.values name).filterMap read

/-- The values of an option that must be given. -/
def some? (given : Given) (name : String) (read : String → Option β) : Option (List β) :=
  if given.has name then some (given.all name read) else none

end Given

/-- The path of the settings: the one that stands nearest to the end counts. -/
def config? (levels : List Given) : Option String :=
  (levels.flatMap (Given.values · "config")).getLast?

/-- A command that ends the command line, from the options of its level. -/
def atEnd (page : List String) (before : List Given) (l : Level) (args : List String)
    (command : Given → Option Command) : Option Request := do
  let (given, ending) ← l.read none [] args
  match ending with
  | .done =>
    let c ← command given
    return .run (config? (before ++ [given])) c
  | .help => return .help page
  | _ => none

/-- The options of a query. -/
def queryOptions? (given : Given) : Option QueryOptions := do
  return {
    network := ← given.value? "network" path?
    out := given.value? "out" path?
    firstLayer := given.value? "first-layer" index?
    firstCut := given.value? "first-cut" index?
    lastLayer := given.value? "last-layer" index?
    lastCut := given.value? "last-cut" index?
    subspace := given.value? "subspace" some
    splits := (given.value? "splits" index?).getD 2 }

/-- The level of a kind of query. -/
def kindLevel? : String → Option Level
  | "exact" => some exactLevel
  | "minimum" => some minimumLevel
  | "joined" => some joinedLevel
  | "state" => some stateLevel
  | _ => none

/-- The query of a kind with the given options. -/
def kind? (name : String) (given : Given) : Option QueryKind :=
  match name with
  | "exact" => do
    return .exact (← given.some? "override" override?) (← given.value? "op" direction?)
      (← given.value? "output" index?)
  | "minimum" => do
    return .minimum (← given.some? "override" override?) (← given.value? "output" index?)
      (← given.value? "counter" index?)
  | "joined" => do
    return .joined (← given.some? "override" override?)
  | "state" => do
    return .state (← given.value? "layer" index?) (← given.value? "neuron" index?)
      (← given.value? "phase" phase?)
  | _ => none

/-- The request of a command line that starts with `query`. -/
def ofQuery? (before : List Given) (args : List String) : Option Request := do
  let (given, ending) ← queryLevel.read none [] args
  match ending with
  | .command "help" rest => .help <$> page? ["query"] rest
  | .command name rest =>
    let l ← kindLevel? name
    atEnd ["query", name] (before ++ [given]) l rest fun kindGiven => do
      return .query (← queryOptions? given) (← kind? name kindGiven)
  | .help => return .help ["query"]
  | _ => none

/-- The request of a command line, unless it is misused. -/
def Request.ofArguments? (args : List String) : Option Request := do
  let (given, ending) ← topLevel.read none [] args
  match ending with
  | .command "help" rest => .help <$> page? [] rest
  | .command "inspect" rest =>
    atEnd ["inspect"] [given] inspectLevel rest fun given => do
      return .inspect (← given.value? "network" path?) (given.has "json")
  | .command "evaluate" rest =>
    atEnd ["evaluate"] [given] evaluateLevel rest fun given => do
      return .evaluate (← given.value? "network" path?)
        (← given.some? "input" numbers?).flatten (given.all "override" override?)
        (given.has "json")
  -- Of the commands at the top only `query` is left.
  | .command _ rest => ofQuery? [given] rest
  | .help => return .help []
  | .version => return .version
  | .done => none

end PiecewiseNet.CommandLine
