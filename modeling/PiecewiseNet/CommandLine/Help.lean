/-!
# Help pages

## Main definitions

- `version`: the version line.
- `misuse`: what a misused command line reports.
- `helpPage`: the help page of a command.
-/

namespace PiecewiseNet.CommandLine

/-- The version line. -/
def version : String :=
  "redy 0.1.0\n"

/-- What a misused command line reports. -/
def misuse : String :=
  "error: invalid arguments\n\nFor more information, try '--help'.\n"

/-- A line of a help page: an entry in a column of its own, then its explanation. -/
def helpLine (width : Nat) (entry explanation : String) : String :=
  "  " ++ entry ++ String.ofList (List.replicate (width - entry.length) ' ') ++ "  " ++
    explanation ++ "\n"

/-- A section of a help page. -/
def helpSection (title : String) (lines : List (String × String)) : String :=
  let width := (lines.map (·.1.length)).foldl max 0
  "\n" ++ title ++ ":\n" ++ String.join (lines.map fun l => helpLine width l.1 l.2)

/-- A help page. -/
def page (about usage : String) (commands options : List (String × String)) : String :=
  let commandSection := if commands.isEmpty then "" else helpSection "Commands" commands
  about ++ "\n\nUsage: redy " ++ usage ++ "\n" ++ commandSection ++ helpSection "Options" options

/-- The entry for the settings file. -/
def configEntry : String × String :=
  ("-c, --config <CONFIG>", "Path to a TOML analysis configuration file")

/-- The entry for logging. -/
def verboseEntry : String × String :=
  ("-v, --verbose...", "Enable verbose logging (repeat for more: -v, -vv, -vvv)")

/-- The entry for help pages. -/
def helpEntry : String × String :=
  ("-h, --help", "Print help")

/-- The entry for the network file. -/
def networkEntry : String × String :=
  ("-n, --network <NETWORK>", "Network file (`.nnet` or `.ipq`)")

/-- The entry for the help command. -/
def helpCommand : String × String :=
  ("help", "Print this message or the help of the given subcommand(s)")

/-- The help page of the help command itself, which has no options. -/
def helpCommandPage (usage : String) : String :=
  helpCommand.2 ++ "\n\nUsage: redy " ++ usage ++ "\n" ++
    helpSection "Arguments" [("[COMMAND]...", "Print help for the subcommand(s)")]

/-- The front of the usage line of a kind of query. -/
def queryUsage (rest : String) : String :=
  "query --network <NETWORK> " ++ rest

/-- The entry for overrides that needs no explanation. -/
def overrideEntry : String × String :=
  ("    --override <OVERRIDES>", "")

/-- The entry for an output. -/
def outputEntry : String × String :=
  ("    --output <OUTPUT>", "")

/-- The help page of a command; the page of the program for the empty list. -/
def helpPage : List String → String
  | ["help"] => helpCommandPage "help [COMMAND]..."
  | ["query", "help"] => helpCommandPage (queryUsage "help [COMMAND]...")
  | ["inspect"] =>
    page "Print the layer structure and input box of a network"
      "inspect [OPTIONS] --network <NETWORK>" []
      [configEntry, networkEntry, ("    --json", "Emit JSON instead of a table"), verboseEntry,
        helpEntry]
  | ["evaluate"] =>
    page "Forward-evaluate a network on one input point"
      "evaluate [OPTIONS] --network <NETWORK> --input <INPUT>" []
      [configEntry, networkEntry, ("-i, --input <INPUT>", "Comma-separated input values"),
        verboseEntry,
        ("    --override <OVERRIDES>", "Neuron override `layer:neuron:kind` (repeatable)"),
        ("    --json", "Emit JSON instead of a table"), helpEntry]
  | ["query"] =>
    page "Build a redundancy query and write it in the solver's text format"
      "query [OPTIONS] --network <NETWORK> <COMMAND>"
      [("exact", "Can the overrides move an output by epsilon in one direction?"),
        ("minimum", "Can the overrides make another output beat a winning one?"),
        ("joined", "Original and overridden networks side by side, no constraints"),
        ("state", "Is the neuron ever outside the claimed phase?"), helpCommand]
      [configEntry, networkEntry,
        ("-o, --out <OUT>", "Output path; the query goes to stdout when omitted"), verboseEntry,
        ("    --first-layer <FIRST_LAYER>", "First layer kept by the clip range"),
        ("    --first-cut <FIRST_CUT>", "Nodes of each first-layer chain dropped before the cut"),
        ("    --last-layer <LAST_LAYER>", "Last layer kept by the clip range"),
        ("    --last-cut <LAST_CUT>", "Nodes of each last-layer chain kept"),
        ("    --subspace <SUBSPACE>",
          "Restrict inputs to a sub-box, one digit per input per split round"),
        ("    --splits <SPLITS>", "Number of slices per split round [default: 2]"), helpEntry]
  | ["query", "exact"] =>
    page "Can the overrides move an output by epsilon in one direction?"
      (queryUsage "exact [OPTIONS] --override <OVERRIDES> --op <OP> --output <OUTPUT>") []
      [configEntry, overrideEntry, ("    --op <OP>", "[possible values: gt, lt]"), verboseEntry,
        outputEntry, helpEntry]
  | ["query", "minimum"] =>
    page "Can the overrides make another output beat a winning one?"
      (queryUsage
        "minimum [OPTIONS] --override <OVERRIDES> --output <OUTPUT> --counter <COUNTER>") []
      [configEntry, overrideEntry, outputEntry, verboseEntry, ("    --counter <COUNTER>", ""),
        helpEntry]
  | ["query", "joined"] =>
    page "Original and overridden networks side by side, no constraints"
      (queryUsage "joined [OPTIONS] --override <OVERRIDES>") []
      [configEntry, overrideEntry, verboseEntry, helpEntry]
  | ["query", "state"] =>
    page "Is the neuron ever outside the claimed phase?"
      (queryUsage "state [OPTIONS] --layer <LAYER> --neuron <NEURON> --phase <PHASE>") []
      [configEntry, ("    --layer <LAYER>", ""), ("    --neuron <NEURON>", ""), verboseEntry,
        ("    --phase <PHASE>", "[possible values: active, inactive]"), helpEntry]
  | _ =>
    page "Redundancy analysis for piecewise-linear networks" "[OPTIONS] <COMMAND>"
      [("inspect", "Print the layer structure and input box of a network"),
        ("evaluate", "Forward-evaluate a network on one input point"),
        ("query", "Build a redundancy query and write it in the solver's text format"),
        helpCommand]
      [configEntry, verboseEntry, helpEntry, ("-V, --version", "Print version")]

end PiecewiseNet.CommandLine
