import MarkerCopy.CommandLine.Arguments

/-! What is printed when a command line gives no arguments. -/

namespace MarkerCopy

namespace Parameter

def description : Parameter → String
  | setting .infile => "File to copy"
  | setting .outdir => "Output root directory"
  | setting .external =>
    "'no' mirrors the path after src/, 'yes' mirrors from cpwn_extern/ on"
  | switch (.flag .dryRun) => "Print where the file would go without writing anything"
  | switch (.flag .json) => "Print the copy plan or report as JSON on stdout"
  | switch (.flag .verbose) => "Enable verbose logging"
  | switch (.flag .quiet) => "Suppress non-error output"
  | switch .help => "Print help"
  | switch .version => "Print version"

/-- The letter that stands for an option, in a column of its own. -/
def letterColumn : Parameter → String
  | switch .help => "  -h, "
  | switch .version => "  -V, "
  | _ => "      "

/-- The width of the column with the spelled out options. -/
def usageWidth : Nat :=
  (all.map (·.usage.length)).foldl max 0

def helpLine (p : Parameter) : String :=
  p.letterColumn ++ p.usage.pushn ' ' (usageWidth - p.usage.length) ++ "  " ++ p.description

end Parameter

def usageLine : String :=
  "Usage: pathmirror [OPTIONS] " ++
    String.intercalate " " (Setting.all.map fun s => (Parameter.setting s).usage)

def helpText : String :=
  String.intercalate "\n" ([
    "Copies a file into an output directory while preserving the directory structure " ++
      "below src/ or cpwn_extern/",
    "",
    usageLine,
    "",
    "Options:"] ++ Parameter.all.map Parameter.helpLine ++ [""])

def versionText : String :=
  "pathmirror 0.1.0\n"

namespace UsageError

def text (error : UsageError) : String :=
  match error with
  | help => helpText
  | version => versionText
  | missing _ => complaint "required options are missing"
  | noValue _ => complaint "an option needs a value"
  | repeated _ => complaint "an option is given twice"
  | unexpectedValue _ => complaint "an option takes no value"
  | unknown _ => complaint "an argument is unknown"
  | notUtf8 _ => complaint "an argument is not valid UTF-8"
where
  complaint (what : String) : String :=
    s!"error: {what}: " ++ String.intercalate ", " error.parameters ++
      "\n\nFor more information, try '--help'.\n"

end UsageError

end MarkerCopy
