import MarkerCopy.Path.Basic

/-! The grammar of the command line: long options in any order, each at most once, with their
values either attached by an equals sign or in the next word. -/

namespace MarkerCopy

/-- An option that takes a value. All of them are required. -/
inductive Setting where
  | infile
  | outdir
  | external
deriving DecidableEq

/-- An option that is given or not. -/
inductive Flag where
  | dryRun
  | json
  | verbose
  | quiet
deriving DecidableEq

/-- An option without a value. -/
inductive Switch where
  | flag (flag : Flag)
  | help
  | version
deriving DecidableEq

inductive Parameter where
  | setting (setting : Setting)
  | switch (switch : Switch)
deriving DecidableEq

namespace Setting

def all : List Setting :=
  [.infile, .outdir, .external]

def name : Setting → String
  | infile => "infile"
  | outdir => "outdir"
  | external => "extern"

/-- What the value is called in the usage line. -/
def valueName : Setting → String
  | infile => "INFILE"
  | outdir => "OUTDIR"
  | external => "yes|no"

end Setting

namespace Switch

def all : List Switch :=
  [.flag .dryRun, .flag .json, .flag .verbose, .flag .quiet, .help, .version]

def name : Switch → String
  | flag .dryRun => "dry-run"
  | flag .json => "json"
  | flag .verbose => "verbose"
  | flag .quiet => "quiet"
  | help => "help"
  | version => "version"

/-- The switch that a single letter stands for. -/
def ofLetter? (c : Char) : Option Switch :=
  if c = 'h' then some help else if c = 'V' then some version else none

end Switch

namespace Parameter

def all : List Parameter :=
  Setting.all.map setting ++ Switch.all.map switch

def name : Parameter → String
  | setting s => s.name
  | switch s => s.name

/-- How the option is written in the usage line. -/
def usage : Parameter → String
  | setting s => s!"--{s.name} <{s.valueName}>"
  | switch s => s!"--{s.name}"

def ofName? (name : List UInt8) : Option Parameter :=
  all.find? fun p => Utf8.encode p.name.toList == name

end Parameter

/-- Why a command line gives no arguments. -/
inductive UsageError where
  | missing (settings : List Setting)
  /-- A setting without a value, or with an empty one where that means the same. -/
  | noValue (setting : Setting)
  | repeated (parameter : Parameter)
  /-- A value attached to an option that takes none. -/
  | unexpectedValue (switch : Switch)
  | unknown (word : String)
  | notUtf8 (setting : Setting)
  /-- Help is asked for. -/
  | help
  /-- The version is asked for. -/
  | version
deriving DecidableEq

namespace UsageError

/-- The exit status of a program that ends with the error. -/
def exitCode : UsageError → Nat
  | help => 0
  | version => 0
  | _ => 2

/-- The options and words at fault. -/
def parameters : UsageError → List String
  | missing settings => settings.map fun s => (Parameter.setting s).usage
  | noValue setting => [(Parameter.setting setting).usage]
  | repeated parameter => [parameter.usage]
  | unexpectedValue switch => [(Parameter.switch switch).usage]
  | unknown word => [word]
  | notUtf8 _ => []
  | help => []
  | version => []

end UsageError

structure Arguments where
  infile : Path
  outdir : String
  /-- The answer to whether the file is external, as it was given. -/
  external : String
  dryRun : Bool
  json : Bool
  verbose : Bool
  quiet : Bool
deriving DecidableEq

/-- A word of a command line, taken apart. -/
inductive Word where
  /-- Two dashes and nothing else. -/
  | separator
  /-- Two dashes, a name, and what follows the first equals sign. -/
  | long (name : List UInt8) (attached : Option Path)
  /-- A dash and letters. -/
  | short (letters : List UInt8)
  | plain
deriving DecidableEq

namespace Word

def dash : UInt8 :=
  0x2D

def equals : UInt8 :=
  0x3D

def ofPath (word : Path) : Word :=
  match word.bytes with
  | [] => plain
  | first :: rest =>
    if first ≠ dash then plain
    else
      match rest with
      | [] => plain
      | second :: rest =>
        if second ≠ dash then short (second :: rest)
        else if rest = [] then separator
        else
          match rest.dropWhile (· ≠ equals) with
          | [] => long rest none
          | _ :: attached => long (rest.takeWhile (· ≠ equals)) (some ⟨attached⟩)

end Word

/-- The options met so far. -/
structure Draft where
  infile : Option Path
  outdir : Option String
  external : Option String
  flags : List Flag
deriving DecidableEq

namespace Draft

def empty : Draft :=
  ⟨none, none, none, []⟩

def has (draft : Draft) : Setting → Bool
  | .infile => draft.infile.isSome
  | .outdir => draft.outdir.isSome
  | .external => draft.external.isSome

def give (draft : Draft) (setting : Setting) (value : Path) : Except UsageError Draft :=
  if draft.has setting then .error (.repeated (.setting setting))
  else
    match setting, value.text? with
    | .infile, _ =>
      if value.isEmpty then .error (.noValue .infile) else .ok { draft with infile := some value }
    | .outdir, some text => .ok { draft with outdir := some text }
    | .external, some text => .ok { draft with external := some text }
    | setting, none => .error (.notUtf8 setting)

def turnOn (draft : Draft) : Switch → Except UsageError Draft
  | .help => .error .help
  | .version => .error .version
  | .flag flag =>
    if flag ∈ draft.flags then .error (.repeated (.switch (.flag flag)))
    else .ok { draft with flags := flag :: draft.flags }

/-- A setting whose value is expected in the next word, or has been met there. Nothing is made of
it until the next option or the end, because a word that is unknown comes first. -/
abbrev Pending := Option (Setting × Option Path)

def settle (draft : Draft) : Pending → Except UsageError Draft
  | none => .ok draft
  | some (setting, none) => .error (.noValue setting)
  | some (setting, some value) => draft.give setting value

/-- The switch that the first of some letters stands for. -/
def switchOfLetters (letters : List UInt8) : Except UsageError Switch :=
  match Utf8.scan letters with
  | some c :: _ =>
    match Switch.ofLetter? c with
    | some switch => .ok switch
    | none => .error (.unknown (String.ofList ['-', c]))
  | _ => .error (.unknown (String.ofList ('-' :: Utf8.decodeLossy letters)))

def read (draft : Draft) (pending : Pending) : List Path → Except UsageError Draft
  | [] => draft.settle pending
  | word :: words =>
    match Word.ofPath word with
    | .separator =>
      match words with
      | [] => draft.settle pending
      | next :: _ => .error (.unknown next.display)
    | .long name attached =>
      match Parameter.ofName? name, attached with
      | none, _ => .error (.unknown (String.ofList ('-' :: '-' :: Utf8.decodeLossy name)))
      | some (.switch switch), some _ => .error (.unexpectedValue switch)
      | some (.switch switch), none => do
        let settled ← draft.settle pending
        read (← settled.turnOn switch) none words
      | some (.setting setting), some value => do
        let settled ← draft.settle pending
        read (← settled.give setting value) none words
      | some (.setting setting), none => do
        read (← draft.settle pending) (some (setting, none)) words
    | .short letters => do
      let switch ← switchOfLetters letters
      let settled ← draft.settle pending
      read (← settled.turnOn switch) none words
    | .plain =>
      match pending with
      | some (setting, none) => read draft (some (setting, some word)) words
      | _ => .error (.unknown word.display)

def arguments (draft : Draft) : Except UsageError Arguments :=
  match draft with
  | ⟨some infile, some outdir, some external, flags⟩ =>
    .ok {
      infile, outdir, external
      dryRun := .dryRun ∈ flags
      json := .json ∈ flags
      verbose := .verbose ∈ flags
      quiet := .quiet ∈ flags }
  | _ => .error (.missing (Setting.all.filter fun s => !draft.has s))

end Draft

def Arguments.parse (words : List Path) : Except UsageError Arguments := do
  (← Draft.empty.read none words).arguments

end MarkerCopy
