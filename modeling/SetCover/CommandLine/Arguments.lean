import SetCover.Text.Numeral

/-!
# Arguments

The command line names instance files and options. An option has a long name, which is followed by
its value as the next argument or after an equals sign, and a letter, which is followed by its
value as the next argument or in the same one. A value that is an argument of its own does not
start with a dash, unless it is nothing but a dash. After an argument of two dashes all arguments
name files.

* `Request.parse`: what the arguments ask for.
* `Options`: a run with its files and options.
-/

namespace SetCover.CommandLine

/-- A run of experiments. -/
structure Options where
  /-- The files of the instances. -/
  instances : List String := []
  /-- The file of the experiment. -/
  config : Option String := none
  /-- The file for the report. -/
  output : Option String := none
  /-- A seed in place of the one of the experiment. -/
  seed : Option Nat := none
  /-- A budget of time in place of those of the experiment, in milliseconds. -/
  timeLimit : Option Nat := none
  deriving DecidableEq

/-- Where the report goes unless a file is named. -/
def defaultOutput : String := "report.json"

/-- What a command line asks for. -/
inductive Request where
  | run (options : Options)
  | version
  | help
  /-- The arguments do not fit together. -/
  | misuse
  deriving DecidableEq

/-- The options that have a value. -/
inductive Key where
  | config
  | output
  | seed
  | timeLimit
  deriving DecidableEq

/-- What a name or a letter stands for. -/
inductive Switch where
  | valued (key : Key)
  | version
  | help
  deriving DecidableEq

/-- The meaning of a long name. -/
def longSwitch? : String → Option Switch
  | "config" => some (.valued .config)
  | "output" => some (.valued .output)
  | "seed" => some (.valued .seed)
  | "time-limit-ms" => some (.valued .timeLimit)
  | "version" => some .version
  | "help" => some .help
  | _ => none

/-- The meaning of a letter. -/
def shortSwitch? : Char → Option Switch
  | 'c' => some (.valued .config)
  | 'o' => some (.valued .output)
  | 's' => some (.valued .seed)
  | 't' => some (.valued .timeLimit)
  | 'V' => some .version
  | 'h' => some .help
  | _ => none

/-- A path, which is not empty, for an option that has none yet. -/
def setPath? (old : Option String) (value : String) : Option (Option String) :=
  if old.isNone && value != "" then some (some value) else none

/-- A number for an option that has none yet. -/
def setNumber? (old : Option Nat) (value : String) : Option (Option Nat) :=
  if old.isNone then (Text.numeral? value).map some else none

/-- Gives an option its value. An option has only one value, and it has to be of the right kind. -/
def Options.set? (o : Options) (key : Key) (value : String) : Option Options := do
  match key with
  | .config => some { o with config := ← setPath? o.config value }
  | .output => some { o with output := ← setPath? o.output value }
  | .seed => some { o with seed := ← setNumber? o.seed value }
  | .timeLimit => some { o with timeLimit := ← setNumber? o.timeLimit value }

/-- Adds files, whose paths are not empty. -/
def Options.addFiles? (o : Options) (paths : List String) : Option Options :=
  if paths.all (· != "") then some { o with instances := o.instances ++ paths } else none

/-- The outcome once all arguments are read: a run needs an instance. -/
def Options.request (o : Options) : Request := if o.instances.isEmpty then .misuse else .run o

/-- How an argument reads by itself. -/
inductive Argument where
  /-- Two dashes and nothing else. -/
  | separator
  /-- A long name, with a value after an equals sign. -/
  | long (name : String) (value : Option String)
  /-- A letter, and what follows it in the same argument. -/
  | short (letter : Char) (rest : List Char)
  /-- Anything else. -/
  | plain (text : String)

/-- Reads an argument by itself. -/
def Argument.of (text : String) : Argument :=
  match text.toList with
  | ['-', '-'] => .separator
  | '-' :: '-' :: rest =>
      let name := rest.takeWhile (· != '=')
      match rest.dropWhile (· != '=') with
      | '=' :: value => .long (String.ofList name) (some (String.ofList value))
      | _ => .long (String.ofList name) none
  | '-' :: letter :: rest => .short letter rest
  | _ => .plain text

/-- The value that follows a letter in the same argument, where an equals sign may come first. -/
def attachedValue : List Char → Option String
  | [] => none
  | '=' :: value => some (String.ofList value)
  | value => some (String.ofList value)

/-- Goes on with some options given; a path argument is an argument that is no option. -/
def parseFrom (o : Options) : List String → Request
  | [] => o.request
  | text :: rest =>
      match Argument.of text with
      | .separator =>
          match o.addFiles? rest with
          | some o => o.request
          | none => .misuse
      | .plain path =>
          match o.addFiles? [path] with
          | some o => parseFrom o rest
          | none => .misuse
      | .long name value =>
          match longSwitch? name, value with
          | some .version, none => .version
          | some .help, none => .help
          | some (.valued key), some value =>
              match o.set? key value with
              | some o => parseFrom o rest
              | none => .misuse
          | some (.valued key), none =>
              match rest with
              | next :: rest =>
                  match Argument.of next with
                  | .plain value =>
                      match o.set? key value with
                      | some o => parseFrom o rest
                      | none => .misuse
                  | _ => .misuse
              | [] => .misuse
          | _, _ => .misuse
      | .short letter attached =>
          match shortSwitch? letter, attachedValue attached with
          | some .version, _ => .version
          | some .help, _ => .help
          | some (.valued key), some value =>
              match o.set? key value with
              | some o => parseFrom o rest
              | none => .misuse
          | some (.valued key), none =>
              match rest with
              | next :: rest =>
                  match Argument.of next with
                  | .plain value =>
                      match o.set? key value with
                      | some o => parseFrom o rest
                      | none => .misuse
                  | _ => .misuse
              | [] => .misuse
          | none, _ => .misuse

/-- What the arguments ask for. -/
def Request.parse (arguments : List String) : Request := parseFrom {} arguments

end SetCover.CommandLine
