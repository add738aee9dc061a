/-!
# Command-line arguments

Options are `--name`, `--name=value` or `--name value`, with the short forms `-n value`, `-nvalue`
and `-n=value`. An argument that starts with a dash is never taken as a value, except the dash
alone. After `--` everything is positional. There is one positional argument, the document.

The value of an option is looked at when the next option or positional argument is met, or at the
end; an argument that is not understood is reported before that.
-/

namespace SchemaRefs.CommandLine

/-- The format of a report. -/
inductive Format where
  | text
  | json
deriving Repr, DecidableEq, Inhabited

/-- The format with a name; letters count as equal in both cases. -/
def Format.ofName? (name : String) : Option Format :=
  let lower := String.ofList (name.toList.map Char.toLower)
  if lower == "text" then some .text
  else if lower == "json" then some .json
  else none

/-- The name of a format. -/
def Format.name : Format → String
  | .text => "text"
  | .json => "json"

/-- The switches. -/
inductive Switch where
  | all
  | origin
  | effectiveType
  | locations
  | snapshot
  | toleratePartial
deriving Repr, DecidableEq, Inhabited

/-- The options with a value. -/
inductive ValueOption where
  | path
  | definition
  | format
deriving Repr, DecidableEq, Inhabited

/-- What a name on the command line stands for. -/
inductive Named where
  | switch (switch : Switch)
  | value (option : ValueOption)
  | help
  | version
deriving Repr, DecidableEq, Inhabited

/-- The meaning of a long name. -/
def Named.ofLong? : String → Option Named
  | "path" => some (.value .path)
  | "all" => some (.switch .all)
  | "definition" => some (.value .definition)
  | "origin" => some (.switch .origin)
  | "effective-type" => some (.switch .effectiveType)
  | "locations" => some (.switch .locations)
  | "snapshot" => some (.switch .snapshot)
  | "tolerate-partial" => some (.switch .toleratePartial)
  | "format" => some (.value .format)
  | "help" => some .help
  | "version" => some .version
  | _ => none

/-- The meaning of a short name. -/
def Named.ofShort? : Char → Option Named
  | 'p' => some (.value .path)
  | 'd' => some (.value .definition)
  | 'h' => some .help
  | 'V' => some .version
  | _ => none

/-- Why a command line is not accepted. -/
inductive UsageError where
  | unknownArgument
  | invalidValue
  | missingArgument
  /-- A switch was given a value. -/
  | tooManyValues
  /-- A switch or an option with a single value was given twice. -/
  | conflict
  | help
  | version
deriving Repr, DecidableEq, Inhabited

/-- The arguments of a run. -/
structure Arguments where
  /-- The file that holds the document. -/
  input : String
  /-- The paths to inspect. -/
  paths : List String := []
  /-- The switches that are on. -/
  switches : List Switch := []
  /-- The definition to which a run is restricted. -/
  definition : Option String := none
  format : Format := .text
deriving Repr, DecidableEq, Inhabited

/-- The switch is on. -/
def Arguments.has (args : Arguments) (switch : Switch) : Bool :=
  args.switches.contains switch

/-- A value that has been read but not been looked at. -/
inductive Pending where
  | input (value : String)
  | option (option : ValueOption) (value : Option String)
deriving Repr, DecidableEq, Inhabited

/-- What is known after some arguments. -/
structure Progress where
  input : Option String := none
  paths : List String := []
  switches : List Switch := []
  definition : Option String := none
  format : Option Format := none
  pending : Option Pending := none
  /-- The positional argument has been met. -/
  positionalMet : Bool := false
  /-- `--` has been met. -/
  onlyPositional : Bool := false
deriving Repr, DecidableEq, Inhabited

namespace Progress

/-- Looks at the value of an option. -/
def applyOption (progress : Progress) (value : String) :
    ValueOption → Except UsageError Progress
  | .path => .ok { progress with paths := progress.paths ++ [value] }
  | .definition =>
    if progress.definition.isSome then .error .conflict
    else .ok { progress with definition := some value }
  | .format =>
    if progress.format.isSome then .error .conflict
    else match Format.ofName? value with
      | some format => .ok { progress with format := some format }
      | none => .error .invalidValue

/-- Looks at the value that is pending. -/
def settle (progress : Progress) : Except UsageError Progress :=
  let settled := { progress with pending := none }
  match progress.pending with
  | none => .ok progress
  | some (.input "") => .error .invalidValue
  | some (.input value) => .ok { settled with input := some value }
  | some (.option _ none) => .error .invalidValue
  | some (.option option (some value)) => settled.applyOption value option

/-- Turns a switch on. -/
def turnOn (progress : Progress) (switch : Switch) : Except UsageError Progress := do
  let progress ← progress.settle
  if progress.switches.contains switch then .error .conflict
  else .ok { progress with switches := progress.switches ++ [switch] }

/-- An option, with the value attached to it. -/
def option (progress : Progress) (option : ValueOption) (attached : Option String) :
    Except UsageError Progress := do
  let progress ← progress.settle
  match attached with
  | some value => progress.applyOption value option
  | none => .ok { progress with pending := some (.option option none) }

/-- A request for help or for the version. -/
def stop (progress : Progress) (outcome : UsageError) : Except UsageError Progress := do
  let _ ← progress.settle
  .error outcome

/-- An argument that starts with two dashes, without them. -/
def long (progress : Progress) (cs : List Char) : Except UsageError Progress :=
  let name := String.ofList (cs.takeWhile (· != '='))
  let attached := match cs.dropWhile (· != '=') with
    | _ :: value => some (String.ofList value)
    | [] => none
  match Named.ofLong? name, attached with
  | none, _ => .error .unknownArgument
  | some (.value option), attached => progress.option option attached
  | some _, some _ => .error .tooManyValues
  | some (.switch switch), none => progress.turnOn switch
  | some .help, none => progress.stop .help
  | some .version, none => progress.stop .version

/-- An argument that starts with one dash, without it. -/
def short (progress : Progress) : List Char → Except UsageError Progress
  | [] => .ok progress
  | c :: rest =>
    match Named.ofShort? c with
    | none => .error .unknownArgument
    | some (.value option) =>
      let attached := match rest with
        | [] => none
        | '=' :: value => some (String.ofList value)
        | value => some (String.ofList value)
      progress.option option attached
    | some (.switch switch) => do short (← progress.turnOn switch) rest
    | some .help => progress.stop .help
    | some .version => progress.stop .version

/-- A positional argument. -/
def positional (progress : Progress) (value : String) : Except UsageError Progress := do
  if progress.positionalMet then .error .unknownArgument
  else
    let progress ← progress.settle
    .ok { progress with pending := some (.input value), positionalMet := true }

/-- One argument. -/
def next (progress : Progress) (argument : String) : Except UsageError Progress :=
  if progress.onlyPositional then progress.positional argument
  else match argument.toList with
    | ['-', '-'] => .ok { progress with onlyPositional := true }
    | '-' :: '-' :: cs => progress.long cs
    | '-' :: c :: cs => progress.short (c :: cs)
    | _ =>
      match progress.pending with
      | some (.option option none) =>
        .ok { progress with pending := some (.option option (some argument)) }
      | _ => progress.positional argument

end Progress

/-- The arguments of a command line, without the name of the program. -/
def Arguments.parse (argv : List String) : Except UsageError Arguments := do
  let progress ← argv.foldlM Progress.next {}
  let progress ← progress.settle
  match progress.input with
  | none => .error .missingArgument
  | some input =>
    .ok { input, paths := progress.paths, switches := progress.switches,
          definition := progress.definition, format := progress.format.getD .text }

/-! ## Logging -/

/-- The formats of a log. -/
inductive LogFormat where
  | text
  | tree
  | json
deriving Repr, DecidableEq, Inhabited

/-- The log format with a name; letters count as equal in both cases. No letter outside ASCII has a
lower case in these names. -/
def LogFormat.ofName (name : String) : LogFormat :=
  let lower := String.ofList (name.toList.map Char.toLower)
  if lower == "tree" then .tree
  else if lower == "json" then .json
  else .text

end SchemaRefs.CommandLine
