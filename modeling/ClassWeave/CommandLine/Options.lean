import ClassWeave.File.Path

/-!
# Command lines

What the arguments of the program ask for. Arguments are taken one after the other; the first that
cannot be meant decides. Options may stand anywhere, and what follows two dashes is no option.
-/

namespace ClassWeave.CommandLine

/-- What `transform` is told. -/
structure TransformOptions where
  /-- The file with the class. -/
  path : String
  /-- The name to load the class as; if there is none, that in the file. -/
  name : Option String
  /-- The replacements of classes, in order. -/
  replacements : List (String × String)
  /-- The directory of the replacements. -/
  resources : String
  exportDirectory : Option String
  verify : Bool
  /-- The file to write; if there is none, that of the name of the class. -/
  output : Option String
deriving Repr, DecidableEq, Inhabited

/-- What the program does. -/
inductive Command where
  | inspect (path : String)
  | verify (path : String)
  | transform (options : TransformOptions)
deriving Repr, DecidableEq, Inhabited

/-- A command by its name. -/
inductive CommandName where
  | inspect
  | verify
  | transform
  | help
deriving Repr, DecidableEq, Inhabited

def CommandName.ofString? : String → Option CommandName
  | "inspect" => some inspect
  | "verify" => some verify
  | "transform" => some transform
  | "help" => some help
  | _ => none

/-- What to print instead of running a command. -/
inductive Page where
  | version
  /-- How to use the program, or one of its commands. -/
  | usage (command : Option CommandName)
deriving Repr, DecidableEq, Inhabited

/-- Why no command is run. -/
inductive Stop where
  | page (page : Page)
  /-- The arguments are not what the program takes. -/
  | misuse (message : String)
deriving Repr, DecidableEq, Inhabited

/-- An option that takes a value. -/
inductive Valued where
  | name
  | replace
  | resources
  | exportTo
  | output
deriving Repr, DecidableEq, Inhabited

def Valued.ofString? : String → Option Valued
  | "name" => some name
  | "replace" => some replace
  | "resources" => some resources
  | "export" => some exportTo
  | "output" => some output
  | _ => none

/-- The directory that classes are exported to if none is named. -/
def defaultExportDirectory : String := "classpatch/classes"

/-- The arguments of a command as far as they were taken. -/
structure Draft where
  command : CommandName
  path : Option String
  name : Option String
  /-- The replacements, the latest first. -/
  replacements : List (String × String)
  resources : Option String
  exportDirectory : Option String
  verify : Bool
  output : Option String
  /-- The option whose value comes next. -/
  pending : Option Valued
  /-- No more options come. -/
  isOver : Bool
deriving Repr, DecidableEq, Inhabited

namespace Draft

/-- Nothing was taken yet. -/
def start (command : CommandName) : Draft :=
  ⟨command, none, none, [], none, none, false, none, none, false⟩

/-- The two parts of a text around its first `=`. -/
def splitAtEquals (s : String) : Option (String × String) :=
  let cs := s.toList
  match cs.dropWhile (· ≠ '=') with
  | [] => none
  | _ :: rest => some (String.ofList (cs.takeWhile (· ≠ '=')), String.ofList rest)

/-- A class and its replacement. -/
def binding (s : String) : Except Stop (String × String) :=
  match splitAtEquals s with
  | some (name, path) => if name = "" ∨ path = "" then wrong else .ok (name, path)
  | none => wrong
where
  wrong : Except Stop (String × String) :=
    .error (.misuse ("expected CLASS_NAME=PATH, found " ++ s))

/-- Sets an option that may be given once. -/
def once (option : String) (value : String) : Option String → Except Stop (Option String)
  | none => .ok (some value)
  | some _ => .error (.misuse ("--" ++ option ++ " cannot be used multiple times"))

variable (d : Draft)

/-- Takes the value of an option. -/
def give (value : String) : Valued → Except Stop Draft
  | .name => return { d with name := ← once "name" value d.name }
  | .replace => return { d with replacements := (← binding value) :: d.replacements }
  | .resources => return { d with resources := ← once "resources" value d.resources }
  | .exportTo => return { d with exportDirectory := ← once "export" value d.exportDirectory }
  | .output => return { d with output := ← once "output" value d.output }

/-- No option waits for its value. -/
def close : Draft := { d with pending := none }

/-- No value comes for the option that waits for one. Only `--export` can do without. -/
def settle : Except Stop Draft :=
  match d.pending with
  | none => .ok d
  | some .exportTo => d.close.give defaultExportDirectory .exportTo
  | some _ => .error (.misuse "a value is required")

/-- An option that the command does not have. -/
def unknown {α : Type} (arg : String) : Except Stop α :=
  .error (.misuse ("unexpected argument '" ++ arg ++ "'"))

/-- Takes the name of a class file. -/
def positional (arg : String) : Except Stop Draft :=
  if d.path.isSome then unknown arg else .ok { d with path := some arg }

/-- Takes an option that has no value. -/
def flag (arg name : String) : Except Stop Draft :=
  if name = "help" then .error (.page (.usage (some d.command)))
  else if name = "verify" ∧ d.command = .transform then
    if d.verify then .error (.misuse "--verify cannot be used multiple times")
    else .ok { d with verify := true }
  else unknown arg

/-- Takes an argument that begins with two dashes. -/
def long (arg : String) : Except Stop Draft :=
  let text := String.ofList (arg.toList.drop 2)
  let (name, value) := match splitAtEquals text with
    | some (name, value) => (name, some value)
    | none => (text, none)
  match (if d.command = .transform then Valued.ofString? name else none), value with
  | some option, some value => d.give value option
  | some option, none => .ok { d with pending := some option }
  | none, some _ => unknown arg
  | none, none => d.flag arg name

/-- Takes an argument that begins with one dash. -/
def short (arg : String) : Except Stop Draft :=
  match arg.toList with
  | ['-', 'o'] =>
    if d.command = .transform then .ok { d with pending := some .output } else unknown arg
  | '-' :: 'o' :: value =>
    if d.command = .transform then
      d.give (String.ofList (if value.head? = some '=' then value.tail else value)) .output
    else unknown arg
  | '-' :: 'h' :: _ => .error (.page (.usage (some d.command)))
  | _ => unknown arg

/-- Takes an argument. -/
def take (arg : String) : Except Stop Draft := do
  if d.isOver then return ← d.positional arg
  match arg.toList with
  | ['-', '-'] =>
    let d ← d.settle
    return { d with isOver := true }
  | '-' :: '-' :: _ => (← d.settle).long arg
  | '-' :: _ :: _ => (← d.settle).short arg
  | _ =>
    match d.pending with
    | some option => d.close.give arg option
    | none => d.positional arg

/-- What was asked for, once all arguments are taken. -/
def finish : Except Stop Command := do
  let d ← d.settle
  match d.path with
  | none => throw (.misuse "CLASS is required")
  | some path =>
    match d.command with
    | .inspect => return .inspect path
    | .verify => return .verify path
    | _ => return .transform ⟨path, d.name, d.replacements.reverse, d.resources.getD ".",
      d.exportDirectory, d.verify, d.output⟩

end Draft

/-- What `help` is asked about. -/
def helpOn : List String → Stop
  | [] => .page (.usage none)
  | [name] =>
    match CommandName.ofString? name with
    | some command => .page (.usage (some command))
    | none => .misuse ("unrecognized subcommand '" ++ name ++ "'")
  | _ :: name :: _ => .misuse ("unrecognized subcommand '" ++ name ++ "'")

/-- What arguments in front of a command ask for. -/
def withoutCommand (arg : String) : Stop :=
  match arg.toList with
  | '-' :: 'h' :: _ => .page (.usage none)
  | '-' :: 'V' :: _ => .page .version
  | _ =>
    if arg = "--help" then .page (.usage none)
    else if arg = "--version" then .page .version
    else .misuse ("unrecognized subcommand '" ++ arg ++ "'")

/-- What the arguments of the program ask for. -/
def parse : List String → Except Stop Command
  | [] => .error (.misuse "a subcommand is required")
  | arg :: args =>
    match CommandName.ofString? arg with
    | some .help => .error (helpOn args)
    | some command => do (← args.foldlM Draft.take (Draft.start command)).finish
    | none => .error (withoutCommand arg)

end ClassWeave.CommandLine
