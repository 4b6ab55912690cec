import ClassWeave.CommandLine.Page
import ClassWeave.Transform.Pipeline

/-!
# Running commands

Commands as functions of the files that they read. What a command prints and writes is its report.
-/

namespace ClassWeave.CommandLine

/-- What comes of running the program. -/
structure Report where
  exitCode : UInt8
  /-- What is printed. -/
  output : String
  /-- Why the program ends early. -/
  complaint : Option String
  /-- The file that is written last, and its bytes. -/
  written : Option (String × List UInt8)
deriving Repr, DecidableEq, Inhabited

namespace Report

def printed (output : String) : Report := ⟨0, output, none, none⟩

def failed (message : String) : Report := ⟨1, "", some message, none⟩

def ofStop : Stop → Report
  | .page page => printed page.text
  | .misuse message => ⟨2, "", some message, none⟩

end Report

/-! ## Inspecting and verifying -/

/-- The lines about an entry of a list: labels stand out. -/
def nodeLine (n : Node) : String :=
  match n with
  | .label _ => "    " ++ n.text
  | _ => "      " ++ n.text

/-- The lines about a method. -/
def methodLines (m : MethodModel) : List String :=
  ("  method " ++ m.name ++ m.descriptor) ::
    m.body.elim [] fun b => b.list.nodes.toList.map nodeLine

/-- What `inspect` prints about a class. -/
def inspection (c : ClassModel) : String :=
  let version := "Version \x7b major: " ++ toString c.version.major.toNat ++ ", minor: " ++
    toString c.version.minor.toNat ++ " \x7d"
  lines <|
    ["class " ++ c.name ++ " (" ++ version ++ ")"] ++
    c.super.toList.map ("  extends " ++ ·) ++
    c.interfaces.map ("  implements " ++ ·) ++
    c.fields.map (fun f => "  field " ++ f.name ++ " " ++ f.descriptor) ++
    c.methods.flatMap methodLines

def inspectClass (bytes : List UInt8) : ClassResult Report := do
  return .printed (inspection (← ClassModel.parse bytes))

/-- Reads a class, writes it again and prints what is wrong with the result. -/
def verifyClassFile (bytes : List UInt8) : ClassResult Report := do
  let bytes ← (← ClassModel.parse bytes).toBytes .unknown
  let findings ← verifyClass bytes .unknown
  let output := lines (findings.map Finding.text)
  if findings.isEmpty then return .printed output
  return ⟨1, output, some (toString findings.length ++ " verification findings"), none⟩

/-! ## Transforming -/

/-- The path of a replacement. -/
def TransformOptions.resourcePath (o : TransformOptions) (path : String) : String :=
  Path.join o.resources (Path.relative path)

/-- The files that a command may read. -/
def Command.sources : Command → List String
  | inspect path | verify path => [path]
  | transform o => o.path :: o.replacements.map fun (_, path) => o.resourcePath path

/-- The pipeline that a command runs a class through. -/
def TransformOptions.pipeline (o : TransformOptions)
    (read : String → Except FileError (List UInt8)) : Pipeline where
  settings := { Settings.standard with verify := o.verify, exportDirectory := o.exportDirectory }
  setup := o.replacements.forM fun (cls, path) => Setup.replace cls path
  resources := .inDirectory o.resources fun _ => read
  hierarchy := .unknown

/-- The internal name that a class is loaded as. -/
def TransformOptions.className (o : TransformOptions) (bytes : List UInt8) : ClassResult String :=
  match o.name with
  | some name => return slashed name
  | none => do (← ClassFile.parse bytes).name

/-- Runs a class through the pipeline and writes the result. -/
def transformClass (read : String → Except FileError (List UInt8)) (o : TransformOptions)
    (bytes : List UInt8) : TransformResult Report := do
  let cls ← (o.className bytes).mapError TransformError.cls
  let result ← ((o.pipeline read).transform ⟨some cls, none, bytes⟩).run (.start .empty) |>.1
  let target := o.output.getD (cls ++ ".class")
  return ⟨0, "", none, some (target, result.bytes?.getD bytes)⟩

/-- The report, or why there is none. -/
def reported (x : TransformResult Report) : Report :=
  match x with
  | .ok r => r
  | .error e => .failed e.message

/-- Runs a command. -/
def Command.run (read : String → Except FileError (List UInt8)) (c : Command) : Report :=
  let given (path : String) (f : List UInt8 → TransformResult Report) : Report :=
    match read path with
    | .ok bytes => reported (f bytes)
    | .error e => .failed ("I/O error: " ++ e.message)
  match c with
  | .inspect path => given path fun bytes => (inspectClass bytes).mapError .cls
  | .verify path => given path fun bytes => (verifyClassFile bytes).mapError .cls
  | .transform o => given o.path (transformClass read o)

/-- Runs the program on a tree of files: its exit code, what it prints, and the files afterwards. -/
def runOn (args : List String) (t : FileTree) : UInt8 × String × FileTree :=
  let r := match parse args with
    | .ok c => c.run t.read
    | .error stop => .ofStop stop
  match r.written with
  | none => (r.exitCode, r.output, t)
  | some (path, bytes) =>
    match t.save path bytes with
    | .ok t => (r.exitCode, r.output, t)
    | .error _ => (1, r.output, t)

end ClassWeave.CommandLine
