import ClassWeave.Frame.Verify
import ClassWeave.Model.Read
import ClassWeave.Model.Write
import ClassWeave.Transform.Export
import ClassWeave.Transform.Registry
import ClassWeave.Transform.Resource

/-!
# The pipeline

A pipeline is asked about every class that is loaded. It leaves a class alone, replaces it by a
resource, or weaves it: reads it, runs its writers, and writes it again. The first request that
needs the registry runs the setup. A class that cannot be woven is left as it was: only a
replacement that cannot be loaded is an error.
-/

namespace ClassWeave

/-- What becomes of a class. -/
inductive Output where
  /-- There was nothing to consider. -/
  | noTransform
  /-- The class is used as it is. -/
  | passThrough
  | replaced (bytes : List UInt8)
  /-- The class after its writers. -/
  | woven (bytes : List UInt8)
deriving Repr, DecidableEq, Inhabited

/-- The new bytes of the class, if it changes. -/
def Output.bytes? : Output → Option (List UInt8)
  | replaced bytes | woven bytes => some bytes
  | noTransform | passThrough => none

/-- A class that is loaded. -/
structure LoadRequest where
  /-- The name of the class, with slashes or dots. -/
  name : Option String
  /-- Who loads it; only told. -/
  loader : Option String
  bytes : List UInt8

structure Pipeline where
  settings : Settings
  setup : Setup Unit
  resources : Resources
  hierarchy : Hierarchy

namespace Pipeline

/-- What a pipeline keeps from one request to the next. -/
structure State where
  /-- The registry, once the setup has run. -/
  registry : Option Registry
  /-- The directory of exported classes was emptied. -/
  isCleared : Bool
  files : FileTree
  /-- What was told during the request, the latest first. -/
  log : List LogEntry

/-- Nothing was asked yet. -/
def State.start (files : FileTree) : State := ⟨none, false, files, []⟩

/-- The setup has run. -/
def State.isConfigured (s : State) : Bool := s.registry.isSome

/-- Computations on the state of a pipeline. -/
abbrev Session := StateM State

def tell (level : LogLevel) (message : String) : Session Unit :=
  modify fun s => { s with log := ⟨level, message⟩ :: s.log }

variable (p : Pipeline)

/-- The registry; the setup runs if it has not yet. -/
def registry : Session Registry := do
  match (← get).registry with
  | some r => return r
  | none =>
    tell .info "Running transformer setup"
    let (outcome, r) := p.setup.on .empty
    if let .error e := outcome then tell .error e.message
    modify fun s => { s with registry := some r }
    return r

/-- The bytes of a replacement. -/
def loadReplacement (cls loader path : String) : Session (TransformResult Output) := do
  tell .info ("Replacing " ++ cls ++ " (loaded by " ++ loader ++ ") with " ++ path)
  let (result, told) := p.resources.load (← get).files path
  told.forM fun e => tell e.level e.message
  return (result.map Output.replaced).mapError (.resource cls path)

/-- Runs writers one after the other. -/
def applyWriters (cls : String) :
    List ClassWriter → ClassModel → ExceptT TransformError Session ClassModel
  | [], c => return c
  | w :: rest, c => do
    tell .info ("Applying writer to " ++ cls)
    applyWriters cls rest (← liftM (w.apply c))

/-- The class after its writers. -/
def weave (cls : String) (writers : List ClassWriter) (bytes : List UInt8) :
    ExceptT TransformError Session (List UInt8) := do
  let c ← liftM ((ClassModel.parse bytes).mapError TransformError.cls)
  let c ← applyWriters cls writers c
  liftM ((c.toBytes p.hierarchy).mapError TransformError.cls)

/-- Tells what is wrong with a class. -/
def verify (cls : String) (bytes : List UInt8) : Session Unit :=
  match verifyClass bytes p.hierarchy with
  | .ok [] => tell .debug (cls ++ " verified without findings")
  | .ok findings => do
    tell .warn (cls ++ " has " ++ toString findings.length ++ " verification findings")
    findings.forM fun f => tell .debug (cls ++ ": " ++ f.text)
  | .error e => tell .warn ("Could not verify " ++ cls ++ ": " ++ e.message)

/-- Changes the files, unless that fails. -/
def onFiles (f : FileTree → Except FileError FileTree) : ExceptT FileError Session Unit := do
  let files ← liftM (f (← get).files)
  modify fun s => { s with files }

/-- Empties the directory of exported classes, the first time. -/
def clearExports (directory : String) : ExceptT FileError Session Unit := do
  if (← get).isCleared then return
  if (← get).files.contains directory then tell .debug ("Clearing export directory " ++ directory)
  onFiles (Export.clear directory)
  modify fun s => { s with isCleared := true }

/-- Writes a class to the directory of exported classes and gives its path. -/
def writeExport (directory cls : String) (bytes : List UInt8) :
    ExceptT FileError Session String := do
  let path ← liftM (Export.classPath directory cls)
  clearExports directory
  onFiles fun t => t.save path bytes
  return path

/-- Exports a class, and tells about it. -/
def exportClass (directory cls : String) (bytes : List UInt8) : Session Unit := do
  match ← (writeExport directory cls bytes).run with
  | .ok path => tell .debug ("Exported " ++ cls ++ " to " ++ path)
  | .error e => tell .warn ("Failed to export " ++ cls ++ ": " ++ e.message)

/-- What becomes of a class that has writers. -/
def runWriters (cls loader : String) (writers : List ClassWriter) (bytes : List UInt8) :
    Session Output := do
  match ← (p.weave cls writers bytes).run with
  | .error e =>
    tell .error ("Failed to transform " ++ cls ++ " (loaded by " ++ loader ++
      "), leaving it unchanged: " ++ e.message)
    return .passThrough
  | .ok woven =>
    if p.settings.verify then p.verify cls woven
    p.settings.exportDirectory.forM fun directory => exportClass directory cls woven
    return .woven woven

/-- What becomes of a class that is not protected, by its internal name. -/
def transformNamed (cls loader : String) (bytes : List UInt8) :
    Session (TransformResult Output) := do
  let r ← p.registry
  match r.replacement? cls, r.writersFor cls with
  | some path, _ => p.loadReplacement cls loader path
  | none, [] => return .ok .passThrough
  | none, writers => return .ok (← p.runWriters cls loader writers bytes)

/-- The internal name of the class that a request is about, if there is anything to consider. -/
def subject? (r : LoadRequest) : Option String :=
  if r.bytes.isEmpty then none else r.name.map slashed

/-- What becomes of a class that is loaded. -/
def transform (r : LoadRequest) : Session (TransformResult Output) :=
  match subject? r with
  | none => return .ok .noTransform
  | some cls =>
    if p.settings.isProtected cls then return .ok .passThrough
    else p.transformNamed cls (r.loader.getD "<bootstrap>") r.bytes

/-- What becomes of a class that is loaded, and what was told on the way. -/
def answer (r : LoadRequest) : Session (TransformResult Output × List LogEntry) := do
  modify fun s => { s with log := [] }
  let result ← p.transform r
  return (result, (← get).log.reverse)

end Pipeline
end ClassWeave
