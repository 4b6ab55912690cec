import ClassWeave.Build.Control
import ClassWeave.Build.Literal
import ClassWeave.Build.Switch

/-!
# Scripts

A script is a computation that builds code, written down as data: a list of steps, some of which
have scripts as their bodies. A script refers to labels, local variables and handles by the names it
gave them; bodies share the names of the script around them, and a name given twice means the
latest.
-/

namespace ClassWeave

/-- An argument of a bootstrap method: a constant as it is, or a handle by its name. -/
inductive SiteArgument where
  | constant (c : Loadable)
  | handle (name : String)
deriving Repr, DecidableEq, Inhabited

/-- One step of a script. -/
inductive BuildStep where
  | push (node : Node)
  | int (value : Int32)
  | long (value : Int64)
  | float (bits : UInt32)
  | double (bits : UInt64)
  | loadHandle (name : String)
  | newArray (element : BaseType)
  /-- Runs the body a number of times. -/
  | repeated (count : Nat) (body : List BuildStep)
  | label (name : String)
  | place (name : String)
  | jump (condition : Condition) (label : String)
  /-- Jumps if the condition does not hold. -/
  | jumpUnless (condition : Condition) (label : String)
  | goto (label : String)
  | tryCatch (start stop handler : String) (catchType : Option String)
  /-- Builds the body apart from the script, with the local variables that are free, and inserts it.
  -/
  | insert (body : List BuildStep)
  | allocate (kind : ValueKind) (name : String)
  | storeNew (kind : ValueKind) (name : String)
  | loadSlot (name : String)
  | storeSlot (name : String)
  | loadIndex (kind : ValueKind) (index : UInt16)
  | storeIndex (kind : ValueKind) (index : UInt16)
  | returnValue (kind : Option ValueKind)
  | ifClause (skipIf : List Condition) (body : List BuildStep)
  | ifElse (conditions : List Condition) (body otherwise : List BuildStep)
  | tableSwitch (cases : List (Case (List BuildStep))) (otherwise : List BuildStep)
  | lookupSwitch (cases : List (Case (List BuildStep))) (otherwise : List BuildStep)
  | synchronized (body : List BuildStep)
  | synchronizedGuarded (body : List BuildStep)
  | array (descriptor : String) (elements : List (List BuildStep))
  | createInstance (cls descriptor : String) (arguments : List BuildStep)
  | field (access : FieldAccess) (member : MemberRef)
  | invoke (kind : CallKind) (member : MemberRef)
  | handle (name : String) (kind : HandleKind) (member : MemberRef) (isInterface : Bool)
  | invokeDynamic (name descriptor bootstrap : String) (arguments : List Loadable)
  | callSite (name descriptor bootstrap : String) (arguments : List SiteArgument)
  | getLocalField (object : String) (member : MemberRef)
  | setLocalField (object : String) (member : MemberRef) (value : List BuildStep)
  | updateLocalField (object : String) (member : MemberRef) (update : List BuildStep)
  | getSingleton (owner : String)
  | invokeSingleton (member : MemberRef) (arguments : List BuildStep)

instance : Inhabited BuildStep := ⟨.repeated 0 []⟩

abbrev Script := List BuildStep

/-- What a step tells. -/
inductive Outcome where
  | done
  /-- A label by its number, or a local variable by its index. -/
  | number (n : Nat)
  /-- The name that is written for a member. -/
  | name (name : String)
  /-- How many elements a new array has. -/
  | elements (count : Nat)
deriving Repr, DecidableEq, Inhabited

namespace Build

/-! ## Names -/

/-- The label with a name. -/
def labelNamed (name : String) : Build Label := return ((← get).labels.lookup name).getD default

/-- The local variable with a name. -/
def slotNamed (name : String) : Build Slot := return ((← get).slots.lookup name).getD default

/-- The handle with a name. -/
def handleNamed (name : String) : Build Handle := return ((← get).handles.lookup name).getD default

/-- The constant that an argument of a bootstrap method stands for. -/
def siteArgument : SiteArgument → Build Loadable
  | .constant c => return c
  | .handle name => return .handle (← handleNamed name)

def nameLabel (name : String) (lab : Label) : Build Outcome := do
  modify fun b => { b with labels := (name, lab) :: b.labels }
  return .number lab.id

def nameSlot (name : String) (s : Slot) : Build Outcome := do
  modify fun b => { b with slots := (name, s) :: b.slots }
  return .number s.index.toNat

def nameHandle (name : String) (h : Handle) : Build Outcome := do
  modify fun b => { b with handles := (name, h) :: b.handles }
  return .name h.member.name

/-- Runs a body a number of times. -/
def times : Nat → Build Unit → Build Unit
  | 0, _ => return
  | n + 1, body => do
    body
    times n body

/-- Builds code apart, with names of its own, no renaming, and the local variables that are free;
then inserts it. -/
def insertBuilt (body : Build Unit) : Build Unit := do
  insert (← liftM (body.listOn .identity (.startingAt (← nextLocal))))

/-- A computation that has nothing to tell. -/
def silent (x : Build Unit) : Build Outcome := do
  x
  return .done

end Build

/-! ## Running a script -/

mutual

/-- What a step does. -/
def BuildStep.run : BuildStep → Build Outcome
  | .push n => Build.silent (Build.push n)
  | .int n => Build.silent (Build.int n)
  | .long n => Build.silent (Build.long n)
  | .float bits => Build.silent (Build.float bits)
  | .double bits => Build.silent (Build.double bits)
  | .loadHandle name => Build.silent do Build.load (.handle (← Build.handleNamed name))
  | .newArray element => Build.silent (Build.newArray element)
  | .repeated count body => Build.silent (Build.times count (BuildStep.runAll body))
  | .label name => do Build.nameLabel name (← Build.freshLabel)
  | .place name => Build.silent do Build.placeLabel (← Build.labelNamed name)
  | .jump c name => Build.silent do Build.jump c (← Build.labelNamed name)
  | .jumpUnless c name => Build.silent do Build.jump c.negate (← Build.labelNamed name)
  | .goto name => Build.silent do Build.goto (← Build.labelNamed name)
  | .tryCatch start stop handler catchType => Build.silent do
    Build.addBlock ⟨← Build.labelNamed start, ← Build.labelNamed stop, ← Build.labelNamed handler,
      catchType⟩
  | .insert body => Build.silent (Build.insertBuilt (BuildStep.runAll body))
  | .allocate kind name => do Build.nameSlot name (← Build.allocate kind)
  | .storeNew kind name => do Build.nameSlot name (← Build.storeNew kind)
  | .loadSlot name => Build.silent do Build.loadSlot (← Build.slotNamed name)
  | .storeSlot name => Build.silent do Build.storeSlot (← Build.slotNamed name)
  | .loadIndex kind i => Build.silent (Build.loadSlot ⟨i, kind⟩)
  | .storeIndex kind i => Build.silent (Build.storeSlot ⟨i, kind⟩)
  | .returnValue kind => Build.silent (Build.returnValue kind)
  | .ifClause skipIf body => Build.silent (Build.ifClause skipIf (BuildStep.runAll body))
  | .ifElse conditions body otherwise =>
    Build.silent (Build.ifElse conditions (BuildStep.runAll body) (BuildStep.runAll otherwise))
  | .tableSwitch cases otherwise =>
    Build.silent (Build.tableSwitch (BuildStep.caseBodies cases) (BuildStep.runAll otherwise))
  | .lookupSwitch cases otherwise =>
    Build.silent (Build.lookupSwitch (BuildStep.caseBodies cases) (BuildStep.runAll otherwise))
  | .synchronized body => Build.silent (Build.synchronized (BuildStep.runAll body))
  | .synchronizedGuarded body => Build.silent (Build.synchronizedGuarded (BuildStep.runAll body))
  | .array descriptor elements => do
    Build.array descriptor (BuildStep.bodies elements)
    return .elements elements.length
  | .createInstance cls descriptor arguments =>
    Build.silent (Build.createInstance cls descriptor (BuildStep.runAll arguments))
  | .field access m => Build.silent (Build.field access m)
  | .invoke kind m => Build.silent (Build.invoke kind m)
  | .handle name kind m isInterface => do Build.nameHandle name (← Build.handle kind m isInterface)
  | .invokeDynamic name descriptor bootstrap arguments => Build.silent do
    Build.invokeDynamic name descriptor (← Build.handleNamed bootstrap) arguments
  | .callSite name descriptor bootstrap arguments => Build.silent do
    Build.invokeDynamic name descriptor (← Build.handleNamed bootstrap)
      (← arguments.mapM Build.siteArgument)
  | .getLocalField object m => Build.silent do Build.getLocalField (← Build.slotNamed object) m
  | .setLocalField object m value => Build.silent do
    Build.setLocalField (← Build.slotNamed object) m (BuildStep.runAll value)
  | .updateLocalField object m update => Build.silent do
    Build.updateLocalField (← Build.slotNamed object) m (BuildStep.runAll update)
  | .getSingleton owner => Build.silent (Build.getSingleton owner)
  | .invokeSingleton m arguments =>
    Build.silent (Build.invokeSingleton m (BuildStep.runAll arguments))

/-- Runs one step after the other, up to the first that fails. -/
def BuildStep.runAll : List BuildStep → Build Unit
  | [] => return
  | s :: rest => do
    let _ ← s.run
    BuildStep.runAll rest

/-- The bodies of scripts. -/
def BuildStep.bodies : List (List BuildStep) → List (Build Unit)
  | [] => []
  | s :: rest => BuildStep.runAll s :: BuildStep.bodies rest

/-- The cases of a switch with their bodies. -/
def BuildStep.caseBodies : List (Case (List BuildStep)) → List (Case (Build Unit))
  | [] => []
  | ⟨key, fallsThrough, body⟩ :: rest =>
    ⟨key, fallsThrough, BuildStep.runAll body⟩ :: BuildStep.caseBodies rest

end

end ClassWeave
