import ClassWeave.Build.Basic

/-!
# Switches

A switch runs the body of the case whose key is on top of the stack, or a default body. Bodies come
in the order of the cases, the default last. Behind the body of a case the switch is left, unless
the case falls through to the next one.
-/

namespace ClassWeave

/-- One key of a switch. -/
structure Case (β : Type) where
  key : Int32
  /-- Control goes on to the next case. -/
  fallsThrough : Bool
  body : β
deriving Repr, Inhabited

namespace Build

/-- The most entries that a switch by table may have. -/
def maxTableEntries : Int := 16384

/-- The first key that is there already, given the keys in front. -/
def repeatedKey? (seen : List Int32) : List Int32 → Option Int32
  | [] => none
  | k :: keys => if seen.contains k then some k else repeatedKey? (k :: seen) keys

/-- A switch has cases, and their keys differ. -/
def checkKeys (keys : List Int32) : BuildResult Unit :=
  if keys.isEmpty then .error .emptySwitch
  else
    match repeatedKey? [] keys with
    | some k => .error (.duplicateKey k)
    | none => .ok ()

/-- The smallest and the largest key. -/
def keyRange (keys : List Int32) : Int × Int :=
  match keys.map Int32.toInt with
  | [] => (0, 0)
  | k :: ks => (ks.foldl min k, ks.foldl max k)

/-- Where to go for each key from `low` on. -/
def tableTargets (low : Int) (count : Nat) (labels : List (Int32 × Label)) (otherwise : Label) :
    List Label :=
  (List.range count).map fun (i : Nat) => (labels.lookup (Int32.ofInt (low + i))).getD otherwise

/-- The bodies of the cases. -/
def caseBodies (stop : Label) : List (Case (Build Unit) × Label) → Build Unit
  | [] => return
  | (c, lab) :: rest => do
    placeLabel lab
    c.body
    if !c.fallsThrough then goto stop
    caseBodies stop rest

/-- A switch whose instruction is made from the labels of the keys and that of the default. -/
def switchOver (instruction : List (Int32 × Label) → Label → Instr Label)
    (cases : List (Case (Build Unit))) (otherwise : Build Unit) : Build Unit := do
  let labeled ← cases.mapM fun c => return (c, ← freshLabel)
  let default ← freshLabel
  emit (instruction (labeled.map fun (c, lab) => (c.key, lab)) default)
  let stop ← freshLabel
  caseBodies stop labeled
  placeLabel default
  otherwise
  placeLabel stop

/-- A switch with an entry for every number from the smallest key to the largest. -/
def tableSwitch (cases : List (Case (Build Unit))) (otherwise : Build Unit) : Build Unit := do
  let keys := cases.map Case.key
  liftM (checkKeys keys)
  let (low, high) := keyRange keys
  let count := high - low + 1
  if maxTableEntries < count then throw (.switchTooWide (Int32.ofInt low) (Int32.ofInt high))
  switchOver (fun labels default => .tableSwitch (Int32.ofInt low) (Int32.ofInt high) default
    (tableTargets low count.toNat labels default)) cases otherwise

/-- A switch with an entry for every key, in ascending order. -/
def lookupSwitch (cases : List (Case (Build Unit))) (otherwise : Build Unit) : Build Unit := do
  liftM (checkKeys (cases.map Case.key))
  switchOver (fun labels default => .lookupSwitch default
    (labels.mergeSort fun a b => a.1 ≤ b.1)) cases otherwise

end Build
end ClassWeave
