/-!
# Paths

A path is a text whose segments are parted by slashes. Segments that are empty or a single dot stay
where they are, and two dots lead to the directory above.
-/

namespace ClassWeave.Path

/-- The parts of a text between the slashes. -/
def split : List Char → List (List Char)
  | [] => [[]]
  | c :: cs =>
    if c = '/' then [] :: split cs
    else
      match split cs with
      | [] => [[c]]
      | s :: rest => (c :: s) :: rest

/-- The segments of a path. -/
def segments (path : String) : List String := (split path.toList).map String.ofList

/-- The segment is the name of a file or directory. -/
def isName (segment : String) : Bool := segment != "" && segment != "." && segment != ".."

/-- A path below a directory. -/
def join (directory path : String) : String :=
  if directory = "" ∨ directory.toList.getLast? = some '/' then directory ++ path
  else directory ++ "/" ++ path

/-- The path without the slashes at its front. -/
def relative (path : String) : String := String.ofList (path.toList.dropWhile (· = '/'))

/-- The directory that a path is in. -/
def parent (path : String) : String :=
  let trimmed := (segments path).reverse.dropWhile fun s => s = "" ∨ s = "."
  "/".intercalate trimmed.tail.reverse

end ClassWeave.Path
