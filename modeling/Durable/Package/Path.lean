/-
Paths of files.

A path is a text, but what it denotes is its list of components: repeated slashes,
slashes at the end and single points inside it mean nothing.  Two paths are the same,
and one comes before another, by their components alone.
-/

namespace Durable.Path

/-- One step of a path.  The order of the constructors is the order of paths. -/
inductive Component where
  /-- The leading slash. -/
  | root
  /-- A leading point. -/
  | here
  | up
  | down (name : String)
deriving DecidableEq, Repr, Ord

/-- The parts of a text between slashes. -/
def pieces : List Char → List (List Char)
  | [] => [[]]
  | c :: cs =>
    if c = '/' then [] :: pieces cs
    else match pieces cs with
      | p :: ps => (c :: p) :: ps
      | [] => [[c]]

/-- The step that a part of a path stands for, behind its first part. -/
def step? : List Char → Option Component
  | [] => none
  | ['.'] => none
  | ['.', '.'] => some .up
  | name => some (.down (String.ofList name))

/-- The components of a path. -/
def components (path : String) : List Component :=
  match pieces path.toList with
  | [] => []
  | [[]] => []
  | [] :: more => .root :: more.filterMap step?
  | ['.'] :: more => .here :: more.filterMap step?
  | first => first.filterMap step?

/-- Two paths with the same components. -/
def same (a b : String) : Bool := components a == components b

/-- The order of paths. -/
def compare (a b : String) : Ordering := Ord.compare (components a) (components b)

/-- A path that does not come behind another. -/
def le (a b : String) : Bool := (compare a b).isLE

/-- The names a path goes down by. -/
def names (path : String) : List String :=
  (components path).filterMap fun
    | .down name => some name
    | _ => none

/-- The name a path ends in, unless it ends in a step of another kind. -/
def fileName? (path : String) : Option String :=
  match (components path).getLast? with
  | some (.down name) => some name
  | _ => none

/-- A path continued by a relative one. -/
def join (dir path : String) : String :=
  if path.startsWith "/" || dir.isEmpty then path
  else if dir.endsWith "/" then dir ++ path
  else dir ++ "/" ++ path

/-- A part between slashes that means nothing. -/
def isIdle (piece : List Char) : Bool := piece == [] || piece == ['.']

/-- The text of a path in front of its last name, without what means nothing at its end. -/
def parent (path : String) : String :=
  match pieces path.toList with
  | [] => ""
  | first :: more =>
    match more.reverse.dropWhile isIdle with
    | [] => ""
    | _ :: above =>
      let kept := first :: (above.dropWhile isIdle).reverse
      if kept == [[]] then "/" else String.intercalate "/" (kept.map String.ofList)

/-- The names of the directories and the file that a path leads through from the top of a snapshot,
with steps up undone. -/
def resolve (path : String) : List String :=
  ((components path).foldl (fun above step =>
    match step with
    | .down name => name :: above
    | .up => above.drop 1
    | .root | .here => above) []).reverse

end Durable.Path
