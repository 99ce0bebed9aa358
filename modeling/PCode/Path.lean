namespace PCode

abbrev Path := String

namespace Path

def pieces (path : Path) : List String :=
  path.splitOn "/"

def isIdle (piece : String) : Bool :=
  piece == "" || piece == "."

def tidy (path : Path) : Path :=
  "/".intercalate (path.pieces.filter (!isIdle ·))

/-- The components of a path: its root, a leading `.`, and its names. Two paths with the same
components are the same path. -/
def components (path : Path) : List String :=
  let names := path.pieces.filter (!isIdle ·)
  if path.startsWith "/" then "/" :: names
  else if path.pieces.head? = some "." then "." :: names
  else names

/-- Drops idle pieces at the end; the first piece stays. -/
def trimIdle : List String → List String
  | [] => []
  | first :: rest => first :: (rest.reverse.dropWhile isIdle).reverse

/-- The directory above, unless the path is empty or the root. -/
def parent? (path : Path) : Option Path :=
  match trimIdle path.pieces with
  | [] | [""] => none
  | names =>
    match trimIdle names.dropLast with
    | [""] => some "/"
    | above => some ("/".intercalate above)

def join (directory : Path) (file : String) : Path :=
  if directory = "" then file
  else if directory.endsWith "/" then directory ++ file
  else directory ++ "/" ++ file

/-- The path and the directories above it, nearest first, up to a number of them. -/
def ancestorsUpTo : Nat → Path → List Path
  | 0, _ => []
  | fuel + 1, path =>
    path :: match path.parent? with
      | some above => ancestorsUpTo fuel above
      | none => []

/-- The path and the directories above it, nearest first. Each is shorter than the one before. -/
def ancestors (path : Path) : List Path :=
  ancestorsUpTo (path.length + 1) path

end Path

end PCode
