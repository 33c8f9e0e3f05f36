/-!
# Paths

File paths with `/` between their parts. A path is absolute if it starts with `/`. Exactly two
slashes at the front are kept apart from one.
-/

namespace RacketTree.Path

/-- The parts of a path between slashes, where `part` holds the current part backwards. -/
def partsFrom (part : List Char) : List Char → List (List Char)
  | [] => [part.reverse]
  | c :: rest =>
    if c = '/' then part.reverse :: partsFrom [] rest else partsFrom (c :: part) rest

/-- The parts of a path between slashes. -/
def parts (path : List Char) : List (List Char) :=
  partsFrom [] path

/-- The slashes that a normal path keeps at its front. -/
def root : List Char → List Char
  | '/' :: '/' :: '/' :: _ => ['/']
  | '/' :: '/' :: _ => ['/', '/']
  | '/' :: _ => ['/']
  | _ => []

/-- The path of two dots. -/
def up : List Char := ['.', '.']

/-- Adds a part to the parts of a normal path, newest first. Empty parts and single dots are left
out; two dots take the last part away, unless there is none to take away. -/
def addPart (absolute : Bool) (done : List (List Char)) (part : List Char) : List (List Char) :=
  if part = [] || part = ['.'] then done
  else if part = up then
    match done with
    | [] => if absolute then [] else [up]
    | last :: earlier => if last = up then up :: done else earlier
  else part :: done

/-- The path of parts with slashes between. -/
def joinParts : List (List Char) → List Char
  | [] => []
  | [part] => part
  | part :: rest => part ++ '/' :: joinParts rest

/-- A path without empty parts, single dots and, as far as possible, double dots. -/
def normalize (path : List Char) : List Char :=
  let front := root path
  let kept := ((parts path).foldl (addPart (!front.isEmpty)) []).reverse
  let result := front ++ joinParts kept
  if result.isEmpty then ['.'] else result

/-- One path after another; an absolute path stands for itself. -/
def join (directory path : List Char) : List Char :=
  if path.head? = some '/' || directory.isEmpty then path
  else if directory.getLast? = some '/' then directory ++ path
  else directory ++ '/' :: path

/-- A path seen from a directory, made absolute and normal. -/
def absolute (cwd path : List Char) : List Char :=
  normalize (join cwd path)

/-- The part after the last slash. -/
def name (path : List Char) : List Char :=
  (path.reverse.takeWhile (· != '/')).reverse

/-- The directory of a path: what stands before the last slash, without slashes at its end unless it
is nothing but slashes. -/
def directory (path : List Char) : List Char :=
  let head := (path.reverse.dropWhile (· != '/')).reverse
  if head.all (· == '/') then head else (head.reverse.dropWhile (· == '/')).reverse

end RacketTree.Path
