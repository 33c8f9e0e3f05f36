import RacketTree.Path
import RacketTree.Text.Codes
import RacketTree.Text.Percent

/-!
# File URIs

A file URI is `file://` and a percent-encoded absolute path. A path that starts with a slash, one
character and a colon is taken for a drive path and loses its slash.
-/

namespace RacketTree.Uri

/-- What a file URI starts with. -/
def scheme : List Char := "file://".toList

/-- A drive path without the slash before it. -/
def dropDriveSlash : List Char → List Char
  | '/' :: drive :: ':' :: rest => drive :: ':' :: rest
  | path => path

/-- The path of a file URI; any other text stands for itself. -/
def toPath (uri : List Char) : List Char :=
  if scheme.isPrefixOf uri then dropDriveSlash (Text.Percent.decode (uri.drop scheme.length))
  else uri

/-- The path of a URI that may have halves of surrogate pairs in it. -/
def pathOf (uri : Codes) : Codes :=
  if uri.hasHalves then
    if scheme.isPrefixOf uri.chars then
      let path := Codes.mapRuns Text.Percent.decode ⟨uri.points.drop scheme.length⟩
      match path.points with
      | 0x2F :: drive :: 0x3A :: rest => ⟨drive :: 0x3A :: rest⟩
      | _ => path
    else uri
  else .ofChars (toPath uri.chars)

/-- The file URI of a path seen from a directory. -/
def ofPath (cwd path : List Char) : List Char :=
  scheme ++ Text.Percent.encode (Path.absolute cwd path)

end RacketTree.Uri
