import Lineage.Text.Hex

/-! Paths as they are written. -/

namespace Lineage.Files

open Lineage.Text

/-- Where a path begins: at the working directory, at the root, or at the root written with two
slashes. -/
inductive Anchor where
  | relative
  | root
  | doubleRoot
  deriving DecidableEq, Repr

/-- The slashes at the front of a path. -/
def Anchor.text : Anchor → String
  | .relative => ""
  | .root => "/"
  | .doubleRoot => "//"

/-- A path: where it begins and the names along it. No name is empty or a single dot; a double dot
goes up. -/
structure Path where
  anchor : Anchor
  parts : List String
  deriving DecidableEq, Repr

namespace Path

/-- The path that a text writes. Repeated slashes, a slash at the end and single dots do not
count. -/
def ofText (text : String) : Path :=
  let slashes := (text.toList.takeWhile (· == '/')).length
  { anchor := if slashes == 0 then .relative else if slashes == 2 then .doubleRoot else .root
    parts :=
      ((text.toList.splitOn '/').map String.ofList).filter fun part => part != "" && part != "." }

/-- A path in words. The working directory itself is a dot. -/
def text (path : Path) : String :=
  if path.anchor == .relative && path.parts.isEmpty then "."
  else path.anchor.text ++ "/".intercalate path.parts

/-- Whether a path begins at the root. -/
def isAbsolute (path : Path) : Bool :=
  path.anchor != .relative

/-- The last name of a path, or nothing if it has none. -/
def name (path : Path) : String :=
  path.parts.getLast?.getD ""

/-- The part of the last name from its last dot on. A dot at the front or at the end of the name
does not count. -/
def suffix (path : Path) : String :=
  let chars := path.name.toList
  let extension := (chars.reverse.takeWhile (· != '.')).reverse
  let stem := chars.take (chars.length - extension.length - 1)
  if extension.isEmpty || extension.length == chars.length || stem.isEmpty then ""
  else String.ofList ('.' :: extension)

/-- The path without its last name. -/
def parent (path : Path) : Path :=
  { path with parts := path.parts.dropLast }

/-- A name below a path. -/
def child (path : Path) (name : String) : Path :=
  { path with parts := path.parts ++ [name] }

/-- Several names below a path, each below the one before. -/
def descend (path : Path) (names : List String) : Path :=
  { path with parts := path.parts ++ names }

/-- The texts by which paths are put in order. -/
def sortKey (path : Path) : List String :=
  match path.anchor with
  | .relative => path.parts
  | anchor => anchor.text :: path.parts

/-- Whether one list of texts comes no later than another, compared text by text by code points. -/
def keyLe : List String → List String → Bool
  | [], _ => true
  | _ :: _, [] => false
  | one :: more, other :: others => one < other || (one == other && keyLe more others)

/-- The order of paths: name by name, by code points. -/
def le (one other : Path) : Bool :=
  keyLe one.sortKey other.sortKey

/-- One byte of a path in a link: letters, digits and the marks `_`, `.`, `-`, `~` and `/` stand for
themselves. -/
def linkByte (byte : UInt8) : List Char :=
  let c := Char.ofNat byte.toNat
  if c.isAlphanum || c == '_' || c == '.' || c == '-' || c == '~' || c == '/' then [c]
  else '%' :: hexDigits .upper 2 byte.toNat

/-- The link to a file. Only a path that begins at the root has one. -/
def link? (path : Path) : Option String :=
  if path.isAbsolute then
    some ("file://" ++
      String.ofList ((path.text.toList.flatMap String.utf8EncodeChar).flatMap linkByte))
  else none

end Path

end Lineage.Files
