import LogQuery.Text

/-! Disks: what a program may ask about files. -/
namespace LogQuery

structure Disk (m : Type → Type) where
  isThere : Text → m Bool
  isFolder : Text → m Bool
  /-- The names in a folder, in any order. -/
  names : Text → m (List Text)
  /-- The text of a file, if it can be read. -/
  read? : Text → m (Option Text)
  /-- No path goes through more names than this. -/
  depth : Nat

namespace Disk

/-- The path of a name in a folder. -/
def join (path name : Text) : Text :=
  if path.isEmpty || path.getLast? = some '/' then path ++ name else path ++ '/' :: name

end Disk

/-- Files in memory, by the names on the way to them. A folder without files has no text. -/
structure Disk.Files where
  /-- Where relative paths start. -/
  here : List Text
  entries : List (List Text × Option Text)

namespace Disk.Files

def hasFolder (files : Files) (names : List Text) : Bool :=
  files.entries.any fun (path, content) =>
    names.isPrefixOf path && (content.isNone || names.length < path.length)

def content? (files : Files) (names : List Text) : Option Text :=
  (files.entries.lookup names).join

def has (files : Files) (names : List Text) : Bool :=
  (files.content? names).isSome || files.hasFolder names

/-- Goes on from a folder. Every part, an empty one too, asks for a folder before it. -/
def walk? (files : Files) : List Text → List Text → Option (List Text)
  | names, [] => some names
  | names, part :: parts =>
    if !files.hasFolder names then none
    else if part = [] || part = ['.'] then files.walk? names parts
    else if part = ['.', '.'] then files.walk? names.dropLast parts
    else files.walk? (names ++ [part]) parts

/-- What a path leads to, if it leads anywhere. -/
def resolve? (files : Files) (path : Text) : Option (List Text) :=
  let names :=
    match path with
    | [] => none
    | '/' :: t => files.walk? [] (Text.splitAt '/' t)
    | t => files.walk? files.here (Text.splitAt '/' t)
  names.filter files.has

/-- The names right below a folder. -/
def below (files : Files) (folder : List Text) : List Text :=
  (files.entries.filterMap fun (path, _) =>
    if folder.isPrefixOf path then (path.drop folder.length).head? else none).eraseDups

def disk (files : Files) : Disk Id where
  isThere path := (files.resolve? path).isSome
  isFolder path := (files.resolve? path).any files.hasFolder
  names path := ((files.resolve? path).map files.below).getD []
  read? path := (files.resolve? path).bind files.content?
  depth := files.entries.foldl (fun depth (path, _) => depth + path.length) 0

end Disk.Files
end LogQuery
