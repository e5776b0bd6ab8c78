import LogQuery.Disk
import LogQuery.Glob

/-! Paths on a disk that fit a pattern. -/
namespace LogQuery.Glob

open Disk (join)

variable {m : Type → Type} [Monad m]

/-- Is a path no more than a dot, however often it is written? -/
def isHere (path : Text) : Bool :=
  match Text.splitAt '/' path with
  | ['.'] :: more => more.all fun p => p = [] || p = ['.']
  | _ => false

/-- Names below a dot stand alone. -/
def child (path name : Text) : Text := if isHere path then name else join path name

def inOrder (names : List Text) : List Text := names.mergeSort fun a b => !(decide (b < a))

def collect (f : Text → m (List Text)) : List Text → m (List Text)
  | [] => pure []
  | t :: ts => return (← f t) ++ (← collect f ts)

def isDeep : Segment → Bool
  | .deep => true
  | _ => false

mutual

/-- The paths from a path on that fit segments. A name without wildcards is looked up; the names of
a folder are tried in their order. -/
def expand (disk : Disk m) (foldersOnly : Bool) : Nat → List Segment → Text → m (List Text)
  | 0, _, _ => pure []
  | _, [], path => do
    if foldersOnly then
      if ← disk.isFolder path then return [path] else return []
    else return [path]
  | fuel + 1, segment :: more, path => do
    match segment.literal? with
    | some name =>
      let next := child path name
      let found ←
        if name = ['.'] || name = ['.', '.'] then disk.isFolder path else disk.isThere next
      if found then expand disk foldersOnly fuel more next else return []
    | none =>
      if !(← disk.isFolder path) then return []
      let dots := if segment.startsWithDot then [['.', '.'], ['.']].filter segment.fits else []
      let special ← collect (fun name => expand disk foldersOnly fuel more (join path name)) dots
      let names := inOrder (← disk.names path)
      return special ++
        (← collect (fun name => visit disk foldersOnly fuel (segment :: more) name (child path name))
          names)

/-- The paths from one name of a folder on. -/
def visit (disk : Disk m) (foldersOnly : Bool) : Nat → List Segment → Text → Text → m (List Text)
  | 0, _, _, _ => pure []
  | _, [], _, _ => pure []
  | fuel + 1, .deep :: more, name, path => do
    let more := more.dropWhile isDeep
    let folder ← disk.isFolder path
    let own ←
      match more with
      | [] => pure (if folder then [path] else [])
      | segment :: more =>
        if segment.fits name then expand disk foldersOnly fuel more path else pure []
    if folder then return own ++ (← expand disk foldersOnly fuel (.deep :: more) path)
    else return own
  | fuel + 1, segment :: more, name, path =>
    if segment.fits name then expand disk foldersOnly fuel more path else pure []

end

def search (disk : Disk m) (g : Glob) : m (List Text) :=
  let steps := 2 * (disk.depth + g.segments.length) + 2
  expand disk g.foldersOnly steps g.segments (if g.fromRoot then ['/'] else ['.'])

end LogQuery.Glob
