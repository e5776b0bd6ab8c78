import LogQuery.Text

/-! Patterns of paths. -/
namespace LogQuery.Glob

inductive Piece where
  | char (c : Char)
  /-- Any character. -/
  | one
  /-- Any characters, or none. -/
  | run
  /-- A character within one of the ranges. -/
  | oneOf (ranges : List (Char × Char))
  /-- A character outside of all the ranges. -/
  | noneOf (ranges : List (Char × Char))
  deriving DecidableEq, Repr

/-- One name of a path, or `**`: any names, or none. -/
inductive Segment where
  | name (pieces : List Piece)
  | deep
  deriving DecidableEq, Repr

def ranges : Text → List (Char × Char)
  | a :: '-' :: b :: t => (a, b) :: ranges t
  | a :: t => (a, a) :: ranges t
  | [] => []

def within (rs : List (Char × Char)) (c : Char) : Bool := rs.any fun (a, b) => a ≤ c && c ≤ b

/-- After an opening bracket: the piece, and the text after the closing bracket. The first
character inside is never the closing one. -/
def bracket? : Text → Option (Piece × Text)
  | '!' :: c :: t => (close? t).map fun (inside, rest) => (.noneOf (ranges (c :: inside)), rest)
  | '!' :: [] => none
  | c :: t => (close? t).map fun (inside, rest) => (.oneOf (ranges (c :: inside)), rest)
  | [] => none
where
  close? : Text → Option (Text × Text)
    | [] => none
    | ']' :: t => some ([], t)
    | c :: t => (close? t).map fun (inside, rest) => (c :: inside, rest)

/-- Stars may not stand side by side within a name. -/
def pieces? : Nat → Text → Option (List Piece)
  | _, [] => some []
  | 0, _ => none
  | fuel + 1, '[' :: t => (bracket? t).bind fun (p, t) => (pieces? fuel t).map (p :: ·)
  | _, '*' :: '*' :: _ => none
  | fuel + 1, '*' :: t => (pieces? fuel t).map (.run :: ·)
  | fuel + 1, '?' :: t => (pieces? fuel t).map (.one :: ·)
  | fuel + 1, c :: t => (pieces? fuel t).map (.char c :: ·)

def segment? (t : Text) : Option Segment :=
  if t = ['*', '*'] then some .deep else (pieces? t.length t).map .name

/-- The parts between slashes. A slash at the end adds none. -/
def parts (t : Text) : List Text :=
  let ps := Text.splitAt '/' t
  if ps.getLast? = some [] then ps.dropLast else ps

/-- Is there a part of the text, taken from its end, that passes the test? -/
def anyEnd (p : Text → Bool) : Text → Bool
  | [] => p []
  | c :: t => p (c :: t) || anyEnd p t

def fits : List Piece → Text → Bool
  | [], t => t.isEmpty
  | .run :: ps, t => anyEnd (fits ps) t
  | _ :: _, [] => false
  | .char a :: ps, c :: t => c = a && fits ps t
  | .one :: ps, _ :: t => fits ps t
  | .oneOf rs :: ps, c :: t => within rs c && fits ps t
  | .noneOf rs :: ps, c :: t => !within rs c && fits ps t

namespace Segment

/-- A name without wildcards. -/
def literal? : Segment → Option Text
  | deep => none
  | name ps => ps.mapM fun
    | .char c => some c
    | _ => none

def fits : Segment → Text → Bool
  | deep, _ => false
  | name ps, t => Glob.fits ps t

def startsWithDot : Segment → Bool
  | name (.char '.' :: _) => true
  | _ => false

end Segment

end LogQuery.Glob

namespace LogQuery

/-- A pattern of paths: from the root or from here, segment by segment. -/
structure Glob where
  fromRoot : Bool
  segments : List Glob.Segment
  foldersOnly : Bool

/-- A pattern that names nothing but where it starts has one empty segment. -/
def Glob.ofText? (t : Text) : Option Glob :=
  let fromRoot := t.head? = some '/'
  let inside := if fromRoot then t.drop 1 else t
  let parts := if inside.isEmpty then [[]] else parts inside
  (parts.mapM segment?).map fun segments => ⟨fromRoot, segments, t.getLast? = some '/'⟩

end LogQuery
