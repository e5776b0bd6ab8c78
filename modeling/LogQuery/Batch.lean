import LogQuery.Matcher

/-! Saved queries: one on each line of a file. -/
namespace LogQuery

structure SavedQuery where
  file : Text
  /-- Lines are counted from one, skipped ones too. -/
  line : Nat
  query : Text
  matchers : List Matcher
  deriving DecidableEq, Repr

namespace SavedQuery

/-- A line that is blank or a comment holds no query. -/
def ofLine? (file : Text) (line : Nat) (t : Text) : Option SavedQuery :=
  let query := t.trim
  if query.isEmpty || query.head? = some '#' then none
  else some ⟨file, line, query, LogQuery.matchers query⟩

def ofContent (file content : Text) : List SavedQuery :=
  ((Text.lines content).zipIdx 1).filterMap fun (t, line) => ofLine? file line t

end SavedQuery

/-- The queries of all files, in the order of the files. One that cannot be read spoils the
whole. -/
def batch? : List (Text × Option Text) → Option (List SavedQuery)
  | [] => some []
  | (_, none) :: _ => none
  | (file, some content) :: files =>
    (batch? files).map (SavedQuery.ofContent file content ++ ·)

end LogQuery
