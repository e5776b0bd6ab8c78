import LogQuery.Text

/-! Formats in which results are printed. -/
namespace LogQuery

inductive Format where
  | text
  | json
  deriving DecidableEq, Repr

/-- A name that no format has. -/
structure UnknownFormat where
  name : Text

def UnknownFormat.message (u : UnknownFormat) : String :=
  "unknown output format `" ++ String.ofList u.name ++ "`, expected `text` or `json`"

namespace Format

def name : Format → String
  | text => "text"
  | json => "json"

def ofName (name : Text) : Except UnknownFormat Format :=
  if name = text.name.toList then .ok text
  else if name = json.name.toList then .ok json
  else .error ⟨name⟩

end Format
end LogQuery
