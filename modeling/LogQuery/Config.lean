import LogQuery.Drilldown.Operator
import LogQuery.Format
import LogQuery.Toml.Reader

/-! Settings, and types of labels, as TOML documents give them. -/
namespace LogQuery

structure Config where
  /-- The label that names the service of a query. -/
  serviceLabel : Text
  format : Format
  /-- Patterns of files with one query on each line. -/
  savedQueries : List Text
  deriving DecidableEq, Repr

def Config.default : Config := ⟨"service_name".toList, .text, []⟩

namespace Toml

def string? : Toml → Option Text
  | string t => some t
  | _ => none

def strings? : Toml → Option (List Text)
  | array items => items.mapM string?
  | _ => none

/-- A format by its name, or as the only key of a table with nothing in it. -/
def format? : Toml → Option Format
  | string t => (Format.ofName t).toOption
  | table _ [(name, array [])] => (Format.ofName name).toOption
  | table _ [(name, table _ [])] => (Format.ofName name).toOption
  | _ => none

/-- The value of a key, or else a default. -/
def getOr? {α : Type} (t : Toml) (key : String) (default : α) (f : Toml → Option α) : Option α :=
  match t.get? key.toList with
  | some v => f v
  | none => some default

end Toml

def Config.ofToml? (t : Toml) : Option Config := do
  return {
    serviceLabel := ← t.getOr? "service_label" Config.default.serviceLabel Toml.string?
    format := ← t.getOr? "output" Config.default.format Toml.format?
    savedQueries := ← t.getOr? "saved_queries" Config.default.savedQueries Toml.strings? }

def Config.read? (text : Text) : Option Config := (Toml.read? text).bind Config.ofToml?

/-- Codes by label. Every value has to be a string. -/
def LabelTypes.ofToml? (t : Toml) : Option LabelTypes :=
  t.members.mapM fun (label, code) => code.string?.map (label, ·)

def LabelTypes.read? (text : Text) : Option LabelTypes :=
  (Toml.read? text).bind LabelTypes.ofToml?

end LogQuery
