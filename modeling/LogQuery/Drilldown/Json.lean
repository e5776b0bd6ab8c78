import LogQuery.Drilldown
import LogQuery.Json

/-! Drilldown filters as JSON. -/
namespace LogQuery

namespace Comparison

def toJson (op : Comparison) : Json := .ofString op.symbol

def ofJson? : Json → Option Comparison := Json.choice? all symbol

end Comparison

namespace LabelType

def toJson (t : LabelType) : Json := .ofString t.name

def ofJson? : Json → Option LabelType := Json.choice? all name

end LabelType

namespace FieldParser

def toJson (p : FieldParser) : Json := .ofString p.name

def ofJson? : Json → Option FieldParser := Json.choice? all name

end FieldParser

namespace LabelFilter

def names : List String := ["key", "operator", "value", "type"]

def toJson (f : LabelFilter) : Json :=
  .record [("key", .string f.key), ("operator", f.operator.toJson), ("value", .string f.value),
    ("type", f.labelType.toJson)]

def ofJson? (j : Json) : Option LabelFilter :=
  match j.members? names with
  | some [some key, some op, some value, some type] => do
    return ⟨← key.string?, ← Comparison.ofJson? op, ← value.string?, ← LabelType.ofJson? type⟩
  | _ => none

end LabelFilter

namespace LineFilter

def names : List String := ["key", "operator", "value"]

def toJson (f : LineFilter) : Json :=
  .record [("key", .string f.key), ("operator", .ofString f.operator.symbol),
    ("value", .string f.value)]

def ofJson? (j : Json) : Option LineFilter :=
  match j.members? names with
  | some [some key, some op, some value] => do
    return ⟨← key.string?, ← op.choice? LineOp.all LineOp.symbol, ← value.string?⟩
  | _ => none

end LineFilter

namespace FieldFilter

def names : List String := ["key", "operator", "value", "type", "parser"]

/-- A field without a parser has no such member. -/
def toJson (f : FieldFilter) : Json :=
  .record ([("key", .string f.key), ("operator", f.operator.toJson), ("value", .string f.value),
    ("type", f.labelType.toJson)] ++ (f.parser.map fun p => ("parser", p.toJson)).toList)

def ofJson? (j : Json) : Option FieldFilter :=
  match j.members? names with
  | some [some key, some op, some value, some type, parser] => do
    return ⟨← key.string?, ← Comparison.ofJson? op, ← value.string?, ← LabelType.ofJson? type,
      ← Json.optional? FieldParser.ofJson? parser⟩
  | _ => none

end FieldFilter

namespace PatternFilter

def names : List String := ["operator", "value"]

def toJson (f : PatternFilter) : Json :=
  .record [("operator", .ofString f.operator.symbol), ("value", .string f.value)]

def ofJson? (j : Json) : Option PatternFilter :=
  match j.members? names with
  | some [some op, some value] => do
    return ⟨← op.choice? PatternOp.all PatternOp.symbol, ← value.string?⟩
  | _ => none

end PatternFilter

namespace Drilldown

def names : List String := ["labelFilters", "lineFilters", "fields", "patternFilters"]

def toJson (d : Drilldown) : Json :=
  .record [("labelFilters", .list LabelFilter.toJson d.labels),
    ("lineFilters", .list LineFilter.toJson d.lines),
    ("fields", .list FieldFilter.toJson d.fields),
    ("patternFilters", .list PatternFilter.toJson d.patterns)]

def ofJson? (j : Json) : Option Drilldown :=
  match j.members? names with
  | some [some labels, some lines, some fields, some patterns] => do
    return ⟨← labels.list? LabelFilter.ofJson?, ← lines.list? LineFilter.ofJson?,
      ← fields.list? FieldFilter.ofJson?, ← patterns.list? PatternFilter.ofJson?⟩
  | _ => none

end Drilldown
end LogQuery
