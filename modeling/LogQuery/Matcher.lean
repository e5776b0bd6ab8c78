import LogQuery.Element.Walk
import LogQuery.Json

/-! Label matchers of a query. Those in the first stream selector are on indexed labels. -/
namespace LogQuery

inductive Matcher.Op where
  | equal
  | notEqual
  deriving DecidableEq, Repr

/-- Every operator but a plain `=` counts as a refusal. -/
def Matcher.Op.ofText (t : Text) : Op := if t = ['='] then equal else notEqual

def Matcher.Op.symbol : Op → String
  | equal => "="
  | notEqual => "!="

inductive Matcher.Place where
  | indexed
  | nonIndexed
  deriving DecidableEq, Repr

def Matcher.Place.name : Place → String
  | indexed => "IndexedLabel"
  | nonIndexed => "NonIndexedLabel"

structure Matcher where
  key : Text
  op : Matcher.Op
  values : List Text
  place : Matcher.Place
  deriving DecidableEq, Repr

namespace Matcher

/-- The operator is what stands between the name and the value, or the end of the matcher. -/
def ofElement? (query : Text) (selector : Span) (e : Element) : Option Matcher :=
  (e.first? .identifier).map fun name =>
    let strings := e.outermost .string
    let stop := (strings.head?.map (·.span.start)).getD e.span.stop
    { key := name.span.text query
      op := .ofText ((query.slice? name.span.stop stop).getD [])
      values := strings.map (·.span.unquoted query)
      place := if selector.contains e.span then .indexed else .nonIndexed }

def Op.all : List Op := [.equal, .notEqual]

def Place.all : List Place := [.indexed, .nonIndexed]

/-- What the parts of a matcher are called in JSON. -/
def names : List String := ["key", "op", "values", "type"]

def toJson (m : Matcher) : Json :=
  .record [("key", .string m.key), ("op", .ofString m.op.symbol),
    ("values", .list .string m.values), ("type", .ofString m.place.name)]

def ofJson? (j : Json) : Option Matcher :=
  match j.members? names with
  | some [some key, some op, some values, some place] => do
    return ⟨← key.string?, ← op.choice? Op.all Op.symbol, ← values.list? Json.string?,
      ← place.choice? Place.all Place.name⟩
  | _ => none

end Matcher

def firstSelector? (query : Text) : Option Element := (elements query (some [.selector])).head?

def matchers (query : Text) : List Matcher :=
  match firstSelector? query with
  | none => []
  | some selector =>
    (elements query (some [.matcher])).filterMap (Matcher.ofElement? query selector.span)

end LogQuery
