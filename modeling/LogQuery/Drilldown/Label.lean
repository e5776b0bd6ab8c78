import LogQuery.Drilldown.Operator
import LogQuery.Element.Walk

/-! Filters on the indexed labels of a stream selector. -/
namespace LogQuery

structure LabelFilter where
  key : Text
  operator : Comparison
  value : Text
  labelType : LabelType
  deriving DecidableEq, Repr

namespace LabelFilter

/-- A matcher with a value that is not empty and an operator of its own. -/
def ofMatcher? (selector : Text) (matcher : Element) : Option LabelFilter :=
  match matcher.first? .identifier, matcher.first? .string with
  | some name, some string =>
    match (selector.slice? name.span.stop string.span.start).map Comparison.ofText with
    | some (.ok op) =>
      let key := name.span.text selector
      let value := string.span.unquoted selector
      if op.isMatcher && !key.isEmpty && !value.isEmpty then some ⟨key, op, value, .indexed⟩
      else none
    | _ => none
  | _, _ => none

/-- The filters of a selector, read from its text alone. -/
def ofSelector (selector : Text) : List LabelFilter :=
  (elements selector (some [.matcher])).filterMap (ofMatcher? selector)

end LabelFilter
end LogQuery
