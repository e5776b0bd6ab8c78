import LogQuery.Drilldown.Field
import LogQuery.Drilldown.Label
import LogQuery.Drilldown.Line
import LogQuery.Matcher

/-! The parts of a query that a drilldown lets its readers switch on and off. -/
namespace LogQuery

structure Drilldown where
  labels : List LabelFilter
  lines : List LineFilter
  fields : List FieldFilter
  patterns : List PatternFilter
  deriving DecidableEq, Repr

inductive Drilldown.Warning where
  | lineFilter (text : Text)
  | numericOperator (text : Text)
  deriving DecidableEq, Repr

def Drilldown.Warning.message : Warning → String
  | lineFilter t => "unknown line filter: " ++ String.ofList t
  | numericOperator t => "unknown numeric operator in " ++ String.ofList t

/-- The filters of a query. Without a stream selector there are none. -/
def drilldown (query : Text) (types : LabelTypes) : Drilldown :=
  match firstSelector? query with
  | none => ⟨[], [], [], []⟩
  | some selector =>
    let lines := LineEntry.ofQuery query
    { labels := LabelFilter.ofSelector (selector.span.text query)
      lines := lines.filterMap LineEntry.line?
      fields := (FieldEntry.ofQuery query types).filterMap FieldEntry.field?
      patterns := lines.filterMap LineEntry.pattern? }

/-- What was left out of the filters, and why. -/
def drilldownWarnings (query : Text) (types : LabelTypes) : List Drilldown.Warning :=
  match firstSelector? query with
  | none => []
  | some _ =>
    ((LineEntry.ofQuery query).filterMap LineEntry.unknown?).map .lineFilter
      ++ ((FieldEntry.ofQuery query types).filterMap FieldEntry.unknown?).map .numericOperator

end LogQuery
