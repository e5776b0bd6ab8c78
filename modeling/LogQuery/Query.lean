import LogQuery.Element.Walk

/-! Questions about a query as a whole. -/
namespace LogQuery

def isValid (query : Text) : Bool := !hasElement query .error

/-- More than a pair of braces, and no metric in it. -/
def isLogs (query : Text) : Bool := 2 < (Text.trim query).bytes && !hasElement query .metricExpr

inductive QuerySort where
  | logs
  | metric
  | unknown

def QuerySort.name : QuerySort → String
  | logs => "logs"
  | metric => "metric"
  | unknown => "unknown"

def querySort (query : Text) : QuerySort :=
  if isLogs query then .logs else if hasElement query .metricExpr then .metric else .unknown

/-- The string that a matcher gives to the label, with its quotes. -/
def labelValue? (query label : Text) (matcher : Element) : Option Text :=
  match matcher.child? .identifier, matcher.child? .string with
  | some name, some value =>
    if name.span.text query = label then some (value.span.text query) else none
  | _, _ => none

/-- The value of the first matcher on the label that names services. -/
def serviceName? (query label : Text) : Option Text :=
  (elements query (some [.matcher])).findSome? (labelValue? query label)

/-- The first stage that parses lines into fields. -/
def parserStage? (query : Text) : Option Text :=
  (elements query (some [.keyword .json, .keyword .logfmt])).head?.map fun stage =>
    Text.trim (stage.span.text query)

end LogQuery
