import LogQuery.Keyword

/-! Kinds of tokens and nodes, their names, numbers and classes. -/
namespace LogQuery

inductive Kind where
  | whitespace | comment
  | lBrace | rBrace | lParen | rParen | lBracket | rBracket | comma
  | unknown
  | identifier | string | number | duration | bytes | parserFlag
  | eq | neq | re | nre | npa | eql | gtr | gte | lss | lte
  | pipe | pipeExact | pipeMatch | pipePattern
  | add | sub | mul | div | mod | pow
  | keyword (word : Keyword)
  | eof
  | logQl | expr | logExpr | metricExpr
  | selector | matchers | matcher
  | pipelineExpr | pipelineStage
  | lineFilters | lineFilter | filter | filterOp | orFilter
  | labelParser | jsonExpressionParser | logfmtParser | logfmtExpressionParser
  | labelExtractionExpressionList | labelExtractionExpression
  | labelFilter | ipLabelFilter | unitFilter | durationFilter | bytesFilter | numberFilter
  | lineFormatExpr | labelFormatExpr | labelsFormat | labelFormatMatcher
  | dropLabelsExpr | dropLabels | dropLabel | keepLabelsExpr | keepLabels | keepLabel
  | decolorizeExpr
  | rangeAggregationExpr | rangeOp | logRangeExpr | range | offsetExpr | unwrapExpr | convOp
  | vectorAggregationExpr | vectorOp | grouping | labels
  | binOpExpr | boolModifier | literalExpr | vectorExpr
  | error
  deriving DecidableEq, Repr

namespace Kind

def tokens : List Kind :=
  [.whitespace, .comment, .lBrace, .rBrace, .lParen, .rParen, .lBracket, .rBracket, .comma,
    .unknown, .identifier, .string, .number, .duration, .bytes, .parserFlag, .eq, .neq, .re,
    .nre, .npa, .eql, .gtr, .gte, .lss, .lte, .pipe, .pipeExact, .pipeMatch, .pipePattern, .add,
    .sub, .mul, .div, .mod, .pow]
    ++ Keyword.all.map .keyword ++ [.eof]

def nodes : List Kind :=
  [.logQl, .expr, .logExpr, .metricExpr, .selector, .matchers, .matcher, .pipelineExpr,
    .pipelineStage, .lineFilters, .lineFilter, .filter, .filterOp, .orFilter, .labelParser,
    .jsonExpressionParser, .logfmtParser, .logfmtExpressionParser,
    .labelExtractionExpressionList, .labelExtractionExpression, .labelFilter, .ipLabelFilter,
    .unitFilter, .durationFilter, .bytesFilter, .numberFilter, .lineFormatExpr, .labelFormatExpr,
    .labelsFormat, .labelFormatMatcher, .dropLabelsExpr, .dropLabels, .dropLabel,
    .keepLabelsExpr, .keepLabels, .keepLabel, .decolorizeExpr, .rangeAggregationExpr, .rangeOp,
    .logRangeExpr, .range, .offsetExpr, .unwrapExpr, .convOp, .vectorAggregationExpr, .vectorOp,
    .grouping, .labels, .binOpExpr, .boolModifier, .literalExpr, .vectorExpr, .error]

/-- Every kind, in the order of its number. -/
def all : List Kind := tokens ++ nodes

def name : Kind → String
  | whitespace => "WHITESPACE"
  | comment => "COMMENT"
  | lBrace => "L_BRACE"
  | rBrace => "R_BRACE"
  | lParen => "L_PAREN"
  | rParen => "R_PAREN"
  | lBracket => "L_BRACKET"
  | rBracket => "R_BRACKET"
  | comma => "COMMA"
  | unknown => "UNKNOWN"
  | identifier => "IDENTIFIER"
  | string => "STRING"
  | number => "NUMBER"
  | duration => "DURATION"
  | bytes => "BYTES"
  | parserFlag => "PARSER_FLAG"
  | eq => "EQ"
  | neq => "NEQ"
  | re => "RE"
  | nre => "NRE"
  | npa => "NPA"
  | eql => "EQL"
  | gtr => "GTR"
  | gte => "GTE"
  | lss => "LSS"
  | lte => "LTE"
  | pipe => "PIPE"
  | pipeExact => "PIPE_EXACT"
  | pipeMatch => "PIPE_MATCH"
  | pipePattern => "PIPE_PATTERN"
  | add => "ADD"
  | sub => "SUB"
  | mul => "MUL"
  | div => "DIV"
  | mod => "MOD"
  | pow => "POW"
  | keyword w => w.name
  | eof => "EOF"
  | logQl => "LOG_QL"
  | expr => "EXPR"
  | logExpr => "LOG_EXPR"
  | metricExpr => "METRIC_EXPR"
  | selector => "SELECTOR"
  | matchers => "MATCHERS"
  | matcher => "MATCHER"
  | pipelineExpr => "PIPELINE_EXPR"
  | pipelineStage => "PIPELINE_STAGE"
  | lineFilters => "LINE_FILTERS"
  | lineFilter => "LINE_FILTER"
  | filter => "FILTER"
  | filterOp => "FILTER_OP"
  | orFilter => "OR_FILTER"
  | labelParser => "LABEL_PARSER"
  | jsonExpressionParser => "JSON_EXPRESSION_PARSER"
  | logfmtParser => "LOGFMT_PARSER"
  | logfmtExpressionParser => "LOGFMT_EXPRESSION_PARSER"
  | labelExtractionExpressionList => "LABEL_EXTRACTION_EXPRESSION_LIST"
  | labelExtractionExpression => "LABEL_EXTRACTION_EXPRESSION"
  | labelFilter => "LABEL_FILTER"
  | ipLabelFilter => "IP_LABEL_FILTER"
  | unitFilter => "UNIT_FILTER"
  | durationFilter => "DURATION_FILTER"
  | bytesFilter => "BYTES_FILTER"
  | numberFilter => "NUMBER_FILTER"
  | lineFormatExpr => "LINE_FORMAT_EXPR"
  | labelFormatExpr => "LABEL_FORMAT_EXPR"
  | labelsFormat => "LABELS_FORMAT"
  | labelFormatMatcher => "LABEL_FORMAT_MATCHER"
  | dropLabelsExpr => "DROP_LABELS_EXPR"
  | dropLabels => "DROP_LABELS"
  | dropLabel => "DROP_LABEL"
  | keepLabelsExpr => "KEEP_LABELS_EXPR"
  | keepLabels => "KEEP_LABELS"
  | keepLabel => "KEEP_LABEL"
  | decolorizeExpr => "DECOLORIZE_EXPR"
  | rangeAggregationExpr => "RANGE_AGGREGATION_EXPR"
  | rangeOp => "RANGE_OP"
  | logRangeExpr => "LOG_RANGE_EXPR"
  | range => "RANGE"
  | offsetExpr => "OFFSET_EXPR"
  | unwrapExpr => "UNWRAP_EXPR"
  | convOp => "CONV_OP"
  | vectorAggregationExpr => "VECTOR_AGGREGATION_EXPR"
  | vectorOp => "VECTOR_OP"
  | grouping => "GROUPING"
  | labels => "LABELS"
  | binOpExpr => "BIN_OP_EXPR"
  | boolModifier => "BOOL_MODIFIER"
  | literalExpr => "LITERAL_EXPR"
  | vectorExpr => "VECTOR_EXPR"
  | error => "ERROR"

/-- The number of a kind is its place among all kinds. -/
def raw (k : Kind) : Nat := all.idxOf k

def ofRaw? (n : Nat) : Option Kind := all[n]?

/-- A name that no kind has. -/
structure Unknown where
  name : Text

def Unknown.message (u : Unknown) : String := "unknown syntax kind `" ++ String.ofList u.name ++ "`"

/-- Names are read in any case of their letters. -/
def ofName (name : Text) : Except Unknown Kind :=
  match all.find? fun k => k.name.toList.map Char.toLower = name.map Char.toLower with
  | some k => .ok k
  | none => .error ⟨name⟩

def isNode (k : Kind) : Bool := nodes.contains k

def isToken (k : Kind) : Bool := !k.isNode

def isTrivia : Kind → Bool
  | whitespace | comment => true
  | _ => false

def isPunctuation : Kind → Bool
  | lBrace | rBrace | lParen | rParen | lBracket | rBracket | comma => true
  | _ => false

/-- Elements of a named kind are listed when a tree is walked. -/
def isNamed : Kind → Bool
  | unknown | eof => false
  | k => !k.isTrivia && !k.isPunctuation

end Kind
end LogQuery
