import LogQuery.Text

/-! Words that an identifier may stand for where the grammar asks for one. -/
namespace LogQuery

inductive Keyword where
  | json | logfmt | regexp | unpack | pattern | lineFormat | labelFormat | drop | keep | decolorize
  | unwrap | offset | groupBy | groupWithout | bool | and | or | unlessMatched | ip | vector
  | rate | rateCounter | countOverTime | bytesRate | bytesOverTime | avgOverTime | sumOverTime
  | minOverTime | maxOverTime | stddevOverTime | stdvarOverTime | quantileOverTime
  | firstOverTime | lastOverTime | absentOverTime
  | sum | avg | count | max | min | stddev | stdvar | bottomk | topk | sort | sortDesc
  | bytesConversion | durationConversion | durationSecondsConversion
  deriving DecidableEq, Repr

namespace Keyword

/-- The word as a query writes it. -/
def spelling : Keyword → String
  | json => "json"
  | logfmt => "logfmt"
  | regexp => "regexp"
  | unpack => "unpack"
  | pattern => "pattern"
  | lineFormat => "line_format"
  | labelFormat => "label_format"
  | drop => "drop"
  | keep => "keep"
  | decolorize => "decolorize"
  | unwrap => "unwrap"
  | offset => "offset"
  | groupBy => "by"
  | groupWithout => "without"
  | bool => "bool"
  | and => "and"
  | or => "or"
  | unlessMatched => "unless"
  | ip => "ip"
  | vector => "vector"
  | rate => "rate"
  | rateCounter => "rate_counter"
  | countOverTime => "count_over_time"
  | bytesRate => "bytes_rate"
  | bytesOverTime => "bytes_over_time"
  | avgOverTime => "avg_over_time"
  | sumOverTime => "sum_over_time"
  | minOverTime => "min_over_time"
  | maxOverTime => "max_over_time"
  | stddevOverTime => "stddev_over_time"
  | stdvarOverTime => "stdvar_over_time"
  | quantileOverTime => "quantile_over_time"
  | firstOverTime => "first_over_time"
  | lastOverTime => "last_over_time"
  | absentOverTime => "absent_over_time"
  | sum => "sum"
  | avg => "avg"
  | count => "count"
  | max => "max"
  | min => "min"
  | stddev => "stddev"
  | stdvar => "stdvar"
  | bottomk => "bottomk"
  | topk => "topk"
  | sort => "sort"
  | sortDesc => "sort_desc"
  | bytesConversion => "bytes"
  | durationConversion => "duration"
  | durationSecondsConversion => "duration_seconds"

def text (w : Keyword) : Text := w.spelling.toList

/-- The words that open a stage of a pipeline or join its parts, in the order of their kinds. -/
def clauses : List Keyword :=
  [json, logfmt, regexp, unpack, pattern, lineFormat, labelFormat, drop, keep, decolorize, unwrap,
    offset, groupBy, groupWithout, bool, and, or, unlessMatched, ip, vector]

def rangeOps : List Keyword :=
  [rate, rateCounter, countOverTime, bytesRate, bytesOverTime, avgOverTime, sumOverTime,
    minOverTime, maxOverTime, stddevOverTime, stdvarOverTime, quantileOverTime, firstOverTime,
    lastOverTime, absentOverTime]

def vectorOps : List Keyword :=
  [sum, avg, count, max, min, stddev, stdvar, bottomk, topk, sort, sortDesc]

def conversions : List Keyword :=
  [bytesConversion, durationConversion, durationSecondsConversion]

def all : List Keyword := clauses ++ rangeOps ++ vectorOps ++ conversions

/-- The word among `words` that `text` spells. -/
def ofText? (words : List Keyword) (text : Text) : Option Keyword :=
  words.find? fun w => w.text = text

/-- Conversions are told apart from the labels and units of the same spelling. -/
def name (w : Keyword) : String :=
  let word := String.ofList (w.text.map Char.toUpper)
  if w ∈ conversions then word ++ "_CONV" else word

end Keyword
end LogQuery
