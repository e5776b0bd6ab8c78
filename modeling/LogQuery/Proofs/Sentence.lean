import LogQuery.Proofs.Grammar.Production
import LogQuery.Proofs.Token.Spaced

/-! Log queries as they are meant: selectors and stages with their tokens, and the tree that each of
them is to have. -/
namespace LogQuery

open Grammar (matcherOps comparisonOps unitKinds lineOps)

namespace Kind

/-- The signs of the language. Tokens of other kinds have no spelling of their own. -/
def symbol : Kind → String
  | lBrace => "\x7b"
  | rBrace => "\x7d"
  | lParen => "("
  | rParen => ")"
  | comma => ","
  | eq => "="
  | neq => "!="
  | re => "=~"
  | nre => "!~"
  | npa => "!>"
  | eql => "=="
  | gtr => ">"
  | gte => ">="
  | lss => "<"
  | lte => "<="
  | pipe => "|"
  | pipeExact => "|="
  | pipeMatch => "|~"
  | pipePattern => "|>"
  | _ => ""

def mark (k : Kind) : Token := ⟨k, k.symbol.toList⟩

end Kind

open Kind (mark)

def Keyword.token (w : Keyword) : Token := ⟨.identifier, w.text⟩

def Keyword.leaf (w : Keyword) : Tree := .leaf (.keyword w) w.text

/-- A text that is one token. -/
structure Lexeme (k : Kind) where
  text : Text
  lexes : Token.lex text = [⟨k, text⟩]

def Lexeme.token {k : Kind} (x : Lexeme k) : Token := ⟨k, x.text⟩

/-- One of some signs. -/
abbrev Sign (ks : List Kind) : Type := { k : Kind // k ∈ ks }

def Sign.token {ks : List Kind} (s : Sign ks) : Token := mark s.val

section List

variable {α : Type}

def commaTokens (f : α → List Token) : List α → List Token
  | [] => []
  | x :: xs => f x ++ xs.flatMap fun y => mark .comma :: f y

def commaTrees (f : α → Tree) : List α → List Tree
  | [] => []
  | x :: xs => f x :: xs.flatMap fun y => [.ofToken (mark .comma), f y]

/-- The deepest of some levels. -/
def deepest (f : α → Nat) (xs : List α) : Nat := xs.foldr (fun x d => max (f x) d) 0

end List

/-- A name, an operator and a string. -/
structure Matching where
  name : Lexeme .identifier
  op : Sign matcherOps
  value : Lexeme .string

namespace Matching

def tokens (m : Matching) : List Token := [m.name.token, m.op.token, m.value.token]

def tree (m : Matching) : Tree := .node .matcher (m.tokens.map .ofToken)

end Matching

/-- What a line is searched for. -/
inductive LineValue where
  | text (x : Lexeme .string)
  | address (x : Lexeme .string)

namespace LineValue

def tokens : LineValue → List Token
  | text x => [x.token]
  | address x => [Keyword.ip.token, mark .lParen, x.token, mark .rParen]

def trees : LineValue → List Tree
  | text x => [.ofToken x.token]
  | address x =>
    .node .filterOp [Keyword.ip.leaf] :: [mark .lParen, x.token, mark .rParen].map .ofToken

end LineValue

/-- A line filter: an operator, a value, and more values after `or`. -/
structure LineTest where
  op : Sign lineOps
  first : LineValue
  more : List LineValue

namespace LineTest

def orTokens (vs : List LineValue) : List Token :=
  vs.flatMap fun v => Keyword.or.token :: v.tokens

/-- Each further value encloses those behind it. -/
def orTrees : List LineValue → List Tree
  | [] => []
  | v :: vs => [.node .orFilter (Keyword.or.leaf :: (v.trees ++ orTrees vs))]

def tokens (t : LineTest) : List Token := t.op.token :: (t.first.tokens ++ orTokens t.more)

def tree (t : LineTest) : Tree :=
  .node .lineFilter (.node .filter [.ofToken t.op.token] :: (t.first.trees ++ orTrees t.more))

def levels (t : LineTest) : Nat := t.more.length

end LineTest

/-- A label compared with a string, an address range or an amount. -/
inductive LabelTest where
  | matching (m : Matching)
  | address (name : Lexeme .identifier) (op : Sign [.eq, .neq]) (x : Lexeme .string)
  | amount (name : Lexeme .identifier) (op : Sign comparisonOps) (unit : Sign unitKinds)
      (x : Lexeme unit.val)

namespace LabelTest

def tokens : LabelTest → List Token
  | matching m => m.tokens
  | address name op x =>
    [name.token, op.token, Keyword.ip.token, mark .lParen, x.token, mark .rParen]
  | amount name op _ x => [name.token, op.token, x.token]

def amountTree (unit : Kind) (cs : List Tree) : Tree :=
  match unit with
  | .duration => .node .unitFilter [.node .durationFilter cs]
  | .bytes => .node .unitFilter [.node .bytesFilter cs]
  | _ => .node .numberFilter cs

def tree : LabelTest → Tree
  | matching m => m.tree
  | address name op x =>
    .node .ipLabelFilter ([name.token, op.token].map .ofToken ++
      Keyword.ip.leaf :: [mark .lParen, x.token, mark .rParen].map .ofToken)
  | amount name op unit x => amountTree unit.val ([name.token, op.token, x.token].map .ofToken)

end LabelTest

/-- What stands between label filters that bind closely. -/
inductive Joint where
  | and
  | comma
  | beside

namespace Joint

def tokens : Joint → List Token
  | and => [Keyword.and.token]
  | comma => [mark .comma]
  | beside => []

def trees : Joint → List Tree
  | and => [Keyword.and.leaf]
  | comma => [.ofToken (mark .comma)]
  | beside => []

end Joint

mutual

inductive LabelOperand where
  | test (t : LabelTest)
  | group (f : LabelDisjunction)

/-- Label filters joined from the left, none of them by `or`. -/
inductive LabelConjunction where
  | one (o : LabelOperand)
  | also (c : LabelConjunction) (j : Joint) (o : LabelOperand)

/-- Label filters joined from the left by `or`. -/
inductive LabelDisjunction where
  | one (c : LabelConjunction)
  | orElse (f : LabelDisjunction) (c : LabelConjunction)

end

mutual

def LabelOperand.tokens : LabelOperand → List Token
  | .test t => t.tokens
  | .group f => mark .lParen :: (f.tokens ++ [mark .rParen])

def LabelConjunction.tokens : LabelConjunction → List Token
  | .one o => o.tokens
  | .also c j o => c.tokens ++ (j.tokens ++ o.tokens)

def LabelDisjunction.tokens : LabelDisjunction → List Token
  | .one c => c.tokens
  | .orElse f c => f.tokens ++ (Keyword.or.token :: c.tokens)

end

mutual

def LabelOperand.tree : LabelOperand → Tree
  | .test t => .node .labelFilter [t.tree]
  | .group f => .node .labelFilter [.ofToken (mark .lParen), f.tree, .ofToken (mark .rParen)]

def LabelConjunction.tree : LabelConjunction → Tree
  | .one o => o.tree
  | .also c j o => .node .labelFilter (c.tree :: (j.trees ++ [o.tree]))

def LabelDisjunction.tree : LabelDisjunction → Tree
  | .one c => c.tree
  | .orElse f c => .node .labelFilter [f.tree, Keyword.or.leaf, c.tree]

end

mutual

/-- How many levels of nesting are entered from inside the rule for label filters. -/
def LabelOperand.inner : LabelOperand → Nat
  | .test _ => 0
  | .group f => f.inner + 1

/-- An operand on the right of a sign is a level of its own. -/
def LabelConjunction.inner : LabelConjunction → Nat
  | .one o => o.inner
  | .also c _ o => max c.inner (o.inner + 1)

def LabelDisjunction.inner : LabelDisjunction → Nat
  | .one c => c.inner
  | .orElse f c => max f.inner (c.inner + 1)

end

def LabelDisjunction.levels (f : LabelDisjunction) : Nat := f.inner + 1

/-- A label taken from a parsed line, under its own name or from the place that a string gives. -/
structure Extraction where
  name : Lexeme .identifier
  source : Option (Lexeme .string)

namespace Extraction

def tokens (e : Extraction) : List Token :=
  e.name.token :: (e.source.toList.flatMap fun x => [mark .eq, x.token])

def tree (e : Extraction) : Tree := .node .labelExtractionExpression (e.tokens.map .ofToken)

end Extraction

/-- A label set to another label or to a template. -/
structure Formatting where
  name : Lexeme .identifier
  sort : Sign [.identifier, .string]
  value : Lexeme sort.val

namespace Formatting

def tokens (f : Formatting) : List Token := [f.name.token, mark .eq, f.value.token]

def tree (f : Formatting) : Tree := .node .labelFormatMatcher (f.tokens.map .ofToken)

end Formatting

/-- A label to be dropped or kept, if it has some value or in any case. -/
inductive Choice where
  | name (x : Lexeme .identifier)
  | matching (m : Matching)

namespace Choice

def tokens : Choice → List Token
  | name x => [x.token]
  | matching m => m.tokens

def tree (k : Kind) : Choice → Tree
  | name x => .node k [.ofToken x.token]
  | matching m => .node k [m.tree]

def isName : Choice → Bool
  | name _ => true
  | matching _ => false

end Choice

/-- A stage after a bar. Lists that may be missing may be empty. -/
inductive Piped where
  | label (f : LabelDisjunction)
  | json (es : List Extraction)
  | logfmt (flags : List (Lexeme .parserFlag)) (es : List Extraction)
  | regexp (x : Lexeme .string)
  | pattern (x : Lexeme .string)
  | unpack
  | decolorize
  | lineFormat (x : Lexeme .string)
  | labelFormat (f : Formatting) (fs : List Formatting)
  | drop (c : Choice) (cs : List Choice)
  | keep (c : Choice) (cs : List Choice)

namespace Piped

def tokens : Piped → List Token
  | label f => f.tokens
  | json es => Keyword.json.token :: commaTokens Extraction.tokens es
  | logfmt flags es =>
    Keyword.logfmt.token :: (flags.map Lexeme.token ++ commaTokens Extraction.tokens es)
  | regexp x => [Keyword.regexp.token, x.token]
  | pattern x => [Keyword.pattern.token, x.token]
  | unpack => [Keyword.unpack.token]
  | decolorize => [Keyword.decolorize.token]
  | lineFormat x => [Keyword.lineFormat.token, x.token]
  | labelFormat f fs => Keyword.labelFormat.token :: commaTokens Formatting.tokens (f :: fs)
  | drop c cs => Keyword.drop.token :: commaTokens Choice.tokens (c :: cs)
  | keep c cs => Keyword.keep.token :: commaTokens Choice.tokens (c :: cs)

def extractionTrees : List Extraction → List Tree
  | [] => []
  | es => [.node .labelExtractionExpressionList (commaTrees Extraction.tree es)]

def logfmtKind (flags : List (Lexeme .parserFlag)) (es : List Extraction) : Kind :=
  if es.isEmpty then if flags.isEmpty then .labelParser else .logfmtParser
  else .logfmtExpressionParser

def tree : Piped → Tree
  | label f => f.tree
  | json es =>
    .node (if es.isEmpty then .labelParser else .jsonExpressionParser)
      (Keyword.json.leaf :: extractionTrees es)
  | logfmt flags es =>
    .node (logfmtKind flags es)
      (Keyword.logfmt.leaf :: (flags.map (.ofToken ·.token) ++ extractionTrees es))
  | regexp x => .node .labelParser [Keyword.regexp.leaf, .ofToken x.token]
  | pattern x => .node .labelParser [Keyword.pattern.leaf, .ofToken x.token]
  | unpack => .node .labelParser [Keyword.unpack.leaf]
  | decolorize => .node .decolorizeExpr [Keyword.decolorize.leaf]
  | lineFormat x => .node .lineFormatExpr [Keyword.lineFormat.leaf, .ofToken x.token]
  | labelFormat f fs =>
    .node .labelFormatExpr
      [Keyword.labelFormat.leaf, .node .labelsFormat (commaTrees Formatting.tree (f :: fs))]
  | drop c cs =>
    .node .dropLabelsExpr
      [Keyword.drop.leaf, .node .dropLabels (commaTrees (Choice.tree .dropLabel) (c :: cs))]
  | keep c cs =>
    .node .keepLabelsExpr
      [Keyword.keep.leaf, .node .keepLabels (commaTrees (Choice.tree .keepLabel) (c :: cs))]

def levels : Piped → Nat
  | label f => f.levels
  | _ => 0

/-- A label filter whose first name would be taken for the start of an unwrapped range. -/
def opensUnwrap : Piped → Bool
  | label f => Grammar.wordAt 0 .unwrap f.tokens
  | _ => false

/-- A stage that ends in a name, which a comparison after it would be taken for part of. -/
def endsOpen : Piped → Bool
  | json es => es.isEmpty
  | logfmt flags es => flags.isEmpty && es.isEmpty
  | unpack | decolorize => true
  | drop c cs | keep c cs => ((c :: cs).getLast (by simp)).isName
  | _ => false

end Piped

inductive Stage where
  | line (t : LineTest)
  | piped (p : Piped)

namespace Stage

def tokens : Stage → List Token
  | line t => t.tokens
  | piped p => mark .pipe :: p.tokens

def levels : Stage → Nat
  | line t => t.levels
  | piped p => p.levels

def opensUnwrap : Stage → Bool
  | line _ => false
  | piped p => p.opensUnwrap

def endsOpen : Stage → Bool
  | line _ => false
  | piped p => p.endsOpen

/-- A line filter whose operator also compares labels. -/
def opensComparison : Stage → Bool
  | line t => t.op.val = .neq || t.op.val = .nre
  | piped _ => false

/-- The line filters that some stages begin with. -/
def leadingLines : List Stage → List LineTest
  | line t :: ss => t :: leadingLines ss
  | _ => []

/-- The stages after a bar, each with the line filters behind it. -/
def blocks : List Stage → List (Piped × List LineTest)
  | [] => []
  | line _ :: ss => blocks ss
  | piped p :: ss => (p, leadingLines ss) :: blocks ss

/-- Line filters in a row are one stage of the tree. -/
def lineTrees : List LineTest → List Tree
  | [] => []
  | ts => [.node .pipelineStage [.node .lineFilters (ts.map LineTest.tree)]]

def pipedTree (p : Piped) : Tree := .node .pipelineStage [.ofToken (mark .pipe), p.tree]

def blockTrees (b : Piped × List LineTest) : List Tree := pipedTree b.1 :: lineTrees b.2

def trees (ss : List Stage) : List Tree :=
  lineTrees (leadingLines ss) ++ (blocks ss).flatMap blockTrees

end Stage

/-- A log query: label matchers in braces, maybe with a comma after the last, and stages. -/
structure Sentence where
  matchers : List Matching
  comma : Bool
  stages : List Stage

namespace Sentence

def commas (s : Sentence) : List Token := if s.comma then [mark .comma] else []

def selectorTokens (s : Sentence) : List Token :=
  mark .lBrace :: (commaTokens Matching.tokens s.matchers ++ (s.commas ++ [mark .rBrace]))

def tokens (s : Sentence) : List Token := s.selectorTokens ++ s.stages.flatMap Stage.tokens

def matchersTrees : List Matching → List Tree
  | [] => []
  | ms => [.node .matchers (commaTrees Matching.tree ms)]

def selectorTree (s : Sentence) : Tree :=
  .node .selector (.ofToken (mark .lBrace) ::
    (matchersTrees s.matchers ++ (s.commas ++ [mark .rBrace]).map .ofToken))

def pipelineTrees : List Stage → List Tree
  | [] => []
  | ss => [.node .pipelineExpr (Stage.trees ss)]

def tree (s : Sentence) : Tree :=
  .node .logQl [.node .expr [.node .logExpr (s.selectorTree :: pipelineTrees s.stages)]]

/-- How deep the rules of the grammar nest on a query, its expression being the first level. -/
def levels (s : Sentence) : Nat := deepest Stage.levels s.stages + 1

/-- No label filter stage opens with the name `unwrap`, and no stage that ends in a name is followed
by a line filter that would compare it. -/
structure Readable (s : Sentence) : Prop where
  no_unwrap : ∀ t ∈ s.stages, t.opensUnwrap = false
  no_comparison : s.stages.IsChain fun a b => ¬ (a.endsOpen ∧ b.opensComparison)

end Sentence

end LogQuery
