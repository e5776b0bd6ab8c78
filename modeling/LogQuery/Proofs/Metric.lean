import LogQuery.Proofs.Precedence.Ranked
import LogQuery.Proofs.Sentence

/-! Metric expressions as they are meant, with their tokens, the tree that each of them is to have,
and where parentheses are needed. -/
namespace LogQuery

open Kind (mark)
open Grammar (binaryOps)

/-- One of some words. -/
abbrev Word (ws : List Keyword) : Type := { w : Keyword // w ∈ ws }

/-- The token of an operator, of a bracket or of another sign. -/
def Kind.token : Kind → Token
  | keyword w => w.token
  | lBracket => ⟨lBracket, "[".toList⟩
  | rBracket => ⟨rBracket, "]".toList⟩
  | add => ⟨add, "+".toList⟩
  | sub => ⟨sub, "-".toList⟩
  | mul => ⟨mul, "*".toList⟩
  | div => ⟨div, "/".toList⟩
  | mod => ⟨mod, "%".toList⟩
  | pow => ⟨pow, "^".toList⟩
  | k => mark k

/-- The labels that samples are grouped by, or the others. -/
structure Grouping where
  word : Word [.groupBy, .groupWithout]
  labels : List (Lexeme .identifier)

namespace Grouping

def tokens (g : Grouping) : List Token :=
  g.word.val.token :: mark .lParen ::
    (commaTokens (fun x => [x.token]) g.labels ++ [mark .rParen])

def labelsTrees : List (Lexeme .identifier) → List Tree
  | [] => []
  | xs => [.node .labels (commaTrees (.ofToken ·.token) xs)]

def tree (g : Grouping) : Tree :=
  .node .grouping (g.word.val.leaf :: .ofToken (mark .lParen) ::
    (labelsTrees g.labels ++ [.ofToken (mark .rParen)]))

end Grouping

/-- A label whose values are the samples, maybe converted, and filters behind it. -/
structure Unwrapping where
  conversion : Option (Word Keyword.conversions)
  label : Lexeme .identifier
  filters : List LabelDisjunction

namespace Unwrapping

def labelTokens (u : Unwrapping) : List Token :=
  match u.conversion with
  | none => [u.label.token]
  | some w => [w.val.token, mark .lParen, u.label.token, mark .rParen]

def labelTrees (u : Unwrapping) : List Tree :=
  match u.conversion with
  | none => [.ofToken u.label.token]
  | some w => .node .convOp [w.val.leaf] :: [mark .lParen, u.label.token, mark .rParen].map .ofToken

def filterTokens (f : LabelDisjunction) : List Token := mark .pipe :: f.tokens

def filterTrees (f : LabelDisjunction) : List Tree := [.ofToken (mark .pipe), f.tree]

def tokens (u : Unwrapping) : List Token :=
  mark .pipe :: Keyword.unwrap.token :: (u.labelTokens ++ u.filters.flatMap filterTokens)

def tree (u : Unwrapping) : Tree :=
  .node .unwrapExpr (.ofToken (mark .pipe) :: Keyword.unwrap.leaf ::
    (u.labelTrees ++ u.filters.flatMap filterTrees))

def levels (u : Unwrapping) : Nat := deepest LabelDisjunction.levels u.filters

end Unwrapping

/-- The logs of a length of time, which may lie back by an offset. -/
structure LogRange where
  logs : Sentence
  readable : logs.Readable
  unwrapping : Option Unwrapping
  duration : Lexeme .duration
  offset : Option (Lexeme .duration)

namespace LogRange

def durationTokens (r : LogRange) : List Token :=
  [Kind.lBracket.token, r.duration.token, Kind.rBracket.token]

def offsetTokens (x : Lexeme .duration) : List Token := [Keyword.offset.token, x.token]

def offsetTree (x : Lexeme .duration) : Tree :=
  .node .offsetExpr [Keyword.offset.leaf, .ofToken x.token]

def tokens (r : LogRange) : List Token :=
  r.logs.tokens ++ (r.unwrapping.toList.flatMap Unwrapping.tokens ++
    (r.durationTokens ++ r.offset.toList.flatMap offsetTokens))

def tree (r : LogRange) : Tree :=
  .node .logRangeExpr (r.logs.selectorTree :: (Sentence.pipelineTrees r.logs.stages ++
    (r.unwrapping.toList.map Unwrapping.tree ++
      (.node .range (r.durationTokens.map .ofToken) :: r.offset.toList.map offsetTree))))

def levels (r : LogRange) : Nat :=
  max (deepest Stage.levels r.logs.stages) (deepest Unwrapping.levels r.unwrapping.toList)

end LogRange

/-- An expression over samples. Parentheses are part of how it is written, not of what it means. -/
inductive Metric where
  | number (sign : Option (Sign [.add, .sub])) (x : Lexeme .number)
  | vector (x : Lexeme .number)
  | range (op : Word Keyword.rangeOps) (parameter : Option (Lexeme .number)) (logs : LogRange)
      (group : Option Grouping)
  | aggregate (op : Word Keyword.vectorOps) (before : Option Grouping)
      (parameter : Option (Lexeme .number)) (inner : Metric) (after : Option Grouping)
  | binary (op : Sign binaryOps) (bool : Bool) (l r : Metric)
  | parens (inner : Metric)

namespace Metric

def groupTokens (g : Option Grouping) : List Token := g.toList.flatMap Grouping.tokens

def parameterTokens (x : Option (Lexeme .number)) : List Token :=
  x.toList.flatMap fun x => [x.token, mark .comma]

def signTokens (s : Option (Sign [.add, .sub])) : List Token := s.toList.map (·.val.token)

def boolTokens (bool : Bool) : List Token := if bool then [Keyword.bool.token] else []

def tokens : Metric → List Token
  | number s x => signTokens s ++ [x.token]
  | vector x => [Keyword.vector.token, mark .lParen, x.token, mark .rParen]
  | range op p r g =>
    op.val.token :: mark .lParen :: (parameterTokens p ++ (r.tokens ++
      (mark .rParen :: groupTokens g)))
  | aggregate op b p e a =>
    op.val.token :: (groupTokens b ++ (mark .lParen :: (parameterTokens p ++ (e.tokens ++
      (mark .rParen :: groupTokens a)))))
  | binary op b l r => l.tokens ++ (op.val.token :: (boolTokens b ++ r.tokens))
  | parens e => mark .lParen :: (e.tokens ++ [mark .rParen])

def boolTrees (bool : Bool) : List Tree :=
  if bool then [.node .boolModifier [Keyword.bool.leaf]] else []

def operatorLeaf (op : Kind) : Tree := .leaf op op.token.text

/-- An expression of samples with some parts. -/
def sample (cs : List Tree) : Tree := .node .expr [.node .metricExpr cs]

def tree : Metric → Tree
  | number s x => sample [.node .literalExpr ((signTokens s ++ [x.token]).map .ofToken)]
  | vector x =>
    sample [.node .vectorExpr
      (Keyword.vector.leaf :: [mark .lParen, x.token, mark .rParen].map .ofToken)]
  | range op p r g =>
    sample [.node .rangeAggregationExpr (.node .rangeOp [op.val.leaf] ::
      .ofToken (mark .lParen) :: ((parameterTokens p).map .ofToken ++ (r.tree ::
        .ofToken (mark .rParen) :: g.toList.map Grouping.tree)))]
  | aggregate op b p e a =>
    sample [.node .vectorAggregationExpr (.node .vectorOp [op.val.leaf] ::
      (b.toList.map Grouping.tree ++ (.ofToken (mark .lParen) ::
        ((parameterTokens p).map .ofToken ++ (e.tree ::
          .ofToken (mark .rParen) :: a.toList.map Grouping.tree)))))]
  | binary op b l r =>
    sample [.node .binOpExpr (l.tree :: operatorLeaf op.val :: (boolTrees b ++ [r.tree]))]
  | parens e => sample [.ofToken (mark .lParen), e.tree, .ofToken (mark .rParen)]

theorem kind_tree (e : Metric) : e.tree.kind = .expr := by
  cases e <;> rfl

/-- How many levels of nesting are entered from inside the rule for expressions. -/
def inner : Metric → Nat
  | number _ _ | vector _ => 0
  | range _ _ r _ => r.levels
  | aggregate _ _ _ e _ => e.inner + 1
  | binary _ _ l r => max l.inner (r.inner + 1)
  | parens e => e.inner + 1

/-- How deep the rules of the grammar nest on an expression. -/
def levels (e : Metric) : Nat := e.inner + 1

/-- What is meant, without the parentheses it is written with. -/
def plain : Metric → Metric
  | aggregate op b p e a => aggregate op b p e.plain a
  | binary op b l r => binary op b l.plain r.plain
  | parens e => e.plain
  | e => e

/-- An operator at the top binds at its level, anything else more closely than all operators. -/
def level : Metric → Nat
  | binary op _ _ _ => op.val.operatorLevel
  | _ => 7

/-- Operands that do without parentheses bind at least as closely as their operator, and on one side
more closely: on the right, or for a power on the left. -/
def Fits (op : Kind) (l r : Metric) : Prop :=
  if op = .pow then op.operatorLevel < l.level ∧ op.operatorLevel ≤ r.level
  else op.operatorLevel ≤ l.level ∧ op.operatorLevel < r.level

/-- There are parentheses at least wherever the levels of the operators ask for them. -/
def Clear : Metric → Prop
  | aggregate _ _ _ e _ | parens e => e.Clear
  | binary op _ l r => Fits op.val l r ∧ l.Clear ∧ r.Clear
  | _ => True

/-- The same with parentheses around every operand. -/
def guarded : Metric → Metric
  | aggregate op b p e a => aggregate op b p e.guarded a
  | binary op b l r => binary op b (parens l.guarded) (parens r.guarded)
  | parens e => parens e.guarded
  | e => e

theorem guarded_plain (e : Metric) : e.guarded.plain = e.plain := by
  induction e with
  | aggregate op b p e a ih => simp [guarded, plain, ih]
  | binary op b l r hl hr => simp [guarded, plain, hl, hr]
  | parens e ih => simp [guarded, plain, ih]
  | _ => rfl

theorem operatorLevel_lt (op : Kind) : op.operatorLevel < 7 := by
  unfold Kind.operatorLevel
  split <;> omega

theorem guarded_clear (e : Metric) : e.guarded.Clear := by
  induction e with
  | aggregate op b p e a ih => exact ih
  | binary op b l r hl hr =>
    refine ⟨?_, hl, hr⟩
    have := operatorLevel_lt op.val
    unfold Fits
    split
    · exact ⟨this, this.le⟩
    · exact ⟨this.le, this⟩
  | parens e ih => exact ih
  | _ => trivial

end Metric

end LogQuery
