import LogQuery.Proofs.Sentence.Filter

/-! Log queries are read back from their trees: a reader for each part, and that it undoes the tree
that the part is to have. -/
namespace LogQuery

open Kind (mark)
open Grammar (matcherOps comparisonOps unitKinds lineOps)

variable {k : Kind} {α : Type}

namespace Lexeme

/-- The text of a leaf of a kind, where it is one token. -/
def ofTree? (k : Kind) : Tree → Option (Lexeme k)
  | .leaf l x => if h : l = k ∧ Token.lex x = [⟨k, x⟩] then some ⟨x, h.2⟩ else none
  | .node _ _ => none

@[simp] theorem ofTree?_token (x : Lexeme k) : ofTree? k (.ofToken x.token) = some x := by
  simp [ofTree?, Tree.ofToken, token, x.lexes]

@[simp] theorem kind_token (x : Lexeme k) : (Tree.ofToken x.token).kind = k := rfl

end Lexeme

namespace Sign

/-- The kind of a tree, where it is one of some. -/
def ofTree? (ks : List Kind) (t : Tree) : Option (Sign ks) :=
  if h : t.kind ∈ ks then some ⟨t.kind, h⟩ else none

theorem ofTree?_eq {ks : List Kind} {t : Tree} {s : Sign ks} (h : t.kind = s.val) :
    ofTree? ks t = some s := by
  simp [ofTree?, h, s.property]

@[simp] theorem ofTree?_token {ks : List Kind} (s : Sign ks) :
    ofTree? ks (.ofToken s.token) = some s := ofTree?_eq rfl

end Sign

@[simp] theorem kind_node (k : Kind) (cs : List Tree) : (Tree.node k cs).kind = k := rfl

@[simp] theorem kind_word (w : Keyword) : w.leaf.kind = .keyword w := rfl

@[simp] theorem kind_mark (k : Kind) : (Tree.ofToken (mark k)).kind = k := rfl

/-- All elements of a list, without the signs between them. -/
def elements? (sign : Kind) (f : Tree → Option α) : List Tree → Option (List α)
  | [] => some []
  | t :: ts => if t.kind = sign then elements? sign f ts else do
    let x ← f t
    let xs ← elements? sign f ts
    some (x :: xs)

section Elements

variable {sign : Kind} {f : Tree → Option α} {g : α → Tree} (hf : ∀ x, f (g x) = some x)
  (hg : ∀ x, (g x).kind ≠ sign)

include hf hg

theorem elements?_cons (x : α) (ts : List Tree) :
    elements? sign f (g x :: ts) = (elements? sign f ts).map (x :: ·) := by
  rw [elements?, if_neg (hg x), hf x]
  cases elements? sign f ts <;> rfl

theorem elements?_signs {t : Tree} (ht : t.kind = sign) (xs : List α) :
    elements? sign f (xs.flatMap fun x => [t, g x]) = some xs := by
  induction xs with
  | nil => rfl
  | cons x xs ih =>
    rw [List.flatMap_cons, List.cons_append, List.singleton_append, elements?, if_pos ht,
      elements?_cons hf hg, ih]
    rfl

theorem elements?_map (xs : List α) : elements? sign f (xs.map g) = some xs := by
  induction xs with
  | nil => rfl
  | cons x xs ih =>
    rw [List.map_cons, elements?_cons hf hg, ih]
    rfl

end Elements

theorem elements?_commas {f : Tree → Option α} {g : α → Tree} (hf : ∀ x, f (g x) = some x)
    (hg : ∀ x, (g x).kind ≠ .comma) (xs : List α) :
    elements? .comma f (commaTrees g xs) = some xs := by
  cases xs with
  | nil => rfl
  | cons x xs =>
    rw [commaTrees, elements?_cons hf hg, elements?_signs hf hg (kind_mark .comma)]
    rfl

/-- What the children of the first node of a kind are read as, where there is such a node. -/
def part? (k : Kind) (f : List Tree → Option α) (ts : List Tree) : Option (Option α) :=
  match ts.find? (·.kind = k) with
  | some t => (f t.children).map some
  | none => some none

section Part

variable {f : List Tree → Option α}

@[simp] theorem part?_nil : part? k f [] = some none := rfl

@[simp] theorem part?_node (cs ts : List Tree) :
    part? k f (.node k cs :: ts) = (f cs).map some := by
  simp [part?, Tree.children]

theorem part?_cons {t : Tree} (h : t.kind ≠ k) (ts : List Tree) :
    part? k f (t :: ts) = part? k f ts := by
  simp [part?, h]

theorem part?_append {ts : List Tree} (h : ∀ t ∈ ts, t.kind ≠ k) (us : List Tree) :
    part? k f (ts ++ us) = part? k f us := by
  induction ts with
  | nil => rfl
  | cons t ts ih =>
    rw [List.cons_append, part?_cons (h t (.head _))]
    exact ih fun u hu => h u (.tail _ hu)

end Part

namespace Matching

def ofTree? : Tree → Option Matching
  | .node .matcher [x, op, y] => do
    some ⟨← Lexeme.ofTree? _ x, ← Sign.ofTree? _ op, ← Lexeme.ofTree? _ y⟩
  | _ => none

@[simp] theorem ofTree?_tree (m : Matching) : ofTree? m.tree = some m := by
  simp [ofTree?, tree, tokens]

end Matching

mutual

/-- A value of a line filter, and the values behind it. -/
def LineValue.ofTrees? : List Tree → Option (LineValue × List LineValue)
  | .node .filterOp _ :: _ :: x :: _ :: more => do
    some (.address (← Lexeme.ofTree? _ x), ← LineTest.ofOrTrees? more)
  | x :: more => do some (.text (← Lexeme.ofTree? _ x), ← LineTest.ofOrTrees? more)
  | [] => none

def LineTest.ofOrTrees? : List Tree → Option (List LineValue)
  | [] => some []
  | [.node .orFilter (_ :: vs)] => do
    let (v, vs) ← LineValue.ofTrees? vs
    some (v :: vs)
  | _ => none

end

theorem lineValues_read {v : LineValue} {vs : List LineValue}
    (h : LineTest.ofOrTrees? (LineTest.orTrees vs) = some vs) :
    LineValue.ofTrees? (v.trees ++ LineTest.orTrees vs) = some (v, vs) := by
  cases v with
  | text x =>
    have hx := Lexeme.ofTree?_token x
    rw [Tree.ofToken] at hx
    simp [LineValue.trees, Tree.ofToken, LineValue.ofTrees?, hx, h]
  | address x => simp [LineValue.trees, LineValue.ofTrees?, h]

theorem orTrees_read (vs : List LineValue) :
    LineTest.ofOrTrees? (LineTest.orTrees vs) = some vs := by
  induction vs with
  | nil => rw [LineTest.orTrees, LineTest.ofOrTrees?]
  | cons v vs ih => simp [LineTest.orTrees, LineTest.ofOrTrees?, lineValues_read ih]

namespace LineTest

def ofTree? : Tree → Option LineTest
  | .node .lineFilter (.node .filter [op] :: values) => do
    let (v, vs) ← LineValue.ofTrees? values
    some ⟨← Sign.ofTree? _ op, v, vs⟩
  | _ => none

@[simp] theorem ofTree?_tree (t : LineTest) : ofTree? t.tree = some t := by
  simp [ofTree?, tree, lineValues_read (orTrees_read t.more)]

end LineTest

namespace LabelTest

def ofAmount? : List Tree → Option LabelTest
  | [x, op, y] => do
    let unit ← Sign.ofTree? unitKinds y
    some (.amount (← Lexeme.ofTree? _ x) (← Sign.ofTree? _ op) unit (← Lexeme.ofTree? _ y))
  | _ => none

def ofTree? : Tree → Option LabelTest
  | .node .ipLabelFilter [x, op, _, _, y, _] => do
    some (.address (← Lexeme.ofTree? _ x) (← Sign.ofTree? _ op) (← Lexeme.ofTree? _ y))
  | .node .unitFilter [.node _ cs] | .node .numberFilter cs => ofAmount? cs
  | t => (Matching.ofTree? t).map .matching

theorem amount_read (x : Lexeme .identifier) (op : Sign comparisonOps) (unit : Sign unitKinds)
    (y : Lexeme unit.val) :
    ofAmount? ([x.token, op.token, y.token].map .ofToken) = some (.amount x op unit y) := by
  have hu : Sign.ofTree? unitKinds (.ofToken y.token) = some unit := Sign.ofTree?_eq rfl
  simp [ofAmount?, hu]

@[simp] theorem ofTree?_tree (t : LabelTest) : ofTree? t.tree = some t := by
  cases t with
  | matching m =>
    have h := Matching.ofTree?_tree m
    rw [Matching.tree] at h
    simp [tree, Matching.tree, ofTree?, h]
  | address x op y => simp [tree, ofTree?]
  | amount x op unit y =>
    have h := amount_read x op unit y
    obtain ⟨u, hu⟩ := unit
    simp only [unitKinds, List.mem_cons, List.not_mem_nil, or_false] at hu
    rcases hu with rfl | rfl | rfl <;> exact h

end LabelTest

namespace LabelDisjunction

def conjunction? : LabelDisjunction → Option LabelConjunction
  | one c => some c
  | orElse _ _ => none

def operand? : LabelDisjunction → Option LabelOperand
  | one (.one o) => some o
  | _ => none

/-- A label filter whose parts are one test, two label filters side by side, or three parts: two
label filters and their sign, or one in parentheses. -/
def ofTree? : Tree → Option LabelDisjunction
  | .node .labelFilter [t] => do some (.one (.one (.test (← LabelTest.ofTree? t))))
  | .node .labelFilter [l, r] => do
    some (.one (.also (← (← ofTree? l).conjunction?) .beside (← (← ofTree? r).operand?)))
  | .node .labelFilter [l, m, r] =>
    match m.kind with
    | .keyword .or => do some (.orElse (← ofTree? l) (← (← ofTree? r).conjunction?))
    | .keyword .and => do
      some (.one (.also (← (← ofTree? l).conjunction?) .and (← (← ofTree? r).operand?)))
    | .comma => do
      some (.one (.also (← (← ofTree? l).conjunction?) .comma (← (← ofTree? r).operand?)))
    | _ => do some (.one (.one (.group (← ofTree? m))))
  | _ => none

end LabelDisjunction

mutual

theorem operand_read : (o : LabelOperand) →
    LabelDisjunction.ofTree? o.tree = some (.one (.one o))
  | .test t => by
    simp [LabelOperand.tree, LabelDisjunction.ofTree?]
  | .group f => by
    simp [LabelOperand.tree, LabelDisjunction.ofTree?, Grammar.disjunction_kind, disjunction_read f]

theorem conjunction_read : (c : LabelConjunction) →
    LabelDisjunction.ofTree? c.tree = some (.one c)
  | .one o => by
    rw [LabelConjunction.tree, operand_read o]
  | .also c j o => by
    have hc := conjunction_read c
    have ho := operand_read o
    cases j <;>
      simp [LabelConjunction.tree, Joint.trees, LabelDisjunction.ofTree?,
        LabelDisjunction.conjunction?, LabelDisjunction.operand?, hc, ho]

theorem disjunction_read : (f : LabelDisjunction) → LabelDisjunction.ofTree? f.tree = some f
  | .one c => by
    rw [LabelDisjunction.tree, conjunction_read c]
  | .orElse f c => by
    simp [LabelDisjunction.tree, LabelDisjunction.ofTree?, LabelDisjunction.conjunction?,
      disjunction_read f, conjunction_read c]

end

namespace Extraction

def ofTree? : Tree → Option Extraction
  | .node .labelExtractionExpression [x] => do some ⟨← Lexeme.ofTree? _ x, none⟩
  | .node .labelExtractionExpression [x, _, y] => do
    some ⟨← Lexeme.ofTree? _ x, some (← Lexeme.ofTree? _ y)⟩
  | _ => none

@[simp] theorem ofTree?_tree (e : Extraction) : ofTree? e.tree = some e := by
  obtain ⟨x, y⟩ := e
  cases y <;> simp [tree, tokens, ofTree?]

end Extraction

namespace Formatting

def ofTree? : Tree → Option Formatting
  | .node .labelFormatMatcher [x, _, y] => do
    let sort ← Sign.ofTree? _ y
    some ⟨← Lexeme.ofTree? _ x, sort, ← Lexeme.ofTree? _ y⟩
  | _ => none

@[simp] theorem ofTree?_tree (f : Formatting) : ofTree? f.tree = some f := by
  have hs : Sign.ofTree? [.identifier, .string] (.ofToken f.value.token) = some f.sort :=
    Sign.ofTree?_eq rfl
  simp [tree, tokens, ofTree?, hs]

end Formatting

namespace Choice

def ofTree? : Tree → Option Choice
  | .node _ [.leaf k x] => (Lexeme.ofTree? _ (.leaf k x)).map .name
  | .node _ [t] => (Matching.ofTree? t).map .matching
  | _ => none

@[simp] theorem ofTree?_tree (c : Choice) : ofTree? (c.tree k) = some c := by
  cases c with
  | name x => exact congrArg (Option.map name) (Lexeme.ofTree?_token x)
  | matching m => exact congrArg (Option.map matching) (Matching.ofTree?_tree m)

theorem kind_tree (c : Choice) : (c.tree k).kind = k := by
  cases c <;> rfl

end Choice

namespace Piped

/-- The labels to extract, where there are any. -/
def extractions? : List Tree → Option (List Extraction)
  | [] => some []
  | [.node .labelExtractionExpressionList ts] => elements? .comma Extraction.ofTree? ts
  | _ => none

@[simp] theorem extractions_read (es : List Extraction) :
    extractions? (extractionTrees es) = some es := by
  cases es with
  | nil => rfl
  | cons e es =>
    exact elements?_commas Extraction.ofTree?_tree (fun _ => Kind.noConfusion) (e :: es)

def isFlag (t : Tree) : Bool := t.kind = .parserFlag

theorem flags_read (flags : List (Lexeme .parserFlag)) (es : List Extraction) :
    let ts := flags.map (.ofToken ·.token) ++ extractionTrees es
    elements? .comma (Lexeme.ofTree? .parserFlag) (ts.takeWhile isFlag) = some flags ∧
      ts.dropWhile isFlag = extractionTrees es := by
  have hflags : ∀ t ∈ flags.map fun x : Lexeme .parserFlag => Tree.ofToken x.token,
      isFlag t = true := by
    intro t ht
    obtain ⟨x, _, rfl⟩ := List.mem_map.mp ht
    rfl
  have hrest : (extractionTrees es).takeWhile isFlag = [] ∧
      (extractionTrees es).dropWhile isFlag = extractionTrees es := by
    cases es <;> exact ⟨rfl, rfl⟩
  refine ⟨?_, ?_⟩
  · rw [List.takeWhile_append_of_pos hflags, hrest.1, List.append_nil]
    exact elements?_map (fun x => Lexeme.ofTree?_token x) (fun _ => Kind.noConfusion) flags
  · rw [List.dropWhile_append_of_pos hflags, hrest.2]

/-- A stage by the word it begins with, from what is behind the word. -/
def ofWord? (w : Keyword) (ts : List Tree) : Option Piped :=
  match w, ts with
  | .json, es => (extractions? es).map .json
  | .logfmt, ts => do
    let flags ← elements? .comma (Lexeme.ofTree? .parserFlag) (ts.takeWhile isFlag)
    some (.logfmt flags (← extractions? (ts.dropWhile isFlag)))
  | .regexp, [x] => (Lexeme.ofTree? _ x).map .regexp
  | .pattern, [x] => (Lexeme.ofTree? _ x).map .pattern
  | .unpack, [] => some .unpack
  | .decolorize, [] => some .decolorize
  | .lineFormat, [x] => (Lexeme.ofTree? _ x).map .lineFormat
  | .labelFormat, [.node .labelsFormat (f :: fs)] => do
    some (.labelFormat (← Formatting.ofTree? f) (← elements? .comma Formatting.ofTree? fs))
  | .drop, [.node .dropLabels (c :: cs)] => do
    some (.drop (← Choice.ofTree? c) (← elements? .comma Choice.ofTree? cs))
  | .keep, [.node .keepLabels (c :: cs)] => do
    some (.keep (← Choice.ofTree? c) (← elements? .comma Choice.ofTree? cs))
  | _, _ => none

def ofTree? (t : Tree) : Option Piped :=
  if t.kind = .labelFilter then (LabelDisjunction.ofTree? t).map .label else
    match t with
    | .node _ (.leaf (.keyword w) _ :: ts) => ofWord? w ts
    | _ => none

theorem ofTree?_word (h : k ≠ .labelFilter) (w : Keyword) (ts : List Tree) :
    ofTree? (.node k (w.leaf :: ts)) = ofWord? w ts := if_neg h

@[simp] theorem ofTree?_tree (p : Piped) : ofTree? p.tree = some p := by
  have hkind : ∀ (e : Kind) (c : Choice), e ≠ .comma → (c.tree e).kind ≠ .comma := by
    intro e c he
    rwa [Choice.kind_tree]
  cases p with
  | label f => simp [tree, ofTree?, Grammar.disjunction_kind, disjunction_read]
  | json es =>
    rw [tree, ofTree?_word (by split <;> decide)]
    simp [ofWord?]
  | logfmt flags es =>
    obtain ⟨hf, he⟩ := flags_read flags es
    rw [tree, ofTree?_word (by unfold logfmtKind; split_ifs <;> decide)]
    simp [ofWord?, hf, he]
  | labelFormat f fs =>
    have h := elements?_signs Formatting.ofTree?_tree (fun _ => Kind.noConfusion)
      (kind_mark .comma) fs
    rw [tree, ofTree?_word (by decide)]
    simp [ofWord?, commaTrees, h]
  | drop c cs =>
    have h := elements?_signs (g := Choice.tree .dropLabel) Choice.ofTree?_tree
      (fun c => hkind _ c (by decide)) (kind_mark .comma) cs
    rw [tree, ofTree?_word (by decide)]
    simp [ofWord?, commaTrees, h]
  | keep c cs =>
    have h := elements?_signs (g := Choice.tree .keepLabel) Choice.ofTree?_tree
      (fun c => hkind _ c (by decide)) (kind_mark .comma) cs
    rw [tree, ofTree?_word (by decide)]
    simp [ofWord?, commaTrees, h]
  | unpack => rfl
  | decolorize => rfl
  | _ =>
    rw [tree, ofTree?_word (by decide)]
    simp [ofWord?]

end Piped

namespace Stage

def ofTrees? : List Tree → Option (List Stage)
  | [] => some []
  | .node .pipelineStage [.node .lineFilters ts] :: more => do
    let ls ← elements? .comma LineTest.ofTree? ts
    some (ls.map .line ++ (← ofTrees? more))
  | .node .pipelineStage [_, p] :: more => do
    some (.piped (← Piped.ofTree? p) :: (← ofTrees? more))
  | _ => none

theorem lines_read (ls : List LineTest) (ts : List Tree) :
    ofTrees? (lineTrees ls ++ ts) = (ofTrees? ts).map (ls.map .line ++ ·) := by
  cases ls with
  | nil => simp [lineTrees]
  | cons l ls =>
    have h : elements? .comma LineTest.ofTree? ((l :: ls).map LineTest.tree) = some (l :: ls) :=
      elements?_map LineTest.ofTree?_tree (fun _ => Kind.noConfusion) (l :: ls)
    simp only [lineTrees, List.singleton_append, ofTrees?, h]
    cases ofTrees? ts <;> rfl

def ofBlock (b : Piped × List LineTest) : List Stage := .piped b.1 :: b.2.map .line

theorem blocks_read (bs : List (Piped × List LineTest)) :
    ofTrees? (bs.flatMap blockTrees) = some (bs.flatMap ofBlock) := by
  induction bs with
  | nil => rfl
  | cons b bs ih =>
    simp [blockTrees, pipedTree, ofTrees?, lines_read, ih, ofBlock]

theorem blocks_eq (ss : List Stage) :
    (leadingLines ss).map .line ++ (blocks ss).flatMap ofBlock = ss := by
  induction ss with
  | nil => rfl
  | cons s ss ih =>
    cases s with
    | line t => simpa [leadingLines, blocks] using ih
    | piped p => simpa [leadingLines, blocks, ofBlock] using ih

@[simp] theorem ofTrees?_trees (ss : List Stage) : ofTrees? (trees ss) = some ss := by
  rw [trees, lines_read, blocks_read, Option.map_some, blocks_eq]

end Stage

namespace Sentence

/-- The parts of a log query: a selector, and behind it a pipeline where there is one. -/
def ofTrees? : List Tree → Option Sentence
  | .node .selector cs :: ts => do
    let ms ← part? .matchers (elements? .comma Matching.ofTree?) cs
    let ss ← part? .pipelineExpr Stage.ofTrees? ts
    some ⟨ms.getD [], cs.any (·.kind = .comma), ss.getD []⟩
  | _ => none

def ofTree? : Tree → Option Sentence
  | .node .logQl [.node .expr [.node .logExpr ts]] => ofTrees? ts
  | _ => none

theorem ofTrees?_trees (s : Sentence) {ts : List Tree}
    (h : part? .pipelineExpr Stage.ofTrees? ts = some none) :
    ofTrees? (s.selectorTree :: (pipelineTrees s.stages ++ ts)) = some s := by
  obtain ⟨ms, comma, ss⟩ := s
  set behind := ((if comma then [mark .comma] else []) ++ [mark .rBrace]).map Tree.ofToken with hb
  have hm : ∃ o, part? .matchers (elements? .comma Matching.ofTree?)
      (.ofToken (mark .lBrace) :: (matchersTrees ms ++ behind)) = some o ∧ o.getD [] = ms := by
    have hopen : (Tree.ofToken (mark .lBrace)).kind ≠ .matchers := by decide
    cases ms with
    | nil => cases comma <;> exact ⟨none, rfl, rfl⟩
    | cons m ms =>
      have he := elements?_commas Matching.ofTree?_tree (fun _ => Kind.noConfusion) (m :: ms)
      exact ⟨some (m :: ms), by simp [part?_cons hopen, matchersTrees, he], rfl⟩
  have hc : (Tree.ofToken (mark .lBrace) :: (matchersTrees ms ++ behind)).any
      (·.kind = .comma) = comma := by
    cases ms <;> cases comma <;> rfl
  have hs : ∃ o, part? .pipelineExpr Stage.ofTrees? (pipelineTrees ss ++ ts) = some o ∧
      o.getD [] = ss := by
    cases ss with
    | nil => exact ⟨none, h, rfl⟩
    | cons s ss => exact ⟨some (s :: ss), by simp [pipelineTrees], rfl⟩
  obtain ⟨m, hm, rfl⟩ := hm
  obtain ⟨o, hs, rfl⟩ := hs
  simp only [selectorTree, commas, ofTrees?, ← hb, hm, hc, hs, Option.bind_eq_bind,
    Option.bind_some]

/-- The parts behind a log query are read as if it were not there. -/
theorem part?_behind {f : List Tree → Option α} (s : Sentence) (hs : k ≠ .selector)
    (hp : k ≠ .pipelineExpr) (ts : List Tree) :
    part? k f (s.selectorTree :: (pipelineTrees s.stages ++ ts)) = part? k f ts := by
  have hstages : ∀ t ∈ pipelineTrees s.stages, t.kind ≠ k := by
    cases s.stages with
    | nil => simp [pipelineTrees]
    | cons t ss =>
      intro u hu
      obtain rfl := List.mem_singleton.mp hu
      exact hp.symm
  have hselector : s.selectorTree.kind ≠ k := hs.symm
  rw [part?_cons hselector, part?_append hstages]

/-- A log query is what its tree is read as. -/
theorem ofTree?_tree (s : Sentence) : ofTree? s.tree = some s := by
  have h := ofTrees?_trees s part?_nil
  rwa [List.append_nil] at h

end Sentence

end LogQuery
