import LogQuery.Proofs.Metric
import LogQuery.Proofs.Sentence.Reader

/-! Metric expressions are read back from their trees, with the parentheses that they are written
with. -/
namespace LogQuery

open Kind (mark)
open Grammar (binaryOps)

namespace Word

variable {ws : List Keyword}

def ofTree? (ws : List Keyword) : Tree → Option (Word ws)
  | .leaf (.keyword w) _ => if h : w ∈ ws then some ⟨w, h⟩ else none
  | _ => none

@[simp] theorem ofTree?_leaf (w : Word ws) : ofTree? ws w.val.leaf = some w := by
  simp [ofTree?, Keyword.leaf, w.property]

end Word

namespace Grouping

def ofTrees? : List Tree → Option Grouping
  | w :: ts => do
    let xs ← part? .labels (elements? .comma (Lexeme.ofTree? .identifier)) ts
    some ⟨← Word.ofTree? _ w, xs.getD []⟩
  | [] => none

@[simp] theorem ofTrees?_tree (g : Grouping) : ofTrees? g.tree.children = some g := by
  obtain ⟨w, xs⟩ := g
  have hopen : (Tree.ofToken (mark .lParen)).kind ≠ .labels := by decide
  have hclose : (Tree.ofToken (mark .rParen)).kind ≠ .labels := by decide
  cases xs with
  | nil => simp [tree, Tree.children, ofTrees?, labelsTrees, part?_cons hopen, part?_cons hclose]
  | cons x xs =>
    have hx := elements?_commas (fun x : Lexeme .identifier => Lexeme.ofTree?_token x)
      (fun _ => Kind.noConfusion) (x :: xs)
    simp [tree, Tree.children, ofTrees?, labelsTrees, part?_cons hopen, hx]

end Grouping

namespace Unwrapping

def ofTrees? : List Tree → Option Unwrapping
  | _ :: _ :: .node .convOp [w] :: _ :: x :: _ :: fs => do
    some ⟨some (← Word.ofTree? _ w), ← Lexeme.ofTree? _ x,
      ← elements? .pipe LabelDisjunction.ofTree? fs⟩
  | _ :: _ :: x :: fs => do
    some ⟨none, ← Lexeme.ofTree? _ x, ← elements? .pipe LabelDisjunction.ofTree? fs⟩
  | _ => none

@[simp] theorem ofTrees?_tree (u : Unwrapping) : ofTrees? u.tree.children = some u := by
  obtain ⟨w, x, fs⟩ := u
  have hf : elements? .pipe LabelDisjunction.ofTree? (fs.flatMap filterTrees) = some fs :=
    elements?_signs disjunction_read
      (fun f => by rw [Grammar.disjunction_kind]; decide) (kind_mark .pipe) fs
  cases w with
  | none =>
    have hx := Lexeme.ofTree?_token x
    rw [Tree.ofToken] at hx
    simp [tree, labelTrees, Tree.children, Tree.ofToken, ofTrees?, hx, hf]
  | some w => simp [tree, labelTrees, Tree.children, ofTrees?, hf]

end Unwrapping

instance (s : Sentence) : Decidable s.Readable :=
  decidable_of_iff ((∀ t ∈ s.stages, t.opensUnwrap = false) ∧
    s.stages.IsChain fun a b => ¬ (a.endsOpen ∧ b.opensComparison))
    ⟨fun h => ⟨h.1, h.2⟩, fun h => ⟨h.1, h.2⟩⟩

namespace LogRange

def length? : List Tree → Option (Lexeme .duration)
  | _ :: x :: _ => Lexeme.ofTree? _ x
  | _ => none

def ofTrees? (ts : List Tree) : Option LogRange := do
  let logs ← Sentence.ofTrees? ts
  let unwrapping ← part? .unwrapExpr Unwrapping.ofTrees? ts
  let duration ← part? .range length? ts
  let offset ← part? .offsetExpr length? ts
  if h : logs.Readable then some ⟨logs, h, unwrapping, ← duration, offset⟩ else none

theorem unwrapping_read (u : Option Unwrapping) {ts : List Tree}
    (h : part? .unwrapExpr Unwrapping.ofTrees? ts = some none) :
    part? .unwrapExpr Unwrapping.ofTrees? (u.toList.map Unwrapping.tree ++ ts) = some u := by
  cases u with
  | none => exact h
  | some u =>
    have hu := Unwrapping.ofTrees?_tree u
    rw [Unwrapping.tree, Tree.children] at hu
    simp [Unwrapping.tree, hu]

theorem lengths_read (u : Option Unwrapping) (x : Lexeme .duration)
    (o : Option (Lexeme .duration)) :
    let ts := u.toList.map Unwrapping.tree ++ (.node .range ([Kind.lBracket.token, x.token,
      Kind.rBracket.token].map .ofToken) :: o.toList.map offsetTree)
    part? .range length? ts = some (some x) ∧ part? .offsetExpr length? ts = some o := by
  have hu : ∀ k ≠ .unwrapExpr, ∀ t ∈ u.toList.map Unwrapping.tree, t.kind ≠ k := by
    intro k hk t ht
    obtain ⟨v, _, rfl⟩ := List.mem_map.mp ht
    exact hk.symm
  refine ⟨?_, ?_⟩
  · rw [part?_append (hu _ (by decide))]
    simp [length?]
  · rw [part?_append (hu _ (by decide)), part?_cons (by exact Kind.noConfusion)]
    cases o <;> simp [length?, offsetTree]

@[simp] theorem ofTrees?_tree (r : LogRange) : ofTrees? r.tree.children = some r := by
  obtain ⟨logs, readable, u, x, o⟩ := r
  obtain ⟨hrange, hoffset⟩ := lengths_read u x o
  set lengths : List Tree := .node .range ([Kind.lBracket.token, x.token,
    Kind.rBracket.token].map .ofToken) :: o.toList.map offsetTree with hd
  have hnone : part? .pipelineExpr Stage.ofTrees? (u.toList.map Unwrapping.tree ++ lengths) =
        some none ∧ part? .unwrapExpr Unwrapping.ofTrees? lengths = some none := by
    cases u <;> cases o <;> exact ⟨rfl, rfl⟩
  have hlogs := Sentence.ofTrees?_trees logs hnone.1
  have hu := unwrapping_read u hnone.2
  simp only [tree, durationTokens, ← hd, Tree.children, ofTrees?, hlogs]
  rw [Sentence.part?_behind logs (by decide) (by decide), hu,
    Sentence.part?_behind logs (by decide) (by decide), hrange,
    Sentence.part?_behind logs (by decide) (by decide), hoffset]
  simp [readable]

end LogRange

namespace Metric

def ofLiteral? : List Tree → Option Metric
  | [x] => do some (number none (← Lexeme.ofTree? _ x))
  | [s, x] => do some (number (some (← Sign.ofTree? _ s)) (← Lexeme.ofTree? _ x))
  | _ => none

def ofVector? : List Tree → Option Metric
  | [_, _, x, _] => (Lexeme.ofTree? _ x).map vector
  | _ => none

def parameter? (ts : List Tree) : Option (Option (Lexeme .number)) :=
  match ts.find? (·.kind = .number) with
  | some t => (Lexeme.ofTree? _ t).map some
  | none => some none

def ofRange? : List Tree → Option Metric
  | .node .rangeOp [w] :: ts => do
    let r ← part? .logRangeExpr LogRange.ofTrees? ts
    some (range (← Word.ofTree? _ w) (← parameter? ts) (← r)
      (← part? .grouping Grouping.ofTrees? ts))
  | _ => none

/-- An aggregation of some samples. A grouping is the first or the last of its parts. -/
def ofAggregate? (e : Metric) : List Tree → Option Metric
  | .node .vectorOp [w] :: ts => do
    some (aggregate (← Word.ofTree? _ w) (← part? .grouping Grouping.ofTrees? ts.head?.toList)
      (← parameter? ts) e (← part? .grouping Grouping.ofTrees? ts.getLast?.toList))
  | _ => none

def ofBinary? (l r : Metric) : List Tree → Option Metric
  | op :: ts => do some (binary (← Sign.ofTree? _ op) (ts.any (·.kind = .boolModifier)) l r)
  | [] => none

mutual

def ofTree? : Tree → Option Metric
  | .node .expr [.node .metricExpr cs] =>
    match cs with
    | [.node .literalExpr ts] => ofLiteral? ts
    | [.node .vectorExpr ts] => ofVector? ts
    | [.node .rangeAggregationExpr ts] => ofRange? ts
    | [.node .vectorAggregationExpr ts] => do ofAggregate? (← first? ts) ts
    | [.node .binOpExpr (l :: ts)] => do ofBinary? (← ofTree? l) (← first? ts) ts
    | [_, e, _] => (ofTree? e).map parens
    | _ => none
  | _ => none

/-- The first expression among some parts. -/
def first? : List Tree → Option Metric
  | [] => none
  | t :: ts => if t.kind = .expr then ofTree? t else first? ts

end

theorem first?_append {ts us : List Tree} (h : ∀ t ∈ ts, t.kind ≠ .expr) :
    first? (ts ++ us) = first? us := by
  induction ts with
  | nil => rfl
  | cons t ts ih =>
    rw [List.cons_append, first?, if_neg (h t (.head _))]
    exact ih fun u hu => h u (.tail _ hu)

theorem first?_expr {t : Tree} (h : t.kind = .expr) (ts : List Tree) :
    first? (t :: ts) = ofTree? t := by
  rw [first?, if_pos h]

theorem parameter?_append {ts us : List Tree} (ht : ∀ t ∈ ts, t.kind ≠ .number)
    (hu : ∀ t ∈ us, t.kind ≠ .number) (x : Option (Lexeme .number)) :
    parameter? (ts ++ ((parameterTokens x).map .ofToken ++ us)) = some x := by
  have hnone : ∀ {vs : List Tree}, (∀ t ∈ vs, t.kind ≠ .number) →
      vs.find? (·.kind = .number) = none := by
    intro vs hv
    simpa using hv
  rw [parameter?, List.find?_append, hnone ht, Option.none_or, List.find?_append]
  cases x with
  | none => simp [parameterTokens, hnone hu]
  | some x => simp [parameterTokens]

theorem grouping_read (g : Option Grouping) :
    part? .grouping Grouping.ofTrees? (g.toList.map Grouping.tree) = some g := by
  cases g with
  | none => rfl
  | some g =>
    have hg := Grouping.ofTrees?_tree g
    rw [Grouping.tree, Tree.children] at hg
    simp [Grouping.tree, hg]

variable {k : Kind}

theorem grouping_kinds (g : Option Grouping) (h : .grouping ≠ k) :
    ∀ t ∈ g.toList.map Grouping.tree, t.kind ≠ k := by
  intro t ht
  obtain ⟨_, _, rfl⟩ := List.mem_map.mp ht
  exact h

theorem parameter_kinds (x : Option (Lexeme .number)) (hn : .number ≠ k) (hc : .comma ≠ k) :
    ∀ t ∈ (parameterTokens x).map Tree.ofToken, t.kind ≠ k := by
  cases x <;> simp [parameterTokens, hn, hc]

/-- What stands before the main argument of a call is of other kinds than what it is asked for. -/
theorem open_kinds (x : Option (Lexeme .number)) (ho : .lParen ≠ k) (hn : .number ≠ k)
    (hc : .comma ≠ k) :
    ∀ t ∈ .ofToken (mark .lParen) :: (parameterTokens x).map Tree.ofToken, t.kind ≠ k :=
  List.forall_mem_cons.mpr ⟨ho, parameter_kinds x hn hc⟩

theorem close_kinds (g : Option Grouping) (hc : .rParen ≠ k) (hg : .grouping ≠ k) :
    ∀ t ∈ .ofToken (mark .rParen) :: g.toList.map Grouping.tree, t.kind ≠ k :=
  List.forall_mem_cons.mpr ⟨hc, grouping_kinds g hg⟩

theorem literal_read (s : Option (Sign [.add, .sub])) (x : Lexeme .number) :
    ofLiteral? ((signTokens s ++ [x.token]).map .ofToken) = some (number s x) := by
  cases s with
  | none => simp [signTokens, ofLiteral?]
  | some s =>
    have hs : Sign.ofTree? [.add, .sub] (.ofToken s.val.token) = some s :=
      Sign.ofTree?_eq ((by decide : ∀ k ∈ [Kind.add, .sub], k.token.kind = k) s.val s.property)
    simp [signTokens, ofLiteral?, hs]

theorem range_read (op : Word Keyword.rangeOps) (x : Option (Lexeme .number)) (r : LogRange)
    (g : Option Grouping) :
    ofRange? (.node .rangeOp [op.val.leaf] :: .ofToken (mark .lParen) ::
      ((parameterTokens x).map .ofToken ++ (r.tree :: .ofToken (mark .rParen) ::
        g.toList.map Grouping.tree))) = some (range op x r g) := by
  set behind := Tree.ofToken (mark .rParen) :: g.toList.map Grouping.tree with hb
  have hr : part? .logRangeExpr LogRange.ofTrees? (.ofToken (mark .lParen) ::
      ((parameterTokens x).map .ofToken ++ (r.tree :: behind))) = some (some r) := by
    have h := LogRange.ofTrees?_tree r
    rw [← List.cons_append, part?_append (open_kinds x (by decide) (by decide) (by decide))]
    rw [LogRange.tree, Tree.children] at h
    simp [LogRange.tree, h]
  have hx : parameter? (.ofToken (mark .lParen) ::
      ((parameterTokens x).map .ofToken ++ (r.tree :: behind))) = some x :=
    @parameter?_append [.ofToken (mark .lParen)] _ (by simp)
      (List.forall_mem_cons.mpr ⟨Kind.noConfusion, close_kinds g (by decide) (by decide)⟩) x
  have hg : part? .grouping Grouping.ofTrees? (.ofToken (mark .lParen) ::
      ((parameterTokens x).map .ofToken ++ (r.tree :: behind))) = some g := by
    rw [← List.cons_append, part?_append (open_kinds x (by decide) (by decide) (by decide)),
      part?_cons Kind.noConfusion, hb, part?_cons (by decide), grouping_read]
  simp [ofRange?, hr, hx, hg]

theorem aggregate_read (op : Word Keyword.vectorOps) (b a : Option Grouping)
    (x : Option (Lexeme .number)) (e : Metric) {t : Tree} (ht : t.kind = .expr) :
    ofAggregate? e (.node .vectorOp [op.val.leaf] :: (b.toList.map Grouping.tree ++
      (.ofToken (mark .lParen) :: ((parameterTokens x).map .ofToken ++ (t ::
        .ofToken (mark .rParen) :: a.toList.map Grouping.tree))))) =
      some (aggregate op b x e a) := by
  set behind := t :: .ofToken (mark .rParen) :: a.toList.map Grouping.tree with hbehind
  set all := b.toList.map Grouping.tree ++ (.ofToken (mark .lParen) ::
    ((parameterTokens x).map .ofToken ++ behind)) with hall
  have hx : parameter? all = some x := by
    have hfront : ∀ u ∈ b.toList.map Grouping.tree ++ [.ofToken (mark .lParen)],
        u.kind ≠ .number :=
      List.forall_mem_append.mpr ⟨grouping_kinds b (by decide), by simp⟩
    have hback : ∀ u ∈ behind, u.kind ≠ .number :=
      List.forall_mem_cons.mpr ⟨by rw [ht]; decide, close_kinds a (by decide) (by decide)⟩
    have h := parameter?_append hfront hback x
    rwa [List.append_assoc] at h
  have hb : part? .grouping Grouping.ofTrees? all.head?.toList = some b := by
    have h := grouping_read b
    cases b with
    | none => rfl
    | some g => exact h
  have ha : part? .grouping Grouping.ofTrees? all.getLast?.toList = some a := by
    have hsplit : all = (b.toList.map Grouping.tree ++ (.ofToken (mark .lParen) ::
        ((parameterTokens x).map .ofToken ++ [t]))) ++
          .ofToken (mark .rParen) :: a.toList.map Grouping.tree := by
      simp [hall, hbehind]
    have h := grouping_read a
    rw [hsplit, List.getLast?_append_of_ne_nil _ (List.cons_ne_nil _ _)]
    cases a with
    | none => rfl
    | some g => exact h
  simp [ofAggregate?, hx, hb, ha]

theorem binary_read (op : Sign binaryOps) (b : Bool) (l r : Metric) {t : Tree}
    (ht : t.kind = .expr) :
    ofBinary? l r (operatorLeaf op.val :: (boolTrees b ++ [t])) = some (binary op b l r) := by
  have hop : Sign.ofTree? binaryOps (operatorLeaf op.val) = some op := Sign.ofTree?_eq rfl
  cases b <;> simp [ofBinary?, boolTrees, hop, ht]

/-- An expression is what its tree is read as, with its parentheses. -/
theorem ofTree?_tree (e : Metric) : ofTree? e.tree = some e := by
  induction e with
  | number s x =>
    simp only [tree, sample, ofTree?]
    exact literal_read s x
  | vector x => simp [tree, sample, ofTree?, ofVector?]
  | range op x r g =>
    simp only [tree, sample, ofTree?]
    exact range_read op x r g
  | aggregate op b x e a ih =>
    have hfront : ∀ t ∈ Tree.node .vectorOp [op.val.leaf] :: b.toList.map Grouping.tree,
        t.kind ≠ .expr :=
      List.forall_mem_cons.mpr ⟨Kind.noConfusion, grouping_kinds b (by decide)⟩
    have hfirst : first? (.node .vectorOp [op.val.leaf] :: (b.toList.map Grouping.tree ++
        (.ofToken (mark .lParen) :: ((parameterTokens x).map .ofToken ++ (e.tree ::
          .ofToken (mark .rParen) :: a.toList.map Grouping.tree))))) = some e := by
      rw [← List.cons_append, first?_append hfront, ← List.cons_append,
        first?_append (open_kinds x (by decide) (by decide) (by decide)),
        first?_expr e.kind_tree, ih]
    simp only [tree, sample, ofTree?, hfirst, Option.bind_eq_bind, Option.bind_some]
    exact aggregate_read op b a x e e.kind_tree
  | binary op b l r hl hr =>
    have hfront : ∀ t ∈ operatorLeaf op.val :: boolTrees b, t.kind ≠ .expr := by
      have hop : ∀ k ∈ binaryOps, k ≠ .expr := by decide
      refine List.forall_mem_cons.mpr ⟨hop op.val op.property, ?_⟩
      cases b <;> simp [boolTrees]
    have hfirst : first? (operatorLeaf op.val :: (boolTrees b ++ [r.tree])) = some r := by
      rw [← List.cons_append, first?_append hfront, first?_expr r.kind_tree, hr]
    simp only [tree, sample, ofTree?, hl, hfirst, Option.bind_eq_bind, Option.bind_some]
    exact binary_read op b l r r.kind_tree
  | parens e ih => simp [tree, sample, ofTree?, ih]

/-- The expression that a query consists of. -/
def ofQuery? : Tree → Option Metric
  | .node .logQl [t] => ofTree? t
  | _ => none

end Metric

end LogQuery
