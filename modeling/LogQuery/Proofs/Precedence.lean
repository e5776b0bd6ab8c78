import LogQuery.Proofs.Conformance
import LogQuery.Proofs.Precedence.LabelFilter

/-! In the tree of a query without an error node, operators and the signs between label filters bind
in the order of their levels. -/
namespace LogQuery

open LogQuery.Tree (kindsAll)

namespace Grammar

variable {k : Kind} {a r : Rule} {cs : List Tree} {c : Tree}

instance : Ranks literal := by
  unfold literal
  infer_instance

instance [hi : Ranks a] : Ranks (parentheses a) where
  ranked ts := by
    refine nodeBy_ranked (Ranks.ranked ts) fun _ => Tree.ordered_plain ?_ _
    unfold parenthesesKind
    split <;> rfl

/-- How strongly a binary operator binds on its left and right. -/
def operatorPowers (op : Kind) : Nat × Nat :=
  if op = .pow then (12, 11) else (2 * op.operatorLevel - 1, 2 * op.operatorLevel)

/-- How strongly the operator of an expression binds on its left and right. -/
def binaryPowers? (t : Tree) : Option (Nat × Nat) := t.operator?.map operatorPowers

theorem operator_powers {t : Token} {left right : Nat}
    (h : operator? t = some (k, left, right)) :
    k ∈ binaryOps ∧ operatorPowers k = (left, right) := by
  unfold operator? at h
  split at h
  case h_1 => split_ifs at h <;> cases h <;> decide
  case h_14 => cases h
  all_goals
    next hk =>
      cases h
      rw [hk]
      decide

theorem operatorLevel_le (k : Kind) : k.operatorLevel ≤ 6 := by
  unfold Kind.operatorLevel
  split <;> decide

/-- A power is alone on the last level. -/
theorem operatorLevel_eq_six : k.operatorLevel = 6 ↔ k = .pow := by
  constructor
  · intro h
    unfold Kind.operatorLevel at h
    split at h <;> trivial
  · rintro rfl
    rfl

/-- How strongly an operator of a level binds on its left and right. -/
def levelPowers (level : Nat) : Nat × Nat :=
  if level = 6 then (12, 11) else (2 * level - 1, 2 * level)

theorem operatorPowers_eq (op : Kind) : operatorPowers op = levelPowers op.operatorLevel :=
  if_congr operatorLevel_eq_six.symm rfl rfl

theorem operatorLevel_pos : ∀ k ∈ binaryOps, 0 < k.operatorLevel := by
  decide

theorem binary_operator {l op r : Tree} {modifier : List Tree} :
    (binary (l :: op :: (modifier ++ [r]))).operator? = some op.kind := rfl

theorem boolModifier_kind (us : List Token) :
    (boolModifier us).trees.map Tree.kind ∈ [[], [.boolModifier]] := by
  unfold boolModifier when
  split
  · simp [node, nodeBy, Tree.kind]
  · simp [nothing]

/-- An operand on the left had its own operator, if it has one, when the next one was looked at. -/
theorem operands_ordered {op : Kind} {l r : Tree} (hop : op ∈ binaryOps)
    (hl : ∀ o, l.operator? = some o → (operatorPowers op).1 < (operatorPowers o).2)
    (hr : ∀ o, r.operator? = some o → (operatorPowers op).2 ≤ (operatorPowers o).1) :
    Tree.OperandsOrdered op l r := by
  have hpos := operatorLevel_pos op hop
  constructor
  · intro o ho
    have h := hl o ho
    have := operatorLevel_le o
    rw [operatorPowers_eq, operatorPowers_eq, levelPowers, levelPowers] at h
    simp only [← operatorLevel_eq_six]
    split_ifs at h ⊢ <;> omega
  · intro o ho
    have h := hr o ho
    have := operatorLevel_le op
    rw [operatorPowers_eq, operatorPowers_eq, levelPowers, levelPowers] at h
    simp only [← operatorLevel_eq_six]
    split_ifs at h ⊢ <;> omega

instance : Ranks boolModifier := by
  unfold boolModifier
  infer_instance

theorem binary_wraps : Wraps binaryJoin binary .expr binaryPowers? := by
  intro ts j lhs rhs hj hlhs hrhs t he
  have hlevel : ∀ {u : Tree} {o : Kind}, u.operator? = some o →
      binaryPowers? u = some ((operatorPowers o).1, (operatorPowers o).2) := by
    intro u o h
    rw [binaryPowers?, h]
    rfl
  cases ts with
  | nil => cases hj
  | cons u us =>
    obtain ⟨⟨op, left, right⟩, ho, rfl⟩ := Option.map_eq_some_iff.mp hj
    obtain ⟨hop, hpowers⟩ := operator_powers ho
    have ht : t = binary (lhs :: .leaf op u.text :: ((boolModifier us).trees ++ [rhs])) := rfl
    have hmodifier : .error ∉ kindsAll (boolModifier us).trees := by
      intro h
      apply he
      rw [ht]
      simp [binary, Tree.kinds, kindsAll, kindsAll_append, h]
    have hordered : Tree.OperandsOrdered op lhs rhs := by
      apply operands_ordered hop
      · intro o h
        have := hlhs.stops _ _ (hlevel h) _ hj
        rw [hpowers]
        exact this
      · intro o h
        have := hrhs.strong _ _ (hlevel h)
        rw [hpowers]
        exact this
    have hranked : (Tree.node .binOpExpr
        (lhs :: .leaf op u.text :: ((boolModifier us).trees ++ [rhs]))).Ranked := by
      apply Tree.Ranked.node
      · exact ⟨lhs, _, _, rhs, rfl, hlhs.holds.kind, hop, boolModifier_kind us, hrhs.kind,
          hordered⟩
      · intro c hc
        simp only [List.mem_cons, List.mem_append, List.not_mem_nil, or_false] at hc
        rcases hc with rfl | rfl | hc | rfl
        · exact hlhs.holds.ranked
        · exact .leaf op u.text
        · exact Ranks.ranked (r := boolModifier) us hmodifier c hc
        · exact hrhs.ranked
    refine ⟨rfl, ?_, ?_⟩
    · rw [ht]
      exact .node _ _ trivial (by simpa using .node _ _ trivial (by simpa using hranked))
    · rw [ht, hlevel binary_operator]
      exact congrArg some hpowers

/-- Only a binary expression at the top has an operator. -/
theorem operator_none (h : c.kind ≠ .binOpExpr) :
    (Tree.node .expr [.node k (c :: cs)]).operator? = none := by
  unfold Tree.operator?
  split
  · next he =>
    simp only [Tree.node.injEq, List.cons.injEq, and_true, true_and] at he
    exact (h (by rw [he.2.1, Tree.kind])).elim
  · rfl

/-- An expression of one part, found as the first operand. -/
theorem node_first [hr : Ranks r] (ts : List Token)
    (h : (Tree.node .expr (r ts).trees).operator? = none) :
    ∃ t, (node .expr r ts).trees = [t] ∧
      (.error ∉ t.kinds → t.kind = .expr ∧ t.Ranked ∧ binaryPowers? t = none) := by
  refine ⟨_, rfl, fun he => ⟨rfl, .node _ _ trivial (hr.ranked ts fun h => he ?_), ?_⟩⟩
  · exact List.mem_cons_of_mem _ h
  · rw [binaryPowers?, h]
    rfl

/-- A call is a node of its own kind, and no binary expression. -/
theorem call_node (levels : Nat) (inner : Rule) {name : Text}
    (h : call? levels inner name = some r) (ts : List Token) :
    ∃ k cs, (r ts).trees = [.node k cs] ∧ k ≠ .binOpExpr := by
  unfold call? at h
  split at h
  · cases h
    exact ⟨.rangeAggregationExpr, _, rfl, by decide⟩
  · split at h
    · cases h
      exact ⟨.vectorAggregationExpr, _, rfl, by decide⟩
    · split at h
      · cases h
        exact ⟨.vectorExpr, _, rfl, by decide⟩
      · cases h

/-- An operand has no operator outside of its parentheses. -/
theorem operand_first (levels : Nat) (inner : Rule) [Ranks inner] (ts : List Token) :
    (operand levels inner ts).trees = [] ∨ ∃ t, (operand levels inner ts).trees = [t] ∧
      (.error ∉ t.kinds → t.kind = .expr ∧ t.Ranked ∧ binaryPowers? t = none) := by
  unfold operand
  split
  · exact Or.inl rfl
  · next t us =>
    split
    · exact Or.inr (node_first _ rfl)
    · next hk =>
      refine Or.inr (node_first _ (operator_none ?_))
      show t.kind ≠ .binOpExpr
      rw [hk]
      decide
    · exact Or.inr (node_first _ rfl)
    · unfold when
      split
      · exact Or.inr (node_first _ rfl)
      · exact Or.inl rfl
    · unfold when
      split
      · exact Or.inr (node_first _ rfl)
      · exact Or.inl rfl
    · split
      · next r hr =>
        have := call_ranks levels hr
        obtain ⟨k, cs, hc, hk⟩ := call_node levels inner hr (t :: us)
        refine Or.inr (node_first _ ?_)
        simp only [node, nodeBy, hc]
        exact operator_none hk
      · exact Or.inl rfl
    · exact Or.inl rfl

theorem expr_climbs (levels least : Nat) (ts : List Token)
    (he : .error ∉ kindsAll (expr levels least ts).trees) :
    (expr levels least ts).trees = [] ∨
      ∃ t, (expr levels least ts).Climbs binaryJoin .expr binaryPowers? least t :=
  levels_climb operand (fun _ => rfl) (fun _ _ => rfl)
    (fun levels _ _ h => binaryJoin_shorter levels h)
    (fun cs h => by simp [binary, Tree.kinds, kindsAll, h]) binary_wraps operand_first levels least
    ts he

instance (levels least : Nat) : Ranks (expr levels least) :=
  ⟨fun ts => climbs_ranked (expr_climbs levels least ts)⟩

theorem contents_ranked (levels : Nat) (ts : List Token) : (contents levels ts).Ranked := by
  refine followed_ranked ?_ (Ranks.ranked (r := skipUntil []) _)
  dsimp only
  split
  · exact Ranks.ranked (r := orMissing .expr (expr levels 0)) ts
  · exact Ranks.ranked (r := expr levels 0) ts

end Grammar

/-- In the tree of a query without an error node, the operands of each binary operator and of each
sign between label filters bind at least as closely as it does, and on the right more closely; only
powers lean the other way. -/
theorem parse_ranked {query : Text} (h : (parse query).holds .error = false) :
    (parse query).strip.Ranked := by
  let significant := Token.significant (Token.lex query)
  have he : .error ∉ kindsAll (Grammar.contents Grammar.maxLevels significant).trees := by
    intro hk
    have hq : .error ∈ (Grammar.queryTree Grammar.maxLevels significant).kinds :=
      List.mem_cons_of_mem _ hk
    have hp := Tree.kinds_withTrivia _ (Token.lex query) hq
    exact Bool.eq_false_iff.mp h (List.contains_iff_mem.mpr hp)
  rw [parse_strip]
  exact .node _ _ trivial (Grammar.contents_ranked _ _ he)

def layeredText : Text :=
  "1 - 2 - 3 * (4 + 5) ^ 2 ^ 2 or rate(\x7ba=\"b\"\x7d | c > 1 or d > 2, e > 3 f > 4 [5m])".toList

theorem parse_ranked_layered :
    (parse layeredText).holds .error = false ∧ (parse layeredText).strip.Ranked := by
  have h : (parse layeredText).holds .error = false := by decide +kernel
  exact ⟨h, parse_ranked h⟩

end LogQuery
