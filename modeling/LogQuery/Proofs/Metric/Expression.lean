import LogQuery.Proofs.Metric.Call
import LogQuery.Proofs.Precedence

/-! Rules read back what is meant: operands, and operators with their levels. -/
namespace LogQuery.Grammar

open Kind (mark)

variable {levels least d : Nat} {ts us : List Token} {lhs : Tree}

theorem operator_takes (op : Sign binaryOps) (us : List Token) :
    binaryJoin (op.val.token :: us) =
      some ⟨andThen (bumpAs op.val) boolModifier, (operatorPowers op.val).1,
        (operatorPowers op.val).2⟩ := by
  have h : ∀ k ∈ binaryOps, operator? k.token = some (k, operatorPowers k) := by decide
  simp [binaryJoin, h op.val op.property]

theorem bool_takes (b : Bool) (hu : wordAt 0 .bool us = false) :
    boolModifier (Metric.boolTokens b ++ us) = ⟨Metric.boolTrees b, us, 0, none⟩ := by
  cases b with
  | false => exact when_skips hu
  | true => rfl

theorem operator_no_grouping (op : Sign binaryOps) (us : List Token) :
    atGrouping (op.val.token :: us) = false := by
  have h : ∀ k ∈ binaryOps,
      k.token.spells .groupBy = false ∧ k.token.spells .groupWithout = false := by decide
  simp [atGrouping, h op.val op.property]

/-- No expression begins like the modifier of an operator. -/
theorem metric_no_bool (e : Metric) (us : List Token) :
    wordAt 0 .bool (e.tokens ++ us) = false := by
  have hrange : ∀ w ∈ Keyword.rangeOps, w.token.spells .bool = false := by decide
  have hvector : ∀ w ∈ Keyword.vectorOps, w.token.spells .bool = false := by decide
  induction e generalizing us with
  | number s x =>
    cases s with
    | none => rfl
    | some s =>
      have hs : ∀ k ∈ [Kind.add, .sub], k.token.spells .bool = false := by decide
      exact hs s.val s.property
  | vector x => rfl
  | range op x r g => exact hrange op.val op.property
  | aggregate op b x e a _ => exact hvector op.val op.property
  | binary op b l r hl _ =>
    rw [Metric.tokens, List.append_assoc]
    exact hl _
  | parens e _ => rfl

theorem operator_not_comma (op : Sign binaryOps) (us : List Token) :
    kindAt 0 (op.val.token :: us) ≠ .comma :=
  (by decide : ∀ k ∈ binaryOps, k.token.kind ≠ .comma) op.val op.property

/-- The first number of an expression has no comma behind it. -/
theorem metric_no_parameter (e : Metric) (hu : kindAt 0 us ≠ .comma) :
    NoParameter (e.tokens ++ us) := by
  have hname : ∀ {w : Keyword} {vs : List Token}, NoParameter (w.token :: vs) :=
    fun h => Kind.noConfusion h
  induction e generalizing us with
  | number s x =>
    cases s with
    | none => exact fun _ => hu
    | some s =>
      have hs : ∀ k ∈ [Kind.add, .sub], k.token.kind ≠ .number := by decide
      exact fun h => (hs s.val s.property h).elim
  | vector x => exact hname
  | range op x r g => exact hname
  | aggregate op b x e a _ => exact hname
  | binary op b l r hl _ =>
    rw [Metric.tokens, List.append_assoc]
    exact hl (operator_not_comma op _)
  | parens e _ => exact fun h => Kind.noConfusion h

section Operand

variable {inner : Rule}

theorem operand_number (s : Option (Sign [.add, .sub])) (x : Lexeme .number) (us : List Token) :
    operand levels inner ((Metric.number s x).tokens ++ us) =
      ⟨[(Metric.number s x).tree], us, 0, none⟩ := by
  cases s with
  | none => rfl
  | some s =>
    obtain ⟨k, hk⟩ := s
    simp only [List.mem_cons, List.not_mem_nil, or_false] at hk
    rcases hk with rfl | rfl <;> rfl

theorem operand_vector (x : Lexeme .number) (us : List Token) :
    operand levels inner ((Metric.vector x).tokens ++ us) =
      ⟨[(Metric.vector x).tree], us, 0, none⟩ := rfl

theorem call_range (levels : Nat) (op : Word Keyword.rangeOps) :
    call? levels inner op.val.text = some (rangeAggregation levels op.val) := by
  have h : ∀ w ∈ Keyword.rangeOps, Keyword.ofText? Keyword.rangeOps w.text = some w := by
    decide +kernel
  simp [call?, h op.val op.property]

theorem call_vector (levels : Nat) (op : Word Keyword.vectorOps) :
    call? levels inner op.val.text = some (vectorAggregation inner op.val) := by
  have h : ∀ w ∈ Keyword.vectorOps, Keyword.ofText? Keyword.rangeOps w.text = none ∧
      Keyword.ofText? Keyword.vectorOps w.text = some w := by
    decide +kernel
  simp [call?, h op.val op.property]

theorem operand_call {w : Keyword} {r : Rule} {t : Tree}
    (hw : call? levels inner w.text = some r) (h : r (w.token :: ts) = ⟨[t], us, d, none⟩) :
    operand levels inner (w.token :: ts) = ⟨[Metric.sample [t]], us, d, none⟩ := by
  have ho : operand levels inner (w.token :: ts) =
      node .expr (node .metricExpr r) (w.token :: ts) := by
    simp only [operand, Keyword.token, hw]
  rw [ho]
  exact node_takes (node_takes h)

theorem operand_range (op : Word Keyword.rangeOps) (x : Option (Lexeme .number)) (r : LogRange)
    (g : Option Grouping) (hl : r.levels ≤ levels) (hu : atGrouping us = false) :
    operand levels inner ((Metric.range op x r g).tokens ++ us) =
      ⟨[(Metric.range op x r g).tree], us, r.levels, none⟩ :=
  operand_call (call_range levels op) (rangeAggregation_takes op x r g hl hu)

theorem operand_aggregate (op : Word Keyword.vectorOps) (b a : Option Grouping)
    (x : Option (Lexeme .number)) (e : Metric) (hu : atGrouping us = false)
    (h : inner (e.tokens ++ mark .rParen :: (Metric.groupTokens a ++ us)) =
      ⟨[e.tree], mark .rParen :: (Metric.groupTokens a ++ us), d, none⟩) :
    operand levels inner ((Metric.aggregate op b x e a).tokens ++ us) =
      ⟨[(Metric.aggregate op b x e a).tree], us, d, none⟩ := by
  have hn : NoParameter (e.tokens ++ mark .rParen :: (Metric.groupTokens a ++ us)) :=
    metric_no_parameter e Kind.noConfusion
  have hcall := operand_call (call_vector levels op)
    (vectorAggregation_takes op b a x e.kind_tree h hn hu)
  simpa [Metric.tokens, Metric.tree] using hcall

theorem operand_parens (e : Metric) (h : inner (e.tokens ++ mark .rParen :: us) =
      ⟨[e.tree], mark .rParen :: us, d, none⟩) :
    operand levels inner ((Metric.parens e).tokens ++ us) =
      ⟨[(Metric.parens e).tree], us, d, none⟩ := by
  have hopen : bump (mark .lParen :: (e.tokens ++ mark .rParen :: us)) =
      ⟨[.ofToken (mark .lParen)], e.tokens ++ mark .rParen :: us, 0, none⟩ := rfl
  have hclose : seq [expect .rParen] (mark .rParen :: us) =
      ⟨[.ofToken (mark .rParen)], us, 0, none⟩ := rfl
  have hs := seq_takes hopen (seq_takes (orMissing_takes h e.kind_tree) hclose)
  have hk : parenthesesKind [.ofToken (mark .lParen), e.tree, .ofToken (mark .rParen)] =
      .metricExpr := by
    cases e <;> rfl
  have hp : parentheses inner (mark .lParen :: (e.tokens ++ mark .rParen :: us)) =
      ⟨[.node .metricExpr [.ofToken (mark .lParen), e.tree, .ofToken (mark .rParen)]], us, d,
        none⟩ := by
    rw [parentheses, nodeBy, hs]
    simpa using hk
  have ho : operand levels inner (mark .lParen :: (e.tokens ++ mark .rParen :: us)) =
      node .expr (parentheses inner) (mark .lParen :: (e.tokens ++ mark .rParen :: us)) := rfl
  simpa [Metric.tokens, Metric.tree, Metric.sample] using ho.trans (node_takes hp)

end Operand

/-- Operands that fit their operator keep their own operators, and give it to no other. -/
theorem fits_powers {op : Kind} (hop : op ∈ binaryOps) {l r : Metric} (h : Metric.Fits op l r) :
    (operatorPowers op).1 < (levelPowers l.level).2 ∧
      (operatorPowers op).1 ≤ (levelPowers l.level).1 ∧
      (operatorPowers op).2 ≤ (levelPowers r.level).1 ∧
      (operatorPowers op).2 ≤ (levelPowers r.level).2 := by
  have hpos := operatorLevel_pos op hop
  unfold Metric.Fits at h
  simp only [← operatorLevel_eq_six] at h
  rw [operatorPowers_eq]
  unfold levelPowers
  split_ifs at h ⊢ <;> omega

theorem stops_of_kind (h : kindAt 0 us ∈ [.eof, .rParen]) : Stops binaryJoin least us := by
  intro j hj
  cases us with
  | nil => cases hj
  | cons t us =>
    have hk : t.kind = .eof ∨ t.kind = .rParen := by simpa using h
    rcases hk with hk | hk <;> simp [binaryJoin, operator?, hk] at hj

def exprChain (levels least : Nat) : Rule :=
  chain (operand levels (expr levels 0)) binaryJoin binary
    (fun right => orMissing .expr (expr levels right)) least

/-- The operators after an operand, of those that bind at least as strongly as `least`. -/
def exprJoined (levels least : Nat) (lhs : Tree) : Rule :=
  joined binaryJoin binary (fun right => orMissing .expr (expr levels right)) least lhs

theorem expr_succ (levels least : Nat) :
    expr (levels + 1) least = deepen (exprChain levels least) := rfl

theorem exprJoined_step {j : Join} {cs : List Tree} (hj : binaryJoin ts = some j)
    (hl : least ≤ j.left)
    (h : andThen j.mark (orMissing .expr (expr levels j.right)) ts = ⟨cs, us, d, none⟩) :
    exprJoined levels least lhs ts = (exprJoined levels least (binary (lhs :: cs)) us).after d := by
  rw [exprJoined, joined_eq (fun _ _ => binaryJoin_shorter levels) hj hl, h]
  rfl

theorem exprJoined_stops (h : Stops binaryJoin least us) :
    exprJoined levels least lhs us = ⟨[lhs], us, 0, none⟩ := by
  cases hj : binaryJoin us with
  | none => exact joined_of_none hj
  | some j => exact joined_of_weak hj (h j hj)

theorem expr_takes_chain (h : exprChain levels least ts = (exprJoined levels least lhs us).after d)
    (hu : Stops binaryJoin least us) : expr (levels + 1) least ts = ⟨[lhs], us, d + 1, none⟩ := by
  rw [expr_succ, deepen, h, exprJoined_stops hu]
  simp [Found.after]

theorem exprChain_operand (h : operand levels (expr levels 0) ts = ⟨[lhs], us, d, none⟩) :
    exprChain levels least ts = (exprJoined levels least lhs us).after d :=
  chain_eq h

/-- An operator with its modifier, and all that binds more closely than it on its right. -/
theorem operator_step {op : Sign binaryOps} {b : Bool} {r : Metric}
    (hl : least ≤ (operatorPowers op.val).1)
    (h : exprChain levels (operatorPowers op.val).2 (r.tokens ++ us) =
      (exprJoined levels (operatorPowers op.val).2 r.tree us).after r.inner)
    (hu : Stops binaryJoin (operatorPowers op.val).2 us) :
    exprJoined (levels + 1) least lhs
        (op.val.token :: (Metric.boolTokens b ++ (r.tokens ++ us))) =
      (exprJoined (levels + 1) least
        (binary (lhs :: Metric.operatorLeaf op.val :: (Metric.boolTrees b ++ [r.tree])))
        us).after (r.inner + 1) := by
  have hr := orMissing_takes (expr_takes_chain h hu) r.kind_tree
  have hmark : andThen (bumpAs op.val) boolModifier
      (op.val.token :: (Metric.boolTokens b ++ (r.tokens ++ us))) =
        ⟨Metric.operatorLeaf op.val :: Metric.boolTrees b, r.tokens ++ us, 0, none⟩ := by
    have hb : bumpAs op.val (op.val.token :: (Metric.boolTokens b ++ (r.tokens ++ us))) =
        ⟨[Metric.operatorLeaf op.val], _, 0, none⟩ := rfl
    simpa using andThen_takes hb (bool_takes b (metric_no_bool r us))
  have h := @exprJoined_step _ _ _ _ _ lhs _ _ (operator_takes op _) hl (andThen_takes hmark hr)
  simpa using h

/-- An expression in front of anything that does not go on with it: what an operator at its top
would take on its right, or a grouping. -/
theorem metric_takes (e : Metric) (hc : e.Clear) (hl : e.inner ≤ levels)
    (hleast : least ≤ (levelPowers e.level).1) (hu : Stops binaryJoin (levelPowers e.level).2 us)
    (hg : atGrouping us = false) :
    exprChain levels least (e.tokens ++ us) =
      (exprJoined levels least e.tree us).after e.inner := by
  have hinside : ∀ {e : Metric} {levels : Nat} {vs : List Token},
      exprChain levels 0 (e.tokens ++ mark .rParen :: vs) =
        (exprJoined levels 0 e.tree (mark .rParen :: vs)).after e.inner →
      expr (levels + 1) 0 (e.tokens ++ mark .rParen :: vs) =
        ⟨[e.tree], mark .rParen :: vs, e.inner + 1, none⟩ := fun h =>
    expr_takes_chain h (stops_of_kind (.tail _ (.head _)))
  induction e generalizing levels least us with
  | number s x => exact exprChain_operand (operand_number s x us)
  | vector x => exact exprChain_operand (operand_vector x us)
  | range op x r g => exact exprChain_operand (operand_range op x r g hl hg)
  | aggregate op b x e a ih =>
    rw [Metric.inner] at hl
    obtain ⟨levels, rfl⟩ : ∃ l, levels = l + 1 := ⟨levels - 1, by omega⟩
    exact exprChain_operand (operand_aggregate op b a x e hg (hinside
      (ih hc (by omega) (Nat.zero_le _) (stops_of_kind (.tail _ (.head _))) rfl)))
  | parens e ih =>
    rw [Metric.inner] at hl
    obtain ⟨levels, rfl⟩ : ∃ l, levels = l + 1 := ⟨levels - 1, by omega⟩
    exact exprChain_operand (operand_parens e (hinside
      (ih hc (by omega) (Nat.zero_le _) (stops_of_kind (.tail _ (.head _))) rfl)))
  | binary op b l r ihl ihr =>
    obtain ⟨hfits, hcl, hcr⟩ := hc
    obtain ⟨hl2, hl1, hr1, hr2⟩ := fits_powers op.property hfits
    rw [Metric.level, ← operatorPowers_eq] at hleast hu
    rw [Metric.inner] at hl
    obtain ⟨levels, rfl⟩ : ∃ l, levels = l + 1 := ⟨levels - 1, by omega⟩
    have hop : Stops binaryJoin (levelPowers l.level).2
        (op.val.token :: (Metric.boolTokens b ++ (r.tokens ++ us))) := by
      intro j hj
      rw [operator_takes, Option.some.injEq] at hj
      exact hj ▸ hl2
    -- The left operand is read on the level of the whole, the right one on the level below.
    have hil : l.inner ≤ levels + 1 := by omega
    have hir : r.inner ≤ levels := by omega
    have hleft := ihl hcl hil (hleast.trans hl1) hop (operator_no_grouping op _)
    have hright := ihr hcr hir hr1 (fun j hj => (hu j hj).trans_le hr2) hg
    rw [Metric.tokens, List.append_assoc, List.cons_append, List.append_assoc, hleft,
      operator_step hleast hright hu, after_after]
    rfl

end LogQuery.Grammar
