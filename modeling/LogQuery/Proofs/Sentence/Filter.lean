import LogQuery.Proofs.Sentence.Selector

/-! Rules read back what is meant: line filters, and label filters with the precedence of their
signs. -/
namespace LogQuery.Grammar

open Kind (mark)

variable {levels least : Nat} {us : List Token}

theorem stageEnd_wordAt (h : AtStageEnd us) (w : Keyword) : wordAt 0 w us = false :=
  wordAt_of_kindAt (stageEnd_ne h (by decide)) w

theorem stageEnd_atOrValue (h : AtStageEnd us) : atOrValue us = false := by
  simp [atOrValue, stageEnd_wordAt h]

theorem lineValue_takes (v : LineValue) (us : List Token) :
    lineValue (v.tokens ++ us) = ⟨v.trees, us, 0, none⟩ := by
  cases v <;> rfl

theorem atLineValue_tokens (v : LineValue) (us : List Token) :
    atLineValue 0 (v.tokens ++ us) = true := by
  cases v <;> rfl

/-- The values after the first, each of them one level deeper. -/
theorem orFilter_takes (vs : List LineValue) (hl : vs.length ≤ levels) (hu : atOrValue us = false) :
    when atOrValue (orFilter levels) (LineTest.orTokens vs ++ us) =
      ⟨LineTest.orTrees vs, us, vs.length, none⟩ := by
  induction vs generalizing levels with
  | nil => exact when_skips hu
  | cons v vs ih =>
    obtain ⟨levels, rfl⟩ : ∃ l, levels = l + 1 := ⟨levels - 1, by simp at hl; omega⟩
    have hmore := @ih levels (by simpa using hl)
    have ht : LineTest.orTokens (v :: vs) ++ us =
        Keyword.or.token :: (v.tokens ++ (LineTest.orTokens vs ++ us)) := by
      simp [LineTest.orTokens]
    have hp :
        atOrValue (Keyword.or.token :: (v.tokens ++ (LineTest.orTokens vs ++ us))) = true := by
      have hv := atLineValue_tokens v (LineTest.orTokens vs ++ us)
      simp only [atOrValue, Bool.and_eq_true]
      exact ⟨rfl, hv⟩
    have hb : bumpWord .or (Keyword.or.token :: (v.tokens ++ (LineTest.orTokens vs ++ us))) =
        ⟨[Keyword.or.leaf], v.tokens ++ (LineTest.orTokens vs ++ us), 0, none⟩ := rfl
    have h := node_takes (k := .orFilter)
      (seq_takes hb (seq_takes (lineValue_takes v _) (seq_takes hmore (seq_takes_nil us))))
    rw [ht, when_takes hp, orFilter, deepen, h]
    simp [LineTest.orTrees]

theorem lineFilter_takes (t : LineTest) (hl : t.levels ≤ levels) (hu : atOrValue us = false) :
    lineFilter levels (t.tokens ++ us) = ⟨[t.tree], us, t.levels, none⟩ := by
  have hb : node .filter bump (t.op.token :: (t.first.tokens ++ (LineTest.orTokens t.more ++ us))) =
      ⟨[.node .filter [.ofToken t.op.token]], _, 0, none⟩ := rfl
  have h := node_takes (k := .lineFilter) (seq_takes hb (seq_takes (lineValue_takes t.first _)
    (seq_takes (orFilter_takes t.more hl hu) (seq_takes_nil us))))
  simpa [lineFilter, LineTest.tokens, LineTest.tree, LineTest.levels] using h

theorem atLineFilter_tokens (t : LineTest) (us : List Token) :
    atLineFilter (t.tokens ++ us) = true := by
  obtain ⟨⟨k, hk⟩, v, vs⟩ := t
  simp only [lineOps, List.mem_cons, List.not_mem_nil, or_false] at hk
  rcases hk with rfl | rfl | rfl | rfl | rfl | rfl <;> cases v <;> rfl

theorem atStageEnd_line (t : LineTest) (us : List Token) : AtStageEnd (t.tokens ++ us) :=
  (by decide : ∀ k ∈ lineOps, k ∈ stageEnds) t.op.val t.op.property

theorem lineTests_take (ts : List LineTest) (hl : deepest LineTest.levels ts ≤ levels)
    (hu : AtStageEnd us) (he : atLineFilter us = false) :
    many atLineFilter (lineFilter levels) (ts.flatMap LineTest.tokens ++ us) =
      ⟨ts.map LineTest.tree, us, deepest LineTest.levels ts, none⟩ := by
  induction ts with
  | nil => exact many_skips he
  | cons t ts ih =>
    have hl' : t.levels ≤ levels ∧ deepest LineTest.levels ts ≤ levels := by
      simpa [deepest] using hl
    have hok : AtStageEnd (ts.flatMap LineTest.tokens ++ us) := by
      cases ts with
      | nil => exact hu
      | cons v vs =>
        rw [List.flatMap_cons, List.append_assoc]
        exact atStageEnd_line v _
    have h := andThen_takes (lineFilter_takes t hl'.1 (stageEnd_atOrValue hok)) (ih hl'.2)
    rw [List.flatMap_cons, List.append_assoc, lineFilters_eq,
      when_takes (atLineFilter_tokens t _), h]
    simp [deepest]

theorem stageEnd_atLabelFilter (h : AtStageEnd us) : atLabelFilter 0 us = false := by
  have hp := stageEnd_ne h (k := .lParen) (by decide)
  have hi := stageEnd_ne h (k := .identifier) (by decide)
  unfold atLabelFilter
  split
  · next hk => exact (hp hk).elim
  · next hk => exact (hi hk).elim
  · rfl

theorem stageEnd_labelJoin (h : AtStageEnd us) : labelJoin us = none := by
  have hc := stageEnd_ne h (k := .comma) (by decide)
  simp [labelJoin, stageEnd_wordAt h, stageEnd_atLabelFilter h, hc]

theorem labelComparison_takes (t : LabelTest) (us : List Token) :
    labelComparison (t.tokens ++ us) = ⟨[t.tree], us, 0, none⟩ := by
  cases t with
  | matching m =>
    obtain ⟨x, ⟨k, hk⟩, y⟩ := m
    simp only [matcherOps, List.mem_cons, List.not_mem_nil, or_false] at hk
    rcases hk with rfl | rfl | rfl | rfl <;> rfl
  | address x op y =>
    obtain ⟨k, hk⟩ := op
    simp only [List.mem_cons, List.not_mem_nil, or_false] at hk
    rcases hk with rfl | rfl <;> rfl
  | amount x op unit y =>
    obtain ⟨k, hk⟩ := op
    obtain ⟨u, hu⟩ := unit
    simp only [comparisonOps, List.mem_cons, List.not_mem_nil, or_false] at hk
    simp only [unitKinds, List.mem_cons, List.not_mem_nil, or_false] at hu
    rcases hu with rfl | rfl | rfl <;>
      rcases hk with rfl | rfl | rfl | rfl | rfl | rfl | rfl <;> rfl

/-- Every comparison of a label begins with a name and a sign. -/
theorem test_tokens (t : LabelTest) : ∃ (x : Lexeme .identifier) (k : Kind) (more : List Token),
    t.tokens = x.token :: mark k :: more ∧ (k ∈ matcherOps ∨ k ∈ comparisonOps) := by
  cases t with
  | matching m => exact ⟨m.name, m.op.val, [m.value.token], rfl, Or.inl m.op.property⟩
  | address x op y =>
    have hop : ∀ k ∈ [Kind.eq, .neq], k ∈ matcherOps := by decide
    exact ⟨x, op.val, _, rfl, Or.inl (hop op.val op.property)⟩
  | amount x op unit y => exact ⟨x, op.val, [y.token], rfl, Or.inr op.property⟩

theorem atLabelFilter_test (t : LabelTest) (us : List Token) :
    atLabelFilter 0 (t.tokens ++ us) = true := by
  obtain ⟨x, k, more, ht, hk⟩ := test_tokens t
  have h : atLabelFilter 0 (x.token :: mark k :: more ++ us) =
      (matcherOps.contains k || comparisonOps.contains k) := rfl
  rw [ht, h]
  simpa using hk

/-- A sign is neither a bracket nor a name. -/
theorem test_not_open (t : LabelTest) (us : List Token) :
    atKind .lParen (t.tokens ++ us) = false ∧ atLabelFilter 1 (t.tokens ++ us) = false := by
  obtain ⟨x, k, more, ht, hk⟩ := test_tokens t
  have hl : k ≠ .lParen := by
    rintro rfl
    revert hk
    decide
  have hi : k ≠ .identifier := by
    rintro rfl
    revert hk
    decide
  rw [ht]
  refine ⟨rfl, ?_⟩
  have h1 : kindAt 1 (x.token :: mark k :: more ++ us) = k := rfl
  unfold atLabelFilter
  split
  · next h => exact (hl (h1.symm.trans h)).elim
  · next h => exact (hi (h1.symm.trans h)).elim
  · rfl

theorem atLabelFilter_operand (o : LabelOperand) (us : List Token) :
    atLabelFilter 0 (o.tokens ++ us) = true := by
  cases o with
  | test t =>
    rw [LabelOperand.tokens]
    exact atLabelFilter_test t us
  | group f =>
    rw [LabelOperand.tokens]
    rfl

theorem atLabelFilter_conjunction : (c : LabelConjunction) → (us : List Token) →
    atLabelFilter 0 (c.tokens ++ us) = true
  | .one o, us => by
    rw [LabelConjunction.tokens]
    exact atLabelFilter_operand o us
  | .also c j o, us => by
    rw [LabelConjunction.tokens, List.append_assoc]
    exact atLabelFilter_conjunction c _

theorem atLabelFilter_disjunction : (f : LabelDisjunction) → (us : List Token) →
    atLabelFilter 0 (f.tokens ++ us) = true
  | .one c, us => by
    rw [LabelDisjunction.tokens]
    exact atLabelFilter_conjunction c us
  | .orElse f c, us => by
    rw [LabelDisjunction.tokens, List.append_assoc]
    exact atLabelFilter_disjunction f _

def jointMark : Joint → Rule
  | .and => bumpWord .and
  | .comma => bump
  | .beside => nothing

theorem jointMark_takes (j : Joint) (us : List Token) :
    jointMark j (j.tokens ++ us) = ⟨j.trees, us, 0, none⟩ := by
  cases j <;> rfl

/-- A name after a label filter opens another one, even if it is spelled like a sign. -/
theorem labelJoin_joint (j : Joint) (o : LabelOperand) (us : List Token) :
    labelJoin (j.tokens ++ (o.tokens ++ us)) = some ⟨jointMark j, 3, 4⟩ := by
  have ho := atLabelFilter_operand o us
  cases j with
  | and =>
    have ho' : atLabelFilter 1 (Keyword.and.token :: (o.tokens ++ us)) = true := ho
    have hor : wordAt 0 .or (Keyword.and.token :: (o.tokens ++ us)) = false := rfl
    have hand : wordAt 0 .and (Keyword.and.token :: (o.tokens ++ us)) = true := rfl
    simp [Joint.tokens, labelJoin, ho', hor, hand, jointMark]
  | comma =>
    have ho' : atLabelFilter 1 (mark .comma :: (o.tokens ++ us)) = true := ho
    have hor : wordAt 0 .or (mark .comma :: (o.tokens ++ us)) = false := rfl
    have hand : wordAt 0 .and (mark .comma :: (o.tokens ++ us)) = false := rfl
    have hk : kindAt 0 (mark .comma :: (o.tokens ++ us)) = .comma := rfl
    simp [Joint.tokens, labelJoin, ho', hor, hand, hk, jointMark]
  | beside =>
    have hc : kindAt 0 (o.tokens ++ us) ≠ .comma := by
      intro hk
      unfold atLabelFilter at ho
      rw [hk] at ho
      cases ho
    have hw : ∀ w, (wordAt 0 w (o.tokens ++ us) && atLabelFilter 1 (o.tokens ++ us)) = false := by
      intro w
      cases o with
      | test t =>
        rw [LabelOperand.tokens, (test_not_open t us).2, Bool.and_false]
      | group f => rfl
    simp only [Joint.tokens, List.nil_append, labelJoin, hw, Bool.false_eq_true, if_false, hc,
      decide_false, Bool.false_and, ho, if_true, jointMark]

theorem labelJoin_or (c : LabelConjunction) (us : List Token) :
    labelJoin (Keyword.or.token :: (c.tokens ++ us)) = some ⟨bumpWord .or, 1, 2⟩ := by
  have hc : atLabelFilter 1 (Keyword.or.token :: (c.tokens ++ us)) = true :=
    atLabelFilter_conjunction c us
  have hor : wordAt 0 .or (Keyword.or.token :: (c.tokens ++ us)) = true := rfl
  simp [labelJoin, hc, hor]

theorem operand_kind (o : LabelOperand) : o.tree.kind = .labelFilter := by
  cases o <;> rfl

theorem conjunction_kind (c : LabelConjunction) : c.tree.kind = .labelFilter := by
  cases c with
  | one o => exact operand_kind o
  | also c j o => rfl

theorem disjunction_kind (f : LabelDisjunction) : f.tree.kind = .labelFilter := by
  cases f with
  | one c => exact conjunction_kind c
  | orElse f c => rfl

theorem orMissing_takes {k : Kind} {r : Rule} {ts us : List Token} {t : Tree} {d : Nat}
    (h : r ts = ⟨[t], us, d, none⟩) (hk : t.kind = k) :
    orMissing k r ts = ⟨[t], us, d, none⟩ := by
  simp [orMissing, h, Found.orMissing, Found.makes, hk]

/-- A finding after something that went to a depth. -/
def Found.after (d : Nat) (g : Found) : Found := { g with depth := max d g.depth }

theorem after_after (d e : Nat) (g : Found) : (g.after e).after d = g.after (max d e) := by
  simp [Found.after, Nat.max_assoc]

/-- The signs after a label filter, of those that bind at least as strongly as `least`. -/
def labelJoined (levels least : Nat) (lhs : Tree) : Rule :=
  joined labelJoin (.node .labelFilter)
    (fun right => orMissing .labelFilter (labelFilter levels right)) least lhs

def labelChain (levels least : Nat) : Rule :=
  chain (labelOperand (labelFilter levels 0)) labelJoin (.node .labelFilter)
    (fun right => orMissing .labelFilter (labelFilter levels right)) least

theorem labelFilter_succ (levels least : Nat) :
    labelFilter (levels + 1) least = deepen (labelChain levels least) := rfl

theorem labelJoined_step {j : Join} {lhs : Tree} {ts us : List Token} {cs : List Tree} {d : Nat}
    (hj : labelJoin ts = some j) (hl : least ≤ j.left)
    (h : andThen j.mark (orMissing .labelFilter (labelFilter levels j.right)) ts =
      ⟨cs, us, d, none⟩) :
    labelJoined levels least lhs ts =
      (labelJoined levels least (.node .labelFilter (lhs :: cs)) us).after d := by
  rw [labelJoined, joined_eq (fun _ _ => labelJoin_shorter levels) hj hl, h]
  rfl

/-- Only signs that bind more weakly than `least` are ahead. -/
def WeakAhead (least : Nat) (us : List Token) : Prop := ∀ j, labelJoin us = some j → j.left < least

theorem weakAhead_operand (us : List Token) : WeakAhead 4 us := by
  intro j hj
  unfold labelJoin at hj
  split_ifs at hj <;> cases hj <;> decide

theorem weakAhead_or (c : LabelConjunction) (us : List Token) :
    WeakAhead 2 (Keyword.or.token :: (c.tokens ++ us)) := by
  intro j hj
  rw [labelJoin_or, Option.some.injEq] at hj
  subst hj
  decide

theorem weakAhead_end (h : AtStageEnd us) : WeakAhead least us := by
  intro j hj
  rw [stageEnd_labelJoin h] at hj
  cases hj

theorem labelJoined_stops {lhs : Tree} (h : WeakAhead least us) :
    labelJoined levels least lhs us = ⟨[lhs], us, 0, none⟩ := by
  cases hj : labelJoin us with
  | none => exact joined_of_none hj
  | some j => exact joined_of_weak hj (h j hj)

theorem labelFilter_takes {lhs : Tree} {ts us : List Token} {d : Nat}
    (h : labelChain levels least ts = (labelJoined levels least lhs us).after d)
    (hu : WeakAhead least us) : labelFilter (levels + 1) least ts = ⟨[lhs], us, d + 1, none⟩ := by
  rw [labelFilter_succ, deepen, h, labelJoined_stops hu]
  simp [Found.after]

mutual

theorem operand_takes : (o : LabelOperand) → (levels : Nat) → o.inner ≤ levels →
    (us : List Token) →
    labelOperand (labelFilter levels 0) (o.tokens ++ us) = ⟨[o.tree], us, o.inner, none⟩
  | .test t, levels, _, us => by
    rw [LabelOperand.tokens, LabelOperand.tree, LabelOperand.inner, labelOperand,
      either_skips (test_not_open t us).1, when_takes (atLabelFilter_test t us)]
    exact node_takes (labelComparison_takes t us)
  | .group f, levels, hl, us => by
    rw [LabelOperand.inner] at hl
    obtain ⟨levels, rfl⟩ : ∃ l, levels = l + 1 := ⟨levels - 1, by omega⟩
    have hend : AtStageEnd (mark .rParen :: us) := by
      show Kind.rParen ∈ stageEnds
      decide
    have hf := labelFilter_takes
      (disjunction_takes f levels (by omega) (mark .rParen :: us) (weakAhead_end hend))
      (weakAhead_end hend)
    have hb : bump (mark .lParen :: (f.tokens ++ mark .rParen :: us)) =
        ⟨[.ofToken (mark .lParen)], f.tokens ++ mark .rParen :: us, 0, none⟩ := rfl
    have he : seq [expect .rParen] (mark .rParen :: us) =
        ⟨[.ofToken (mark .rParen)], us, 0, none⟩ := rfl
    have h := node_takes (k := .labelFilter)
      (seq_takes hb (seq_takes (orMissing_takes hf (disjunction_kind f)) he))
    rw [LabelOperand.tokens, LabelOperand.tree, LabelOperand.inner, labelOperand,
      List.cons_append, List.append_assoc, List.singleton_append, either_takes rfl, h]
    simp

/-- Signs that bind as closely as a conjunction are taken into it from the left. -/
theorem conjunction_takes : (c : LabelConjunction) → (levels least : Nat) → c.inner ≤ levels →
    least ≤ 3 → (us : List Token) →
    labelChain levels least (c.tokens ++ us) = (labelJoined levels least c.tree us).after c.inner
  | .one o, levels, least, hl, _, us => by
    rw [LabelConjunction.inner] at hl
    rw [LabelConjunction.tokens, LabelConjunction.tree, LabelConjunction.inner, labelChain,
      chain_eq (operand_takes o levels hl us)]
    rfl
  | .also c j o, levels, least, hl, h3, us => by
    rw [LabelConjunction.inner] at hl
    obtain ⟨levels, rfl⟩ : ∃ l, levels = l + 1 := ⟨levels - 1, by omega⟩
    have hc := conjunction_takes c (levels + 1) least (by omega) h3 (j.tokens ++ (o.tokens ++ us))
    have ho := labelFilter_takes (chain_eq (operand_takes o levels (by omega) us))
      (weakAhead_operand us)
    have hj := andThen_takes (jointMark_takes j _) (orMissing_takes ho (operand_kind o))
    rw [LabelConjunction.tokens, LabelConjunction.tree, LabelConjunction.inner, List.append_assoc,
      List.append_assoc, hc, labelJoined_step (labelJoin_joint j o us) h3 hj, after_after]
    simp

/-- Every `or` takes what is on its left, and a whole conjunction on its right. -/
theorem disjunction_takes : (f : LabelDisjunction) → (levels : Nat) → f.inner ≤ levels →
    (us : List Token) → WeakAhead 2 us →
    labelChain levels 0 (f.tokens ++ us) = (labelJoined levels 0 f.tree us).after f.inner
  | .one c, levels, hl, us, _ => by
    rw [LabelDisjunction.inner] at hl
    rw [LabelDisjunction.tokens, LabelDisjunction.tree, LabelDisjunction.inner]
    exact conjunction_takes c levels 0 hl (by omega) us
  | .orElse f c, levels, hl, us, hu => by
    rw [LabelDisjunction.inner] at hl
    obtain ⟨levels, rfl⟩ : ∃ l, levels = l + 1 := ⟨levels - 1, by omega⟩
    have hf := disjunction_takes f (levels + 1) (by omega) (Keyword.or.token :: (c.tokens ++ us))
      (weakAhead_or c us)
    have hc := labelFilter_takes (conjunction_takes c levels 2 (by omega) (by omega) us) hu
    have hb : bumpWord .or (Keyword.or.token :: (c.tokens ++ us)) =
        ⟨[Keyword.or.leaf], c.tokens ++ us, 0, none⟩ := rfl
    have hj := andThen_takes hb (orMissing_takes hc (conjunction_kind c))
    rw [LabelDisjunction.tokens, LabelDisjunction.tree, LabelDisjunction.inner, List.append_assoc,
      List.cons_append, hf, labelJoined_step (labelJoin_or c us) (by omega) hj, after_after]
    simp

end

/-- A label filter in front of the end of its stage, with the depth to which it nests. -/
theorem disjunction_reads (f : LabelDisjunction) (hl : f.levels ≤ levels) (hu : AtStageEnd us) :
    labelFilter levels 0 (f.tokens ++ us) = ⟨[f.tree], us, f.levels, none⟩ := by
  rw [LabelDisjunction.levels] at hl ⊢
  obtain ⟨levels, rfl⟩ : ∃ l, levels = l + 1 := ⟨levels - 1, by omega⟩
  exact labelFilter_takes (disjunction_takes f levels (by omega) us (weakAhead_end hu))
    (weakAhead_end hu)

end LogQuery.Grammar
