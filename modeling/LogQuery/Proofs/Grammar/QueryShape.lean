import LogQuery.Proofs.Grammar.LogShape

/-! Aggregations, joined expressions and the query as a whole have the shapes of their kinds. -/
namespace LogQuery.Grammar

open LogQuery.Tree (kindsAll)
open Shape (one oneOf opt inOrder)

variable {k : Kind} {ts : List Token} {t : Token} {w : Keyword}

theorem ofText?_mem {words : List Keyword} {text : Text} (h : Keyword.ofText? words text = some w) :
    w ∈ words := List.mem_of_find?_eq_some h

theorem bumpWord_oneOf_sound {words : List Keyword} (h : t.spells w = true) (hw : w ∈ words)
    (ts : List Token) : (bumpWord w (t :: ts)).Sound (.wordOf words) (t :: ts) :=
  oneOf_sound (bumpWord_sound ts h) (List.mem_map_of_mem hw)

theorem range_sound (h : atKind .lBracket ts = true) : (range ts).Sound (one .range) ts := by
  obtain ⟨t, us, rfl, ht⟩ := atKind_cons h
  exact node_sound rfl (seq_bump_sound ht rfl (seq_expect_sound rfl us fun vs =>
    seq_expect_sound rfl vs seq_sound_nil))

theorem offset_sound (h : wordAt 0 .offset ts = true) :
    (offset ts).Sound (one .offsetExpr) ts := by
  obtain ⟨t, us, rfl, ht⟩ := wordAt_cons h
  exact node_sound rfl (seq_bumpWord_sound ht (seq_expect_sound rfl us seq_sound_nil))

theorem unwrapped_sound (ts : List Token) :
    (unwrapped ts).Sound
      (one .identifier + inOrder [one .convOp, one .lParen, one .identifier, one .rParen]) ts := by
  simp only [unwrapped]
  split
  · next w hw =>
    split at hw
    · next t x us =>
      split at hw
      · next ht =>
        refine right_sound (seq_sound (node_sound rfl
          (bumpWord_oneOf_sound (ofText?_spells ht hw) (ofText?_mem hw) _)) ?_)
        exact seq_bump_sound rfl rfl (seq_expect_sound rfl us fun vs =>
          seq_expect_sound rfl vs seq_sound_nil)
      · cases hw
    · cases hw
  · exact left_sound (expect_sound rfl ts)

theorem unwrap_sound (levels : Nat) (hp : kindAt 0 ts = .pipe) (hw : wordAt 1 .unwrap ts = true) :
    (unwrap levels ts).Sound (one .unwrapExpr) ts := by
  obtain ⟨t, us, rfl, ht⟩ := kindAt_cons hp (by decide)
  obtain ⟨u, vs, rfl, hu⟩ := wordAt_cons (show wordAt 0 _ us = true from hw)
  refine node_sound rfl (seq_bump_sound ht rfl (seq_bumpWord_sound hu
    (seq_sound (unwrapped_sound vs) (seq_sound ?_ (seq_sound_nil _)))))
  refine many_sound (fun ws hf => ?_) _
  simp only [Bool.and_eq_true, decide_eq_true_eq] at hf
  obtain ⟨x, xs, rfl, hx⟩ := kindAt_cons hf.1 (by decide)
  exact pair_sound (bump_sound xs hx rfl) (labelFilter_sound_of_look levels 0 hf.2)

theorem rangeSource_sound (levels : Nat) (ts : List Token) :
    (either (fun ts => kindAt 0 ts = .lParen && kindAt 1 ts = .lBrace)
      (seq [bump, selector, when atStage (pipeline levels), expect .rParen])
      (either (atKind .lBrace) selector missing) ts).Sound
      (one .selector + inOrder [one .lParen, one .selector, opt (one .pipelineExpr), one .rParen])
      ts := by
  unfold either
  split_ifs with hp hb
  · simp only [Bool.and_eq_true, decide_eq_true_eq] at hp
    obtain ⟨t, us, rfl, ht⟩ := kindAt_cons hp.1 (by decide)
    obtain ⟨u, vs, rfl, hu⟩ := kindAt_cons (show kindAt 0 us = _ from hp.2) (by decide)
    exact right_sound (seq_bump_sound ht rfl (seq_sound (selector_sound hu vs)
      (seq_sound (when_sound fun hs => pipeline_sound levels hs)
        (seq_expect_sound rfl _ seq_sound_nil))))
  · obtain ⟨t, us, rfl, ht⟩ := atKind_cons hb
    exact left_sound (selector_sound ht us)
  · exact missing_sound ts

theorem logRange_sound (levels : Nat) (ts : List Token) :
    (logRange levels ts).Sound (one .logRangeExpr) ts := by
  refine node_sound rfl (seq_sound (rangeSource_sound levels ts)
    (seq_sound (when_sound range_sound) (seq_sound (when_sound (pipeline_sound levels))
      (seq_sound (when_sound fun hu => ?_) (seq_sound (when_sound range_sound)
        (seq_sound (when_sound offset_sound) (seq_sound_nil _)))))))
  simp only [Bool.and_eq_true, decide_eq_true_eq] at hu
  exact unwrap_sound levels hu.1 hu.2

theorem labels_sound (h : atKind .identifier ts = true) :
    (node .labels (commaList bump) ts).Sound (one .labels) ts := by
  obtain ⟨t, us, rfl, ht⟩ := atKind_cons h
  exact node_sound rfl (commaList_sound (bump_sound us ht rfl) fun u us hu => bump_sound us hu rfl)

theorem grouping_sound (h : atGrouping ts = true) : (grouping ts).Sound (one .grouping) ts := by
  simp only [atGrouping, Bool.and_eq_true, Bool.or_eq_true, decide_eq_true_eq] at h
  obtain ⟨t, us, rfl⟩ : ∃ t us, ts = t :: us := by
    obtain h | h := h.1
    · obtain ⟨t, us, rfl, _⟩ := wordAt_cons h
      exact ⟨t, us, rfl⟩
    · obtain ⟨t, us, rfl, _⟩ := wordAt_cons h
      exact ⟨t, us, rfl⟩
  have hl : kindAt 0 us = .lParen := h.2
  obtain ⟨l, vs, rfl, hl⟩ := kindAt_cons hl (by decide)
  refine node_sound rfl (seq_sound (S := .wordOf [.groupBy, .groupWithout]) ?_ ?_)
  · refine either_sound_same (fun hb => bumpWord_oneOf_sound hb (by decide) _) fun hb => ?_
    have hw : t.spells .groupWithout = true := h.1.resolve_left (by simpa using hb)
    exact bumpWord_oneOf_sound hw (by decide) _
  · have hr : (either (wordAt 0 .groupBy) (bumpWord .groupBy) (bumpWord .groupWithout)
        (t :: l :: vs)).rest = l :: vs := by
      unfold either
      split <;> rfl
    rw [hr]
    exact seq_bump_sound hl rfl (seq_sound (when_sound labels_sound)
      (seq_expect_sound rfl _ seq_sound_nil))

theorem arguments_sound {inside : Rule} {A : List Shape}
    (hi : ∀ us, (inside us).Sound (inOrder A) us) (ts : List Token) :
    (arguments inside ts).Sound (inOrder (one .lParen :: A ++ [one .rParen])) ts := by
  refine either_sound_same (fun hp => ?_) fun _ => missing_sound ts
  obtain ⟨t, us, rfl, ht⟩ := atKind_cons hp
  exact seq_bump_sound ht rfl (append_sound (hi us) (seq_expect_sound rfl _ seq_sound_nil))

theorem parameter_sound (ts : List Token) : (parameter ts).Sound parameterShape ts := by
  refine when_sound fun h => ?_
  simp only [Bool.and_eq_true, decide_eq_true_eq] at h
  obtain ⟨t, us, rfl, ht⟩ := kindAt_cons h.1 (by decide)
  obtain ⟨u, vs, rfl, hu⟩ := kindAt_cons (show kindAt 0 us = _ from h.2) (by decide)
  exact pair_sound (bump_sound _ ht rfl) (bump_sound vs hu rfl)

theorem rangeAggregation_sound (levels : Nat) (h : t.spells w = true) (hw : w ∈ Keyword.rangeOps)
    (ts : List Token) :
    (rangeAggregation levels w (t :: ts)).Sound (one .rangeAggregationExpr) (t :: ts) :=
  node_sound rfl (seq_sound (node_sound (k := .rangeOp) rfl (bumpWord_oneOf_sound h hw ts))
    (append_sound (A := [one .lParen, parameterShape, one .logRangeExpr, one .rParen])
      (arguments_sound (A := [parameterShape, one .logRangeExpr])
        (fun us => pair_sound (parameter_sound us) (logRange_sound levels _)) _)
      (seq_sound (when_sound grouping_sound) (seq_sound_nil _))))

theorem vectorAggregation_sound {inner : Rule}
    (hi : ∀ us, (orMissing .expr inner us).Sound (one .expr) us) (h : t.spells w = true)
    (hw : w ∈ Keyword.vectorOps) (ts : List Token) :
    (vectorAggregation inner w (t :: ts)).Sound (one .vectorAggregationExpr) (t :: ts) :=
  node_sound rfl (seq_sound (node_sound (k := .vectorOp) rfl (bumpWord_oneOf_sound h hw ts))
    (seq_sound (when_sound grouping_sound)
      (append_sound (A := [one .lParen, parameterShape, one .expr, one .rParen])
        (arguments_sound (A := [parameterShape, one .expr])
          (fun us => pair_sound (parameter_sound us) (hi _)) _)
        (seq_sound (when_sound grouping_sound) (seq_sound_nil _)))))

theorem vectorLiteral_sound (h : t.spells .vector = true) (ts : List Token) :
    (vectorLiteral (t :: ts)).Sound (one .vectorExpr) (t :: ts) :=
  node_sound rfl (seq_bumpWord_sound h (append_sound
    (A := [one .lParen, one .number, one .rParen]) (B := [])
    (arguments_sound (A := [one .number])
      (fun us => single_sound.mpr (expect_sound rfl us)) ts) (seq_sound_nil _)))

/-- The kinds of calls. -/
def callKinds : List Kind := [.rangeAggregationExpr, .vectorAggregationExpr, .vectorExpr]

theorem call_sound {inner : Rule} (levels : Nat)
    (hi : ∀ us, (orMissing .expr inner us).Sound (one .expr) us) (ht : t.kind = .identifier)
    {r : Rule} (h : call? levels inner t.text = some r) (ts : List Token) :
    (r (t :: ts)).Sound (oneOf callKinds) (t :: ts) := by
  unfold call? at h
  split at h
  · next w hw =>
    cases h
    exact oneOf_sound (rangeAggregation_sound levels (ofText?_spells ht hw) (ofText?_mem hw) ts)
      (by decide)
  · split at h
    · next w hw =>
      cases h
      exact oneOf_sound (vectorAggregation_sound hi (ofText?_spells ht hw) (ofText?_mem hw) ts)
        (by decide)
    · split at h
      · next hw =>
        cases h
        exact oneOf_sound (vectorLiteral_sound (by simp [Token.spells, ht, hw]) ts) (by decide)
      · cases h

theorem literal_sound (h : t.kind = .number) (ts : List Token) :
    (literal (t :: ts)).Sound (one .metricExpr) (t :: ts) := by
  refine node_sound rfl (left_sound (oneOf_sound (node_sound (k := .literalExpr) rfl ?_)
    (by decide)))
  refine followed_sound (S := opt (oneOf [.add, .sub])) ?_ (single_sound.mpr ?_)
  · exact left_sound (by simpa [when, atAny, h] using nothing_sound (t :: ts))
  · simpa [when, atAny, h, nothing] using bump_sound ts h rfl

theorem signedLiteral_sound (h : t.kind ∈ [.add, .sub]) (hn : atKind .number ts = true) :
    (literal (t :: ts)).Sound (one .metricExpr) (t :: ts) := by
  obtain ⟨u, us, rfl, hu⟩ := atKind_cons hn
  refine node_sound rfl (left_sound (oneOf_sound (node_sound (k := .literalExpr) rfl ?_)
    (by decide)))
  have hs : atAny [.add, .sub] (t :: u :: us) = true := by simpa [atAny] using h
  rw [andThen, when, if_pos hs]
  exact pair_sound (right_sound (bump_oneOf_sound _ h (by decide))) (bump_sound us hu rfl)

theorem parentheses_sound {inner : Rule}
    (hi : ∀ us, (orMissing .expr inner us).Sound (one .expr) us) (h : t.kind = .lParen)
    (ts : List Token) :
    (parentheses inner (t :: ts)).Sound (oneOf [.logExpr, .metricExpr]) (t :: ts) := by
  have hs : (seq [bump, orMissing .expr inner, expect .rParen] (t :: ts)).Sound
      (.parens (one .expr)) (t :: ts) :=
    seq_bump_sound h rfl (seq_sound (hi ts) (seq_expect_sound rfl _ seq_sound_nil))
  have hp : ∀ cs, parenthesesKind cs = .logExpr ∨ parenthesesKind cs = .metricExpr := by
    intro cs
    unfold parenthesesKind
    split
    · exact Or.inl rfl
    · exact Or.inr rfl
  obtain hp | hp := hp (seq [bump, orMissing .expr inner, expect .rParen] (t :: ts)).trees
  · exact oneOf_sound (nodeBy_sound (by rw [hp]; rfl) (by rw [hp]; exact right_sound hs))
      (by rw [hp]; decide)
  · exact oneOf_sound (nodeBy_sound (by rw [hp]; rfl) (by rw [hp]; exact right_sound hs))
      (by rw [hp]; decide)

/-- A sign begins an operand only in front of a number. -/
theorem signedOperand_sound (h : t.kind ∈ [.add, .sub]) (ts : List Token) :
    when (fun _ => atKind .number ts) (node .expr literal) (t :: ts) = nothing (t :: ts) ∨
      (when (fun _ => atKind .number ts) (node .expr literal) (t :: ts)).Sound (one .expr)
        (t :: ts) := by
  unfold when
  split
  · next hn =>
    exact Or.inr (node_sound rfl (oneOf_sound (signedLiteral_sound h hn) (by decide)))
  · exact Or.inl rfl

/-- Where there is no operand, no token is taken. -/
theorem operand_sound {inner : Rule} (levels : Nat)
    (hi : ∀ us, (orMissing .expr inner us).Sound (one .expr) us) (ts : List Token) :
    operand levels inner ts = nothing ts ∨ (operand levels inner ts).Sound (one .expr) ts := by
  unfold operand
  split
  · exact Or.inl rfl
  · next t more =>
    split
    · next ht =>
      exact Or.inr (node_sound rfl (oneOf_sound (logExpr_sound levels ht more) (by decide)))
    · next ht => exact Or.inr (node_sound rfl (parentheses_sound hi ht more))
    · next ht => exact Or.inr (node_sound rfl (oneOf_sound (literal_sound ht more) (by decide)))
    · next ht => exact signedOperand_sound (by simp [ht]) more
    · next ht => exact signedOperand_sound (by simp [ht]) more
    · next ht =>
      split
      · next r hr =>
        refine Or.inr (node_sound rfl (oneOf_sound (k := .metricExpr) ?_ (by decide)))
        refine node_sound rfl (left_sound (mono_sound (call_sound levels hi ht hr more) ?_))
        intro w hw
        obtain ⟨k, hk, rfl⟩ := Shape.mem_oneOf.mp hw
        refine Shape.mem_oneOf.mpr ⟨k, ?_, rfl⟩
        revert hk
        simp only [callKinds, List.mem_cons, List.not_mem_nil, or_false]
        tauto
      · exact Or.inl rfl
    · exact Or.inl rfl

theorem operator?_readAs {left right : Nat} (h : operator? t = some (k, left, right)) :
    t.ReadAs ⟨k, t.text⟩ ∧ k ∈ binaryOps := by
  have hsame : ∀ {l r}, some (t.kind, l, r) = some (k, left, right) → t.kind ∈ binaryOps →
      t.ReadAs ⟨k, t.text⟩ ∧ k ∈ binaryOps := by
    intro l r he hm
    obtain ⟨rfl, -⟩ := Prod.mk.inj (Option.some.inj he)
    exact ⟨⟨rfl, Or.inl rfl⟩, hm⟩
  have hword : ∀ {v : Keyword} {l r}, some (Kind.keyword v, l, r) = some (k, left, right) →
      t.spells v = true → .keyword v ∈ binaryOps → t.ReadAs ⟨k, t.text⟩ ∧ k ∈ binaryOps := by
    intro v l r he hv hm
    obtain ⟨rfl, -⟩ := Prod.mk.inj (Option.some.inj he)
    exact ⟨⟨rfl, Or.inr ⟨v, hv, rfl⟩⟩, hm⟩
  unfold operator? at h
  split at h
  · split_ifs at h with ho ha hu
    · exact hword h ho (by decide)
    · exact hword h ha (by decide)
    · exact hword h hu (by decide)
  case h_14 => cases h
  all_goals next hk => exact hsame (by simpa [hk] using h) (by rw [hk]; decide)

theorem boolModifier_sound (ts : List Token) :
    (boolModifier ts).Sound (opt (one .boolModifier)) ts := by
  refine when_sound fun h => ?_
  obtain ⟨t, us, rfl, ht⟩ := wordAt_cons h
  exact node_sound rfl (bumpWord_sound us ht)

theorem binaryJoin_sound {right : Nat → Rule} (hr : ∀ n us, (right n us).Sound (one .expr) us)
    {j : Join} (h : binaryJoin ts = some j) :
    (andThen j.mark (right j.right) ts).Sound
      (inOrder [oneOf binaryOps, opt (one .boolModifier), one .expr]) ts := by
  cases ts with
  | nil => cases h
  | cons t us =>
    simp only [binaryJoin, Option.map_eq_some_iff] at h
    obtain ⟨⟨k, l, r⟩, ho, rfl⟩ := h
    obtain ⟨hread, hk⟩ := operator?_readAs ho
    have ht : k.isTrivia = false :=
      (by decide : ∀ k ∈ binaryOps, k.isTrivia = false) k hk
    exact append_sound (A := [oneOf binaryOps, opt (one .boolModifier)])
      (pair_sound (oneOf_sound (bumpAs_sound us ht hread) hk) (boolModifier_sound us))
      (single_sound.mpr (hr _ _))

theorem binary_sound {f : Found}
    (h : f.Sound (one .expr * inOrder [oneOf binaryOps, opt (one .boolModifier), one .expr]) ts) :
    (⟨[binary f.trees], f.rest, f.depth, f.cut⟩ : Found).Sound (one .expr) ts :=
  node_sound (r := node .metricExpr (node .binOpExpr fun _ => f)) rfl
    (oneOf_sound (node_sound (k := .metricExpr) rfl (left_sound
      (oneOf_sound (node_sound (k := .binOpExpr) rfl h) (by decide)))) (by decide))

theorem expr_sound (levels least : Nat) (ts : List Token) :
    (expr levels least ts).Sound (opt (one .expr)) ts := by
  induction levels generalizing least ts with
  | zero =>
    cases ts with
    | nil => exact left_sound refuse_sound_nil
    | cons t us => exact refuse_sound t us
  | succ levels ih =>
    have hi : ∀ n us, (orMissing .expr (expr levels n) us).Sound (one .expr) us :=
      fun n us => orMissing_sound rfl (ih n us)
    refine deepen_sound ?_
    obtain h | h := operand_sound levels (hi 0) ts
    · exact left_sound (chain_sound_of_nothing h)
    · exact right_sound (chain_sound h (fun us j hj => binaryJoin_sound hi hj)
        fun us f hf => binary_sound hf)

theorem contents_rest (levels : Nat) (ts : List Token) : (contents levels ts).rest = [] :=
  skipUntil_nil_rest _

/-- What is left over after the expression shows as an error node. -/
theorem contents_sound (levels : Nat) (ts : List Token) :
    (contents levels ts).Sound (one .expr) ts := by
  have h := expr_sound levels 0 ts
  simp only [contents, andThen]
  split
  · exact followed_sound_one (orMissing_sound (r := expr levels 0) rfl h) (skipUntil_sound [] _)
  · next he =>
    refine error_sound (followed_reads h.reads (skipUntil_reads [] _)) ?_
    cases hr : (expr levels 0 ts).rest with
    | nil => simp [hr] at he
    | cons t us =>
      simp [Found.followed, kindsAll_append, skipUntil, kindsAll, Tree.kinds]

theorem queryTree_reads (levels : Nat) (ts : List Token) :
    List.Forall₂ Token.ReadAs ts (queryTree levels ts).leaves := by
  obtain ⟨taken, he, hr⟩ := (contents_sound levels ts).reads
  rw [contents_rest, List.append_nil] at he
  exact he ▸ hr

theorem queryTree_conforms (levels : Nat) (ts : List Token)
    (h : .error ∉ (queryTree levels ts).kinds) : (queryTree levels ts).Conforms := by
  simp only [queryTree, Tree.kinds, List.mem_cons, not_or] at h
  obtain ⟨hc, hw⟩ := (contents_sound levels ts).spells h.2
  exact .node .logQl _ hw hc

end LogQuery.Grammar
