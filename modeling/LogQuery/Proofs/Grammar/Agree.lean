import LogQuery.Proofs.Grammar.Cut

/-! Every rule of the grammar does the same with tokens up to a cut as with the tokens they are cut
from, as long as it is ahead of the cut. -/
namespace LogQuery.Grammar

open LogQuery.Tree (leavesAll)

variable {k : Kind} {ts us : List Token} {t : Token} {p : Look} {a b r : Rule} {w : Keyword}

theorem head_cut (h : Cut ts us) : kindAt 0 ts = kindAt 0 us ∨
    (kindAt 0 ts = .duration ∧ kindAt 0 us = .number) := by
  cases h with
  | last h back =>
    cases h with
    | same _ => exact Or.inl rfl
    | minute hc hd => exact Or.inr ⟨hc, hd⟩
  | cons t _ => exact Or.inl rfl

/-- Tokens up to a cut begin with a kind that is no amount just if the tokens they are cut from
do. -/
theorem kindAt_cut (h : Cut ts us) (hk : k ≠ .number) (hk' : k ≠ .duration) :
    decide (kindAt 0 ts = k) = decide (kindAt 0 us = k) := by
  rcases head_cut h with he | ⟨hl, hr⟩
  · rw [he]
  · rw [hl, hr, decide_eq_false hk.symm, decide_eq_false hk'.symm]

theorem atKind_cut (h : Cut ts us) (hk : k ≠ .number) (hk' : k ≠ .duration) :
    atKind k ts = atKind k us := by
  cases h with
  | last h back =>
    cases h with
    | same _ => rfl
    | minute hc hd => simp [atKind, hc, hd, hk.symm, hk'.symm]
  | cons t _ => rfl

theorem contains_cut (ks : List Kind) (h : Cut ts us) (hn : .number ∉ ks) (hd : .duration ∉ ks) :
    ks.contains (kindAt 0 ts) = ks.contains (kindAt 0 us) := by
  rcases head_cut h with he | ⟨hl, hr⟩
  · rw [he]
  · simp [hl, hr, hn, hd]

theorem wordAt_cut (h : Cut ts us) : wordAt 0 w ts = wordAt 0 w us := by
  cases h with
  | last h back =>
    cases h with
    | same _ => rfl
    | minute hc hd => simp [Token.spells, hc, hd]
  | cons t _ => rfl

/-- No comparison begins with the last token ahead of a cut. -/
theorem atLabelFilter_closer (h : t.kind ∈ closers) (ts : List Token) :
    atLabelFilter 0 (t :: ts) = false := by
  simp only [closers, List.mem_cons, List.not_mem_nil, or_false] at h
  rcases h with h | h | h | h | h <;> simp [atLabelFilter, h]

theorem atLabelFilter_cut (h : Cut ts us) : atLabelFilter 0 ts = atLabelFilter 0 us := by
  cases h with
  | last h back =>
    obtain ⟨hc, hd⟩ := alike_closers h
    rw [atLabelFilter_closer hc, atLabelFilter_closer hd]
  | cons t h =>
    have hm := contains_cut matcherOps h (by decide) (by decide)
    have hc := contains_cut comparisonOps h (by decide) (by decide)
    simp only [atLabelFilter, kindAt_zero, kindAt_succ, hm, hc]

theorem atLineValue_cut (h : Cut ts us) : atLineValue 0 ts = atLineValue 0 us := by
  simp only [atLineValue, wordAt_cut h, kindAt_cut h (k := .string) (by decide) (by decide)]

instance : Steady (atKind k) := ⟨fun _ _ _ _ => rfl⟩

instance {ks : List Kind} : Steady (atAny ks) := ⟨fun _ _ _ _ => rfl⟩

instance : Steady (wordAt 0 w) := ⟨fun _ _ _ _ => rfl⟩

instance {q : Look} [hp : Steady p] [hq : Steady q] : Steady (fun ts => p ts && q ts) where
  steady t ts us h := by rw [hp.steady t ts us h, hq.steady t ts us h]

instance {q : Look} [hp : Steady p] [hq : Steady q] : Steady (fun ts => p ts || q ts) where
  steady t ts us h := by rw [hp.steady t ts us h, hq.steady t ts us h]

instance [hp : Steady p] : Steady (fun ts => !p ts) where
  steady t ts us h := by rw [hp.steady t ts us h]

instance : Steady (fun ts => decide (kindAt 0 ts = k)) := ⟨fun _ _ _ _ => rfl⟩

instance : Steady (fun ts => decide (kindAt 1 ts = .identifier)) :=
  ⟨fun _ _ _ h => kindAt_cut h (by decide) (by decide)⟩

instance : Steady (fun ts => decide (kindAt 1 ts = .lParen)) :=
  ⟨fun _ _ _ h => kindAt_cut h (by decide) (by decide)⟩

instance : Steady (fun ts => decide (kindAt 1 ts = .lBrace)) :=
  ⟨fun _ _ _ h => kindAt_cut h (by decide) (by decide)⟩

instance : Steady (fun ts => decide (kindAt 1 ts = .comma)) :=
  ⟨fun _ _ _ h => kindAt_cut h (by decide) (by decide)⟩

instance : Steady (fun ts => matcherOps.contains (kindAt 1 ts)) :=
  ⟨fun _ _ _ h => contains_cut matcherOps h (by decide) (by decide)⟩

instance : Steady (wordAt 1 w) := ⟨fun _ _ _ h => wordAt_cut h⟩

instance : Steady (atLineValue 1) := ⟨fun _ _ _ h => atLineValue_cut h⟩

instance : Steady (atLabelFilter 0) := ⟨fun t _ _ h => atLabelFilter_cut (.cons t h)⟩

instance : Steady (atLabelFilter 1) := ⟨fun _ _ _ h => atLabelFilter_cut h⟩

instance : Steady atLineFilter where
  steady t ts us h := by
    have hv := Steady.steady (p := atLineValue 1) t ts us h
    simp only [atLineFilter, kindAt_zero, hv]

instance : Steady atNextName := by
  unfold atNextName
  infer_instance

instance : Steady atOrValue := by
  unfold atOrValue
  infer_instance

instance : Steady atStage := by
  unfold atStage
  infer_instance

instance : Steady atGrouping := by
  unfold atGrouping
  infer_instance

instance : Advances (atKind k) bump := ⟨fun _ h => shorter_bump (atKind_ne_nil h)⟩

instance [NoLonger r] : Advances atNextName (andThen bump r) :=
  ⟨fun _ h => shorter_andThen (shorter_bump (atNextName_ne_nil h))⟩

instance (levels : Nat) : Advances atLineFilter (lineFilter levels) :=
  ⟨fun _ h => lineFilter_shorter levels h⟩

instance (levels : Nat) : Advances atStage (stage levels) := ⟨fun _ h => stage_shorter levels h⟩

instance [NoLonger r] : Advances (fun ts => kindAt 0 ts = .pipe && atLabelFilter 1 ts)
    (andThen bump r) where
  shorter ts h := by
    have hk : kindAt 0 ts = .pipe := by simp_all
    exact shorter_andThen (shorter_bump (kindAt_ne_nil hk (by decide)))

instance : Agrees matcher := by
  unfold matcher
  infer_instance

instance [Agrees r] [NoLonger r] : Agrees (commaList r) := by
  unfold commaList
  infer_instance

instance : Agrees selector := by
  unfold selector
  infer_instance

instance : Agrees lineValue := by
  unfold lineValue
  infer_instance

instance (levels : Nat) : Agrees (orFilter levels) := by
  induction levels with
  | zero => exact inferInstanceAs (Agrees refuse)
  | succ levels ih =>
    unfold orFilter
    infer_instance

instance (levels : Nat) : Agrees (lineFilter levels) := by
  unfold lineFilter
  infer_instance

instance (levels : Nat) : Agrees (lineFilters levels) := by
  unfold lineFilters
  infer_instance

instance (v k : Kind) : Agrees (comparison v k) := by
  unfold comparison
  infer_instance

instance : Agrees ipLabelFilter := by
  unfold ipLabelFilter
  infer_instance

instance : Agrees labelExtraction := by
  unfold labelExtraction
  infer_instance

instance : Agrees labelExtractions := by
  unfold labelExtractions
  infer_instance

instance : Agrees labelFormat := by
  unfold labelFormat
  infer_instance

instance : Agrees (labelChoice k) := by
  unfold labelChoice
  infer_instance

instance : Agrees range := by
  unfold range
  infer_instance

instance : Agrees offset := by
  unfold offset
  infer_instance

instance : Agrees grouping := by
  unfold grouping
  infer_instance

instance [Agrees r] : Agrees (arguments r) := by
  unfold arguments
  infer_instance

instance : Agrees parameter := by
  unfold parameter
  infer_instance

instance : Agrees boolModifier := by
  unfold boolModifier
  infer_instance

instance : Agrees literal := by
  unfold literal
  infer_instance

/-- A comparison by the kinds of its operator and value, and by whether an address follows. -/
def comparisonOf (op value : Kind) (address : Bool) : Rule := fun ts =>
  if (op = .eq || op = .neq) && address then ipLabelFilter ts
  else if matcherOps.contains op && !unitKinds.contains value then matcher ts
  else match value with
    | .duration => node .unitFilter (comparison .duration .durationFilter) ts
    | .bytes => node .unitFilter (comparison .bytes .bytesFilter) ts
    | _ => comparison .number .numberFilter ts

/-- Whether an address stands where a value may. -/
def atAddress : Look := fun ts => wordAt 0 .ip ts && kindAt 1 ts = .lParen

theorem labelComparison_eq (t : Token) (ts : List Token) : labelComparison (t :: ts) =
    comparisonOf (kindAt 0 ts) (kindAt 1 ts) (atAddress (ts.drop 1)) (t :: ts) := by
  cases ts with
  | nil => rfl
  | cons u ts =>
    simp only [labelComparison, comparisonOf, atAddress, Bool.and_assoc]
    rfl

instance (op value : Kind) (address : Bool) : Agrees (comparisonOf op value address) := by
  unfold comparisonOf
  split_ifs
  · infer_instance
  · infer_instance
  · split <;> infer_instance

/-- A rule that begins with taking a token has it as its first leaf. -/
theorem bump_leaves (rs : List Rule) (t : Token) (ts : List Token) :
    leavesAll (seq (bump :: rs) (t :: ts)).trees = t :: leavesAll (seq rs ts).trees := rfl

theorem comparison_leaves (v k : Kind) (t : Token) (ts : List Token) :
    leavesAll (comparison v k (t :: ts)).trees =
      t :: leavesAll (seq [bump, expect v] ts).trees := by
  rw [comparison, node, nodeBy_leaves]
  rfl

theorem comparisonOf_leaves (op value : Kind) (address : Bool) (t : Token) (ts : List Token) :
    [t] <+: leavesAll (comparisonOf op value address (t :: ts)).trees := by
  have hnode : ∀ k rs, [t] <+: leavesAll (node k (seq (bump :: rs)) (t :: ts)).trees := by
    intro k rs
    rw [node, nodeBy_leaves, bump_leaves]
    exact (List.prefix_cons_inj t).mpr List.nil_prefix
  unfold comparisonOf
  split_ifs
  · exact hnode _ _
  · exact hnode _ _
  · split
    · rw [node, nodeBy_leaves]
      exact hnode _ _
    · rw [node, nodeBy_leaves]
      exact hnode _ _
    · exact hnode _ _

theorem atAddress_cut (h : Cut ts us) : atAddress ts = atAddress us := by
  cases h with
  | last h back =>
    obtain ⟨hc, hd⟩ := alike_closers h
    have hn : ∀ k ∈ closers, k ≠ .identifier := by decide
    simp [atAddress, Token.spells, hn _ hc, hn _ hd]
  | cons t h =>
    exact Steady.steady (p := fun ts => wordAt 0 .ip ts && kindAt 1 ts = .lParen) t _ _ h

/-- A value that is another amount without what is behind the cut: two comparisons that begin with
the same name and operator. -/
theorem amount_agree {o : Token} (h : Cut ts us) (hl : kindAt 0 ts = .duration)
    (hr : kindAt 0 us = .number) :
    Agree (t :: o :: ts) (comparisonOf o.kind .duration false (t :: o :: ts))
      (comparisonOf o.kind .number false (t :: o :: us)) := by
  have hn : Nameless ts := by
    cases h with
    | last h back => exact nameless_closer h
    | cons u h =>
      rw [kindAt_zero] at hl hr
      rw [hl] at hr
      cases hr
  have htwo : ∀ v k vs, [t, o] <+: leavesAll (comparison v k (t :: o :: vs)).trees := by
    intro v k vs
    rw [comparison_leaves, bump_leaves]
    exact (List.prefix_cons_inj t).mpr ((List.prefix_cons_inj o).mpr List.nil_prefix)
  have hduration : comparisonOf o.kind .duration false (t :: o :: ts) =
      node .unitFilter (comparison .duration .durationFilter) (t :: o :: ts) := by
    simp [comparisonOf, unitKinds]
  have hnumber : comparisonOf o.kind .number false (t :: o :: us) =
      comparison .number .numberFilter (t :: o :: us) := by
    simp [comparisonOf, unitKinds]
  refine .past [t, o] ?_ ?_ hn
  · rw [hduration, node, nodeBy_leaves]
    exact htwo _ _ _
  · rw [hnumber]
    exact htwo _ _ _

instance : Agrees labelComparison where
  counts ts := by
    cases ts with
    | nil => rfl
    | cons t ts =>
      rw [labelComparison_eq]
      exact Agrees.counts (r := comparisonOf _ _ _) _
  agree t ts us h := by
    rw [labelComparison_eq, labelComparison_eq]
    cases h with
    | last h back =>
      exact .past [t] (comparisonOf_leaves _ _ _ t _) (comparisonOf_leaves _ _ _ t _)
        (nameless_closer h)
    | @cons o ts us h =>
      have ha : atAddress ((o :: ts).drop 1) = atAddress ((o :: us).drop 1) := atAddress_cut h
      rw [ha, kindAt_zero, kindAt_zero, kindAt_succ, kindAt_succ]
      rcases head_cut h with he | ⟨hl, hr⟩
      · rw [he]
        exact Agrees.agree t _ _ (.cons o h)
      · have hnone : atAddress ((o :: us).drop 1) = false := by
          cases us with
          | nil => rfl
          | cons u us =>
            have hu : u.kind = .number := hr
            simp [atAddress, Token.spells, hu]
        rw [hl, hr, hnone]
        exact amount_agree h hl hr

instance [Agrees r] : Agrees (labelOperand r) := by
  unfold labelOperand
  infer_instance

theorem labelJoin_joins (operand : Nat → Rule) (ho : ∀ n, Agrees (operand n))
    (hs : ∀ ts j, labelJoin ts = some j → Shorter (andThen j.mark (operand j.right)) ts) :
    Joins labelJoin operand where
  steady t ts us h := by
    have hl := Steady.steady (p := atLabelFilter 0) t ts us h
    have hl' := Steady.steady (p := atLabelFilter 1) t ts us h
    rw [labelJoin, labelJoin, hl, hl']
    rfl
  agrees ts j hj := by
    have hr := ho j.right
    unfold labelJoin at hj
    split_ifs at hj
    all_goals
      cases hj
      infer_instance
  shorter := hs

instance (levels least : Nat) : Agrees (labelFilter levels least) := by
  induction levels generalizing least with
  | zero => exact inferInstanceAs (Agrees refuse)
  | succ levels ih =>
    have hj := labelJoin_joins (fun right => orMissing .labelFilter (labelFilter levels right))
      (fun _ => inferInstance) fun ts j => labelJoin_shorter levels
    have hc : Agrees (chain (labelOperand (labelFilter levels 0)) labelJoin (.node .labelFilter)
        (fun right => orMissing .labelFilter (labelFilter levels right)) least) :=
      agrees_chain hj fun _ => rfl
    exact inferInstanceAs (Agrees (deepen _))

instance : Agrees jsonParser where
  counts ts := by
    unfold jsonParser
    exact Agrees.counts
      (r := node _ (seq [bumpWord .json, when (atKind .identifier) labelExtractions])) ts
  agree t ts us h := by
    have hk := atKind_cut (k := .identifier) h (by decide) (by decide)
    simp only [jsonParser, List.drop_succ_cons, List.drop_zero, hk]
    exact Agrees.agree
      (r := node _ (seq [bumpWord .json, when (atKind .identifier) labelExtractions])) t ts us h

theorem flags_cut (h : Cut ts us) : Cut (ts.dropWhile fun t => t.kind = .parserFlag)
    (us.dropWhile fun t => t.kind = .parserFlag) := by
  have hn : ∀ k ∈ closers, k ≠ .parserFlag := by decide
  induction h with
  | last h back =>
    obtain ⟨hc, hd⟩ := alike_closers h
    rw [List.dropWhile_cons_of_neg (by simpa using hn _ hc),
      List.dropWhile_cons_of_neg (by simpa using hn _ hd)]
    exact .last h back
  | cons t h ih =>
    by_cases ht : t.kind = .parserFlag
    · rw [List.dropWhile_cons_of_pos (by simpa using ht),
        List.dropWhile_cons_of_pos (by simpa using ht)]
      exact ih
    · rw [List.dropWhile_cons_of_neg (by simpa using ht),
        List.dropWhile_cons_of_neg (by simpa using ht)]
      exact .cons t h

theorem logfmtKind_cut (h : Cut ts us) : logfmtKind ts = logfmtKind us := by
  have hname := atKind_cut (k := .identifier) (flags_cut h) (by decide) (by decide)
  have hflag := atKind_cut (k := .parserFlag) h (by decide) (by decide)
  rw [logfmtKind, logfmtKind, hname, hflag]

instance : Agrees logfmtParser where
  counts ts := by
    unfold logfmtParser
    exact Agrees.counts (r := node _ (seq [bumpWord .logfmt, many (atKind .parserFlag) bump,
      when (atKind .identifier) labelExtractions])) ts
  agree t ts us h := by
    simp only [logfmtParser, List.drop_succ_cons, List.drop_zero, logfmtKind_cut h]
    exact Agrees.agree (r := node _ (seq [bumpWord .logfmt, many (atKind .parserFlag) bump,
      when (atKind .identifier) labelExtractions])) t ts us h

instance (w : Keyword) : Agrees (namedStage w) := by
  unfold namedStage stringStage bareStage labelFormats labelChoices
  split <;> infer_instance

instance : Agrees wordStage where
  counts ts := by
    cases ts with
    | nil => rfl
    | cons t ts =>
      simp only [wordStage]
      split
      · exact Agrees.counts _
      · exact Agrees.counts (r := node .error bump) _
  agree t ts us h := by
    simp only [wordStage]
    split
    · exact Agrees.agree t ts us h
    · exact Agrees.agree (r := node .error bump) t ts us h

instance (levels : Nat) : Agrees (stage levels) := by
  unfold stage
  infer_instance

instance (levels : Nat) : Agrees (pipeline levels) := by
  unfold pipeline
  infer_instance

instance (levels : Nat) : Agrees (logExpr levels) := by
  unfold logExpr
  infer_instance

/-- The conversion that a range is unwrapped with, where one is opened. -/
def conversion? : List Token → Option Keyword
  | t :: ⟨.lParen, _⟩ :: _ =>
    if t.kind = .identifier then Keyword.ofText? Keyword.conversions t.text else none
  | _ => none

theorem unwrapped_eq (ts : List Token) : unwrapped ts =
    match conversion? ts with
    | some w => seq [node .convOp (bumpWord w), bump, expect .identifier, expect .rParen] ts
    | none => expect .identifier ts := by
  rfl

theorem conversion_cut (t : Token) (h : Cut ts us) :
    conversion? (t :: ts) = conversion? (t :: us) := by
  have hnone : ∀ (c : Token) (vs : List Token), c.kind ∈ closers →
      conversion? (t :: c :: vs) = none := by
    intro c vs hc
    obtain ⟨k, x⟩ := c
    cases k with
    | lParen => exact absurd hc (show Kind.lParen ∉ closers by decide)
    | _ => rfl
  cases h with
  | last h back =>
    obtain ⟨hc, hd⟩ := alike_closers h
    rw [hnone _ _ hc, hnone _ _ hd]
  | cons u h =>
    obtain ⟨k, x⟩ := u
    cases k <;> rfl

instance : Agrees unwrapped where
  counts ts := by
    rw [unwrapped_eq]
    split
    · exact Agrees.counts _
    · exact Agrees.counts _
  agree t ts us h := by
    rw [unwrapped_eq, unwrapped_eq, conversion_cut t h]
    split
    · exact Agrees.agree t ts us h
    · exact Agrees.agree t ts us h

instance (levels : Nat) : Agrees (unwrap levels) := by
  unfold unwrap
  infer_instance

instance (levels : Nat) : Agrees (logRange levels) := by
  unfold logRange
  infer_instance

theorem call_agrees {inner : Rule} [Agrees inner] {levels : Nat} {name : Text}
    (h : call? levels inner name = some r) : Agrees r := by
  unfold call? at h
  split at h
  · cases h
    unfold rangeAggregation
    infer_instance
  · split at h
    · cases h
      unfold vectorAggregation
      infer_instance
    · split at h
      · cases h
        unfold vectorLiteral
        infer_instance
      · cases h

instance [Agrees r] : Agrees (parentheses r) := by
  unfold parentheses
  infer_instance

/-- What a token opens, if it opens an operand. A sign does in front of a number. -/
def operandOf (levels : Nat) (inner : Rule) (t : Token) (signed : Bool) : Rule :=
  match t.kind with
  | .lBrace => node .expr (logExpr levels)
  | .lParen => node .expr (parentheses inner)
  | .number => node .expr literal
  | .add | .sub => if signed then node .expr literal else nothing
  | .identifier =>
    match call? levels inner t.text with
    | some r => node .expr (node .metricExpr r)
    | none => nothing
  | _ => nothing

theorem operand_eq (levels : Nat) (inner : Rule) (t : Token) (ts : List Token) :
    operand levels inner (t :: ts) =
      operandOf levels inner t (atKind .number ts) (t :: ts) := by
  obtain ⟨k, x⟩ := t
  cases k with
  | add | sub =>
    simp only [operand, operandOf, when]
    split <;> rfl
  | identifier =>
    simp only [operand, operandOf]
    cases call? levels inner x <;> rfl
  | _ => rfl

instance {inner : Rule} {levels : Nat} {signed : Bool} [Agrees inner] :
    Agrees (operandOf levels inner t signed) := by
  unfold operandOf
  split
  · infer_instance
  · infer_instance
  · infer_instance
  · split <;> infer_instance
  · split <;> infer_instance
  · split
    · next hr =>
      have := call_agrees hr
      infer_instance
    · infer_instance
  · infer_instance

instance {inner : Rule} {levels : Nat} [Agrees inner] : Agrees (operand levels inner) where
  counts ts := by
    cases ts with
    | nil => rfl
    | cons t ts =>
      rw [operand_eq]
      exact Agrees.counts _
  agree t ts us h := by
    rw [operand_eq, operand_eq]
    cases h with
    | cons u h => exact Agrees.agree (r := operandOf _ _ _ _) t _ _ (.cons u h)
    | @last c d h back =>
      by_cases ht : t.kind = .identifier
      · have hsigned : ∀ s, operandOf levels inner t s = operandOf levels inner t false := by
          intro s
          simp [operandOf, ht]
        rw [hsigned, hsigned (atKind .number (d :: back))]
        exact Agrees.agree t _ _ (.last h back)
      · refine agree_nameless fun u hu => ?_
        rcases List.mem_cons.mp hu with rfl | hu
        · exact ht
        · exact nameless_closer h u hu

theorem binaryJoin_joins (operand : Nat → Rule) (ho : ∀ n, Agrees (operand n))
    (hs : ∀ ts j, binaryJoin ts = some j → Shorter (andThen j.mark (operand j.right)) ts) :
    Joins binaryJoin operand where
  steady t ts us h := rfl
  agrees ts j hj := by
    have hr := ho j.right
    obtain ⟨-, k, hm⟩ := binaryJoin_mark hj
    rw [hm]
    infer_instance
  shorter := hs

instance (levels least : Nat) : Agrees (expr levels least) := by
  induction levels generalizing least with
  | zero => exact inferInstanceAs (Agrees refuse)
  | succ levels ih =>
    have hj := binaryJoin_joins (fun right => orMissing .expr (expr levels right))
      (fun _ => inferInstance) fun ts j => binaryJoin_shorter levels
    have hw : ∀ cs, (binary cs).leaves = leavesAll cs := by
      intro cs
      simp [binary, Tree.leaves, leavesAll]
    have hc : Agrees (chain (operand levels (expr levels 0)) binaryJoin binary
        (fun right => orMissing .expr (expr levels right)) least) := agrees_chain hj hw
    exact inferInstanceAs (Agrees (deepen _))

/-- An expression, which must be there if there are no tokens behind it. -/
def leading (levels : Nat) : Rule := fun ts =>
  let f := expr levels 0 ts
  if f.rest.isEmpty then f.orMissing .expr else f

theorem leading_rest (levels : Nat) (ts : List Token) :
    (leading levels ts).rest = (expr levels 0 ts).rest := by
  simp only [leading]
  split
  · exact orMissing_rest .expr _
  · rfl

theorem leading_leaves (levels : Nat) (ts : List Token) :
    leavesAll (leading levels ts).trees = leavesAll (expr levels 0 ts).trees := by
  simp only [leading]
  split
  · exact orMissing_leaves .expr _
  · rfl

theorem leading_counts (levels : Nat) (ts : List Token) :
    (leading levels ts).rest = ts.drop (leavesAll (leading levels ts).trees).length := by
  rw [leading_rest, leading_leaves]
  exact Agrees.counts ts

theorem leading_agree (levels : Nat) (h : Cut ts us) :
    Agree ts (leading levels ts) (leading levels us) := by
  cases agree_cut (r := expr levels 0) h with
  | ahead ht hr =>
    refine .ahead ?_ ?_
    · have hl : (expr levels 0 ts).rest.isEmpty = false := by simpa using (cut_ne_nil hr).1
      have hu : (expr levels 0 us).rest.isEmpty = false := by simpa using (cut_ne_nil hr).2
      simp only [leading, hl, hu]
      exact ht
    · rwa [leading_rest, leading_rest]
  | past ls hl hr hn =>
    exact .past ls (by rwa [leading_leaves]) (by rwa [leading_leaves]) hn

/-- Cut off behind a value, a query keeps its leaves up to a place from where there are no names
ahead of the cut. -/
theorem contents_cut (levels : Nat) (h : Cut ts us) :
    ∃ ls, ls <+: leavesAll (contents levels ts).trees ∧
      ls <+: leavesAll (contents levels us).trees ∧ Nameless (ts.drop ls.length) := by
  have hrest : ∀ vs, (contents levels vs).rest = [] := fun vs => skipUntil_nil_rest _
  have hall : Agree ts (contents levels ts) (contents levels us) :=
    followed_agree (leading_agree levels h) (leading_counts levels ts) fun hc =>
      skipUntil_agree [] hc
  cases hall with
  | ahead _ hr =>
    rw [hrest] at hr
    exact absurd rfl (cut_ne_nil hr).1
  | past ls hl hr hn => exact ⟨ls, hl, hr, hn⟩

end LogQuery.Grammar
