import LogQuery.Proofs.Grammar.Placed
import LogQuery.Proofs.Grammar.Spares

/-! Label filters with a line filter behind them. They leave it: none of them ends in a name that
its sign would belong to. -/
namespace LogQuery.Grammar

open LogQuery.Tree (AllFlawless)

variable {l : LineTest} {k : Kind} {ts us : List Token} {t lhs : Tree} {r : Rule} {w : Keyword}
  {levels least : Nat} {j : Join}

/-- A line filter whose sign also compares labels. -/
def Compares (l : LineTest) : Prop := l.op.val ∈ [.neq, .nre]

theorem mem_operators (l : LineTest) :
    (matcherOps.contains l.op.val || comparisonOps.contains l.op.val) = true ↔ Compares l := by
  have h : ∀ k ∈ lineOps, (matcherOps.contains k || comparisonOps.contains k) = true ↔
      k ∈ [Kind.neq, .nre] := by decide
  exact h l.op.val l.op.property

/-- A line filter opens a label filter just behind a name, if its sign compares labels. -/
theorem atLabelFilter_line (l : LineTest) (us : List Token) :
    atLabelFilter 0 (us ++ l.tokens) = atLabelFilter 0 us ∨
      ∃ x : Token, us = [x] ∧ x.kind = .identifier ∧ Compares l := by
  rcases us with _ | ⟨x, _ | ⟨y, us⟩⟩
  · exact Or.inl (stageEnd_atLabelFilter (by simpa using atStageEnd_line l []))
  · by_cases hx : x.kind = .identifier
    · have hlong : atLabelFilter 0 ([x] ++ l.tokens) =
          (matcherOps.contains l.op.val || comparisonOps.contains l.op.val) := by
        simp only [atLabelFilter, List.cons_append, kindAt_zero, hx]
        rfl
      have hshort : atLabelFilter 0 [x] = false := by
        simp only [atLabelFilter, kindAt_zero, hx]
        rfl
      rw [hlong, hshort]
      cases ho : matcherOps.contains l.op.val || comparisonOps.contains l.op.val with
      | false => exact Or.inl rfl
      | true => exact Or.inr ⟨x, rfl, hx, (mem_operators l).mp ho⟩
    · refine Or.inl ?_
      have hk : kindAt 0 ([x] ++ l.tokens) = x.kind := rfl
      unfold atLabelFilter
      rw [hk, kindAt_zero]
      split <;> simp_all
  · exact Or.inl rfl

theorem atLabelFilter_mono (l : LineTest) (h : atLabelFilter 0 us = true) :
    atLabelFilter 0 (us ++ l.tokens) = true := by
  rcases atLabelFilter_line l us with he | ⟨x, rfl, hx, -⟩
  · rw [he, h]
  · simp only [atLabelFilter, kindAt_zero, hx] at h
    cases h

/-- Behind some tokens a line filter joins nothing more to a label filter in front of them. -/
def Unjoined (l : LineTest) (us : List Token) : Prop := labelJoin (us ++ l.tokens) = labelJoin us

theorem unjoined_of_end (l : LineTest) (h : AtStageEnd us) : Unjoined l us := by
  have hlong : AtStageEnd (us ++ l.tokens) := by
    cases us with
    | nil => simpa using atStageEnd_line l []
    | cons u us => exact h
  rw [Unjoined, stageEnd_labelJoin h, stageEnd_labelJoin hlong]

theorem atLabelFilter_name {x : Token} (hx : x.kind = .identifier) :
    atLabelFilter 0 [x] = false := by
  simp only [atLabelFilter, kindAt_zero, hx]
  rfl

theorem atLabelFilter_names {u x : Token} (hx : x.kind = .identifier) (ts : List Token) :
    atLabelFilter 0 (u :: x :: ts) = decide (u.kind = .lParen) := by
  have hk : kindAt 1 (u :: x :: ts) = .identifier := hx
  unfold atLabelFilter
  rw [kindAt_zero, hk]
  split
  · next h => rw [h]; rfl
  · next h => rw [h]; rfl
  · next h _ => exact (decide_eq_false h).symm

/-- What is joined without the line filter is joined in the same way with it. -/
theorem unjoined_of_some (l : LineTest) (h : labelJoin us = some j) : Unjoined l us := by
  cases us with
  | nil => cases h
  | cons u us =>
    have hw : ∀ w, wordAt 0 w (u :: us ++ l.tokens) = u.spells w := fun _ => rfl
    have hk : kindAt 0 (u :: us ++ l.tokens) = u.kind := rfl
    have hnext : atLabelFilter 1 (u :: us ++ l.tokens) = atLabelFilter 0 (us ++ l.tokens) := rfl
    have hnext' : atLabelFilter 1 (u :: us) = atLabelFilter 0 us := rfl
    simp only [labelJoin, wordAt_zero, kindAt_zero, hnext'] at h
    rw [Unjoined, labelJoin, labelJoin, hw, hw, hk, hnext, hnext', wordAt_zero, wordAt_zero,
      kindAt_zero]
    rcases atLabelFilter_line l (u :: us) with h0 | ⟨x, hx, hxk, -⟩
    · rcases atLabelFilter_line l us with h1 | ⟨x, rfl, hxk, -⟩
      · rw [h0, h1]
      · -- Only a bracket is joined just ahead of a name.
        rw [atLabelFilter_name hxk, atLabelFilter_names hxk] at h
        rw [h0, atLabelFilter_names hxk]
        have hu : u.kind = .lParen := by
          by_contra hu
          simp [hu] at h
        simp [Token.spells, hu]
    · obtain ⟨rfl, rfl⟩ := List.cons.inj hx
      rw [atLabelFilter_name hxk] at h
      simp [atLabelFilter] at h

instance (op value : Kind) (address : Bool) : Spares l (comparisonOf op value address) := by
  unfold comparisonOf
  split_ifs
  · infer_instance
  · infer_instance
  · split <;> infer_instance

theorem comparison_flawed (v k : Kind) (x o : Token) :
    ¬ AllFlawless (comparison v k [x]).trees ∧ ¬ AllFlawless (comparison v k [x, o]).trees := by
  have hone : (comparison v k [x]).trees = [.node k [.ofToken x, .node .error []]] := rfl
  have htwo : (comparison v k [x, o]).trees =
      [.node k [.ofToken x, .ofToken o, .node .error []]] := rfl
  simp [hone, htwo]

theorem matcher_flawed (x o : Token) :
    ¬ AllFlawless (matcher [x]).trees ∧ ¬ AllFlawless (matcher [x, o]).trees := by
  have hone : (matcher [x]).trees =
      [.node .matcher [.ofToken x, .node .error [], .node .error []]] := rfl
  refine ⟨by simp [hone], ?_⟩
  cases ho : atAny matcherOps [o] <;>
    simp [matcher, node, nodeBy, seq, andThen, Found.followed, either, ho, bump, missing, when,
      expect, atKind, nothing]

/-- A comparison has a value. -/
theorem comparisonOf_flawed (op value : Kind) (x o : Token) :
    ¬ AllFlawless (comparisonOf op value false [x]).trees ∧
      ¬ AllFlawless (comparisonOf op value false [x, o]).trees := by
  have hunit : ∀ v k ts, AllFlawless (node .unitFilter (comparison v k) ts).trees →
      AllFlawless (comparison v k ts).trees := by
    intro v k ts h
    simpa [node, nodeBy] using h
  simp only [comparisonOf, Bool.and_false, Bool.false_eq_true, if_false]
  split
  · exact matcher_flawed x o
  · split
    · exact ⟨fun h => (comparison_flawed _ _ x o).1 (hunit _ _ _ h),
        fun h => (comparison_flawed _ _ x o).2 (hunit _ _ _ h)⟩
    · exact ⟨fun h => (comparison_flawed _ _ x o).1 (hunit _ _ _ h),
        fun h => (comparison_flawed _ _ x o).2 (hunit _ _ _ h)⟩
    · exact comparison_flawed _ _ x o

instance : Spares l labelComparison where
  spares ts hn h := by
    rcases ts with _ | ⟨x, _ | ⟨o, _ | ⟨v, ts⟩⟩⟩
    · exact (hn rfl).elim
    · rw [labelComparison_eq] at h
      exact ((comparisonOf_flawed _ _ x x).1 h).elim
    · rw [labelComparison_eq] at h
      exact ((comparisonOf_flawed _ _ x o).2 h).elim
    · have ha : atAddress (v :: ts ++ l.tokens) = atAddress (v :: ts) :=
        Firm.firm (p := fun ts => wordAt 0 .ip ts && kindAt 1 ts = .lParen) v ts
      rw [labelComparison_eq] at h ⊢
      have hs := Spares.spares (l := l) _ (List.cons_ne_nil x _) h
      rw [List.cons_append, labelComparison_eq]
      simp only [List.cons_append, List.drop_one, List.tail_cons] at ha hs ⊢
      rw [ha]
      exact hs

theorem labelOperand_one (h : atLabelFilter 0 ts = true) :
    ∃ t, (labelOperand r ts).trees = [t] := by
  unfold labelOperand either
  split
  · exact ⟨_, rfl⟩
  · rw [when_takes h]
    exact ⟨_, rfl⟩

theorem labelFilter_opens (h : (labelFilter levels least ts).trees = [t])
    (hk : t.kind = .labelFilter) : atLabelFilter 0 ts = true := by
  by_contra hl
  have hl : atLabelFilter 0 ts = false := by simpa using hl
  cases levels with
  | zero =>
    cases ts with
    | nil => cases h
    | cons u us =>
      obtain ⟨cs, hr⟩ : ∃ cs, (refuse (u :: us)).trees = [.node .error cs] := ⟨_, rfl⟩
      rw [labelFilter, hr] at h
      obtain ⟨rfl, -⟩ := List.cons.inj h
      cases hk
  | succ levels =>
    rw [labelFilter_succ, deepen, labelChain, chain, labelOperand_nothing hl] at h
    cases h

theorem labelJoin_opens (l : LineTest) (h : labelJoin ts = some j) :
    Spared l (j.mark ts) (j.mark (ts ++ l.tokens)) ∧ atLabelFilter 0 (j.mark ts).rest = true := by
  cases ts with
  | nil => cases h
  | cons t us =>
    unfold labelJoin at h
    split_ifs at h with ho ha hc hb
    · cases h
      exact ⟨⟨rfl, rfl⟩, (Bool.and_eq_true_iff.mp ho).2⟩
    · cases h
      exact ⟨⟨rfl, rfl⟩, (Bool.and_eq_true_iff.mp ha).2⟩
    · cases h
      exact ⟨⟨rfl, rfl⟩, (Bool.and_eq_true_iff.mp hc).2⟩
    · cases h
      exact ⟨⟨rfl, rfl⟩, hb⟩

/-- A rule for label filters that leaves a line filter which joins nothing behind them. -/
def SparesLabels (l : LineTest) (levels : Nat) : Prop :=
  ∀ least ts, atLabelFilter 0 ts = true → AllFlawless (labelFilter levels least ts).trees →
    Unjoined l (labelFilter levels least ts).rest →
      Spared l (labelFilter levels least ts) (labelFilter levels least (ts ++ l.tokens))

/-- What is joined to a label filter leaves the line filter. Each operand ends where more is joined,
or where all ends. -/
theorem labelJoined_spared (hi : SparesLabels l levels) (least : Nat) (lhs : Tree)
    (ts : List Token) (hf : AllFlawless (labelJoined levels least lhs ts).trees)
    (hu : Unjoined l (labelJoined levels least lhs ts).rest) :
    lhs.Flawless ∧ Spared l (labelJoined levels least lhs ts)
      (labelJoined levels least lhs (ts ++ l.tokens)) := by
  induction hn : ts.length using Nat.strong_induction_on generalizing lhs ts with
  | _ n ih =>
    subst hn
    have hshort : ∀ ts j, labelJoin ts = some j → Shorter (andThen j.mark
        (orMissing .labelFilter (labelFilter levels j.right))) ts := fun _ _ =>
      labelJoin_shorter levels
    unfold labelJoined at hf hu ih ⊢
    cases hj : labelJoin ts with
    | none =>
      rw [joined_of_none hj] at hf hu ⊢
      rw [joined_of_none (hu.trans hj)]
      exact ⟨(Tree.allFlawless_cons.mp hf).1, rfl, rfl⟩
    | some j =>
      have hlong : labelJoin (ts ++ l.tokens) = some j := (unjoined_of_some l hj).trans hj
      by_cases hl : j.left < least
      · rw [joined_of_weak hj hl] at hf hu ⊢
        rw [joined_of_weak hlong hl]
        exact ⟨(Tree.allFlawless_cons.mp hf).1, rfl, rfl⟩
      · have hle := Nat.not_lt.mp hl
        rw [joined_eq hshort hj hle] at hf hu ⊢
        rw [joined_eq hshort hlong hle]
        obtain ⟨hmark, hopens⟩ := labelJoin_opens l hj
        have hrest :
            (andThen j.mark (orMissing .labelFilter (labelFilter levels j.right)) ts).rest =
              (labelFilter levels j.right (j.mark ts).rest).rest := orMissing_rest _ _
        generalize hfound : andThen j.mark (orMissing .labelFilter (labelFilter levels j.right)) ts =
          f at hf hu hrest ⊢
        have hshorter : f.rest.length < ts.length := hfound ▸ hshort ts j hj
        obtain ⟨hwrap, hmore⟩ := ih _ hshorter _ _ hf hu rfl
        obtain ⟨hlhs, hright⟩ := Tree.allFlawless_cons.mp (Tree.flawless_node.mp hwrap).2
        have hend : Unjoined l f.rest := by
          cases hk : labelJoin f.rest with
          | none =>
            rw [Found.absorbed, joined_of_none hk] at hu
            exact hu
          | some _ => exact unjoined_of_some l hk
        rw [← hfound] at hright
        have hspared := andThen_spared (fun _ => hmark) (orMissing_spared fun hinner =>
          hi j.right _ hopens hinner (hrest ▸ hend)) hright
        rw [hfound] at hspared
        rw [hspared.trees, hspared.rest]
        exact ⟨hlhs, hmore.trees, hmore.rest⟩

theorem expect_flawless (h : AllFlawless (expect k ts).trees) : atKind k ts = true := by
  by_contra hk
  rw [expect, either_skips (by simpa using hk)] at h
  exact missing_flawed ts h

theorem labelOperand_spared (hi : SparesLabels l levels) (ho : atLabelFilter 0 ts = true)
    (hf : AllFlawless (labelOperand (labelFilter levels 0) ts).trees) :
    Spared l (labelOperand (labelFilter levels 0) ts)
      (labelOperand (labelFilter levels 0) (ts ++ l.tokens)) := by
  obtain ⟨t, us, rfl⟩ := List.exists_cons_of_ne_nil (atLabelFilter_ne_nil ho)
  have hlook : atKind .lParen (t :: us ++ l.tokens) = atKind .lParen (t :: us) := rfl
  unfold labelOperand either at hf ⊢
  rw [hlook]
  split at hf
  · next hp =>
    rw [if_pos hp, if_pos hp]
    refine node_spared (fun hcs => ?_) hf
    -- What is in the brackets ends at the closing one.
    have hparts := Tree.allFlawless_append.mp (Tree.allFlawless_append.mp hcs).2
    have hclose : atKind .rParen (labelFilter levels 0 us).rest = true := by
      have h := expect_flawless (Tree.allFlawless_append.mp hparts.2).1
      rwa [orMissing, orMissing_rest] at h
    have hend : AtStageEnd (labelFilter levels 0 us).rest := by
      obtain ⟨c, vs, hc, hk⟩ := atKind_cons hclose
      rw [hc, AtStageEnd, kindAt_zero, hk]
      decide
    obtain ⟨c, hc, hk⟩ := makes_single (orMissing_made hparts.1).1
    have hopens := labelFilter_opens hc hk
    refine andThen_spared (fun _ => ⟨rfl, rfl⟩) (andThen_spared ?_ (spared_all _)) hcs
    exact orMissing_spared fun hinner => hi 0 us hopens hinner (unjoined_of_end l hend)
  · next hp =>
    rw [if_neg hp, if_neg hp, when_takes (atLabelFilter_mono l ho)]
    rw [when_takes ho] at hf ⊢
    exact Spares.spares _ (List.cons_ne_nil t us) hf

theorem labelFilter_spared (l : LineTest) (levels : Nat) : SparesLabels l levels := by
  induction levels with
  | zero =>
    exact fun least ts ho hf _ => Spares.spares (r := refuse) ts (atLabelFilter_ne_nil ho) hf
  | succ levels ih =>
    intro least ts ho hf hu
    have hsame : ∀ ts, atLabelFilter 0 ts = true → ∃ lhs,
        (labelOperand (labelFilter levels 0) ts).trees = [lhs] ∧
          (labelFilter (levels + 1) least ts).trees = (labelJoined levels least lhs
            (labelOperand (labelFilter levels 0) ts).rest).trees ∧
          (labelFilter (levels + 1) least ts).rest = (labelJoined levels least lhs
            (labelOperand (labelFilter levels 0) ts).rest).rest := by
      intro ts ho
      obtain ⟨lhs, hlhs⟩ := labelOperand_one (r := labelFilter levels 0) ho
      refine ⟨lhs, hlhs, ?_⟩
      rw [labelFilter_succ, deepen, labelChain, chain]
      simp only [hlhs]
      exact ⟨rfl, rfl⟩
    obtain ⟨lhs, hlhs, htrees, hrest⟩ := hsame ts ho
    obtain ⟨lhs', hlhs', htrees', hrest'⟩ := hsame _ (atLabelFilter_mono l ho)
    rw [htrees] at hf
    rw [hrest] at hu
    obtain ⟨hflawless, hjoined⟩ := labelJoined_spared ih least lhs _ hf hu
    have hfirst := labelOperand_spared ih ho (by simpa [hlhs] using hflawless)
    rw [hfirst.trees, hlhs] at hlhs'
    obtain rfl := (List.cons.inj hlhs').1
    constructor
    · rw [htrees', htrees, hfirst.rest, hjoined.trees]
    · rw [hrest', hrest, hfirst.rest, hjoined.rest]

end LogQuery.Grammar
