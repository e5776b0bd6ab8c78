import LogQuery.Proofs.Grammar.Spared

/-! Stages with a line filter behind them. They leave it, unless they end in a name that its sign
would belong to. -/
namespace LogQuery.Grammar

open LogQuery.Tree (AllFlawless)

variable {l : LineTest} {k : Kind} {ts us : List Token} {levels : Nat} {w : Keyword}

instance : Spares l jsonParser where
  spares ts hn h := by
    obtain ⟨t, us, rfl⟩ := List.exists_cons_of_ne_nil hn
    have hk := atKind_line l (k := .identifier) (by decide) us
    simp only [jsonParser, List.cons_append, List.drop_succ_cons, List.drop_zero, hk] at h ⊢
    exact Spares.spares
      (r := node _ (seq [bumpWord .json, when (atKind .identifier) labelExtractions])) _ hn h

theorem flags_line (l : LineTest) (us : List Token) :
    (us ++ l.tokens).dropWhile (fun t => t.kind = .parserFlag) =
      us.dropWhile (fun t => t.kind = .parserFlag) ++ l.tokens := by
  induction us with
  | nil =>
    have hop : l.op.token.kind ≠ .parserFlag := line_ne l (by decide)
    exact List.dropWhile_cons_of_neg (by simpa using hop)
  | cons u us ih =>
    by_cases hu : u.kind = .parserFlag
    · rw [List.cons_append, List.dropWhile_cons_of_pos (by simpa using hu),
        List.dropWhile_cons_of_pos (by simpa using hu), ih]
    · rw [List.cons_append, List.dropWhile_cons_of_neg (by simpa using hu),
        List.dropWhile_cons_of_neg (by simpa using hu), List.cons_append]

theorem logfmtKind_line (l : LineTest) (us : List Token) :
    logfmtKind (us ++ l.tokens) = logfmtKind us := by
  rw [logfmtKind, logfmtKind, flags_line, atKind_line l (by decide), atKind_line l (by decide)]

instance : Spares l logfmtParser where
  spares ts hn h := by
    obtain ⟨t, us, rfl⟩ := List.exists_cons_of_ne_nil hn
    simp only [logfmtParser, List.cons_append, List.drop_succ_cons, List.drop_zero,
      logfmtKind_line] at h ⊢
    exact Spares.spares (r := node _ (seq [bumpWord .logfmt, many (atKind .parserFlag) bump,
      when (atKind .identifier) labelExtractions])) _ hn h

/-- No name at the end of some tokens waits for the sign of a line filter. -/
def Sealed (l : LineTest) (ts : List Token) : Prop :=
  Compares l → ∀ x ∈ ts.getLast?, x.kind ≠ .identifier

theorem sealed_drop (ts : List Token) (n : Nat) (h : Sealed l ts) : Sealed l (ts.drop n) := by
  intro hc x hx
  rw [List.getLast?_drop] at hx
  split at hx
  · cases hx
  · exact h hc x hx

/-- A label in a list, where it is not the name at the end. -/
theorem labelChoice_spared (hn : ts ≠ []) (hs : Sealed l ts ∨ (labelChoice k ts).rest ≠ [])
    (hf : AllFlawless (labelChoice k ts).trees) :
    Spared l (labelChoice k ts) (labelChoice k (ts ++ l.tokens)) := by
  obtain ⟨t, us, rfl⟩ := List.exists_cons_of_ne_nil hn
  have hlook : (kindAt 0 (t :: us ++ l.tokens) = .identifier &&
      matcherOps.contains (kindAt 1 (t :: us ++ l.tokens))) =
        (kindAt 0 (t :: us) = .identifier && matcherOps.contains (kindAt 1 (t :: us))) := by
    cases us with
    | cons u us => rfl
    | nil =>
      have hop : matcherOps.contains (kindAt 1 ([t] ++ l.tokens)) = true ↔ Compares l := by
        have h : ∀ k ∈ lineOps, matcherOps.contains k = true ↔ k ∈ [Kind.neq, .nre] := by decide
        exact h l.op.val l.op.property
      have hend : matcherOps.contains (kindAt 1 [t]) = false := rfl
      have hk : kindAt 0 ([t] ++ l.tokens) = t.kind := rfl
      rw [hend, Bool.and_false, hk, Bool.and_eq_false_iff, decide_eq_false_iff_not]
      by_contra hnot
      rw [not_or, Bool.not_eq_false, Classical.not_not] at hnot
      obtain ⟨hname, hcompares⟩ := hnot
      rcases hs with hs | hs
      · exact hs (hop.mp hcompares) t rfl hname
      · refine hs ?_
        simp [labelChoice, node, nodeBy, either, kindAt, expect, atKind, hname, bump, matcherOps]
  unfold labelChoice at hf ⊢
  refine node_spared (fun hcs => ?_) hf
  unfold either at hcs ⊢
  simp only [hlook]
  split
  · next hp =>
    rw [if_pos hp] at hcs
    exact Spares.spares _ hn hcs
  · next hp =>
    rw [if_neg hp] at hcs
    exact Spares.spares _ hn hcs

instance : Lacks (labelChoice k) where
  lacks h := by
    have hc : (labelChoice k []).trees = [.node k [.node .error []]] := rfl
    simp [hc] at h

theorem labelChoices_spared {s i : Kind} (hn : ts ≠ [])
    (hs : Sealed l ts ∨ (labelChoices w s k i ts).rest ≠ [])
    (hf : AllFlawless (labelChoices w s k i ts).trees) :
    Spared l (labelChoices w s k i ts) (labelChoices w s k i (ts ++ l.tokens)) := by
  obtain ⟨t, us, rfl⟩ := List.exists_cons_of_ne_nil hn
  refine node_spared (andThen_spared (fun _ => ⟨rfl, rfl⟩)
    (andThen_spared (node_spared fun hlist => ?_) (spared_all _))) hf
  have hus : us ≠ [] := by
    rintro rfl
    exact Lacks.lacks hlist
  refine commaList_spared sealed_drop (fun vs hv => labelChoice_spared hv) hus ?_ hlist
  exact hs.imp (sealed_drop _ 1) id

/-- Stages that may end in a name to which an operator behind it would belong. -/
def openStages : List Kind := [.labelParser, .decolorizeExpr, .dropLabelsExpr, .keepLabelsExpr]

/-- Nothing keeps a line filter from what a rule found: no name is at the end, or the end is not
reached, or the stage does not compare its names. -/
def Free (l : LineTest) (ts : List Token) (f : Found) : Prop :=
  Sealed l ts ∨ f.rest ≠ [] ∨ ∀ s ∈ f.trees, s.kind ∉ openStages

theorem namedStage_spares (l : LineTest) (hd : w ≠ .drop) (hk : w ≠ .keep) :
    Spares l (namedStage w) := by
  unfold namedStage
  split
  case h_8 => exact (hd rfl).elim
  case h_9 => exact (hk rfl).elim
  all_goals infer_instance

theorem namedStage_spared (w : Keyword) (hn : ts ≠ []) (hs : Free l ts (namedStage w ts))
    (hf : AllFlawless (namedStage w ts).trees) :
    Spared l (namedStage w ts) (namedStage w (ts ++ l.tokens)) := by
  have hchoices : (∃ s ∈ (namedStage w ts).trees, s.kind ∈ openStages) →
      Sealed l ts ∨ (namedStage w ts).rest ≠ [] := by
    rintro ⟨s, hs', hopen⟩
    exact hs.imp id fun h => h.resolve_right fun hnone => hnone s hs' hopen
  by_cases hd : w = .drop
  · subst hd
    exact labelChoices_spared hn (hchoices ⟨_, .head _, .tail _ (.tail _ (.head _))⟩) hf
  · by_cases hk : w = .keep
    · subst hk
      exact labelChoices_spared hn
        (hchoices ⟨_, .head _, .tail _ (.tail _ (.tail _ (.head _)))⟩) hf
    · exact (namedStage_spares l hd hk).spares ts hn hf

theorem stringStage_flawed (k : Kind) (w : Keyword) (x : Token) :
    ¬ AllFlawless (stringStage k w [x]).trees := by
  have ht : (stringStage k w [x]).trees =
      [.node k [.leaf (.keyword w) x.text, .node .error []]] := rfl
  simp [ht]

theorem labelChoices_flawed (w : Keyword) (s k i : Kind) (x : Token) :
    ¬ AllFlawless (labelChoices w s k i [x]).trees := by
  have ht : (labelChoices w s k i [x]).trees =
      [.node s [.leaf (.keyword w) x.text, .node k [.node i [.node .error []]]]] := rfl
  simp [ht]

/-- A word that is a stage alone is one that may end it. -/
theorem namedStage_alone (w : Keyword) (x : Token) (hf : AllFlawless (namedStage w [x]).trees) :
    (namedStage w [x]).rest = [] ∧ ∃ s ∈ (namedStage w [x]).trees, s.kind ∈ openStages := by
  unfold namedStage at hf ⊢
  split at hf
  · exact ⟨rfl, _, .head _, .head _⟩
  · exact ⟨rfl, _, .head _, .head _⟩
  · exact (stringStage_flawed _ _ x hf).elim
  · exact (stringStage_flawed _ _ x hf).elim
  · exact ⟨rfl, _, .head _, .head _⟩
  · exact (stringStage_flawed _ _ x hf).elim
  · have ht : (labelFormats [x]).trees = [.node .labelFormatExpr
        [.leaf (.keyword .labelFormat) x.text, .node .labelsFormat [.node .labelFormatMatcher
          [.node .error [], .node .error [], .node .error []]]]] := rfl
    simp [ht] at hf
  · exact (labelChoices_flawed _ _ _ _ x hf).elim
  · exact (labelChoices_flawed _ _ _ _ x hf).elim
  · exact ⟨rfl, _, .head _, .tail _ (.head _)⟩
  · simp [node, nodeBy] at hf

/-- A name after a bar opens the stage of a word, or is an error. -/
theorem wordStage_word (t : Token) (hf : AllFlawless (wordStage (t :: us)).trees) :
    ∃ w, ∀ vs, wordStage (t :: vs) = namedStage w (t :: vs) := by
  cases hw : Keyword.ofText? Keyword.clauses t.text with
  | some w => exact ⟨w, fun vs => by simp only [wordStage, hw]⟩
  | none =>
    simp only [wordStage, hw] at hf
    simp [node, nodeBy] at hf

theorem wordStage_alone (x : Token) (hf : AllFlawless (wordStage [x]).trees) :
    (wordStage [x]).rest = [] ∧ ∃ s ∈ (wordStage [x]).trees, s.kind ∈ openStages := by
  obtain ⟨w, hw⟩ := wordStage_word x hf
  rw [hw] at hf ⊢
  exact namedStage_alone w x hf

theorem wordStage_spared (hs : Free l ts (wordStage ts)) (hn : ts ≠ [])
    (hf : AllFlawless (wordStage ts).trees) :
    Spared l (wordStage ts) (wordStage (ts ++ l.tokens)) := by
  obtain ⟨t, us, rfl⟩ := List.exists_cons_of_ne_nil hn
  obtain ⟨w, hw⟩ := wordStage_word t hf
  rw [hw] at hs hf ⊢
  rw [List.cons_append, hw]
  exact namedStage_spared w hn hs hf

/-- What stands behind a bar leaves a line filter. -/
theorem pipedRule_spared (hs : Free l ts (pipedRule levels ts))
    (hu : Unjoined l (pipedRule levels ts).rest) (hf : AllFlawless (pipedRule levels ts).trees) :
    Spared l (pipedRule levels ts) (pipedRule levels (ts ++ l.tokens)) := by
  have hn : ts ≠ [] := by
    rintro rfl
    exact missing_flawed [] hf
  unfold pipedRule at hs hu hf ⊢
  cases ho : atLabelFilter 0 ts with
  | true =>
    rw [either_takes ho] at hu hf ⊢
    rw [either_takes (atLabelFilter_mono l ho)]
    exact labelFilter_spared l levels 0 ts ho hf hu
  | false =>
    rw [either_skips ho] at hs hf ⊢
    rcases atLabelFilter_line l ts with hlook | ⟨x, rfl, hx, hcompares⟩
    · rw [either_skips (hlook.trans ho)]
      cases hi : atKind .identifier ts with
      | true =>
        have hlong : atKind .identifier (ts ++ l.tokens) = true := by
          rw [atKind_line l (by decide), hi]
        rw [either_takes hi] at hs hf ⊢
        rw [either_takes hlong]
        exact wordStage_spared hs hn hf
      | false =>
        rw [either_skips hi] at hf
        exact (missing_flawed ts hf).elim
    · -- The name waits for the sign, so it is not the end of the stage.
      have hi : atKind .identifier [x] = true := by simp [atKind, hx]
      rw [either_takes hi] at hs hf
      obtain ⟨hrest, s, hmem, hopen⟩ := wordStage_alone x hf
      rcases hs with hs | hs | hs
      · exact (hs hcompares x rfl hx).elim
      · exact (hs hrest).elim
      · exact (hs s hmem hopen).elim

end LogQuery.Grammar
