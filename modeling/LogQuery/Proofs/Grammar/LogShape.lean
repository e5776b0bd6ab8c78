import LogQuery.Proofs.Grammar.Sound

/-! Selectors, filters and the stages of a pipeline have the shapes of their kinds. -/
namespace LogQuery.Grammar

open Shape (one oneOf opt inOrder)

variable {k : Kind} {ts : List Token} {t : Token}

theorem bump_oneOf_sound {ks : List Kind} (ts : List Token) (h : t.kind ∈ ks)
    (hks : ∀ k ∈ ks, k.isTrivia = false) : (bump (t :: ts)).Sound (oneOf ks) (t :: ts) :=
  oneOf_sound (bump_sound ts rfl (hks _ h)) h

theorem matcher_sound (h : t.kind = .identifier) (ts : List Token) :
    (matcher (t :: ts)).Sound (one .matcher) (t :: ts) := by
  refine node_sound rfl (seq_bump_sound h rfl (seq_sound (S := oneOf matcherOps) ?_
    (seq_sound_skip ?_ (seq_expect_sound rfl _ seq_sound_nil))))
  · refine either_sound_same (fun ho => ?_) fun _ => missing_sound _
    obtain ⟨o, us, rfl, hk⟩ := atAny_cons ho
    exact bump_oneOf_sound us hk (by decide)
  · refine mono_sound (T := 1) (when_sound (S := 1) fun _ => ?_) fun w hw => hw.elim id id
    refine node_error_sound (many_sound (S := one .unknown) (fun us hu => ?_) _).reads
    obtain ⟨u, us, rfl, hk⟩ := atKind_cons hu
    exact bump_sound us hk rfl

theorem atNextName_cons (h : atNextName ts = true) :
    ∃ c t us, ts = c :: t :: us ∧ c.kind = .comma ∧ t.kind = .identifier := by
  simp only [atNextName, Bool.and_eq_true, decide_eq_true_eq] at h
  obtain ⟨c, us, rfl, hc⟩ := kindAt_cons h.1 (by decide)
  obtain ⟨t, us, rfl, ht⟩ := kindAt_cons (show kindAt 0 us = _ from h.2) (by decide)
  exact ⟨c, t, us, rfl, hc, ht⟩

/-- Elements after the first begin with a name. -/
theorem commaList_sound {item : Rule} (hfirst : (item ts).Sound (one k) ts)
    (h : ∀ t us, t.kind = .identifier → (item (t :: us)).Sound (one k) (t :: us)) :
    (commaList item ts).Sound (.list k) ts := by
  refine followed_sound hfirst (many_sound (fun us hu => ?_) _)
  obtain ⟨c, t, us, rfl, hc, ht⟩ := atNextName_cons hu
  exact followed_sound (bump_sound _ hc rfl) (h t us ht)

theorem selector_sound (h : t.kind = .lBrace) (ts : List Token) :
    (selector (t :: ts)).Sound (one .selector) (t :: ts) := by
  refine node_sound rfl (seq_bump_sound h rfl (seq_sound (S := opt (one .matchers)) ?_
    (seq_sound (optional_sound rfl _) (seq_sound_skip (skipUntil_sound _ _)
      (seq_expect_sound rfl _ seq_sound_nil)))))
  refine when_sound fun hi => ?_
  obtain ⟨t, us, rfl, ht⟩ := atKind_cons hi
  exact node_sound rfl (commaList_sound (matcher_sound ht us) fun t us ht => matcher_sound ht us)

theorem lineValue_sound (ts : List Token) : (lineValue ts).Sound valueShape ts := by
  refine mono_sound (either_sound (fun h => ?_) fun _ => expect_sound rfl ts)
    fun w hw => Or.symm hw
  simp only [Bool.and_eq_true, decide_eq_true_eq] at h
  obtain ⟨t, us, rfl, ht⟩ := wordAt_cons h.1
  obtain ⟨u, us, rfl, hu⟩ := kindAt_cons (show kindAt 0 us = _ from h.2) (by decide)
  refine seq_sound (node_sound (k := .filterOp) rfl (bumpWord_sound _ ht)) ?_
  exact seq_bump_sound hu rfl
    (seq_expect_sound rfl _ fun us => seq_expect_sound rfl us seq_sound_nil)

theorem orFilter_sound (levels : Nat) {ts : List Token} (h : wordAt 0 .or ts = true) :
    (orFilter levels ts).Sound (one .orFilter) ts := by
  obtain ⟨t, us, rfl, ht⟩ := wordAt_cons h
  induction levels generalizing t us with
  | zero => exact refuse_sound t us
  | succ levels ih =>
    refine deepen_sound (node_sound rfl (seq_bumpWord_sound ht
      (seq_sound (lineValue_sound us) (seq_sound (when_sound fun ho => ?_) (seq_sound_nil _)))))
    simp only [atOrValue, Bool.and_eq_true] at ho
    obtain ⟨u, vs, he, hu⟩ := wordAt_cons ho.1
    rw [he]
    exact ih u vs (by simpa [he] using ho.1) hu

theorem atLineFilter_cons (h : atLineFilter ts = true) :
    ∃ t us, ts = t :: us ∧ t.kind ∈ lineOps := by
  cases ts with
  | nil => cases h
  | cons t us =>
    refine ⟨t, us, rfl, ?_⟩
    unfold atLineFilter at h
    split at h <;> simp_all [lineOps]

theorem lineFilter_sound (levels : Nat) (h : atLineFilter ts = true) :
    (lineFilter levels ts).Sound (one .lineFilter) ts := by
  obtain ⟨t, us, rfl, ht⟩ := atLineFilter_cons h
  refine node_sound rfl (seq_sound (node_sound (k := .filter) rfl
    (bump_oneOf_sound us ht (by decide))) (seq_sound (lineValue_sound _)
      (seq_sound (when_sound fun ho => ?_) (seq_sound_nil _))))
  simp only [atOrValue, Bool.and_eq_true] at ho
  exact orFilter_sound levels ho.1

theorem lineFilters_sound (levels : Nat) (h : atLineFilter ts = true) :
    (lineFilters levels ts).Sound (one .lineFilters) ts := by
  obtain ⟨t, us, rfl, _⟩ := atLineFilter_cons h
  exact node_sound rfl (many_sound_of_look (fun us hu => lineFilter_sound levels hu) h)

theorem atLabelFilter_cons (h : atLabelFilter 0 ts = true) :
    (∃ t us, ts = t :: us ∧ t.kind = .lParen) ∨
      ∃ t o us, ts = t :: o :: us ∧ t.kind = .identifier ∧
        o.kind ∈ comparisonOps ++ matcherOps := by
  cases ts with
  | nil => cases h
  | cons t us =>
    unfold atLabelFilter at h
    split at h
    · next hk => exact Or.inl ⟨t, us, rfl, hk⟩
    · next hk =>
      cases us with
      | nil => simp [matcherOps, comparisonOps] at h
      | cons o us =>
        refine Or.inr ⟨t, o, us, rfl, hk, ?_⟩
        simpa [or_comm] using h
    · cases h

theorem comparison_sound {o : Token} {value : Kind} (hk : k.isTrivia = false)
    (hp : production k = amountShape value) (hv : value.isTrivia = false)
    (ht : t.kind = .identifier) (ho : o.kind ∈ comparisonOps ++ matcherOps) (ts : List Token) :
    (comparison value k (t :: o :: ts)).Sound (one k) (t :: o :: ts) := by
  refine node_sound hk ?_
  rw [hp]
  exact seq_bump_sound ht rfl (seq_sound (bump_oneOf_sound ts ho (by decide))
    (seq_expect_sound hv _ seq_sound_nil))

theorem ipLabelFilter_sound {o : Token} (ht : t.kind = .identifier) (ho : o.kind ∈ [.eq, .neq])
    {ts : List Token} (hw : wordAt 0 .ip ts = true) (hp : kindAt 1 ts = .lParen) :
    (ipLabelFilter (t :: o :: ts)).Sound (one .ipLabelFilter) (t :: o :: ts) := by
  obtain ⟨w, us, rfl, hw⟩ := wordAt_cons hw
  obtain ⟨l, us, rfl, hl⟩ := kindAt_cons (show kindAt 0 us = _ from hp) (by decide)
  exact node_sound rfl (seq_bump_sound ht rfl (seq_sound (bump_oneOf_sound _ ho (by decide))
    (seq_bumpWord_sound hw (seq_bump_sound hl rfl (seq_expect_sound rfl _ fun us =>
      seq_expect_sound rfl us seq_sound_nil)))))

/-- What a comparison may be read as. -/
theorem labelComparison_sound {o : Token} (ht : t.kind = .identifier)
    (ho : o.kind ∈ comparisonOps ++ matcherOps) (ts : List Token) :
    (labelComparison (t :: o :: ts)).Sound
      (oneOf [.matcher, .numberFilter, .unitFilter, .ipLabelFilter]) (t :: o :: ts) := by
  simp only [labelComparison]
  split_ifs with hip
  · simp only [Bool.and_eq_true, Bool.or_eq_true, decide_eq_true_eq] at hip
    exact oneOf_sound (ipLabelFilter_sound ht (by simpa using hip.1.1) hip.1.2 hip.2) (by decide)
  · exact oneOf_sound (matcher_sound ht _) (by decide)
  · split
    · exact oneOf_sound (node_sound (k := .unitFilter) rfl (oneOf_sound
        (comparison_sound (k := .durationFilter) rfl rfl rfl ht ho ts) (by decide))) (by decide)
    · exact oneOf_sound (node_sound (k := .unitFilter) rfl (oneOf_sound
        (comparison_sound (k := .bytesFilter) rfl rfl rfl ht ho ts) (by decide))) (by decide)
    · exact oneOf_sound (comparison_sound (k := .numberFilter) rfl rfl rfl ht ho ts) (by decide)

theorem labelOperand_sound {inner : Rule}
    (hi : ∀ us, (inner us).Sound (opt (one .labelFilter)) us) (h : atLabelFilter 0 ts = true) :
    (labelOperand inner ts).Sound (one .labelFilter) ts := by
  unfold labelOperand either
  split
  · next hp =>
    obtain ⟨t, us, rfl, ht⟩ := atKind_cons hp
    exact node_sound rfl (left_sound (right_sound (seq_bump_sound ht rfl
      (seq_sound (orMissing_sound rfl (hi us)) (seq_expect_sound rfl _ seq_sound_nil)))))
  · next hp =>
    rw [when, if_pos h]
    obtain ⟨t, us, rfl, ht⟩ | ⟨t, o, us, rfl, ht, ho⟩ := atLabelFilter_cons h
    · simp [atKind, ht] at hp
    · exact node_sound rfl (left_sound (left_sound (labelComparison_sound ht ho us)))

theorem labelOperand_nothing {inner : Rule} (h : atLabelFilter 0 ts = false) :
    labelOperand inner ts = nothing ts := by
  have hp : atKind .lParen ts = false := by
    cases ts with
    | nil => rfl
    | cons t us =>
      by_contra hp
      simp_all [atKind, atLabelFilter]
  simp [labelOperand, either, when, h, hp]

theorem labelJoin_sound {operand : Nat → Rule}
    (ho : ∀ n us, (operand n us).Sound (one .labelFilter) us) {j : Join}
    (h : labelJoin ts = some j) :
    (andThen j.mark (operand j.right) ts).Sound
      (inOrder [opt (oneOf [.keyword .and, .keyword .or, .comma]), one .labelFilter]) ts := by
  refine pair_sound ?_ (ho _ _)
  unfold labelJoin at h
  split at h
  · next hw =>
    cases h
    obtain ⟨t, us, rfl, ht⟩ := wordAt_cons (Bool.and_eq_true _ _ ▸ hw).1
    exact right_sound (oneOf_sound (bumpWord_sound us ht) (by decide))
  · split at h
    · next hw =>
      cases h
      obtain ⟨t, us, rfl, ht⟩ := wordAt_cons (Bool.and_eq_true _ _ ▸ hw).1
      exact right_sound (oneOf_sound (bumpWord_sound us ht) (by decide))
    · split at h
      · next hw =>
        cases h
        simp only [Bool.and_eq_true, decide_eq_true_eq] at hw
        obtain ⟨t, us, rfl, ht⟩ := kindAt_cons hw.1 (by decide)
        exact right_sound (oneOf_sound (bump_sound us ht rfl) (by decide))
      · split at h
        · cases h
          exact left_sound (nothing_sound ts)
        · cases h

theorem labelFilter_sound (levels least : Nat) (ts : List Token) :
    (labelFilter levels least ts).Sound
      (if atLabelFilter 0 ts = true then one .labelFilter else 1) ts := by
  induction levels generalizing least ts with
  | zero =>
    cases ts with
    | nil => exact refuse_sound_nil
    | cons t us => exact refuse_sound t us
  | succ levels ih =>
    have hi : ∀ n us, (labelFilter levels n us).Sound (opt (one .labelFilter)) us := by
      intro n us
      refine mono_sound (ih n us) fun w hw => ?_
      split at hw
      · exact Or.inr hw
      · exact Or.inl hw
    refine deepen_sound ?_
    split
    · next h =>
      refine chain_sound (labelOperand_sound (hi 0) h)
        (fun us j => labelJoin_sound fun n vs => orMissing_sound rfl (hi n vs)) ?_
      intro us f hf
      exact node_sound (r := fun _ => f) rfl (right_sound hf)
    · next h => exact chain_sound_of_nothing (labelOperand_nothing (by simpa using h))

theorem labelFilter_sound_of_look (levels least : Nat) (h : atLabelFilter 0 ts = true) :
    (labelFilter levels least ts).Sound (one .labelFilter) ts := by
  simpa [h] using labelFilter_sound levels least ts

theorem labelExtraction_sound (h : t.kind = .identifier) (ts : List Token) :
    (labelExtraction (t :: ts)).Sound (one .labelExtractionExpression) (t :: ts) := by
  refine node_sound rfl (seq_bump_sound h rfl (seq_sound (when_sound fun he => ?_)
    (seq_sound_nil _)))
  obtain ⟨e, us, rfl, hk⟩ := atKind_cons he
  exact pair_sound (bump_sound us hk rfl) (expect_sound rfl us)

theorem labelExtractions_sound (h : atKind .identifier ts = true) :
    (labelExtractions ts).Sound (one .labelExtractionExpressionList) ts := by
  obtain ⟨t, us, rfl, ht⟩ := atKind_cons h
  exact node_sound rfl (commaList_sound (labelExtraction_sound ht us)
    fun t us ht => labelExtraction_sound ht us)

/-- The node of a stage that begins with a word. -/
def wordStageKinds : List Kind := stageKinds.erase .labelFilter

theorem jsonParser_sound (h : t.spells .json = true) (ts : List Token) :
    (jsonParser (t :: ts)).Sound (oneOf wordStageKinds) (t :: ts) := by
  unfold jsonParser
  split
  · next hi =>
    have hi : atKind .identifier ts = true := hi
    refine oneOf_sound (node_sound (k := .jsonExpressionParser) rfl ?_) (by decide)
    refine seq_bumpWord_sound h (seq_sound ?_ (seq_sound_nil _))
    rw [when, if_pos hi]
    exact labelExtractions_sound hi
  · next hi =>
    have hi : ¬ atKind .identifier ts = true := hi
    refine oneOf_sound (node_sound (k := .labelParser) rfl ?_) (by decide)
    refine left_sound (oneOf_sound (k := .keyword .json) (single_sound.mp ?_) (by decide))
    refine seq_bumpWord_sound h (seq_sound_skip ?_ (seq_sound_nil _))
    rw [when, if_neg hi]
    exact nothing_sound ts

theorem many_bump_rest (k : Kind) (ts : List Token) :
    (many (atKind k) bump ts).rest = ts.dropWhile fun t => t.kind = k := by
  have hgo : ∀ limit us : List Token, us.length ≤ limit.length →
      (many.go (atKind k) bump limit us).rest = us.dropWhile fun t => t.kind = k := by
    intro limit
    induction limit with
    | nil =>
      intro us hus
      obtain rfl := List.length_eq_zero_iff.mp (Nat.le_zero.mp hus)
      rfl
    | cons _ limit ih =>
      intro us hus
      cases us with
      | nil => rfl
      | cons u us =>
        have hus : us.length ≤ limit.length := by simpa using hus
        by_cases hu : u.kind = k
        · simpa [many.go, when, atKind, hu, andThen, bump, Found.followed] using ih us hus
        · simp [many.go, when, atKind, hu, nothing]
  exact hgo ts ts le_rfl

theorem flags_sound (ts : List Token) :
    (many (atKind .parserFlag) bump ts).Sound (one .parserFlag).star ts := by
  refine many_sound (fun us hu => ?_) ts
  obtain ⟨t, us, rfl, ht⟩ := atKind_cons hu
  exact bump_sound us ht rfl

/-- The kind of the stage is told ahead from the tokens that the loop over the flags leaves. -/
theorem logfmtParser_sound (h : t.spells .logfmt = true) (ts : List Token) :
    (logfmtParser (t :: ts)).Sound (oneOf wordStageKinds) (t :: ts) := by
  have hrest := many_bump_rest .parserFlag ts
  rw [logfmtParser, List.drop_one, List.tail_cons, logfmtKind]
  split_ifs with hi hf
  · refine oneOf_sound (node_sound (k := .logfmtExpressionParser) rfl ?_) (by decide)
    refine seq_bumpWord_sound h (seq_sound (flags_sound ts) (seq_sound ?_ (seq_sound_nil _)))
    rw [when, if_pos (hrest ▸ hi)]
    exact labelExtractions_sound (hrest ▸ hi)
  · refine oneOf_sound (node_sound (k := .logfmtParser) rfl ?_) (by decide)
    refine seq_bumpWord_sound h (seq_sound ?_ (seq_sound_skip ?_ (seq_sound_nil _)))
    · obtain ⟨u, us, rfl, _⟩ := atKind_cons hf
      refine many_sound_of_look (fun vs hv => ?_) hf
      obtain ⟨v, vs, rfl, hk⟩ := atKind_cons hv
      exact bump_sound vs hk rfl
    · rw [when, if_neg (hrest ▸ hi)]
      exact nothing_sound _
  · refine oneOf_sound (node_sound (k := .labelParser) rfl ?_) (by decide)
    refine left_sound (oneOf_sound (k := .keyword .logfmt) (single_sound.mp ?_) (by decide))
    refine seq_bumpWord_sound h (seq_sound_skip ?_ (seq_sound_skip ?_ (seq_sound_nil _)))
    · rw [many_of_not (by simpa using hf)]
      exact nothing_sound ts
    · rw [when, if_neg (hrest ▸ hi)]
      exact nothing_sound _

theorem stringParser_sound {w : Keyword} (hw : w ∈ [.regexp, .pattern]) (h : t.spells w = true)
    (ts : List Token) : (stringStage .labelParser w (t :: ts)).Sound (one .labelParser) (t :: ts) :=
  node_sound rfl (right_sound (seq_sound
    (oneOf_sound (bumpWord_sound ts h) (List.mem_map_of_mem hw))
    (seq_expect_sound rfl _ seq_sound_nil)))

theorem lineFormat_sound (h : t.spells .lineFormat = true) (ts : List Token) :
    (stringStage .lineFormatExpr .lineFormat (t :: ts)).Sound (one .lineFormatExpr) (t :: ts) :=
  node_sound rfl (seq_bumpWord_sound h (seq_expect_sound rfl ts seq_sound_nil))

theorem unpack_sound (h : t.spells .unpack = true) (ts : List Token) :
    (bareStage .labelParser .unpack (t :: ts)).Sound (one .labelParser) (t :: ts) :=
  node_sound rfl (left_sound (oneOf_sound (bumpWord_sound ts h) (by decide)))

theorem labelFormat_sound (ts : List Token) :
    (labelFormat ts).Sound (one .labelFormatMatcher) ts := by
  refine node_sound rfl (seq_expect_sound rfl ts fun us => seq_expect_sound rfl us fun vs =>
    seq_sound (either_sound_same (fun h => ?_) fun _ => ?_) (seq_sound_nil _))
  · obtain ⟨t, ws, rfl, ht⟩ := atKind_cons h
    exact oneOf_sound (bump_sound ws ht rfl) (by decide)
  · exact oneOf_sound (expect_sound (k := .identifier) rfl vs) (by decide)

theorem labelFormats_sound (h : t.spells .labelFormat = true) (ts : List Token) :
    (labelFormats (t :: ts)).Sound (one .labelFormatExpr) (t :: ts) :=
  node_sound rfl (seq_bumpWord_sound h (seq_sound (node_sound rfl
    (commaList_sound (labelFormat_sound ts) fun u us _ => labelFormat_sound (u :: us)))
    (seq_sound_nil _)))

theorem labelChoice_sound (hk : k.isTrivia = false)
    (hp : production k = oneOf [.matcher, .identifier]) (ts : List Token) :
    (labelChoice k ts).Sound (one k) ts := by
  refine node_sound hk ?_
  rw [hp]
  refine either_sound_same (fun h => ?_) fun _ => ?_
  · simp only [Bool.and_eq_true, decide_eq_true_eq] at h
    obtain ⟨t, us, rfl, ht⟩ := kindAt_cons h.1 (by decide)
    exact oneOf_sound (matcher_sound ht us) (by decide)
  · exact oneOf_sound (expect_sound (k := .identifier) rfl ts) (by decide)

theorem labelChoices_sound {w : Keyword} {s l i : Kind} (hs : s.isTrivia = false)
    (hl : l.isTrivia = false) (hi : i.isTrivia = false)
    (hps : production s = inOrder [.word w, one l])
    (hpl : production l = .list i) (hpi : production i = oneOf [.matcher, .identifier])
    (h : t.spells w = true) (ts : List Token) :
    (labelChoices w s l i (t :: ts)).Sound (one s) (t :: ts) := by
  refine node_sound hs ?_
  rw [hps]
  refine seq_bumpWord_sound h (seq_sound (node_sound hl ?_) (seq_sound_nil _))
  rw [hpl]
  exact commaList_sound (labelChoice_sound hi hpi ts) fun u us _ => labelChoice_sound hi hpi _

/-- The words of the grammar that are spelled alike are one word. -/
theorem ofText?_spells {words : List Keyword} {w : Keyword} (ht : t.kind = .identifier)
    (h : Keyword.ofText? words t.text = some w) : t.spells w = true := by
  have := List.find?_some h
  simp_all [Token.spells]

theorem namedStage_sound {w : Keyword} (h : t.spells w = true) (ts : List Token) :
    (namedStage w (t :: ts)).Sound (oneOf wordStageKinds) (t :: ts) := by
  unfold namedStage
  split
  · exact jsonParser_sound h ts
  · exact logfmtParser_sound h ts
  · exact oneOf_sound (stringParser_sound (by decide) h ts) (by decide)
  · exact oneOf_sound (stringParser_sound (by decide) h ts) (by decide)
  · exact oneOf_sound (unpack_sound h ts) (by decide)
  · exact oneOf_sound (lineFormat_sound h ts) (by decide)
  · exact oneOf_sound (labelFormats_sound h ts) (by decide)
  · exact oneOf_sound (labelChoices_sound (s := .dropLabelsExpr) rfl rfl rfl rfl rfl rfl h ts)
      (by decide)
  · exact oneOf_sound (labelChoices_sound (s := .keepLabelsExpr) rfl rfl rfl rfl rfl rfl h ts)
      (by decide)
  · exact oneOf_sound (node_sound (k := .decolorizeExpr) rfl (bumpWord_sound ts h)) (by decide)
  · exact node_error_sound (bump_reads _)

theorem wordStage_sound (h : atKind .identifier ts = true) :
    (wordStage ts).Sound (oneOf wordStageKinds) ts := by
  obtain ⟨t, us, rfl, ht⟩ := atKind_cons h
  simp only [wordStage]
  split
  · next w hw => exact namedStage_sound (ofText?_spells ht hw) us
  · exact node_error_sound (bump_reads _)

theorem stage_sound (levels : Nat) (h : atStage ts = true) :
    (stage levels ts).Sound (one .pipelineStage) ts := by
  refine node_sound rfl (either_sound (fun hl => lineFilters_sound levels hl) fun hl => ?_)
  simp only [atStage, hl, Bool.false_or, Bool.and_eq_true, decide_eq_true_eq] at h
  obtain ⟨t, us, rfl, ht⟩ := kindAt_cons h.1 (by decide)
  refine seq_bump_sound ht rfl (seq_sound (either_sound_same (fun hf => ?_) fun _ => ?_)
    (seq_sound_nil _))
  · exact oneOf_sound (labelFilter_sound_of_look levels 0 hf) (by decide)
  · refine either_sound_same (fun hi => ?_) fun _ => missing_sound us
    refine mono_sound (wordStage_sound hi) fun w hw => ?_
    obtain ⟨k, hk, rfl⟩ := Shape.mem_oneOf.mp hw
    exact Shape.mem_oneOf.mpr ⟨k, List.mem_of_mem_erase hk, rfl⟩

theorem atStage_cons (h : atStage ts = true) : ∃ t us, ts = t :: us := by
  cases ts with
  | nil => cases h
  | cons t us => exact ⟨t, us, rfl⟩

theorem pipeline_sound (levels : Nat) (h : atStage ts = true) :
    (pipeline levels ts).Sound (one .pipelineExpr) ts := by
  obtain ⟨t, us, rfl⟩ := atStage_cons h
  exact node_sound rfl (many_sound_of_look (fun us hu => stage_sound levels hu) h)

theorem logExpr_sound (levels : Nat) (h : t.kind = .lBrace) (ts : List Token) :
    (logExpr levels (t :: ts)).Sound (one .logExpr) (t :: ts) :=
  node_sound rfl (left_sound (seq_sound (selector_sound h ts)
    (seq_sound (when_sound fun hs => pipeline_sound levels hs) (seq_sound_nil _))))

end LogQuery.Grammar
