import LogQuery.Proofs.Grammar.LogShape
import LogQuery.Proofs.Grammar.Progress
import LogQuery.Proofs.Recording.Chain
import LogQuery.Recording.Log

/-! Selectors and pipelines are recorded as the grammar finds them. -/
namespace LogQuery.Recording

open Recorder (Recorded)
open Grammar (Rule NoLonger atKind maxLevels)
open LogQuery.Tree (Ahead ahead_of_kind enclosingKinds)

variable {α : Type} {d limit : Nat} {k : Kind} {item : Recording Unit} {q : Rule}

theorem matcher_records : Records d matcher Grammar.matcher := by
  refine node_records ?_ (by decide)
  refine seq_records bump_records (seq_records (either_records bump_records missing_records) ?_)
  refine seq_records (when_records (node_records (many_records bump_records ?_) (by decide))) ?_
  · exact fun ts h => Grammar.shorter_bump (Grammar.atKind_ne_nil h)
  · exact last_records expect_records

theorem commaList_records [NoLonger q] (h : Records d item q) :
    Records d (commaList item) (Grammar.commaList q) := by
  refine andThen_records h (many_records (andThen_records bump_records h) fun ts hp => ?_)
  exact Grammar.shorter_andThen (Grammar.shorter_bump (Grammar.atNextName_ne_nil hp))

/-- Selectors are entered at an opening brace only. -/
theorem selector_recordsAt : RecordsAt (atKind .lBrace) d selector Grammar.selector := by
  refine node_recordsAt (assert_recordsAt (seq_records bump_records (seq_records ?_ ?_)))
    (by decide)
  · exact when_records (node_records (commaList_records matcher_records) (by decide))
  · exact seq_records optional_records
      (seq_records (skipUntil_records _) (last_records expect_records))

theorem lineValue_records : Records d lineValue Grammar.lineValue := by
  refine either_records ?_ expect_records
  refine seq_records (node_records bumpWord_records (by decide)) (seq_records bump_records ?_)
  exact seq_records expect_records (last_records expect_records)

theorem orFilter_records (h : Enough limit d) :
    Records d (orFilter limit) (Grammar.orFilter (maxLevels - d)) := by
  induction limit generalizing d with
  | zero => exact absurd h.pos (Nat.not_lt_zero _)
  | succ limit ih =>
    refine makes_records (nested_makes (k := .orFilter) (P := fun _ _ => True) rfl (fun _ => rfl)
      fun hd => ?_)
    refine closed_makes ?_ fun _ => ahead_of_kind (by decide) _
    refine seq_records bumpWord_records (seq_records lineValue_records (last_records ?_))
    exact when_records (ih (enough_inside h hd))

theorem lineFilter_records (h : Enough limit d) :
    Records d (lineFilter limit) (Grammar.lineFilter (maxLevels - d)) := by
  refine node_records (seq_records (node_records bump_records (by decide)) ?_) (by decide)
  exact seq_records lineValue_records (last_records (when_records (orFilter_records h)))

theorem lineFilters_records (h : Enough limit d) :
    Records d (lineFilters limit) (Grammar.lineFilters (maxLevels - d)) :=
  node_records (many_records (lineFilter_records h) fun _ hp => Grammar.lineFilter_shorter _ hp)
    (by decide)

theorem comparison_records (v : Kind) (hk : k ∉ enclosingKinds) :
    Records d (comparison v k) (Grammar.comparison v k) :=
  node_records (seq_records bump_records (seq_records bump_records (last_records expect_records)))
    hk

theorem ipLabelFilter_records : Records d ipLabelFilter Grammar.ipLabelFilter := by
  refine node_records (seq_records bump_records (seq_records bump_records ?_)) (by decide)
  refine seq_records bumpWord_records (seq_records bump_records ?_)
  exact seq_records expect_records (last_records expect_records)

theorem labelComparison_records : Records d labelComparison Grammar.labelComparison := by
  refine ahead_records fun r hd => ?_
  simp only [Grammar.labelComparison]
  split_ifs
  · exact ipLabelFilter_records r hd
  · exact matcher_records r hd
  · have hc := comparison_records (d := d) .duration (k := .durationFilter) (by decide)
    have hb := comparison_records (d := d) .bytes (k := .bytesFilter) (by decide)
    split
    · next hv => simpa only [hv] using node_records (k := .unitFilter) hc (by decide) r hd
    · next hv => simpa only [hv] using node_records (k := .unitFilter) hb (by decide) r hd
    · simpa only using comparison_records .number (k := .numberFilter) (by decide) r hd

/-- A comparison is not itself a label filter. -/
theorem labelComparison_ahead (ts : List Token) :
    Ahead .labelFilter (Grammar.labelComparison ts).trees := by
  simp only [Grammar.labelComparison]
  split_ifs
  · rintro c ⟨⟩
    rfl
  · rintro c ⟨⟩
    rfl
  · split
    · rintro c ⟨⟩
      rfl
    · rintro c ⟨⟩
      rfl
    · rintro c ⟨⟩
      rfl

/-- Nothing more is known of a label filter than that it is one. -/
def Anything (_ : Unit) (_ : Tree) : Prop := True

theorem labelOperand_tries {inner : Recording (Option (Nat × Unit))}
    (h : Makes d .labelFilter Anything inner q) :
    Tries d .labelFilter Anything (attempt .labelFilter (labelOperand inner))
      (Grammar.labelOperand q) := by
  refine attempt_tries (fun ts hn => ?_) fun r b hd hb => ?_
  · unfold labelOperand at hn
    unfold Grammar.labelOperand Grammar.either Grammar.when
    split_ifs at hn ⊢
    rfl
  · unfold labelOperand at hb
    unfold Grammar.labelOperand Grammar.either Grammar.when
    split_ifs at hb ⊢ with hl hf
    · cases hb
      have hs : Records d (do bump; orMissing inner; expect .rParen) (Grammar.seq
          [Grammar.bump, Grammar.orMissing .labelFilter q, Grammar.expect .rParen]) :=
        seq_records bump_records
          (seq_records (orMissing_records h (by decide)) (last_records expect_records))
      obtain ⟨_, s, ha, hr, -⟩ := hs r hd
      refine ⟨_, rfl, ?_, (), s, ha, hr, trivial⟩
      cases hts : r.rest with
      | nil => simp [hts, Grammar.atKind] at hl
      | cons t ts =>
        rintro c ⟨⟩
        rfl
    · cases hb
      obtain ⟨_, s, ha, hr, -⟩ := labelComparison_records r hd
      exact ⟨_, rfl, labelComparison_ahead _, (), s, ha, hr, trivial⟩

theorem labelJoin_alike (ts : List Token) : Alike d (labelJoin ts) (Grammar.labelJoin ts) := by
  unfold labelJoin Grammar.labelJoin
  split_ifs
  · exact ⟨bumpWord_records, rfl, rfl⟩
  · exact ⟨bumpWord_records, rfl, rfl⟩
  · exact ⟨bump_records, rfl, rfl⟩
  · exact ⟨nothing_records, rfl, rfl⟩
  · trivial

theorem closeLabel_closes : Closes .labelFilter Anything (.node .labelFilter) closeLabel := by
  intro r s t m ks f g ho hr hg hrest hcut
  have hf : LogQuery.Tree.followsFirst .labelFilter (.node .labelFilter ks) = true := rfl
  obtain ⟨c, u, hc, hu, hcu⟩ :=
    complete_gives ho hr (Recorder.encloses_first hf r f.trees) hg hrest hcut
  refine ⟨(c, ()), u, run_bind hc, hu, _, hg, trivial, ?_⟩
  rw [hcu, List.length_append, LogQuery.Tree.eventsAt_length]
  rfl

/-- Operands joined by signs, where whole label filters are recorded as the grammar finds them. -/
theorem labelChain_makes {least : Nat}
    (h : ∀ least, Makes d .labelFilter Anything (labelFilter limit least)
      (Grammar.labelFilter (maxLevels - d) least)) :
    Makes d .labelFilter Anything
      (chain (attempt .labelFilter (labelOperand (labelFilter limit 0))) labelJoin
        (fun right => orMissing (labelFilter limit right)) closeLabel least)
      (Grammar.chain (Grammar.labelOperand (Grammar.labelFilter (maxLevels - d) 0))
        Grammar.labelJoin (.node .labelFilter)
        (fun right => Grammar.orMissing .labelFilter (Grammar.labelFilter (maxLevels - d) right))
        least) :=
  chain_makes (labelOperand_tries (h 0)) labelJoin_alike
    (fun n => orMissing_records (h n) (by decide)) closeLabel_closes
    fun _ _ hj => Grammar.labelJoin_shorter _ hj

theorem labelFilter_makes {least : Nat} (h : Enough limit d) :
    Makes d .labelFilter Anything (labelFilter limit least)
      (Grammar.labelFilter (maxLevels - d) least) := by
  induction limit generalizing d least with
  | zero => exact absurd h.pos (Nat.not_lt_zero _)
  | succ limit ih =>
    refine nested_makes (f := (Grammar.labelFilter · least)) rfl (fun _ => rfl) fun hd => ?_
    have hi := enough_inside h hd
    exact labelChain_makes fun _ => ih hi

theorem labelFilters_records (h : Enough limit d) :
    Records d (labelFilters limit) (Grammar.labelFilter (maxLevels - d) 0) :=
  makes_records (labelFilter_makes h)

theorem labelExtraction_records : Records d labelExtraction Grammar.labelExtraction := by
  refine node_records (seq_records bump_records (last_records (when_records ?_))) (by decide)
  exact andThen_records bump_records expect_records

theorem labelExtractions_records : Records d labelExtractions Grammar.labelExtractions :=
  node_records (commaList_records labelExtraction_records) (by decide)

theorem bumpWord_rest (w : Keyword) (ts : List Token) :
    (Grammar.bumpWord w ts).rest = ts.drop 1 := by
  cases ts <;> rfl

/-- A clause with or without extractions at its end, and a kind that tells which. -/
theorem extractions_gives {r : Recorder} {us : List Token} {x y : Kind} (hd : r.depth = d)
    (hr : r.rest = us) (hk : k = if Grammar.atKind .identifier us then x else y) :
    Gives (either (Grammar.atKind .identifier) (do labelExtractions; return x) (return y)) r
      (Grammar.seq [Grammar.when (Grammar.atKind .identifier) Grammar.labelExtractions] us)
      fun z _ => z = k := by
  subst hr hk
  obtain ⟨_, s, ha, hs, -⟩ := last_records (when_records (p := Grammar.atKind .identifier)
    labelExtractions_records) r hd
  refine gives_either (fun hp => ?_) fun hp => ?_
  · have hw : when (Grammar.atKind .identifier) labelExtractions r = labelExtractions r := by
      simp only [when, ahead, hp, if_true]
    exact ⟨x, s, run_bind (hw.symm.trans ha), hs, (if_pos hp).symm⟩
  · have hw : when (Grammar.atKind .identifier) labelExtractions r = some ((), r) := by
      simp only [when, ahead, hp, Bool.false_eq_true, if_false]
      rfl
    obtain rfl : r = s := by simpa using hw.symm.trans ha
    exact ⟨y, r, rfl, hs, (if_neg (by simp [hp])).symm⟩

theorem jsonParser_records : Records d jsonParser Grammar.jsonParser := by
  intro r hd
  have hk : ∀ b : Bool, (if b then Kind.jsonExpressionParser else .labelParser) ∉
      enclosingKinds := by decide
  refine gives_map (nodeBy_gives ?_ (ahead_of_kind (hk _) _)) fun _ _ _ _ => trivial
  refine gives_bind (bumpWord_records r.start hd) fun _ s hs _ => ?_
  exact extractions_gives (hs.depth.trans hd) hs.rest (by rw [bumpWord_rest])

theorem logfmtKind_ahead (us : List Token) :
    Grammar.logfmtKind us ∉ enclosingKinds := by
  unfold Grammar.logfmtKind
  split_ifs <;> decide

theorem logfmtParser_records : Records d logfmtParser Grammar.logfmtParser := by
  intro r hd
  refine gives_map (nodeBy_gives ?_ (ahead_of_kind (logfmtKind_ahead (r.rest.drop 1)) _))
    fun _ _ _ _ => trivial
  refine gives_bind (bumpWord_records r.start hd) fun _ s hs _ => ?_
  have hflags : Records d (many (Grammar.atKind .parserFlag) bump)
      (Grammar.many (Grammar.atKind .parserFlag) Grammar.bump) :=
    many_records bump_records fun _ h => Grammar.shorter_bump (Grammar.atKind_ne_nil h)
  have hsd := hs.depth.trans hd
  have hf := hflags s hsd
  rw [hs.rest] at hf
  refine gives_bind hf fun _ t ht _ => ?_
  refine extractions_gives (ht.depth.trans hsd) ht.rest ?_
  rw [Grammar.many_bump_rest, bumpWord_rest, hs.rest, bumpWord_rest]
  rfl

theorem stringStage_records {w : Keyword}
    (hk : k ∉ enclosingKinds) :
    Records d (stringStage k w) (Grammar.stringStage k w) :=
  node_records (seq_records bumpWord_records (last_records expect_records)) hk

theorem bareStage_records {w : Keyword}
    (hk : k ∉ enclosingKinds) :
    Records d (bareStage k w) (Grammar.bareStage k w) := node_records bumpWord_records hk

theorem labelFormat_records : Records d labelFormat Grammar.labelFormat := by
  refine node_records (seq_records expect_records (seq_records expect_records ?_)) (by decide)
  exact last_records (either_records bump_records expect_records)

theorem labelFormats_records : Records d labelFormats Grammar.labelFormats := by
  refine node_records (seq_records bumpWord_records (last_records ?_)) (by decide)
  exact node_records (commaList_records labelFormat_records) (by decide)

theorem labelChoice_records (hk : k ∉ enclosingKinds) :
    Records d (labelChoice k) (Grammar.labelChoice k) :=
  node_records (either_records matcher_records expect_records) hk

theorem labelChoices_records {w : Keyword} {stage list item : Kind}
    (hs : stage ∉ enclosingKinds)
    (hl : list ∉ enclosingKinds)
    (hi : item ∉ enclosingKinds) :
    Records d (labelChoices w stage list item) (Grammar.labelChoices w stage list item) := by
  refine node_records (seq_records bumpWord_records (last_records ?_)) hs
  exact node_records (commaList_records (labelChoice_records hi)) hl

theorem namedStage_records (w : Keyword) : Records d (namedStage w) (Grammar.namedStage w) := by
  unfold namedStage
  split
  · exact jsonParser_records
  · exact logfmtParser_records
  · exact stringStage_records (by decide)
  · exact stringStage_records (by decide)
  · exact bareStage_records (by decide)
  · exact stringStage_records (by decide)
  · exact labelFormats_records
  · exact labelChoices_records (by decide) (by decide) (by decide)
  · exact labelChoices_records (by decide) (by decide) (by decide)
  · exact bareStage_records (by decide)
  · unfold Grammar.namedStage
    simp only
    exact node_records bump_records (by decide)

theorem wordStage_records : Records d wordStage Grammar.wordStage := by
  refine ahead_records fun r hd => ?_
  cases hr : r.rest with
  | nil =>
    have h := nothing_records r hd
    rw [hr] at h
    exact h
  | cons t ts =>
    unfold Grammar.wordStage
    cases hw : Keyword.ofText? Keyword.clauses t.text with
    | none =>
      have h := node_records (k := .error) bump_records (by decide) r hd
      rw [hr] at h
      simp only [hw]
      exact h
    | some w =>
      have h := namedStage_records w r hd
      rw [hr] at h
      simp only [hw]
      exact h

theorem stage_records (h : Enough limit d) :
    Records d (stage limit) (Grammar.stage (maxLevels - d)) := by
  refine node_records (either_records (lineFilters_records h) ?_) (by decide)
  refine seq_records bump_records (last_records (either_records (labelFilters_records h) ?_))
  exact either_records wordStage_records missing_records

theorem pipeline_records (h : Enough limit d) :
    Records d (pipeline limit) (Grammar.pipeline (maxLevels - d)) :=
  node_records (many_records (stage_records h) fun _ hp => Grammar.stage_shorter _ hp) (by decide)

theorem logExpr_recordsAt (h : Enough limit d) :
    RecordsAt (atKind .lBrace) d (logExpr limit) (Grammar.logExpr (maxLevels - d)) := by
  refine node_recordsAt (seq_recordsAt selector_recordsAt (o := fun _ => true) ?_ fun _ _ => rfl)
    (by decide)
  exact records_at (last_records (when_records (pipeline_records h)))

end LogQuery.Recording
