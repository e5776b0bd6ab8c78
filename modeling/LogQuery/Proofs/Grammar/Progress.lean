import LogQuery.Grammar.Expr
import LogQuery.Proofs.Grammar.Loop

/-! No rule gives back more tokens than it gets, and every loop and every sign between operands
takes at least one. -/
namespace LogQuery.Grammar

variable {k : Kind} {ts us : List Token} {t : Token} {p : Look} {a b r : Rule} {w : Keyword}

instance : NoLonger matcher := by
  unfold matcher
  infer_instance

instance [NoLonger r] : NoLonger (commaList r) := by
  unfold commaList
  infer_instance

instance : NoLonger selector := by
  unfold selector
  infer_instance

instance : NoLonger lineValue := by
  unfold lineValue
  infer_instance

instance (levels : Nat) : NoLonger (orFilter levels) := by
  induction levels with
  | zero => exact inferInstanceAs (NoLonger refuse)
  | succ levels ih =>
    unfold orFilter
    infer_instance

instance (levels : Nat) : NoLonger (lineFilter levels) := by
  unfold lineFilter
  infer_instance

instance (levels : Nat) : NoLonger (lineFilters levels) := by
  unfold lineFilters
  infer_instance

instance (v k : Kind) : NoLonger (comparison v k) := by
  unfold comparison
  infer_instance

instance : NoLonger ipLabelFilter := by
  unfold ipLabelFilter
  infer_instance

instance : NoLonger labelComparison where
  length_le ts := by
    simp only [labelComparison]
    split_ifs
    · exact NoLonger.length_le ts
    · exact NoLonger.length_le ts
    · split <;> exact NoLonger.length_le ts

instance [NoLonger r] : NoLonger (labelOperand r) := by
  unfold labelOperand
  infer_instance

theorem labelJoin_noLonger [NoLonger r] {j : Join} (h : labelJoin ts = some j) :
    NoLonger (andThen j.mark r) := by
  unfold labelJoin at h
  split_ifs at h <;> cases h <;> infer_instance

instance (levels least : Nat) : NoLonger (labelFilter levels least) := by
  induction levels generalizing least with
  | zero => exact inferInstanceAs (NoLonger refuse)
  | succ levels ih =>
    have hc : NoLonger (chain (labelOperand (labelFilter levels 0)) labelJoin (.node .labelFilter)
        (fun right => orMissing .labelFilter (labelFilter levels right)) least) :=
      noLonger_chain fun ts j hj => labelJoin_noLonger hj
    exact inferInstanceAs (NoLonger (deepen _))

instance : NoLonger labelExtraction := by
  unfold labelExtraction
  infer_instance

instance : NoLonger labelExtractions := by
  unfold labelExtractions
  infer_instance

instance : NoLonger labelFormat := by
  unfold labelFormat
  infer_instance

instance : NoLonger (labelChoice k) := by
  unfold labelChoice
  infer_instance

instance : NoLonger jsonParser where
  length_le ts := by
    unfold jsonParser
    exact NoLonger.length_le ts

instance : NoLonger logfmtParser where
  length_le ts := by
    unfold logfmtParser
    exact NoLonger.length_le ts

instance (w : Keyword) : NoLonger (namedStage w) := by
  unfold namedStage stringStage bareStage labelFormats labelChoices
  split <;> infer_instance

instance : NoLonger wordStage where
  length_le ts := by
    unfold wordStage
    split
    · split <;> exact NoLonger.length_le _
    · exact Nat.le_refl _

instance (levels : Nat) : NoLonger (stage levels) := by
  unfold stage
  infer_instance

instance (levels : Nat) : NoLonger (pipeline levels) := by
  unfold pipeline
  infer_instance

instance (levels : Nat) : NoLonger (logExpr levels) := by
  unfold logExpr
  infer_instance

instance : NoLonger range := by
  unfold range
  infer_instance

instance : NoLonger offset := by
  unfold offset
  infer_instance

instance : NoLonger unwrapped where
  length_le ts := by
    unfold unwrapped
    dsimp only
    split <;> exact NoLonger.length_le ts

instance (levels : Nat) : NoLonger (unwrap levels) := by
  unfold unwrap
  infer_instance

instance (levels : Nat) : NoLonger (logRange levels) := by
  unfold logRange
  infer_instance

instance : NoLonger grouping := by
  unfold grouping
  infer_instance

instance [NoLonger r] : NoLonger (arguments r) := by
  unfold arguments
  infer_instance

instance : NoLonger parameter := by
  unfold parameter
  infer_instance

theorem call_noLonger (levels : Nat) [NoLonger a] {name : Text}
    (h : call? levels a name = some r) : NoLonger r := by
  unfold call? at h
  split at h
  · cases h
    unfold rangeAggregation
    infer_instance
  · split at h
    · cases h
      unfold vectorAggregation
      infer_instance
    · split at h
      · cases h
        unfold vectorLiteral
        infer_instance
      · cases h

instance : NoLonger literal := by
  unfold literal
  infer_instance

instance [NoLonger a] : NoLonger (parentheses a) := by
  unfold parentheses
  infer_instance

instance (levels : Nat) [NoLonger a] : NoLonger (operand levels a) where
  length_le ts := by
    unfold operand
    split
    · exact Nat.le_refl _
    · split
      · exact NoLonger.length_le _
      · exact NoLonger.length_le _
      · exact NoLonger.length_le _
      · exact NoLonger.length_le _
      · exact NoLonger.length_le _
      · split
        · next hr =>
          have := call_noLonger levels hr
          exact NoLonger.length_le _
        · exact Nat.le_refl _
      · exact Nat.le_refl _

instance : NoLonger boolModifier := by
  unfold boolModifier
  infer_instance

theorem binaryJoin_mark {j : Join} (h : binaryJoin ts = some j) :
    ts ≠ [] ∧ ∃ k, j.mark = andThen (bumpAs k) boolModifier := by
  cases ts with
  | nil => cases h
  | cons t ts =>
    simp only [binaryJoin, Option.map_eq_some_iff] at h
    obtain ⟨⟨k, left, right⟩, _, rfl⟩ := h
    exact ⟨List.cons_ne_nil _ _, k, rfl⟩

theorem binaryJoin_noLonger [NoLonger r] {j : Join} (h : binaryJoin ts = some j) :
    NoLonger (andThen j.mark r) := by
  obtain ⟨_, k, hm⟩ := binaryJoin_mark h
  rw [hm]
  infer_instance

instance (levels least : Nat) : NoLonger (expr levels least) := by
  induction levels generalizing least with
  | zero => exact inferInstanceAs (NoLonger refuse)
  | succ levels ih =>
    have hc : NoLonger (chain (operand levels (expr levels 0)) binaryJoin binary
        (fun right => orMissing .expr (expr levels right)) least) :=
      noLonger_chain fun ts j hj => binaryJoin_noLonger hj
    exact inferInstanceAs (NoLonger (deepen _))

theorem repeat_eq (k : Kind) :
    many (atKind k) bump = when (atKind k) (andThen bump (many (atKind k) bump)) :=
  many_eq fun _ h => shorter_bump (atKind_ne_nil h)

theorem atNextName_ne_nil (h : atNextName ts = true) : ts ≠ [] := by
  rintro rfl
  cases h

/-- The elements of a list after the first. -/
theorem elements_eq (r : Rule) [NoLonger r] :
    many atNextName (andThen bump r) =
      when atNextName (andThen (andThen bump r) (many atNextName (andThen bump r))) :=
  many_eq fun _ h => shorter_andThen (shorter_bump (atNextName_ne_nil h))

theorem atLineFilter_ne_nil (h : atLineFilter ts = true) : ts ≠ [] := by
  rintro rfl
  cases h

theorem lineFilter_shorter (levels : Nat) (h : atLineFilter ts = true) :
    Shorter (lineFilter levels) ts :=
  shorter_node (shorter_seq (shorter_node (shorter_bump (atLineFilter_ne_nil h))))

theorem lineFilters_eq (levels : Nat) :
    many atLineFilter (lineFilter levels) =
      when atLineFilter (andThen (lineFilter levels) (many atLineFilter (lineFilter levels))) :=
  many_eq fun _ h => lineFilter_shorter levels h

theorem stage_shorter (levels : Nat) (h : atStage ts = true) : Shorter (stage levels) ts := by
  refine shorter_node (shorter_either (fun hl => ?_) fun hl => ?_)
  · exact shorter_node (shorter_many (fun _ h => lineFilter_shorter levels h) hl)
  · have hk : kindAt 0 ts = .pipe := by simp_all [atStage]
    exact shorter_seq (shorter_bump (kindAt_ne_nil hk (by decide)))

theorem stages_eq (levels : Nat) :
    many atStage (stage levels) =
      when atStage (andThen (stage levels) (many atStage (stage levels))) :=
  many_eq fun _ h => stage_shorter levels h

theorem labelComparison_shorter (h : ts ≠ []) : Shorter labelComparison ts := by
  have hip : Shorter ipLabelFilter ts := shorter_seq (shorter_bump h)
  have hm : Shorter matcher ts := shorter_seq (shorter_bump h)
  have hc : ∀ v k, Shorter (comparison v k) ts := fun v k => shorter_seq (shorter_bump h)
  unfold Shorter
  simp only [labelComparison]
  split_ifs
  · exact hip
  · exact hm
  · split
    · exact hc .duration .durationFilter
    · exact hc .bytes .bytesFilter
    · exact hc .number .numberFilter

theorem atLabelFilter_ne_nil (h : atLabelFilter 0 ts = true) : ts ≠ [] := by
  rintro rfl
  cases h

theorem labelOperand_shorter [NoLonger r] (h : atLabelFilter 0 ts = true) :
    Shorter (labelOperand r) ts := by
  have hn := atLabelFilter_ne_nil h
  refine shorter_either (fun _ => ?_) fun _ => ?_
  · exact shorter_node (shorter_seq (shorter_bump hn))
  · rw [Shorter, when, if_pos h]
    exact shorter_node (labelComparison_shorter hn)

theorem labelFilter_shorter (levels least : Nat) (h : atLabelFilter 0 ts = true) :
    Shorter (labelFilter levels least) ts := by
  cases levels with
  | zero => exact shorter_refuse (atLabelFilter_ne_nil h)
  | succ levels =>
    have hc : Shorter (chain (labelOperand (labelFilter levels 0)) labelJoin (.node .labelFilter)
        (fun right => orMissing .labelFilter (labelFilter levels right)) least) ts :=
      shorter_chain (labelOperand_shorter h) fun ts j hj => labelJoin_noLonger hj
    exact shorter_deepen hc

/-- A sign between label filters may be no token at all; then the operand takes one. -/
theorem labelJoin_shorter (levels : Nat) {j : Join} (h : labelJoin ts = some j) :
    Shorter (andThen j.mark (orMissing .labelFilter (labelFilter levels j.right))) ts := by
  unfold labelJoin at h
  split_ifs at h with ho ha hc hb
  · cases h
    have hn : ts ≠ [] := by
      rintro rfl
      cases ho
    exact shorter_andThen (shorter_bumpAs hn)
  · cases h
    have hn : ts ≠ [] := by
      rintro rfl
      cases ha
    exact shorter_andThen (shorter_bumpAs hn)
  · cases h
    have hn : ts ≠ [] := by
      rintro rfl
      cases hc
    exact shorter_andThen (shorter_bump hn)
  · cases h
    exact shorter_andThen_right (shorter_orMissing (labelFilter_shorter levels 4 hb))

theorem binaryJoin_shorter (levels : Nat) {j : Join} (h : binaryJoin ts = some j) :
    Shorter (andThen j.mark (orMissing .expr (expr levels j.right))) ts := by
  obtain ⟨hn, k, hm⟩ := binaryJoin_mark h
  rw [hm]
  exact shorter_andThen (shorter_andThen (shorter_bumpAs hn))

end LogQuery.Grammar
