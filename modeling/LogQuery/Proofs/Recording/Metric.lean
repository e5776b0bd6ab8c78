import LogQuery.Proofs.Recording.Log
import LogQuery.Recording.Metric

/-! Calls are recorded as the grammar finds them. -/
namespace LogQuery.Recording

open Grammar (Rule maxLevels)
open LogQuery.Tree (Ahead)

variable {α : Type} {d limit : Nat} {a : Recording Unit} {q : Rule} {P : α → Tree → Prop}

theorem range_records : Records d range Grammar.range :=
  node_records (seq_records bump_records (seq_records expect_records (last_records expect_records)))
    (by decide)

theorem offset_records : Records d offset Grammar.offset :=
  node_records (seq_records bumpWord_records (last_records expect_records)) (by decide)

theorem unwrapped_eq (ts : List Token) :
    Grammar.unwrapped ts =
      match conversion? ts with
      | some w => Grammar.seq [Grammar.node .convOp (Grammar.bumpWord w), Grammar.bump,
          Grammar.expect .identifier, Grammar.expect .rParen] ts
      | none => Grammar.expect .identifier ts := rfl

theorem unwrapped_records : Records d unwrapped Grammar.unwrapped := by
  refine ahead_records fun r hd => ?_
  rw [unwrapped_eq]
  cases conversion? r.rest with
  | none => exact expect_records r hd
  | some w =>
    have h : Records d (do node .convOp (bumpWord w); bump; expect .identifier; expect .rParen)
        (Grammar.seq [Grammar.node .convOp (Grammar.bumpWord w), Grammar.bump,
          Grammar.expect .identifier, Grammar.expect .rParen]) :=
      seq_records (node_records bumpWord_records (by decide))
        (seq_records bump_records (seq_records expect_records (last_records expect_records)))
    exact h r hd

theorem unwrap_records (h : Enough limit d) :
    Records d (unwrap limit) (Grammar.unwrap (maxLevels - d)) := by
  refine node_records (seq_records bump_records (seq_records bumpWord_records ?_)) (by decide)
  refine seq_records unwrapped_records (last_records (many_records ?_ fun ts hp => ?_))
  · exact andThen_records bump_records (labelFilters_records h)
  · exact Grammar.shorter_andThen (Grammar.shorter_bump (by rintro rfl; cases hp))

theorem brace_behind {ts : List Token}
    (h : (Grammar.kindAt 0 ts = .lParen && Grammar.kindAt 1 ts = .lBrace) = true) :
    Grammar.atKind .lBrace (Grammar.bump ts).rest = true := by
  obtain ⟨-, hb⟩ := Bool.and_eq_true_iff.mp h
  match ts with
  | [] => simp at hb
  | [t] => simp at hb
  | _ :: u :: _ => exact hb

theorem logRange_records (h : Enough limit d) :
    Records d (logRange limit) (Grammar.logRange (maxLevels - d)) := by
  have hp : ∀ p, Records d (when p (pipeline limit))
      (Grammar.when p (Grammar.pipeline (maxLevels - d))) := fun p =>
    when_records (pipeline_records h)
  refine node_records (seq_records (either_recordsAt ?_ ?_) ?_) (by decide)
  · refine seq_recordsAt (records_at bump_records) (seq_recordsAt selector_recordsAt
      (o := fun _ => true) ?_ fun _ _ => rfl) fun ts h => ?_
    · exact records_at (seq_records (hp _) (last_records expect_records))
    · exact brace_behind h
  · exact either_recordsAt selector_recordsAt missing_records
  · refine seq_records (when_records range_records) (seq_records (hp _) ?_)
    refine seq_records (when_records (unwrap_records h)) (seq_records ?_ ?_)
    · exact when_records range_records
    · exact last_records (when_records offset_records)

theorem grouping_records : Records d grouping Grammar.grouping := by
  refine node_records (seq_records ?_ (seq_records bump_records ?_)) (by decide)
  · exact either_records bumpWord_records bumpWord_records
  · refine seq_records (when_records ?_) (last_records expect_records)
    exact node_records (commaList_records bump_records) (by decide)

theorem arguments_records (h : Records d a q) : Records d (arguments a) (Grammar.arguments q) :=
  either_records (seq_records bump_records (seq_records h (last_records expect_records)))
    missing_records

theorem parameter_records : Records d parameter Grammar.parameter :=
  when_records (andThen_records bump_records bump_records)

theorem rangeAggregation_records {w : Keyword} (h : Enough limit d) :
    Records d (rangeAggregation limit w) (Grammar.rangeAggregation (maxLevels - d) w) := by
  refine node_records (seq_records (node_records bumpWord_records (by decide)) ?_) (by decide)
  refine seq_records (arguments_records (andThen_records parameter_records (logRange_records h))) ?_
  exact last_records (when_records grouping_records)

theorem vectorAggregation_records {w : Keyword} {inner : Recording (Option (Nat × α))}
    (h : Makes d .expr P inner q) :
    Records d (vectorAggregation inner w) (Grammar.vectorAggregation q w) := by
  refine node_records (seq_records (node_records bumpWord_records (by decide)) ?_) (by decide)
  refine seq_records (when_records grouping_records) (seq_records (arguments_records ?_) ?_)
  · exact andThen_records parameter_records (orMissing_records h (by decide))
  · exact last_records (when_records grouping_records)

theorem vectorLiteral_records : Records d vectorLiteral Grammar.vectorLiteral :=
  node_records (seq_records bumpWord_records (last_records (arguments_records expect_records)))
    (by decide)

/-- The call that a name opens is the same for a recording and for the grammar, and not a binary
expression. -/
def SameCall (d : Nat) : Option (Recording Unit) → Option Rule → Prop
  | some a, some q => Records d a q ∧ ∀ ts, Ahead .metricExpr (q ts).trees
  | none, none => True
  | _, _ => False

theorem call_same {inner : Recording (Option (Nat × α))} (hl : Enough limit d)
    (h : Makes d .expr P inner q) (name : Text) :
    SameCall d (call? limit inner name) (Grammar.call? (maxLevels - d) q name) := by
  unfold call? Grammar.call?
  cases Keyword.ofText? Keyword.rangeOps name with
  | some w => exact ⟨rangeAggregation_records hl, by rintro ts c ⟨⟩; rfl⟩
  | none =>
    cases Keyword.ofText? Keyword.vectorOps name with
    | some w => exact ⟨vectorAggregation_records h, by rintro ts c ⟨⟩; rfl⟩
    | none =>
      by_cases hv : name = Keyword.vector.text
      · simp only [hv, if_true]
        exact ⟨vectorLiteral_records, by rintro ts c ⟨⟩; rfl⟩
      · simp only [hv, if_false]
        trivial

end LogQuery.Recording
