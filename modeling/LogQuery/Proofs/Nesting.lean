import LogQuery.Proofs.Grammar.Unwound
import LogQuery.Proofs.Tight

/-! Nesting in a query. Every rule returns at the depth at which it was entered, and no level is
entered past the last. Where a level is refused, what is left of the query is one error node. -/
namespace LogQuery

namespace Tree

variable {f : Tree}

/-- A tree is what another one is when trivia are put back. -/
def FilledFrom (filled t : Tree) : Prop := ∃ ts, filled = (t.fill ts).1

theorem filledFrom_strip {t : Tree} (h : FilledFrom f t) : f.strip = t.strip := by
  obtain ⟨ts, rfl⟩ := h
  exact strip_fill t ts

mutual

theorem errors_fill : (t : Tree) → (ts : List Token) →
    List.Forall₂ FilledFrom (t.fill ts).1.errors t.errors
  | leaf _ _, _ => .nil
  | node k cs, ts => by
    have hcs := errorsAll_fillAll cs ts
    rw [fill, errors, errors]
    split
    · exact .cons ⟨ts, rfl⟩ hcs
    · exact hcs

theorem errorsAll_fillAll : (cs : List Tree) → (ts : List Token) →
    List.Forall₂ FilledFrom (errorsAll (fillAll cs ts).1) (errorsAll cs)
  | [], _ => .nil
  | c :: cs, ts => by
    rw [fillAll, errorsAll_append, errorsAll_tokens, errorsAll, errorsAll]
    exact List.rel_append (errors_fill c _) (errorsAll_fillAll cs _)

end

mutual

theorem errors_kinds : (t : Tree) → .error ∉ t.kinds → t.errors = []
  | leaf _ _, _ => rfl
  | node k cs, h => by
    rw [kinds, List.mem_cons, not_or] at h
    rw [errors, if_neg (Ne.symm h.1), errorsAll_kinds cs h.2]

theorem errorsAll_kinds : (cs : List Tree) → .error ∉ kindsAll cs → errorsAll cs = []
  | [], _ => rfl
  | c :: cs, h => by
    rw [kindsAll, List.mem_append, not_or] at h
    rw [errorsAll, errors_kinds c h.1, errorsAll_kinds cs h.2]
    rfl

end

end Tree

namespace Recording

open Grammar (atKind maxLevels)

variable {a : Recording Unit} {limit : Nat} {r : Recorder}

/-- The rules of the grammar as they are recorded at some tokens, with a limit on how deep they
nest. Parentheses are entered at a token only, and selectors at an opening brace. -/
inductive IsRule (limit : Nat) (ts : List Token) : Recording Unit → Prop
  | root : IsRule limit ts root
  | expr (least : Nat) : IsRule limit ts (do let _ ← expr limit least)
  | binary (least : Nat) :
    IsRule limit ts (do
      let _ ← chain (attempt .expr (operand limit (expr limit 0))) binaryJoin
        (fun right => orMissing (expr limit right)) closeBinary least)
  | operand : IsRule limit ts (do let _ ← attempt .expr (operand limit (expr limit 0)))
  | parentheses (h : ts ≠ []) : IsRule limit ts (do let _ ← parentheses (expr limit 0))
  | literal : IsRule limit ts literal
  | missing : IsRule limit ts missing
  | expect (k : Kind) : IsRule limit ts (expect k)
  | skipUntil (stops : List Kind) : IsRule limit ts (skipUntil stops)
  | logExpr (h : atKind .lBrace ts = true) : IsRule limit ts (logExpr limit)
  | selector (h : atKind .lBrace ts = true) : IsRule limit ts selector
  | matcher : IsRule limit ts matcher
  | matchers : IsRule limit ts (node .matchers (commaList matcher))
  | pipeline : IsRule limit ts (pipeline limit)
  | stage : IsRule limit ts (stage limit)
  | lineFilters : IsRule limit ts (lineFilters limit)
  | lineFilter : IsRule limit ts (lineFilter limit)
  | lineValue : IsRule limit ts lineValue
  | orFilter : IsRule limit ts (orFilter limit)
  | labelFilter (least : Nat) : IsRule limit ts (do let _ ← labelFilter limit least)
  | labelChain (least : Nat) :
    IsRule limit ts (do
      let _ ← chain (attempt .labelFilter (labelOperand (labelFilter limit 0))) labelJoin
        (fun right => orMissing (labelFilter limit right)) closeLabel least)
  | labelOperand :
    IsRule limit ts (do let _ ← attempt .labelFilter (labelOperand (labelFilter limit 0)))
  | labelComparison : IsRule limit ts labelComparison
  | ipLabelFilter : IsRule limit ts ipLabelFilter
  | comparison (value k : Kind) (hk : k ∉ Tree.enclosingKinds) :
    IsRule limit ts (comparison value k)
  | wordStage : IsRule limit ts wordStage
  | namedStage (w : Keyword) : IsRule limit ts (namedStage w)
  | labelExtractions : IsRule limit ts labelExtractions
  | labelExtraction : IsRule limit ts labelExtraction
  | labelFormat : IsRule limit ts labelFormat
  | labelChoice (k : Kind) (hk : k ∉ Tree.enclosingKinds) : IsRule limit ts (labelChoice k)
  | call (name : Text) (a : Recording Unit) (h : call? limit (expr limit 0) name = some a) :
    IsRule limit ts a
  | logRange : IsRule limit ts (logRange limit)
  | range : IsRule limit ts range
  | offset : IsRule limit ts offset
  | unwrap : IsRule limit ts (unwrap limit)
  | grouping : IsRule limit ts grouping

/-- A rule comes to an end and records what some rule of the grammar finds. -/
theorem rule_gives (h : IsRule limit r.rest a) (hl : Enough limit r.depth) :
    ∃ f, Gives a r f fun _ _ => True := by
  cases h with
  | root => exact ⟨_, root_gives rfl⟩
  | expr least => exact ⟨_, makes_records (expr_makes hl) r rfl⟩
  | binary least => exact ⟨_, makes_records (binary_makes hl fun _ => expr_makes hl) r rfl⟩
  | operand =>
    exact ⟨_, gives_map (operand_tries hl (expr_makes hl) r rfl) fun _ _ _ _ => trivial⟩
  | parentheses h =>
    obtain ⟨t, us, hr⟩ := List.exists_cons_of_ne_nil h
    obtain ⟨_, -, -, hg⟩ := parentheses_gives (expr_makes hl) rfl hr
    exact ⟨_, gives_map hg fun _ _ _ _ => trivial⟩
  | literal => exact ⟨_, literal_records r rfl⟩
  | missing => exact ⟨_, missing_records r rfl⟩
  | expect k => exact ⟨_, expect_records r rfl⟩
  | skipUntil stops => exact ⟨_, skipUntil_records stops r rfl⟩
  | logExpr h => exact ⟨_, logExpr_recordsAt hl r rfl h⟩
  | selector h => exact ⟨_, selector_recordsAt r rfl h⟩
  | matcher => exact ⟨_, matcher_records r rfl⟩
  | matchers => exact ⟨_, node_records (commaList_records matcher_records) (by decide) r rfl⟩
  | pipeline => exact ⟨_, pipeline_records hl r rfl⟩
  | stage => exact ⟨_, stage_records hl r rfl⟩
  | lineFilters => exact ⟨_, lineFilters_records hl r rfl⟩
  | lineFilter => exact ⟨_, lineFilter_records hl r rfl⟩
  | lineValue => exact ⟨_, lineValue_records r rfl⟩
  | orFilter => exact ⟨_, orFilter_records hl r rfl⟩
  | labelFilter least => exact ⟨_, makes_records (labelFilter_makes hl) r rfl⟩
  | labelChain least =>
    exact ⟨_, makes_records (labelChain_makes fun _ => labelFilter_makes hl) r rfl⟩
  | labelOperand =>
    exact ⟨_, gives_map (labelOperand_tries (labelFilter_makes hl) r rfl) fun _ _ _ _ => trivial⟩
  | labelComparison => exact ⟨_, labelComparison_records r rfl⟩
  | ipLabelFilter => exact ⟨_, ipLabelFilter_records r rfl⟩
  | comparison value k hk => exact ⟨_, comparison_records value hk r rfl⟩
  | wordStage => exact ⟨_, wordStage_records r rfl⟩
  | namedStage w => exact ⟨_, namedStage_records w r rfl⟩
  | labelExtractions => exact ⟨_, labelExtractions_records r rfl⟩
  | labelExtraction => exact ⟨_, labelExtraction_records r rfl⟩
  | labelFormat => exact ⟨_, labelFormat_records r rfl⟩
  | labelChoice k hk => exact ⟨_, labelChoice_records hk r rfl⟩
  | call name a h =>
    have hc := call_same hl ((expr_makes hl : Makes _ _ _ (expr limit 0) _)) name
    rw [h] at hc
    cases hq : Grammar.call? (maxLevels - r.depth) (Grammar.expr (maxLevels - r.depth) 0) name with
    | none => simp [hq, SameCall] at hc
    | some q =>
      rw [hq] at hc
      exact ⟨_, hc.1 r rfl⟩
  | logRange => exact ⟨_, logRange_records hl r rfl⟩
  | range => exact ⟨_, range_records r rfl⟩
  | offset => exact ⟨_, offset_records r rfl⟩
  | unwrap => exact ⟨_, unwrap_records hl r rfl⟩
  | grouping => exact ⟨_, grouping_records r rfl⟩

end Recording

open LogQuery.Tree (errorsAll FilledFrom)
open Grammar (maxLevels)

variable {query : Text} {us : List Token}

/-- The error nodes of a query are those of the grammar, with trivia put back. -/
theorem parse_errors (query : Text) :
    List.Forall₂ FilledFrom (parse query).errors (errorsAll (stripped query)) := by
  have he : (parse query).errors = errorsAll
      (Tree.fillAll (stripped query) (Token.lex query)).1 := by
    show (Tree.node .logQl _).errors = _
    rw [Tree.errors_node rfl, Tree.errorsAll_append, Tree.errorsAll_tokens, List.append_nil]
    rfl
  rw [he]
  exact Tree.errorsAll_fillAll _ _

theorem strip_tokens (h : us <:+ significant query) :
    (Tree.node .error (us.map .ofToken)).strip = .node .error (us.map .ofToken) := by
  have hs : Token.significant us = us := List.filter_eq_self.mpr fun u hu =>
    (List.mem_filter.mp (h.subset hu)).2
  rw [Tree.strip, Tree.stripAll_tokens, hs]

/-- Where a level is refused, one error node of the query holds the tokens that are left. -/
theorem parse_lodged
    (h : Grammar.Lodged us (errorsAll (stripped query))) (hs : us <:+ significant query) :
    ∃ before e after, (parse query).errors = before ++ e :: after ∧
      e.strip = .node .error (us.map .ofToken) ∧ ∀ z ∈ after, z = .node .error [] := by
  obtain ⟨before, after, he, hafter⟩ := h
  have hf := parse_errors query
  rw [he] at hf
  have hdrop := List.forall₂_drop_append _ _ _ hf
  generalize hd : (parse query).errors.drop before.length = ds at hdrop
  cases hdrop with
  | @cons e _ more _ hfill hmore =>
    refine ⟨(parse query).errors.take before.length, e, more, ?_,
      (Tree.filledFrom_strip hfill).trans (strip_tokens hs), fun z hz => ?_⟩
    · rw [← hd, List.take_append_drop]
    · obtain ⟨e', he', ts, rfl⟩ := exists_of_forall₂ hmore hz
      rw [hafter e' he']
      rfl

/-- Every rule returns at the depth at which it was entered, and the depth stays within its limit.
The error nodes of a query hold tokens only. Where a level is refused, the significant tokens from
there to the end are those of one error node, with their kinds; the error nodes behind it are empty,
and the query is not valid. Where none is refused, more levels change nothing. -/
theorem parse_nested (query : Text) :
    ∃ r, Recording.root (Recorder.ofTokens (significant query)) = some ((), r) ∧
      r.deepest ≤ maxLevels ∧
      (∀ limit a s, Recording.IsRule limit s.rest a → Recording.Enough limit s.depth →
        ∃ t, a s = some ((), t) ∧ t.depth = s.depth ∧
          (s.deepest ≤ maxLevels → t.deepest ≤ maxLevels)) ∧
      (∀ e ∈ (parse query).errors, ∃ us : List Token, e.strip = .node .error (us.map .ofToken)) ∧
      (∀ us, r.refused = some us → us <:+ significant query ∧ isValid query = false ∧
        ∃ before e after, (parse query).errors = before ++ e :: after ∧
          e.strip = .node .error (us.map .ofToken) ∧ ∀ z ∈ after, z = .node .error []) ∧
      (r.refused = none → ∀ levels, maxLevels ≤ levels →
        (Grammar.queryTree levels (significant query)).withTrivia (Token.lex query) =
          parse query) := by
  obtain ⟨_, r, hr, h, -⟩ := Recording.root_gives (r := .ofTokens (significant query)) rfl
  have hcut : r.refused = (Grammar.contents maxLevels (significant query)).cut := h.refused
  have hunwinds : ∀ more, Grammar.Unwinds (Grammar.contents maxLevels)
      (Grammar.contents (maxLevels + more)) := fun _ => inferInstance
  have hunwound := (hunwinds 0).unwound (significant query)
  refine ⟨r, hr, h.deepest (Nat.zero_le _), ?_, fun e he => ?_, fun us hu => ?_, fun hn => ?_⟩
  · intro limit a s ha hl
    obtain ⟨_, _, t, ht, hrt, -⟩ := Recording.rule_gives ha hl
    exact ⟨t, ht, hrt.depth, hrt.deepest⟩
  · obtain ⟨e', he', hfill⟩ := exists_of_forall₂ (parse_errors query) he
    obtain ⟨us, rfl⟩ := hunwound.flat e' he'
    exact ⟨_, by rw [Tree.filledFrom_strip hfill, Tree.strip, Tree.stripAll_tokens]⟩
  · obtain ⟨-, hs, hlodged⟩ := hunwound.refused us (hcut.symm.trans hu)
    refine ⟨hs, ?_, parse_lodged hlodged hs⟩
    rw [Bool.eq_false_iff]
    intro hv
    obtain ⟨before, after, he, -⟩ := hlodged
    have hnone := Tree.errorsAll_kinds _ (stripped_flawless hv)
    simp [stripped, he] at hnone
  · intro levels hl
    obtain ⟨more, rfl⟩ := Nat.exists_eq_add_of_le hl
    rw [parse, Grammar.queryTree, Grammar.queryTree,
      (hunwinds more).same _ (hcut.symm.trans hn)]
    rfl

end LogQuery
