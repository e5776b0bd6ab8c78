import LogQuery.Proofs.Metric.Expression
import LogQuery.Proofs.Metric.Flawless
import LogQuery.Proofs.Metric.Reader

/-! What is printed is read back: log queries, and metric expressions with parentheses at least
where the levels of their operators ask for them. -/
namespace LogQuery

open Kind (mark)
open LogQuery.Tree (kindsAll)

namespace Grammar

variable {levels : Nat}

theorem expr_takes_metric (e : Metric) (hc : e.Clear) (hl : e.levels ≤ levels) :
    expr levels 0 e.tokens = ⟨[e.tree], [], e.levels, none⟩ := by
  rw [Metric.levels] at hl ⊢
  obtain ⟨levels, rfl⟩ : ∃ l, levels = l + 1 := ⟨levels - 1, by omega⟩
  have hend : ∀ n, Stops binaryJoin n [] := fun n => stops_of_kind (.head _)
  have hinner : e.inner ≤ levels := by omega
  have h := metric_takes e hc hinner (Nat.zero_le _) (hend _) rfl
  rw [List.append_nil] at h
  exact expr_takes_chain h (hend 0)

theorem queryTree_metric (e : Metric) (hc : e.Clear) (hl : e.levels ≤ levels) :
    queryTree levels e.tokens = .node .logQl [e.tree] := by
  have hmakes : (⟨[e.tree], [], e.levels, none⟩ : Found).makes .expr = true := by
    simp [Found.makes, e.kind_tree]
  rw [queryTree, contents, andThen, expr_takes_metric e hc hl]
  simp [Found.orMissing, hmakes, Found.followed, skipUntil, nothing]

end Grammar

/-- A log query that is printed with a blank between its tokens is read back. -/
theorem parse_reads_sentence (s : Sentence) (hr : s.Readable) (hl : s.levels ≤ Grammar.maxLevels) :
    Sentence.ofTree? (parse (Token.spaced s.tokens)).strip = some s := by
  rw [parse_strip, Token.significant_spaced (sentence_printed s),
    Grammar.queryTree_sentence s hl hr]
  exact s.ofTree?_tree

/-- Every metric expression can be written with enough parentheses. However it is written with
them, if it nests no deeper than the grammar allows, it has no error node when it is printed with a
blank between its tokens, and its tree is read back as the expression with the parentheses that it
was written with. -/
theorem parse_metric (e : Metric) :
    (∃ w : Metric, w.plain = e.plain ∧ w.Clear) ∧
      ∀ w : Metric, w.plain = e.plain → w.Clear → w.levels ≤ Grammar.maxLevels →
        (parse (Token.spaced w.tokens)).holds .error = false ∧
          Metric.ofQuery? (parse (Token.spaced w.tokens)).strip = some w := by
  refine ⟨⟨e.guarded, e.guarded_plain, e.guarded_clear⟩, fun w _ hc hl => ?_⟩
  have ht : (parse (Token.spaced w.tokens)).strip = .node .logQl [w.tree] := by
    rw [parse_strip, Token.significant_spaced w.tokens_printed, Grammar.queryTree_metric w hc hl]
  refine ⟨?_, ?_⟩
  · rw [Tree.holds, Bool.eq_false_iff]
    intro he
    have h := Tree.kinds_strip _ (l := .error) rfl (List.contains_iff_mem.mp he)
    have hw : (Tree.node .logQl [w.tree]).Flawless := by simp [Tree.metric_flawless w]
    rw [ht] at h
    exact hw h
  · rw [ht]
    exact w.ofTree?_tree

namespace Metric

def one : Metric := number none ⟨"1".toList, by decide⟩

/-- An aggregation over a range of an unwrapped label, raised to a power and compared. -/
def sampleMetric : Metric :=
  let bytes : LogRange := {
    logs := ⟨[⟨⟨"job".toList, by decide⟩, ⟨.neq, by decide⟩, ⟨"\"\"".toList, by decide⟩⟩], false,
      [.piped (.json [])]⟩
    readable := ⟨by decide, by decide⟩
    unwrapping := some ⟨some ⟨.bytesConversion, by decide⟩, ⟨"sent".toList, by decide⟩,
      [.one (.one (.test (.amount ⟨"unwrap".toList, by decide⟩ ⟨.lss, by decide⟩
        ⟨.number, by decide⟩ ⟨"2".toList, by decide⟩)))]⟩
    duration := ⟨"1m".toList, by decide⟩
    offset := some ⟨"1h".toList, by decide⟩ }
  binary ⟨.gte, by decide⟩ true
    (binary ⟨.pow, by decide⟩ false
      (aggregate ⟨.topk, by decide⟩ (some ⟨⟨.groupBy, by decide⟩, [⟨"job".toList, by decide⟩]⟩)
        (some ⟨"3".toList, by decide⟩)
        (binary ⟨.sub, by decide⟩ false
          (range ⟨.rate, by decide⟩ none bytes none)
          (parens (binary ⟨.sub, by decide⟩ false one one)))
        none)
      (number (some ⟨.sub, by decide⟩) ⟨"1".toList, by decide⟩))
    (vector ⟨"0".toList, by decide⟩)

def sampleText : Text :=
  "topk by ( job ) ( 3 , rate ( \x7b job != \"\" \x7d | json | unwrap bytes ( sent ) ".toList ++
    "| unwrap < 2 [ 1m ] offset 1h ) - ( 1 - 1 ) ) ^ - 1 >= bool vector ( 0 )".toList

end Metric

theorem parse_metric_sample :
    (parse Metric.sampleText).holds .error = false ∧
      Metric.ofQuery? (parse Metric.sampleText).strip = some Metric.sampleMetric := by
  have ht : Token.spaced Metric.sampleMetric.tokens = Metric.sampleText := by decide +kernel
  have hc : Metric.sampleMetric.Clear := by
    simp [Metric.sampleMetric, Metric.Clear, Metric.Fits, Metric.level, Metric.one,
      Kind.operatorLevel]
  rw [← ht]
  exact (parse_metric Metric.sampleMetric).2 Metric.sampleMetric rfl hc (by decide)

namespace Metric

/-- A number in some pairs of parentheses. -/
def nested : Nat → Metric
  | 0 => one
  | n + 1 => parens (nested n)

theorem nested_clear (n : Nat) : (nested n).Clear := by
  induction n with
  | zero => trivial
  | succ n ih => exact ih

theorem nested_plain (n : Nat) : (nested n).plain = nested 0 := by
  induction n with
  | zero => rfl
  | succ n ih => exact ih

end Metric

namespace Grammar

section Refused

variable {levels least : Nat} {ts : List Token} {join : List Token → Option Join}
  {wrap : List Tree → Tree} {operand : Nat → Rule} {first : Rule} {lhs : Tree}

/-- An error node in an operand stays in all that is joined to it. -/
theorem climb_keeps_error (hw : ∀ cs, .error ∈ kindsAll cs → .error ∈ (wrap cs).kinds)
    (h : .error ∈ lhs.kinds) (limit ts : List Token) :
    .error ∈ kindsAll (climb join wrap operand least limit lhs ts).trees := by
  induction limit generalizing lhs ts with
  | nil => simpa [climb, kindsAll] using h
  | cons _ limit ih =>
    rw [climb]
    split
    · simpa [kindsAll] using h
    · split
      · simpa [kindsAll] using h
      · exact ih (hw _ (by simp [kindsAll, h])) _

theorem chain_keeps_error (hw : ∀ cs, .error ∈ kindsAll cs → .error ∈ (wrap cs).kinds)
    (h : .error ∈ kindsAll (first ts).trees) :
    .error ∈ kindsAll (chain first join wrap operand least ts).trees := by
  rw [chain]
  split
  · next lhs hl =>
    rw [hl] at h
    exact climb_keeps_error hw (by simpa [kindsAll] using h) _ _
  · exact h

theorem orMissing_keeps_error {k : Kind} {r : Rule} (h : .error ∈ kindsAll (r ts).trees) :
    .error ∈ kindsAll (orMissing k r ts).trees := by
  rw [orMissing, Found.orMissing]
  split
  · exact h
  · simp [Found.followed, kindsAll_append, h]

theorem parentheses_keep_error {inner : Rule} {t : Token} (h : .error ∈ kindsAll (inner ts).trees) :
    .error ∈ kindsAll (node .expr (parentheses inner) (t :: ts)).trees := by
  have hm := orMissing_keeps_error (k := .expr) h
  simp [node, nodeBy, parentheses, seq, andThen, Found.followed, bump, kindsAll, Tree.kinds,
    kindsAll_append, hm]

theorem contents_keep_error (h : .error ∈ kindsAll (expr levels 0 ts).trees) :
    .error ∈ kindsAll (contents levels ts).trees := by
  have hm := orMissing_keeps_error (k := .expr) h
  simp only [contents, andThen, Found.followed, kindsAll_append, List.mem_append]
  left
  split
  · exact hm
  · exact h

end Refused

/-- The innermost parentheses are refused, and the error node of what they hold stays. -/
theorem parens_refused {levels least n : Nat} {us : List Token} (h : levels ≤ n) :
    .error ∈ kindsAll (expr levels least ((Metric.nested n).tokens ++ us)).trees := by
  induction levels generalizing least n us with
  | zero =>
    cases n <;> simp [expr, refuse, skipUntil, Metric.nested, Metric.one, Metric.tokens,
      Metric.signTokens, kindsAll, Tree.kinds]
  | succ levels ih =>
    obtain ⟨n, rfl⟩ : ∃ m, n = m + 1 := ⟨n - 1, by omega⟩
    have hbinary : ∀ cs, .error ∈ kindsAll cs → .error ∈ (binary cs).kinds := fun cs hc => by
      simp [binary, Tree.kinds, kindsAll, hc]
    -- One pair takes one level, and what it holds has one pair and one level less.
    have hinner := @ih 0 n (mark .rParen :: us) (by omega)
    have hopen : operand levels (expr levels 0)
        (mark .lParen :: ((Metric.nested n).tokens ++ mark .rParen :: us)) =
          node .expr (parentheses (expr levels 0)) _ := rfl
    have hfirst : .error ∈ kindsAll (operand levels (expr levels 0)
        ((Metric.nested (n + 1)).tokens ++ us)).trees := by
      rw [Metric.nested, Metric.tokens, List.cons_append, List.append_assoc, List.singleton_append,
        hopen]
      exact parentheses_keep_error hinner
    exact chain_keeps_error hbinary hfirst

end Grammar

/-- As many pairs of parentheses as there are levels are refused, whatever they are for. -/
theorem nested_error {n : Nat} (h : Grammar.maxLevels ≤ n) :
    (parse (Token.spaced (Metric.nested n).tokens)).holds .error = true := by
  have he := @Grammar.parens_refused _ 0 n [] h
  rw [List.append_nil] at he
  have hq : .error ∈ (Grammar.queryTree Grammar.maxLevels (Metric.nested n).tokens).kinds :=
    List.mem_cons_of_mem _ (Grammar.contents_keep_error he)
  rw [Tree.holds, parse, Token.significant_spaced (Metric.tokens_printed _)]
  exact List.contains_iff_mem.mpr (Tree.kinds_withTrivia _ _ hq)

theorem parse_nested_refused :
    (Metric.nested 256).plain = Metric.nested 0 ∧ (Metric.nested 256).Clear ∧
      (parse (Token.spaced (Metric.nested 256).tokens)).holds .error = true :=
  ⟨Metric.nested_plain 256, Metric.nested_clear 256, nested_error le_rfl⟩

end LogQuery
