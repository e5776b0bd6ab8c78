import LogQuery.Proofs.Grammar.SparedStage
import LogQuery.Proofs.Tree.Grown

/-! Log queries with a line filter behind them. It becomes one of the line filters that the query
ends in, or a stage of its own. -/
namespace LogQuery.Grammar

open LogQuery.Tree (AllFlawless Grown)

variable {l : LineTest} {ts us : List Token} {t : Token} {levels : Nat} {u : Tree}

/-- The tokens end in a name, and the last stage is one that a sign behind it would belong to. -/
structure EndsOpen (ts : List Token) (stages : List Tree) : Prop where
  name : ∃ x ∈ ts.getLast?, x.kind = .identifier
  stage : ∃ cs, stages.getLast? = some (.node .pipelineStage cs) ∧ ∃ s ∈ cs, s.kind ∈ openStages

/-- A line filter behind some stages does not become a part of the last of them. -/
def StaysApart (l : LineTest) (ts : List Token) (stages : List Tree) : Prop :=
  Compares l → ¬ EndsOpen ts stages

theorem atStage_end (h : atStage ts = true) : AtStageEnd ts := by
  have hk : kindAt 0 ts = .pipe ∨ kindAt 0 ts ∈ lineOps := by
    rcases Bool.or_eq_true_iff.mp h with h | h
    · obtain ⟨t, us, rfl, ht⟩ := atLineFilter_cons h
      exact Or.inr ht
    · exact Or.inl (of_decide_eq_true (Bool.and_eq_true_iff.mp h).1)
  rcases hk with hk | hk
  · rw [AtStageEnd, hk]
    decide
  · exact (by decide : ∀ k ∈ lineOps, k ∈ stageEnds) _ hk

/-- All tokens of a line filter are read as a tree. -/
structure ReadsLine (l : LineTest) (levels : Nat) (u : Tree) : Prop where
  trees : (lineFilter levels l.tokens).trees = [u]
  rest : (lineFilter levels l.tokens).rest = []

theorem readsLine (hl : l.levels ≤ levels) : ReadsLine l levels l.tree := by
  have htake : lineFilter levels (l.tokens ++ []) = ⟨[l.tree], [], l.levels, none⟩ :=
    lineFilter_takes l hl rfl
  rw [List.append_nil] at htake
  exact ⟨by rw [htake], by rw [htake]⟩

/-- Strings that are more than the levels are refused. -/
theorem orFilter_refused (vs : List LineValue) (h : levels < vs.length) :
    (when atOrValue (orFilter levels) (LineTest.orTokens vs)).rest = [] ∧
      ¬ AllFlawless (when atOrValue (orFilter levels) (LineTest.orTokens vs)).trees := by
  induction vs generalizing levels with
  | nil => cases h
  | cons v vs ih =>
    have htokens : LineTest.orTokens (v :: vs) =
        Keyword.or.token :: (v.tokens ++ LineTest.orTokens vs) := rfl
    have hlook : atOrValue (Keyword.or.token :: (v.tokens ++ LineTest.orTokens vs)) = true :=
      Bool.and_eq_true_iff.mpr ⟨rfl, atLineValue_tokens v _⟩
    rw [htokens, when_takes hlook]
    cases levels with
    | zero => exact ⟨skipUntil_nil_rest _, skipUntil_flawed (by simp) _⟩
    | succ levels =>
      have hmore : levels < vs.length := Nat.lt_of_succ_lt_succ h
      obtain ⟨hrest, hflawed⟩ := ih hmore
      have hv := lineValue_takes v (LineTest.orTokens vs)
      simp [orFilter, deepen, node, nodeBy, seq, andThen, Found.followed, bumpWord, bumpAs, hv,
        nothing, hrest, hflawed]

theorem readsLine_refused (h : levels < l.levels) : ∃ u, ReadsLine l levels u ∧ ¬ u.Flawless := by
  obtain ⟨hrest, hflawed⟩ := orFilter_refused l.more h
  have hv := lineValue_takes l.first (LineTest.orTokens l.more)
  refine ⟨_, ⟨rfl, ?_⟩, ?_⟩
  · simp [lineFilter, node, nodeBy, seq, andThen, Found.followed, LineTest.tokens, bump, hv,
      nothing, hrest]
  · simp [node, nodeBy, seq, andThen, Found.followed, LineTest.tokens, bump, hv, nothing,
      hflawed]

theorem lines_line (hu : ReadsLine l levels u) :
    (many atLineFilter (lineFilter levels) l.tokens).trees = [u] ∧
      (many atLineFilter (lineFilter levels) l.tokens).rest = [] := by
  have hlook : atLineFilter l.tokens = true := by
    simpa using atLineFilter_tokens l []
  rw [many_of_look hlook, Found.followed, hu.trees, hu.rest, many_nil]
  exact ⟨rfl, rfl⟩

theorem lineFilters_spared (h : (lineFilters levels ts).rest ≠ [])
    (hf : AllFlawless (lineFilters levels ts).trees) :
    Spared l (lineFilters levels ts) (lineFilters levels (ts ++ l.tokens)) :=
  node_spared (many_spared (P := fun _ => False) (fun _ _ h => h)
    (fun us hl _ => Spares.spares us (atLineFilter_ne_nil hl)) ts (Or.inr h)
    fun he => (h he).elim) hf

/-- A line filter right behind others is one more of them. -/
theorem lineFilters_grown (hu : ReadsLine l levels u) (hr : (lineFilters levels ts).rest = [])
    (hf : AllFlawless (lineFilters levels ts).trees) :
    ∃ cs, (lineFilters levels ts).trees = [.node .lineFilters cs] ∧
      (lineFilters levels (ts ++ l.tokens)).trees = [.node .lineFilters (cs ++ [u])] ∧
      (lineFilters levels (ts ++ l.tokens)).rest = [] := by
  obtain ⟨halone, hend⟩ := lines_line hu
  have hcs : AllFlawless (many atLineFilter (lineFilter levels) ts).trees := by
    simpa [lineFilters, node, nodeBy] using hf
  obtain ⟨htrees, hrest⟩ := many_line (l := l) (P := fun _ => True) (fun _ _ h => h)
    (fun us hl _ => Spares.spares us (atLineFilter_ne_nil hl)) ts (Or.inl trivial) hcs
  have hr : (many atLineFilter (lineFilter levels) ts).rest = [] := hr
  rw [hr, List.nil_append, halone] at htrees
  rw [hr, List.nil_append, hend] at hrest
  exact ⟨_, rfl, congrArg (fun cs => [Tree.node .lineFilters cs]) htrees, hrest⟩

theorem stage_lines (h : atLineFilter ts = true) :
    stage levels ts = node .pipelineStage (lineFilters levels) ts := by
  simp only [stage, node, nodeBy, either_takes h]

/-- A stage that begins with a bar. -/
theorem stage_bar (levels : Nat) (h : atLineFilter (t :: us) = false) :
    (stage levels (t :: us)).trees =
        [.node .pipelineStage (.ofToken t :: (pipedRule levels us).trees)] ∧
      (stage levels (t :: us)).rest = (pipedRule levels us).rest := by
  constructor
  · simp [stage, node, nodeBy, either_skips h, seq, andThen, Found.followed, bump, nothing,
      pipedRule]
  · simp [stage, node, nodeBy, either_skips h, seq, andThen, Found.followed, bump, nothing,
      pipedRule]

theorem stage_free (h : StaysApart l (t :: us) (stage levels (t :: us)).trees)
    (ho : atLineFilter (t :: us) = false) : Free l us (pipedRule levels us) := by
  by_cases hc : Compares l
  · by_cases hname : ∃ x ∈ us.getLast?, x.kind = .identifier
    · obtain ⟨x, hx, hk⟩ := hname
      refine Or.inr (Or.inr fun s hs hopen => h hc ⟨⟨x, ?_, hk⟩, ?_⟩)
      · rw [List.getLast?_cons, hx]
        rfl
      · rw [(stage_bar levels ho).1]
        exact ⟨_, rfl, s, .tail _ hs, hopen⟩
    · exact Or.inl fun _ x hx hk => hname ⟨x, hx, hk⟩
  · exact Or.inl fun hc' => (hc hc').elim

theorem stage_spared (ho : atLineFilter (t :: us) = false)
    (hs : StaysApart l (t :: us) (stage levels (t :: us)).trees ∨
      (stage levels (t :: us)).rest ≠ [])
    (he : AtStageEnd (stage levels (t :: us)).rest)
    (hf : AllFlawless (stage levels (t :: us)).trees) :
    Spared l (stage levels (t :: us)) (stage levels (t :: us ++ l.tokens)) := by
  obtain ⟨htrees, hrest⟩ := stage_bar levels ho
  have hlong : atLineFilter (t :: (us ++ l.tokens)) = false := (Firm.firm t us).trans ho
  obtain ⟨htrees', hrest'⟩ := stage_bar levels hlong
  have hfree : Free l us (pipedRule levels us) :=
    hs.elim (fun hs => stage_free hs ho) fun hs => Or.inr (Or.inl (hrest ▸ hs))
  have hpiped := pipedRule_spared hfree (unjoined_of_end l (hrest ▸ he)) (by
    rw [htrees] at hf
    simp only [Tree.allFlawless_cons, Tree.flawless_node] at hf
    exact hf.1.2.2)
  constructor
  · rw [List.cons_append, htrees', htrees, hpiped.trees]
  · rw [List.cons_append, hrest', hrest, hpiped.rest]

/-- Stages, one after the other. -/
def stages (levels : Nat) : Rule := many atStage (stage levels)

theorem stages_step (h : atStage ts = true) : stages levels ts =
    (stage levels ts).followed (stages levels (stage levels ts).rest) := many_of_look h

/-- A line filter alone is a stage. -/
theorem stages_line (hu : ReadsLine l levels u) :
    (stages levels l.tokens).trees = [.node .pipelineStage [.node .lineFilters [u]]] ∧
      (stages levels l.tokens).rest = [] := by
  have hlook : atLineFilter l.tokens = true := by
    simpa using atLineFilter_tokens l []
  obtain ⟨halone, hend⟩ := lines_line hu
  have hlines : (stage levels l.tokens).trees = [.node .pipelineStage [.node .lineFilters [u]]] ∧
      (stage levels l.tokens).rest = [] := by
    rw [stage_lines hlook, node, nodeBy, lineFilters, node, nodeBy, halone]
    exact ⟨rfl, hend⟩
  have hdone : stages levels [] = ⟨[], [], 0, none⟩ := many_nil
  rw [stages_step (by rw [atStage, hlook, Bool.true_or]), Found.followed, hlines.1, hlines.2, hdone]
  exact ⟨rfl, rfl⟩

theorem line_fresh (u : Tree) (cs : List Tree) :
    Grown u [] cs (cs ++ [.node .pipelineStage [.node .lineFilters [u]]]) :=
  .fresh (by decide) [] cs (.fresh (by decide) [] [] (.here [] []))

/-- A stage with another one behind it leaves a line filter. -/
theorem stage_passes (hnext : atStage (stage levels (t :: us)).rest = true)
    (hf : AllFlawless (stage levels (t :: us)).trees) :
    Spared l (stage levels (t :: us)) (stage levels (t :: us ++ l.tokens)) := by
  obtain ⟨u, vs, hrest⟩ := atStage_cons hnext
  have hne : (stage levels (t :: us)).rest ≠ [] := by simp [hrest]
  cases ho : atLineFilter (t :: us) with
  | false => exact stage_spared ho (Or.inr hne) (atStage_end hnext) hf
  | true =>
    have hlong : atLineFilter (t :: us ++ l.tokens) = true := (Firm.firm t us).trans ho
    rw [stage_lines ho] at hne hf ⊢
    rw [stage_lines hlong]
    exact node_spared (lineFilters_spared hne) hf

/-- The last stage. -/
theorem stage_grown (hu : ReadsLine l levels u)
    (hs : StaysApart l (t :: us) (stage levels (t :: us)).trees)
    (hr : (stage levels (t :: us)).rest = []) (hf : AllFlawless (stage levels (t :: us)).trees)
    (ho : atStage (t :: us) = true) :
    Grown u [] (stage levels (t :: us)).trees (stages levels (t :: us ++ l.tokens)).trees ∧
      (stages levels (t :: us ++ l.tokens)).rest = [] := by
  rw [stages_step ((Firm.firm t us).trans ho)]
  cases hline : atLineFilter (t :: us) with
  | false =>
    obtain ⟨halone, hend⟩ := stages_line hu
    have hspared := stage_spared hline (Or.inl hs) (by rw [hr]; exact .head _) hf
    rw [Found.followed, hspared.trees, hspared.rest, hr, List.nil_append, halone]
    exact ⟨line_fresh u _, hend⟩
  | true =>
    have hlong : atLineFilter (t :: us ++ l.tokens) = true := (Firm.firm t us).trans hline
    rw [stage_lines hline, node, nodeBy] at hr hf ⊢
    rw [stage_lines hlong, node, nodeBy]
    simp only [Tree.allFlawless_cons, Tree.flawless_node] at hf
    obtain ⟨cs, hcs, hds, hrest⟩ := lineFilters_grown hu hr hf.1.2
    have hdone : stages levels [] = ⟨[], [], 0, none⟩ := many_skips rfl
    rw [hcs, Found.followed, hds, hrest, hdone]
    exact ⟨.last (by decide) [] (.last (by decide) [] (.here [] cs)), rfl⟩

theorem endsOpen_rest (cs : List Tree) {ds : List Tree} {n : Nat} (hn : us = ts.drop n)
    (h : EndsOpen us ds) :
    EndsOpen ts (cs ++ ds) := by
  subst hn
  obtain ⟨⟨x, hx, hk⟩, es, hes, hopen⟩ := h
  refine ⟨⟨x, ?_, hk⟩, es, by rw [List.getLast?_append, hes]; rfl, hopen⟩
  rw [List.getLast?_drop] at hx
  split at hx
  · cases hx
  · exact hx

/-- Stages up to the end, with a line filter behind them. -/
theorem stages_grown (hu : ReadsLine l levels u) (ts : List Token)
    (hs : StaysApart l ts (stages levels ts).trees) (hr : (stages levels ts).rest = [])
    (hf : AllFlawless (stages levels ts).trees) :
    Grown u [] (stages levels ts).trees (stages levels (ts ++ l.tokens)).trees ∧
      (stages levels (ts ++ l.tokens)).rest = [] := by
  induction h : ts.length using Nat.strong_induction_on generalizing ts with
  | _ n ih =>
    subst h
    cases ho : atStage ts with
    | false =>
      obtain ⟨halone, hend⟩ := stages_line hu
      have hskip : stages levels ts = ⟨[], ts, 0, none⟩ := many_skips ho
      rw [hskip] at hr
      obtain rfl : ts = [] := hr
      rw [hskip, List.nil_append, halone]
      exact ⟨line_fresh u [], hend⟩
    | true =>
      obtain ⟨t, us, rfl⟩ := atStage_cons ho
      rw [stages_step ho] at hs hr hf ⊢
      obtain ⟨hfirst, hmore⟩ := Tree.allFlawless_append.mp hf
      cases hnext : atStage (stage levels (t :: us)).rest with
      | false =>
        have hskip : stages levels (stage levels (t :: us)).rest =
            ⟨[], (stage levels (t :: us)).rest, 0, none⟩ := many_skips hnext
        simp only [Found.followed, hskip, List.append_nil] at hs hr ⊢
        exact stage_grown hu hs hr hfirst ho
      | true =>
        have hspared := stage_passes (l := l) hnext hfirst
        obtain ⟨hgrown, hend⟩ := ih _ (stage_shorter levels ho) _
          (fun hc hopen => hs hc (endsOpen_rest _ (Agrees.counts _) hopen)) hr hmore rfl
        rw [stages_step ((Firm.firm t us).trans ho)]
        simp only [Found.followed, hspared.trees, hspared.rest]
        exact ⟨Tree.grown_append _ hgrown, hend⟩

section Query

variable {sel ss cs ds : List Tree} {x : Tree}

/-- The node of a pipeline, if it has stages. -/
def pipelined : List Tree → List Tree
  | [] => []
  | ss => [.node .pipelineExpr ss]

theorem pipelined_of_ne (h : ss ≠ []) : pipelined ss = [.node .pipelineExpr ss] := by
  cases ss with
  | nil => exact (h rfl).elim
  | cons s ss => rfl

theorem pipelined_grown (h : Grown u [] cs ds) :
    Grown u [] (pipelined cs) (pipelined ds) := by
  rw [pipelined_of_ne (Tree.grown_ne_nil h)]
  cases cs with
  | nil => exact .fresh (by decide) [] [] h
  | cons c cs => exact .last (by decide) [] h

theorem pipelined_flawless (h : AllFlawless (pipelined ss)) : AllFlawless ss := by
  cases ss with
  | nil => exact h
  | cons s ss =>
    rw [pipelined_of_ne (List.cons_ne_nil s ss), Tree.allFlawless_cons, Tree.flawless_node] at h
    exact h.1.2

theorem logExpr_parts (levels : Nat) (ts : List Token) :
    (logExpr levels ts).trees = [.node .logExpr ((selector ts).trees ++
        pipelined (stages levels (selector ts).rest).trees)] ∧
      (logExpr levels ts).rest = (stages levels (selector ts).rest).rest := by
  cases ho : atStage (selector ts).rest with
  | false =>
    have hskip : stages levels (selector ts).rest = ⟨[], (selector ts).rest, 0, none⟩ :=
      many_skips ho
    rw [hskip]
    simp [logExpr, node, nodeBy, seq, andThen, Found.followed, when_skips ho, nothing, pipelined]
  | true =>
    have hne : (stages levels (selector ts).rest).trees ≠ [] := by
      rw [stages_step ho]
      exact List.cons_ne_nil _ _
    rw [pipelined_of_ne hne]
    simp [logExpr, node, nodeBy, seq, andThen, Found.followed, when_takes ho, nothing, pipeline,
      stages]

theorem logExpr_grown (hu : ReadsLine l levels u) (hn : ts ≠ [])
    (hs : StaysApart l ts (stages levels (selector ts).rest).trees)
    (hr : (logExpr levels ts).rest = []) (hf : AllFlawless (logExpr levels ts).trees) :
    ∃ cs ds, (logExpr levels ts).trees = [.node .logExpr cs] ∧
      (logExpr levels (ts ++ l.tokens)).trees = [.node .logExpr ds] ∧
      (logExpr levels (ts ++ l.tokens)).rest = [] ∧ Grown u [] cs ds := by
  obtain ⟨htrees, hrest⟩ := logExpr_parts levels ts
  obtain ⟨hlong, hend⟩ := logExpr_parts levels (ts ++ l.tokens)
  have hcs := hf
  rw [htrees, Tree.allFlawless_cons, Tree.flawless_node, Tree.allFlawless_append] at hcs
  obtain ⟨⟨-, hselector, hpipe⟩, -⟩ := hcs
  have hspared := Spares.spares (l := l) (r := selector) ts hn hselector
  obtain ⟨hgrown, hdone⟩ := stages_grown hu _
    (fun hc hopen => hs hc (endsOpen_rest [] (Agrees.counts ts) hopen))
    (hrest ▸ hr) (pipelined_flawless hpipe)
  rw [hspared.trees, hspared.rest] at hlong
  rw [hspared.rest, hdone] at hend
  exact ⟨_, _, htrees, hlong, hend, Tree.grown_append _ (pipelined_grown hgrown)⟩

/-- The tree of a single log query below the root. -/
def logTrees (sel ss : List Tree) : List Tree :=
  [.node .expr [.node .logExpr (.node .selector sel :: pipelined ss)]]

section Chain

variable {join : List Token → Option Join} {wrap : List Tree → Tree} {rule : Nat → Rule}
  {least : Nat} {first : Rule} {lhs : Tree}

/-- What joining did not make is what there was. -/
theorem climb_alone (hw : ∀ cs, wrap cs ≠ x) (limit ts : List Token)
    (h : (climb join wrap rule least limit lhs ts).trees = [x]) :
    lhs = x ∧ (climb join wrap rule least limit lhs ts).rest = ts := by
  induction limit generalizing lhs ts with
  | nil => exact ⟨(List.cons.inj h).1, rfl⟩
  | cons _ limit ih =>
    rw [climb] at h ⊢
    split at h
    · exact ⟨(List.cons.inj h).1, rfl⟩
    · split at h
      · next hl =>
        rw [if_pos hl]
        exact ⟨(List.cons.inj h).1, rfl⟩
      · exact (hw _ (ih _ h).1).elim

theorem chain_alone (hw : ∀ cs, wrap cs ≠ x)
    (h : (chain first join wrap rule least ts).trees = [x]) :
    (first ts).trees = [x] ∧ (chain first join wrap rule least ts).rest = (first ts).rest := by
  unfold chain at h ⊢
  cases hfirst : (first ts).trees with
  | nil =>
    simp only [hfirst] at h
    cases h
  | cons lhs more =>
    cases more with
    | nil =>
      simp only [hfirst] at h ⊢
      obtain ⟨rfl, hrest⟩ := climb_alone hw _ _ h
      exact ⟨rfl, hrest⟩
    | cons _ _ =>
      simp only [hfirst] at h
      cases h

end Chain

theorem operand_opens {inner : Rule} (h : (operand levels inner ts).trees = logTrees sel ss) :
    ∃ t us, ts = t :: us ∧ t.kind = .lBrace := by
  cases ts with
  | nil => cases h
  | cons t us =>
    refine ⟨t, us, rfl, ?_⟩
    by_contra hk
    simp only [operand] at h
    split at h
    · next he => exact hk he
    · -- In brackets there is a bracket where the selector would be.
      obtain ⟨k, cs, hp⟩ : ∃ k cs, (node .expr (parentheses inner) (t :: us)).trees =
          [.node .expr [.node k (.ofToken t :: cs)]] := ⟨_, _, rfl⟩
      rw [hp, logTrees] at h
      simp [Tree.ofToken] at h
    · cases h
    · unfold when at h
      split at h <;> cases h
    · unfold when at h
      split at h <;> cases h
    · split at h <;> cases h
    · cases h

/-- Where a query is free of errors, its expression is all of it. -/
theorem contents_made (h : AllFlawless (contents levels ts).trees) :
    (expr levels 0 ts).rest = [] ∧ (contents levels ts).trees = (expr levels 0 ts).trees := by
  unfold contents at h ⊢
  obtain ⟨hfirst, hmore⟩ := Tree.allFlawless_append.mp h
  cases hr : (expr levels 0 ts).rest with
  | nil =>
    simp only [hr, List.isEmpty_nil, if_true] at hfirst hmore
    obtain ⟨-, hsame⟩ := orMissing_made (r := expr levels 0) hfirst
    have hrest : ((expr levels 0 ts).orMissing .expr).rest = [] := by
      rw [show (expr levels 0 ts).orMissing .expr = expr levels 0 ts from hsame, hr]
    refine ⟨rfl, ?_⟩
    simp only [andThen, hr, List.isEmpty_nil, if_true, Found.followed]
    rw [show (expr levels 0 ts).orMissing .expr = expr levels 0 ts from hsame, hr]
    exact List.append_nil _
  | cons u us =>
    simp only [hr, List.isEmpty_cons, Bool.false_eq_true, if_false] at hmore
    exact (skipUntil_flawed (by simp) us hmore).elim

theorem contents_whole (hr : (expr levels 0 ts).rest = []) (hx : (expr levels 0 ts).trees = [x])
    (hk : x.kind = .expr) : (contents levels ts).trees = [x] := by
  have hmade : (expr levels 0 ts).orMissing .expr = expr levels 0 ts := by
    rw [Found.orMissing, if_pos (by simp [Found.makes, hx, hk])]
  simp only [contents, andThen, hr, List.isEmpty_nil, if_true, hmade, Found.followed, hx]
  rfl

theorem pipelined_injective {cs ds : List Tree} (h : pipelined cs = pipelined ds) : cs = ds := by
  cases cs <;> cases ds <;> simp_all [pipelined]

/-- An operand that is a log query, and the expression around it, where it is all there is. -/
theorem operand_brace {inner : Rule} (ht : t.kind = .lBrace) :
    operand levels inner (t :: us) = node .expr (logExpr levels) (t :: us) := by
  simp only [operand, ht]

theorem expr_opens (h : (expr (levels + 1) 0 ts).trees = logTrees sel ss) :
    ∃ t us, ts = t :: us ∧ t.kind = .lBrace ∧
      (logExpr levels ts).trees = [.node .logExpr (.node .selector sel :: pipelined ss)] ∧
      (expr (levels + 1) 0 ts).rest = (logExpr levels ts).rest := by
  obtain ⟨hfirst, hrest⟩ := chain_alone (by simp [binary]) h
  obtain ⟨t, us, rfl, ht⟩ := operand_opens hfirst
  rw [operand_brace ht] at hfirst hrest
  exact ⟨t, us, rfl, ht, by simpa [node, nodeBy, logTrees] using hfirst, hrest⟩

theorem expr_whole (ht : t.kind = .lBrace) (hr : (logExpr levels (t :: us)).rest = []) :
    (expr (levels + 1) 0 (t :: us)).trees = [.node .expr (logExpr levels (t :: us)).trees] ∧
      (expr (levels + 1) 0 (t :: us)).rest = [] := by
  have hfirst : operand levels (expr levels 0) (t :: us) =
      ⟨[.node .expr (logExpr levels (t :: us)).trees], [], (logExpr levels (t :: us)).depth,
        (logExpr levels (t :: us)).cut⟩ := by
    rw [operand_brace ht, node, nodeBy, hr]
  rw [expr, deepen, chain_eq hfirst, joined_of_none rfl]
  exact ⟨rfl, rfl⟩

/-- A log query with a line filter behind it. -/
theorem contents_grown (hu : ReadsLine l levels u)
    (h : (contents (levels + 1) ts).trees = logTrees sel ss) (hf : AllFlawless (logTrees sel ss))
    (hs : StaysApart l ts ss) : Grown u [] (logTrees sel ss)
      (contents (levels + 1) (ts ++ l.tokens)).trees := by
  obtain ⟨hrest, htrees⟩ := contents_made (h ▸ hf)
  obtain ⟨t, us, rfl, ht, hlog, hleft⟩ := expr_opens (htrees.symm.trans h)
  rw [hrest] at hleft
  have hss : (stages levels (selector (t :: us)).rest).trees = ss := by
    obtain ⟨cs, hsel⟩ : ∃ cs, (selector (t :: us)).trees = [.node .selector cs] := ⟨_, rfl⟩
    rw [(logExpr_parts levels (t :: us)).1, hsel] at hlog
    exact pipelined_injective (List.cons.inj (Tree.node.inj (List.cons.inj hlog).1).2).2
  obtain ⟨cs, ds, hcs, hds, hend, hgrown⟩ := logExpr_grown hu (List.cons_ne_nil t us)
    (hss ▸ hs) hleft.symm (by
      rw [hlog]
      simp only [logTrees, Tree.allFlawless_cons, Tree.flawless_node] at hf
      simpa using hf.1.2)
  rw [List.cons_append] at hds hend
  obtain ⟨hlong, hdone⟩ := expr_whole ht hend
  rw [hds] at hlong
  rw [List.cons_append, contents_whole hdone hlong rfl]
  rw [hlog] at hcs
  obtain rfl : _ = cs := (Tree.node.inj (List.cons.inj hcs).1).2
  exact .last (by decide) [] (.last (by decide) [] hgrown)

end Query

end LogQuery.Grammar
