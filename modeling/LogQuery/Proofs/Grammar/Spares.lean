import LogQuery.Proofs.Grammar.Agree
import LogQuery.Proofs.Grammar.LogShape
import LogQuery.Proofs.Sentence.Flawless
import LogQuery.Proofs.Sentence.Stage

/-! Rules with a line filter behind the tokens. A rule that finds no error takes the same tokens and
leaves the line filter, as long as no name at the end of the tokens waits for an operator. -/
namespace LogQuery.Grammar

open LogQuery.Tree (AllFlawless leavesAll)

variable {l : LineTest} {k : Kind} {ks : List Kind} {ts us : List Token} {t : Token} {p q : Look}
  {a b r : Rule} {rs : List Rule} {f g f' g' : Found} {w : Keyword}

/-- The same trees, and the line filter behind what is left. -/
structure Spared (l : LineTest) (f g : Found) : Prop where
  trees : g.trees = f.trees
  rest : g.rest = f.rest ++ l.tokens

/-- A rule that leaves a line filter behind some tokens if it finds no error in these. -/
class Spares (l : LineTest) (r : Rule) : Prop where
  spares : ∀ ts, ts ≠ [] → AllFlawless (r ts).trees → Spared l (r ts) (r (ts ++ l.tokens))

/-- A rule that leaves a line filter where there is no other token. -/
class Skips (l : LineTest) (r : Rule) : Prop where
  skips : AllFlawless (r []).trees → Spared l (r []) (r l.tokens)

/-- A rule that is missing something where there is no token. -/
class Lacks (r : Rule) : Prop where
  lacks : ¬ AllFlawless (r []).trees

/-- A look from a token on does not tell a line filter from the end. -/
class Firm (l : LineTest) (p : Look) : Prop where
  firm : ∀ t ts, p (t :: ts ++ l.tokens) = p (t :: ts)

/-- A look that neither the end nor a line filter answers. -/
class Blank (l : LineTest) (p : Look) : Prop where
  nil : p [] = false
  line : p l.tokens = false

section Looks

theorem line_ne (l : LineTest) (hk : k ∉ lineOps) : l.op.val ≠ k := fun h => hk (h ▸ l.op.property)

theorem kindAt_line (l : LineTest) (hk : k ∉ lineOps) (hn : k ≠ .eof) (us : List Token) :
    kindAt 0 (us ++ l.tokens) = k ↔ kindAt 0 us = k := by
  cases us with
  | nil => exact ⟨fun h => (line_ne l hk h).elim, fun h => (hn h.symm).elim⟩
  | cons u us => exact Iff.rfl

theorem wordAt_line (l : LineTest) (w : Keyword) (us : List Token) :
    wordAt 0 w (us ++ l.tokens) = wordAt 0 w us := by
  cases us with
  | nil =>
    have hk : kindAt 0 l.tokens ≠ .identifier := line_ne l (by decide)
    exact wordAt_of_kindAt hk w
  | cons u us => rfl

theorem atKind_line (l : LineTest) (hk : k ∉ lineOps) (us : List Token) :
    atKind k (us ++ l.tokens) = atKind k us := by
  cases us with
  | nil => exact atKind_of_kindAt (line_ne l hk)
  | cons u us => rfl

theorem atLineValue_line (l : LineTest) (us : List Token) :
    atLineValue 0 (us ++ l.tokens) = atLineValue 0 us := by
  simp only [atLineValue, wordAt_line, kindAt_line l (k := .string) (by decide) (by decide)]

instance : Firm l (atKind k) := ⟨fun _ _ => rfl⟩

instance : Firm l (atAny ks) := ⟨fun _ _ => rfl⟩

instance : Firm l (wordAt 0 w) := ⟨fun _ _ => rfl⟩

instance : Firm l (wordAt 1 w) := ⟨fun _ ts => wordAt_line l w ts⟩

instance : Firm l (atLineValue 1) := ⟨fun _ ts => atLineValue_line l ts⟩

instance : Firm l (fun ts => decide (kindAt 0 ts = k)) := ⟨fun _ _ => rfl⟩

instance : Firm l (fun ts => decide (kindAt 1 ts = .identifier)) :=
  ⟨fun _ ts => decide_eq_decide.mpr (kindAt_line l (by decide) (by decide) ts)⟩

instance : Firm l (fun ts => decide (kindAt 1 ts = .lParen)) :=
  ⟨fun _ ts => decide_eq_decide.mpr (kindAt_line l (by decide) (by decide) ts)⟩

instance [hp : Firm l p] [hq : Firm l q] : Firm l (fun ts => p ts && q ts) where
  firm t ts := by rw [hp.firm, hq.firm]

instance [hp : Firm l p] [hq : Firm l q] : Firm l (fun ts => p ts || q ts) where
  firm t ts := by rw [hp.firm, hq.firm]

instance [hp : Firm l p] : Firm l (fun ts => !p ts) where
  firm t ts := by rw [hp.firm]

instance : Firm l atLineFilter where
  firm t ts := by
    have hv := Firm.firm (l := l) (p := atLineValue 1) t ts
    simp only [atLineFilter, List.cons_append, kindAt_zero] at hv ⊢
    rw [hv]

instance : Firm l atNextName := by
  unfold atNextName
  infer_instance

instance : Firm l atOrValue := by
  unfold atOrValue
  infer_instance

instance : Firm l atStage := by
  unfold atStage
  infer_instance

theorem blank_atKind (l : LineTest) (hk : k ∉ lineOps) : Blank l (atKind k) :=
  ⟨rfl, atKind_line l hk []⟩

instance : Blank l (atKind .identifier) := blank_atKind l (by decide)

instance : Blank l (atKind .comma) := blank_atKind l (by decide)

instance : Blank l (atKind .eq) := blank_atKind l (by decide)

instance : Blank l (atKind .unknown) := blank_atKind l (by decide)

instance : Blank l (atKind .parserFlag) := blank_atKind l (by decide)

instance : Blank l atNextName where
  nil := rfl
  line := stageEnd_atNextName (by simpa using atStageEnd_line l [])

instance : Blank l atOrValue where
  nil := rfl
  line := stageEnd_atOrValue (by simpa using atStageEnd_line l [])

end Looks

theorem missing_flawed (ts : List Token) : ¬ AllFlawless (missing ts).trees := by
  simp [missing, node, nodeBy]

instance : Lacks missing := ⟨missing_flawed []⟩

instance : Lacks (expect k) := ⟨missing_flawed []⟩

instance : Lacks (either (atAny ks) bump missing) := ⟨missing_flawed []⟩

instance [hb : Lacks b] : Lacks (either (atKind k) a b) := ⟨hb.lacks⟩

instance [ha : Lacks a] : Lacks (andThen a b) :=
  ⟨fun h => ha.lacks (Tree.allFlawless_append.mp h).1⟩

theorem rest_nil [hr : NoLonger r] : (r []).rest = [] :=
  List.length_eq_zero_iff.mp (Nat.le_zero.mp (hr.length_le []))

instance [NoLonger a] [hb : Lacks b] : Lacks (andThen a b) where
  lacks h := by
    have hr : AllFlawless (b (a []).rest).trees := (Tree.allFlawless_append.mp h).2
    rw [rest_nil] at hr
    exact hb.lacks hr

instance [Lacks r] : Lacks (seq (r :: rs)) := inferInstanceAs (Lacks (andThen r (seq rs)))

instance [NoLonger r] [Lacks (seq rs)] : Lacks (seq (r :: rs)) :=
  inferInstanceAs (Lacks (andThen r (seq rs)))

instance [hr : Lacks r] : Lacks (node k r) where
  lacks h := by
    simp only [node, nodeBy, Tree.allFlawless_cons, Tree.flawless_node] at h
    exact hr.lacks h.1.2

instance (priority := low) [hr : Lacks r] : Skips l r := ⟨fun h => (hr.lacks h).elim⟩

theorem spared_all [hs : Spares l r] [hk : Skips l r] (ts : List Token)
    (h : AllFlawless (r ts).trees) : Spared l (r ts) (r (ts ++ l.tokens)) := by
  cases ts with
  | nil => exact hk.skips h
  | cons t ts => exact hs.spares _ (List.cons_ne_nil t ts) h

theorem andThen_spared
    (ha : AllFlawless (a ts).trees → Spared l (a ts) (a (ts ++ l.tokens)))
    (hb : AllFlawless (b (a ts).rest).trees →
      Spared l (b (a ts).rest) (b ((a ts).rest ++ l.tokens)))
    (h : AllFlawless (andThen a b ts).trees) :
    Spared l (andThen a b ts) (andThen a b (ts ++ l.tokens)) := by
  obtain ⟨hfa, hfb⟩ := Tree.allFlawless_append.mp h
  have ha := ha hfa
  have hb := hb hfb
  constructor
  · simp [andThen, Found.followed, ha.trees, ha.rest, hb.trees]
  · simp [andThen, Found.followed, ha.rest, hb.rest]

theorem node_spared (h : AllFlawless (r ts).trees → Spared l (r ts) (r (ts ++ l.tokens)))
    (hf : AllFlawless (node k r ts).trees) :
    Spared l (node k r ts) (node k r (ts ++ l.tokens)) := by
  simp only [node, nodeBy, Tree.allFlawless_cons, Tree.flawless_node] at hf
  have h := h hf.1.2
  constructor
  · simp [node, nodeBy, h.trees]
  · simp [node, nodeBy, h.rest]

/-- What must be there is there where no error is found. -/
theorem orMissing_made (h : AllFlawless (orMissing k r ts).trees) :
    (r ts).makes k = true ∧ orMissing k r ts = r ts := by
  by_cases hm : (r ts).makes k = true
  · exact ⟨hm, by rw [orMissing, Found.orMissing, if_pos hm]⟩
  · rw [orMissing, Found.orMissing, if_neg hm] at h
    exact (missing_flawed _ (Tree.allFlawless_append.mp h).2).elim

theorem orMissing_spared (h : AllFlawless (r ts).trees → Spared l (r ts) (r (ts ++ l.tokens)))
    (hf : AllFlawless (orMissing k r ts).trees) :
    Spared l (orMissing k r ts) (orMissing k r (ts ++ l.tokens)) := by
  obtain ⟨hm, hsame⟩ := orMissing_made hf
  rw [hsame] at hf ⊢
  have h := h hf
  have hlong : orMissing k r (ts ++ l.tokens) = r (ts ++ l.tokens) := by
    rw [orMissing, Found.orMissing, if_pos]
    rwa [Found.makes, h.trees, ← Found.makes]
  rwa [hlong]

theorem makes_single (h : f.makes k = true) : ∃ t, f.trees = [t] ∧ t.kind = k := by
  unfold Found.makes at h
  split at h
  · next t ht => exact ⟨t, ht, by simpa using h⟩
  · cases h

instance : Spares l nothing := ⟨fun _ _ _ => ⟨rfl, rfl⟩⟩

instance : Skips l nothing := ⟨fun _ => ⟨rfl, rfl⟩⟩

instance : Spares l (bumpAs k) where
  spares ts hn _ := by
    obtain ⟨t, ts, rfl⟩ := List.exists_cons_of_ne_nil hn
    exact ⟨rfl, rfl⟩

instance : Spares l bump where
  spares ts hn _ := by
    obtain ⟨t, ts, rfl⟩ := List.exists_cons_of_ne_nil hn
    exact ⟨rfl, rfl⟩

instance : Spares l (bumpWord w) := inferInstanceAs (Spares l (bumpAs _))

instance : Spares l missing := ⟨fun ts _ h => (missing_flawed ts h).elim⟩

instance [ha : Spares l a] [Spares l b] [Skips l b] : Spares l (andThen a b) where
  spares ts hn := andThen_spared (ha.spares ts hn) (spared_all _)

instance [NoLonger a] [ha : Skips l a] [hb : Skips l b] : Skips l (andThen a b) where
  skips := by
    refine andThen_spared ha.skips ?_
    rw [rest_nil]
    exact hb.skips

instance : Spares l (seq []) := inferInstanceAs (Spares l nothing)

instance : Skips l (seq []) := inferInstanceAs (Skips l nothing)

instance [Spares l r] [Spares l (seq rs)] [Skips l (seq rs)] : Spares l (seq (r :: rs)) :=
  inferInstanceAs (Spares l (andThen r (seq rs)))

instance [NoLonger r] [Skips l r] [Skips l (seq rs)] : Skips l (seq (r :: rs)) :=
  inferInstanceAs (Skips l (andThen r (seq rs)))

instance [hp : Firm l p] [ha : Spares l a] [hb : Spares l b] : Spares l (either p a b) where
  spares ts hn := by
    obtain ⟨t, ts, rfl⟩ := List.exists_cons_of_ne_nil hn
    unfold either
    rw [hp.firm]
    split
    · exact ha.spares _ hn
    · exact hb.spares _ hn

instance [Firm l p] [Spares l r] : Spares l (when p r) :=
  inferInstanceAs (Spares l (either p r nothing))

instance [hp : Blank l p] : Skips l (when p r) where
  skips _ := by
    rw [when_skips hp.nil, when_skips hp.line]
    exact ⟨rfl, rfl⟩

instance [hr : Spares l r] : Spares l (node k r) := ⟨fun ts hn => node_spared (hr.spares ts hn)⟩

instance : Spares l (optional k) := inferInstanceAs (Spares l (when _ bump))

instance [Blank l (atKind k)] : Skips l (optional k) := inferInstanceAs (Skips l (when _ bump))

instance : Spares l (expect k) := inferInstanceAs (Spares l (either _ bump missing))

instance [hr : Spares l r] : Spares l (deepen r) where
  spares ts hn h := ⟨(hr.spares ts hn h).trees, (hr.spares ts hn h).rest⟩

theorem skipUntil_flawed (h : t.kind ∉ ks) (ts : List Token) :
    ¬ AllFlawless (skipUntil ks (t :: ts)).trees := by
  simp [skipUntil, h]

instance : Spares l (skipUntil ks) where
  spares ts hn h := by
    obtain ⟨t, ts, rfl⟩ := List.exists_cons_of_ne_nil hn
    by_cases ht : t.kind ∈ ks
    · simp only [skipUntil, List.cons_append, List.contains_iff_mem.mpr ht, Bool.not_true,
        Bool.false_eq_true, not_false_iff, List.takeWhile_cons_of_neg]
      exact ⟨rfl, rfl⟩
    · exact (skipUntil_flawed ht ts h).elim

instance : Spares l refuse where
  spares ts hn h := by
    obtain ⟨t, ts, rfl⟩ := List.exists_cons_of_ne_nil hn
    exact (skipUntil_flawed (by simp) ts h).elim

section Many

variable [hp : Firm l p] [hr : Agrees r] [hs : Advances p r]

omit hp hr in
theorem many_nil : many p r [] = ⟨[], [], 0, none⟩ := many_skips (look_nil hs.shorter)

omit hp hr in
theorem many_of_look (h : p ts = true) :
    many p r ts = (r ts).followed (many p r (r ts).rest) := by
  conv_lhs => rw [many_eq hs.shorter, when_takes h]
  rfl

omit hp hr in
/-- A loop ends where its look does not allow any more. -/
theorem many_stops (ts : List Token) : p (many p r ts).rest = false := by
  induction hn : ts.length using Nat.strong_induction_on generalizing ts with
  | _ n ih =>
    subst hn
    cases h : p ts with
    | true =>
      rw [many_of_look h]
      exact ih _ (hs.shorter ts h) _ rfl
    | false => rw [many_skips h]; exact h

/-- If a rule leaves a line filter each time around, a loop goes on with it as it would from where
it ended. The last time around may be told by the tokens, the others are told by what they leave. -/
theorem many_line {P : List Token → Prop} (hP : ∀ ts n, P ts → P (ts.drop n))
    (h : ∀ ts, p ts = true → P ts ∨ (r ts).rest ≠ [] → AllFlawless (r ts).trees →
      Spared l (r ts) (r (ts ++ l.tokens)))
    (ts : List Token) (hts : P ts ∨ (many p r ts).rest ≠ [])
    (hf : AllFlawless (many p r ts).trees) :
    (many p r (ts ++ l.tokens)).trees =
        (many p r ts).trees ++ (many p r ((many p r ts).rest ++ l.tokens)).trees ∧
      (many p r (ts ++ l.tokens)).rest =
        (many p r ((many p r ts).rest ++ l.tokens)).rest := by
  induction hn : ts.length using Nat.strong_induction_on generalizing ts with
  | _ n ih =>
    subst hn
    cases hlook : p ts with
    | false =>
      rw [many_skips hlook]
      exact ⟨rfl, rfl⟩
    | true =>
      have hne : ts ≠ [] := by
        rintro rfl
        rw [look_nil hs.shorter] at hlook
        cases hlook
      have hlong : p (ts ++ l.tokens) = true := by
        obtain ⟨t, us, rfl⟩ := List.exists_cons_of_ne_nil hne
        rw [hp.firm, hlook]
      have hmany := many_of_look (r := r) hlook
      rw [hmany] at hf hts ⊢
      obtain ⟨hfirst, hmore⟩ := Tree.allFlawless_append.mp hf
      have hnext : P ts ∨ (r ts).rest ≠ [] := by
        refine hts.imp id fun hrest he => hrest ?_
        show (many p r (r ts).rest).rest = []
        rw [he, many_nil]
      have hone := h ts hlook hnext hfirst
      have hrest : P (r ts).rest ∨ (many p r (r ts).rest).rest ≠ [] := by
        refine hts.imp (fun hP' => ?_) id
        rw [hr.counts]
        exact hP ts _ hP'
      obtain ⟨htrees, hleft⟩ := ih _ (hs.shorter ts hlook) _ hrest hmore rfl
      rw [many_of_look hlong, Found.followed, Found.followed, hone.trees, hone.rest, htrees, hleft]
      exact ⟨(List.append_assoc _ _ _).symm, rfl⟩

theorem many_spared {P : List Token → Prop} (hP : ∀ ts n, P ts → P (ts.drop n))
    (h : ∀ ts, p ts = true → P ts ∨ (r ts).rest ≠ [] → AllFlawless (r ts).trees →
      Spared l (r ts) (r (ts ++ l.tokens)))
    (ts : List Token) (hts : P ts ∨ (many p r ts).rest ≠ [])
    (hline : (many p r ts).rest = [] → p l.tokens = false) (hf : AllFlawless (many p r ts).trees) :
    Spared l (many p r ts) (many p r (ts ++ l.tokens)) := by
  obtain ⟨htrees, hrest⟩ := many_line hP h ts hts hf
  have hend : p ((many p r ts).rest ++ l.tokens) = false := by
    cases he : (many p r ts).rest with
    | nil => exact hline he
    | cons t us =>
      have hstop := many_stops (p := p) (r := r) ts
      rwa [he, ← hp.firm] at hstop
  rw [many_skips hend] at htrees hrest
  exact ⟨by rw [htrees, List.append_nil], hrest⟩

end Many

instance [Firm l p] [hb : Blank l p] [Agrees r] [hr : Spares l r] [hs : Advances p r] :
    Spares l (many p r) where
  spares ts _ := by
    refine many_spared (P := fun _ => True) (fun _ _ h => h) (fun us hl _ => hr.spares us ?_) ts
      (Or.inl trivial) fun _ => hb.line
    rintro rfl
    rw [hb.nil] at hl
    cases hl

instance [hb : Blank l p] : Skips l (many p r) where
  skips _ := by
    rw [many_skips hb.nil, many_skips hb.line]
    exact ⟨rfl, rfl⟩

/-- A list leaves a line filter if its elements do. -/
theorem commaList_spared {P : List Token → Prop} (hP : ∀ ts n, P ts → P (ts.drop n)) [Agrees r]
    [NoLonger r]
    (h : ∀ ts, ts ≠ [] → P ts ∨ (r ts).rest ≠ [] → AllFlawless (r ts).trees →
      Spared l (r ts) (r (ts ++ l.tokens)))
    (hn : ts ≠ []) (hts : P ts ∨ (commaList r ts).rest ≠ [])
    (hf : AllFlawless (commaList r ts).trees) :
    Spared l (commaList r ts) (commaList r (ts ++ l.tokens)) := by
  have hend : P ts ∨ (r ts).rest ≠ [] := by
    refine hts.imp id fun hrest he => hrest ?_
    show (many atNextName (andThen bump r) (r ts).rest).rest = []
    rw [he, many_nil]
  refine andThen_spared (h ts hn hend) ?_ hf
  refine many_spared hP (fun us hl hus => ?_) _ ?_ fun _ => Blank.line
  · obtain ⟨c, u, us, rfl, -, -⟩ := atNextName_cons hl
    refine andThen_spared (fun _ => ⟨rfl, rfl⟩) (h (u :: us) (List.cons_ne_nil u us) ?_)
    exact hus.imp (hP _ 1) id
  · refine hts.imp (fun hts => ?_) id
    rw [Agrees.counts (r := r)]
    exact hP ts _ hts

instance [Agrees r] [NoLonger r] [hr : Spares l r] : Spares l (commaList r) where
  spares _ hn := commaList_spared (P := fun _ => True) (fun _ _ h => h)
    (fun us hn _ => hr.spares us hn) hn (Or.inl trivial)

instance [Lacks r] : Lacks (commaList r) := inferInstanceAs (Lacks (andThen r _))

instance : Spares l matcher := by
  unfold matcher
  infer_instance

instance : Spares l selector := by
  unfold selector
  infer_instance

instance : Spares l lineValue := by
  unfold lineValue
  infer_instance

instance : Lacks lineValue := ⟨missing_flawed []⟩

instance (levels : Nat) : Spares l (orFilter levels) := by
  induction levels with
  | zero => exact inferInstanceAs (Spares l refuse)
  | succ levels ih =>
    unfold orFilter
    infer_instance

instance (levels : Nat) : Spares l (lineFilter levels) := by
  unfold lineFilter
  infer_instance

instance (v k : Kind) : Spares l (comparison v k) := by
  unfold comparison
  infer_instance

instance : Spares l ipLabelFilter := by
  unfold ipLabelFilter
  infer_instance

instance : Spares l labelExtraction := by
  unfold labelExtraction
  infer_instance

instance : Spares l labelExtractions := by
  unfold labelExtractions
  infer_instance

instance (k : Kind) (w : Keyword) : Spares l (stringStage k w) := by
  unfold stringStage
  infer_instance

instance (k : Kind) (w : Keyword) : Spares l (bareStage k w) := by
  unfold bareStage
  infer_instance

instance : Spares l labelFormat := by
  unfold labelFormat
  infer_instance

instance : Lacks labelFormat := by
  unfold labelFormat
  infer_instance

instance : Spares l labelFormats := by
  unfold labelFormats
  infer_instance

end LogQuery.Grammar
