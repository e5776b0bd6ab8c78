import LogQuery.Proofs.Grammar.Placed

/-! Between the braces of a selector no rule looks at a token where selectors stop, nor past it: a
selector is read from its own tokens as from the tokens of the query. -/
namespace LogQuery

namespace Kind

/-- No stop of a selector. -/
@[reducible] def isInner : Kind → Bool
  | .rBrace | .pipe | .pipeExact | .pipeMatch | .pipePattern | .lBracket | .rParen => false
  | _ => true

end Kind

namespace Grammar

variable {k : Kind} {ks : List Kind} {ts us : List Token} {t : Token} {p : Look} {a b r : Rule}

/-- Tokens that selectors stop at, or none. -/
def Stopped (us : List Token) : Prop := ∀ t ∈ us.head?, t.kind ∈ selectorStops

/-- A rule finds the same in some tokens, whatever stands behind the place where selectors stop. -/
def Encloses (r : Rule) (ts : List Token) : Prop := ∀ us, Stopped us →
  (r (ts ++ us)).trees = (r ts).trees ∧ (r (ts ++ us)).rest = (r ts).rest ++ us

/-- A look that tells the same whether it meets a stop or the end. -/
class Blind (p : Look) : Prop where
  same : ∀ ts us, Stopped us → p (ts ++ us) = p ts

theorem stop_isInner (h : k ∈ selectorStops) : k.isInner = false :=
  (by decide : ∀ k ∈ selectorStops, k.isInner = false) k h

instance [hk : Holds k.isInner] : Blind (atKind k) where
  same ts us h := by
    cases ts with
    | cons t ts => rfl
    | nil =>
      cases us with
      | nil => rfl
      | cons u us =>
        have hu := h u rfl
        have hne : u.kind ≠ k := by
          rintro rfl
          have hk := hk.holds
          rw [stop_isInner hu] at hk
          cases hk
        simpa [atKind] using hne

instance : Blind (atAny matcherOps) where
  same ts us h := by
    cases ts with
    | cons t ts => rfl
    | nil =>
      cases us with
      | nil => rfl
      | cons u us =>
        have hn : ∀ k ∈ selectorStops, k ∉ matcherOps := by decide
        simpa [atAny] using hn _ (h u rfl)

instance : Blind atNextName where
  same ts us h := by
    have hn : ∀ k ∈ selectorStops, k ≠ .comma ∧ k ≠ .identifier := by decide
    rcases ts with _ | ⟨t, _ | ⟨u, ts⟩⟩
    · cases us with
      | nil => rfl
      | cons u us => simp [atNextName, (hn _ (h u rfl)).1]
    · cases us with
      | nil => rfl
      | cons u us => simp [atNextName, (hn _ (h u rfl)).2]
    · rfl

theorem encloses_nothing (ts : List Token) : Encloses nothing ts := fun _ _ => ⟨rfl, rfl⟩

theorem encloses_bump (h : ts ≠ []) : Encloses bump ts := by
  intro us _
  cases ts with
  | nil => exact (h rfl).elim
  | cons t ts => exact ⟨rfl, rfl⟩

theorem encloses_missing (ts : List Token) : Encloses missing ts := fun _ _ => ⟨rfl, rfl⟩

theorem encloses_andThen (ha : Encloses a ts) (hb : Encloses b (a ts).rest) :
    Encloses (andThen a b) ts := by
  intro us h
  obtain ⟨hat, har⟩ := ha us h
  obtain ⟨hbt, hbr⟩ := hb us h
  constructor
  · simp only [andThen, Found.followed, hat, har, hbt]
  · simp only [andThen, Found.followed, har, hbr]

theorem encloses_either [hp : Blind p] (ha : p ts = true → Encloses a ts) (hb : Encloses b ts) :
    Encloses (either p a b) ts := by
  intro us h
  unfold either
  rw [hp.same ts us h]
  split
  · next hl => exact ha hl us h
  · exact hb us h

theorem encloses_when [Blind p] (h : p ts = true → Encloses r ts) : Encloses (when p r) ts :=
  encloses_either h (encloses_nothing ts)

theorem encloses_node (h : Encloses r ts) : Encloses (node k r) ts := by
  intro us hu
  obtain ⟨ht, hr⟩ := h us hu
  constructor
  · simp only [node, nodeBy, ht]
  · exact hr

theorem encloses_many [Blind p] (hs : ∀ ts, p ts = true → Shorter r ts)
    (h : ∀ ts, p ts = true → Encloses r ts) (ts : List Token) : Encloses (many p r) ts := by
  induction hn : ts.length using Nat.strong_induction_on generalizing ts with
  | _ n ih =>
    subst hn
    rw [many_eq hs]
    refine encloses_when fun hp => encloses_andThen (h ts hp) ?_
    exact ih _ (hs ts hp) _ rfl

theorem encloses_expect [Blind (atKind k)] (ts : List Token) : Encloses (expect k) ts :=
  encloses_either (fun h => encloses_bump (atKind_ne_nil h)) (encloses_missing ts)

theorem encloses_matcher (h : ts ≠ []) : Encloses matcher ts := by
  have hop : Encloses (either (atAny matcherOps) bump missing) (bump ts).rest := by
    refine encloses_either (fun ho => encloses_bump ?_) (encloses_missing _)
    obtain ⟨t, us, he, _⟩ := atAny_cons ho
    rw [he]
    exact List.cons_ne_nil t us
  have hstray : ∀ us, Encloses strays us := by
    intro us
    refine encloses_when fun _ => encloses_node (encloses_many ?_ ?_ us)
    · exact fun _ hu => shorter_bump (atKind_ne_nil hu)
    · exact fun _ hu => encloses_bump (atKind_ne_nil hu)
  refine encloses_node (encloses_andThen (encloses_bump h) (encloses_andThen hop ?_))
  exact encloses_andThen (hstray _) (encloses_andThen (encloses_expect _) (encloses_nothing _))

/-- The matchers of a selector and the comma behind them. -/
def listed : Rule :=
  andThen (when (atKind .identifier) (node .matchers (commaList matcher))) (optional .comma)

theorem encloses_listed (ts : List Token) : Encloses listed ts := by
  have hmany : ∀ us, Encloses (many atNextName (andThen bump matcher)) us := by
    refine encloses_many (fun us h => shorter_andThen (shorter_bump (atNextName_ne_nil h))) ?_
    intro us h
    rcases us with _ | ⟨u, us⟩
    · cases h
    · refine encloses_andThen (encloses_bump (List.cons_ne_nil u us)) (encloses_matcher ?_)
      rintro (rfl : us = [])
      simp [atNextName] at h
  refine encloses_andThen ?_ ?_
  · refine encloses_when fun h => encloses_node (encloses_andThen ?_ (hmany _))
    exact encloses_matcher (atKind_ne_nil h)
  · exact encloses_when fun h => encloses_bump (atKind_ne_nil h)

/-- Tokens between the braces of a selector, up to a stop or to the end. -/
theorem skip_stopped (hts : ∀ t ∈ ts, t.kind ∉ selectorStops) (hus : Stopped us) :
    (skipUntil selectorStops (ts ++ us)).trees = (skipUntil selectorStops ts).trees ∧
      (skipUntil selectorStops (ts ++ us)).rest = us := by
  have hin : ∀ t ∈ ts, (!selectorStops.contains t.kind) = true := by
    intro t ht
    simpa using hts t ht
  have hout : us.takeWhile (fun t => !selectorStops.contains t.kind) = [] := by
    cases us with
    | nil => rfl
    | cons u us => simpa using hus u rfl
  have htake : (ts ++ us).takeWhile (fun t => !selectorStops.contains t.kind) = ts := by
    rw [List.takeWhile_append_of_pos hin, hout, List.append_nil]
  have halone : ts.takeWhile (fun t => !selectorStops.contains t.kind) = ts :=
    List.takeWhile_eq_self_iff.mpr hin
  simp only [skipUntil, htake, halone]
  cases ts with
  | nil => exact ⟨rfl, rfl⟩
  | cons t ts => exact ⟨rfl, List.drop_left⟩

instance : Sits [] listed := by
  unfold listed
  infer_instance

/-- What a selector makes of a brace, of tokens without a stop among them, and of what follows. -/
theorem selector_stopped (t : Token) (hts : ∀ t ∈ ts, t.kind ∉ selectorStops)
    (hus : Stopped us) :
    (selector (t :: (ts ++ us))).trees = [.node .selector (.ofToken t :: ((listed ts).trees ++
        (skipUntil selectorStops (listed ts).rest).trees ++ (expect .rBrace us).trees))] ∧
      (selector (t :: (ts ++ us))).rest = (expect .rBrace us).rest := by
  obtain ⟨hlt, hlr⟩ := encloses_listed ts us hus
  have hin : ∀ u ∈ (listed ts).rest, u.kind ∉ selectorStops := by
    have hsits : Sits [] listed := inferInstance
    have hs : (listed ts).Sited ts := hsits.sited ts (front_nil ts)
    intro u hu
    rw [hs.rest] at hu
    exact hts u (List.mem_of_mem_drop hu)
  obtain ⟨hst, hsr⟩ := skip_stopped hin hus
  have htrees : (selector (t :: (ts ++ us))).trees = [.node .selector (.ofToken t ::
      ((listed (ts ++ us)).trees ++
        ((skipUntil selectorStops (listed (ts ++ us)).rest).trees ++
          (expect .rBrace (skipUntil selectorStops (listed (ts ++ us)).rest).rest).trees)))] := by
    simp [selector, node, nodeBy, seq, andThen, Found.followed, bump, listed, nothing]
  have hrest : (selector (t :: (ts ++ us))).rest =
      (expect .rBrace (skipUntil selectorStops (listed (ts ++ us)).rest).rest).rest := rfl
  rw [htrees, hrest, hlt, hlr, hst, hsr, List.append_assoc]
  exact ⟨rfl, rfl⟩

/-- The brace that opens a selector, the tokens up to where selectors stop, and those from there. -/
theorem selector_inner (h : atKind .lBrace ts = true) :
    ∃ t inner left, ts = t :: (inner ++ left) ∧ t.kind = .lBrace ∧
      (∀ u ∈ inner, u.kind ∉ selectorStops) ∧ Stopped left := by
  obtain ⟨t, tail, rfl, ht⟩ := atKind_cons h
  refine ⟨t, tail.takeWhile fun u => !selectorStops.contains u.kind,
    tail.dropWhile fun u => !selectorStops.contains u.kind, ?_, ht, ?_, ?_⟩
  · rw [List.takeWhile_append_dropWhile]
  · intro u hu
    simpa using List.mem_takeWhile_imp hu
  · intro u hu
    have hn := List.head?_dropWhile_not (fun u => !selectorStops.contains u.kind) tail
    rw [Option.mem_def.mp hu] at hn
    simpa using hn

theorem expect_brace {u : Token} (hu : u.kind = .rBrace) (us : List Token) :
    expect .rBrace (u :: us) = ⟨[.ofToken u], us, 0, none⟩ := by
  simp [expect, either, atKind, hu, bump]

/-- A selector alone: its own tokens make the same node of themselves, and nothing is left. What it
leaves in the query stands behind its closing brace, or where it could not close. -/
theorem selector_alone (h : atKind .lBrace ts = true) :
    ∃ taken, ts = taken ++ (selector ts).rest ∧ atKind .lBrace taken = true ∧
      (selector taken).trees = (selector ts).trees ∧ (selector taken).rest = [] ∧
      ((∃ front u, taken = front ++ [u] ∧ u.kind = .rBrace) ∨ Stopped (selector ts).rest) := by
  obtain ⟨t, inner, left, rfl, ht, hin, hstop⟩ := selector_inner h
  have hopen : ∀ us, atKind .lBrace (t :: us) = true := by
    intro us
    simpa [atKind] using ht
  obtain ⟨htrees, hrest⟩ := selector_stopped t hin hstop
  rw [htrees, hrest]
  by_cases hb : atKind .rBrace left = true
  · obtain ⟨u, us, rfl, hu⟩ := atKind_cons hb
    have hone : Stopped [u] := by
      intro v hv
      obtain rfl := Option.some.inj hv
      simp [hu, selectorStops]
    obtain ⟨hat, har⟩ := selector_stopped t hin hone
    rw [expect_brace hu] at hat har ⊢
    refine ⟨t :: (inner ++ [u]), ?_, hopen _, hat, har, Or.inl ⟨t :: inner, u, rfl, hu⟩⟩
    simp
  · have hnone : Stopped [] := by
      intro v hv
      cases hv
    obtain ⟨hat, har⟩ := selector_stopped t hin hnone
    have he : expect .rBrace left = missing left := by
      simp [expect, either, hb]
    rw [he]
    rw [List.append_nil] at hat har
    exact ⟨t :: inner, rfl, hopen _, hat, har, Or.inr hstop⟩

end Grammar

end LogQuery
