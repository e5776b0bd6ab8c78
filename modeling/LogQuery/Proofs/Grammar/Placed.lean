import LogQuery.Proofs.Grammar.Sited
import LogQuery.Proofs.Grammar.QueryShape

/-! Every rule puts its nodes in their places. -/
namespace LogQuery

namespace Kind

/-- Kinds of tokens that some rule asks for. -/
@[reducible] def isAsked : Kind → Bool
  | .unknown | .eof => false
  | _ => true

end Kind

namespace Grammar

open LogQuery.Tree (leavesAll leavesAll_append Within)

variable {k : Kind} {ts us : List Token} {t : Token} {p : Look} {a b r : Rule} {rs : List Rule}
  {f g : Found} {cs ds : List Tree} {K : List Kind} {Ks Ls : List (List Kind)} {w : Keyword}

theorem kindAt_drop (n : Nat) (ts : List Token) : kindAt (n + 1) ts = kindAt n (ts.drop 1) := by
  cases ts <;> rfl

theorem wordAt_kind {n : Nat} (h : wordAt n w ts = true) : kindAt n ts = .identifier := by
  induction n generalizing ts with
  | zero =>
    obtain ⟨t, us, rfl, ht⟩ := wordAt_cons h
    simp only [Token.spells, Bool.and_eq_true, decide_eq_true_eq] at ht
    exact ht.1
  | succ n ih =>
    cases ts with
    | nil => cases h
    | cons t ts => exact ih h

theorem front_cons (h : kindAt 0 ts ∈ K) (hK : ∀ k ∈ K, k.isAsked = true)
    (hs : Front Ks (ts.drop 1)) : Front (K :: Ks) ts := by
  cases ts with
  | nil => cases hK _ h
  | cons t ts =>
    refine ⟨h, ?_, hs⟩
    intro ht
    have ha := hK _ h
    rw [kindAt_zero, ht] at ha
    cases ha

theorem front_one (h : kindAt 0 ts ∈ K) (hK : ∀ k ∈ K, k.isAsked = true) : Front [K] ts :=
  front_cons h hK (front_nil _)

theorem front_two {k l : Kind} (hk : kindAt 0 ts = k) (hl : kindAt 1 ts = l)
    (hK : ∀ m ∈ [k], m.isAsked = true) (hL : ∀ m ∈ [l], m.isAsked = true) :
    Front [[k], [l]] ts := by
  rw [kindAt_drop] at hl
  exact front_cons (List.mem_singleton.mpr hk) hK (front_one (List.mem_singleton.mpr hl) hL)

instance [hk : Holds k.isAsked] : Looks (atKind k) [[k]] where
  front ts h := by
    obtain ⟨t, us, rfl, ht⟩ := atKind_cons h
    exact front_one (List.mem_singleton.mpr ht) (by simpa using hk.holds)

instance : Looks (atAny matcherOps) [matcherOps] where
  front ts h := by
    obtain ⟨t, us, rfl, ht⟩ := atAny_cons h
    exact front_one ht (by decide)

instance : Looks (wordAt 0 w) [[.identifier]] where
  front ts h := front_one (by simp [wordAt_kind h]) (by decide)

instance : Looks atNextName [[.comma], [.identifier]] where
  front ts h := by
    simp only [atNextName, Bool.and_eq_true, decide_eq_true_eq] at h
    exact front_two h.1 h.2 (by decide) (by decide)

instance : Looks atLineFilter [lineOps] where
  front ts h := by
    obtain ⟨t, us, rfl, ht⟩ := atLineFilter_cons h
    exact front_one ht (by decide)

instance : Looks atOrValue [[.identifier]] where
  front ts h := by
    simp only [atOrValue, Bool.and_eq_true] at h
    exact front_one (by simp [wordAt_kind h.1]) (by decide)

instance : Looks (fun ts => wordAt 0 .ip ts && kindAt 1 ts = .lParen)
    [[.identifier], [.lParen]] where
  front ts h := by
    simp only [Bool.and_eq_true, decide_eq_true_eq] at h
    exact front_two (wordAt_kind h.1) h.2 (by decide) (by decide)

instance : Looks (atLabelFilter 0) [[.lParen, .identifier]] where
  front ts h := by
    rcases atLabelFilter_cons h with ⟨t, us, rfl, ht⟩ | ⟨t, o, us, rfl, ht, _⟩
    · exact front_one (by simp [ht]) (by decide)
    · exact front_one (by simp [ht]) (by decide)

instance : Looks (fun ts => kindAt 0 ts = .identifier && matcherOps.contains (kindAt 1 ts))
    [[.identifier]] where
  front ts h := by
    simp only [Bool.and_eq_true, decide_eq_true_eq] at h
    exact front_one (by simp [h.1]) (by decide)

instance : Looks (fun ts => kindAt 0 ts = .lParen && kindAt 1 ts = .lBrace)
    [[.lParen], [.lBrace]] where
  front ts h := by
    simp only [Bool.and_eq_true, decide_eq_true_eq] at h
    exact front_two h.1 h.2 (by decide) (by decide)

instance : Looks atStage [.pipe :: lineOps] where
  front ts h := by
    simp only [atStage, Bool.or_eq_true, Bool.and_eq_true, decide_eq_true_eq] at h
    rcases h with h | h
    · obtain ⟨t, us, rfl, ht⟩ := atLineFilter_cons h
      exact front_one (by simp [ht]) (by decide)
    · exact front_one (by simp [h.1]) (by decide)

instance : Looks (fun ts => kindAt 0 ts = .pipe && wordAt 1 .unwrap ts)
    [[.pipe], [.identifier]] where
  front ts h := by
    simp only [Bool.and_eq_true, decide_eq_true_eq] at h
    exact front_two h.1 (wordAt_kind h.2) (by decide) (by decide)

instance : Looks (fun ts => kindAt 0 ts = .pipe && atLabelFilter 1 ts) [[.pipe]] where
  front ts h := by
    simp only [Bool.and_eq_true, decide_eq_true_eq] at h
    exact front_one (by simp [h.1]) (by decide)

instance : Looks atGrouping [[.identifier], [.lParen]] where
  front ts h := by
    simp only [atGrouping, Bool.and_eq_true, Bool.or_eq_true, decide_eq_true_eq] at h
    exact front_two (h.1.elim wordAt_kind wordAt_kind) h.2 (by decide) (by decide)

instance : Looks (fun ts => kindAt 0 ts = .number && kindAt 1 ts = .comma)
    [[.number], [.comma]] where
  front ts h := by
    simp only [Bool.and_eq_true, decide_eq_true_eq] at h
    exact front_two h.1 h.2 (by decide) (by decide)

instance [Holds k.isAsked] : Sits Ks (optional k) := inferInstanceAs (Sits Ks (when _ bump))

instance [Holds k.isAsked] : Sits Ks (expect k) := inferInstanceAs (Sits Ks (either _ bump missing))

instance [Sits Ks r] [Sits [[.identifier]] r] : Sits Ks (commaList r) := by
  unfold commaList
  infer_instance

instance : Sits Ks (node .error bump) where
  sited ts _ := by
    cases ts with
    | nil => exact error_sited [] [] 0 none
    | cons t ts => exact error_sited [t] ts 0 none

theorem many_bump_trees (k : Kind) (ts : List Token) :
    (many (atKind k) bump ts).trees = (ts.takeWhile fun t => t.kind = k).map .ofToken := by
  have hs : ∀ us, atKind k us = true → Shorter bump us := fun us h => shorter_bump (atKind_ne_nil h)
  rw [many_eq hs]
  induction ts with
  | nil => rfl
  | cons t ts ih =>
    rw [← many_eq hs] at ih
    by_cases ht : t.kind = k
    · have hp : atKind k (t :: ts) = true := by simpa [atKind] using ht
      rw [when, if_pos hp, List.takeWhile_cons_of_pos (by simpa using ht), List.map_cons, ← ih]
      rfl
    · have hp : ¬ atKind k (t :: ts) = true := by simpa [atKind] using ht
      rw [when, if_neg hp, List.takeWhile_cons_of_neg (by simpa using ht)]
      rfl

/-- Stray characters in a row, in an error node of their own. -/
def strays : Rule := when (atKind .unknown) (node .error (many (atKind .unknown) bump))

theorem strays_trees (ts : List Token) : (strays ts).trees = [] ∨
    ∃ us : List Token, (∀ u ∈ us, u.kind = .unknown) ∧
      (strays ts).trees = [.node .error (us.map .ofToken)] := by
  unfold strays when
  split
  · right
    refine ⟨ts.takeWhile fun t => t.kind = .unknown, ?_, ?_⟩
    · intro u hu
      simpa using List.mem_takeWhile_imp hu
    · exact congrArg (fun us => [Tree.node .error us]) (many_bump_trees .unknown ts)
  · exact Or.inl rfl

instance : Sits Ks strays where
  sited ts _ := by
    unfold strays when
    split
    · have he := error_sited (ts.takeWhile fun t => t.kind = .unknown)
        (ts.dropWhile fun t => t.kind = .unknown) 0 none
      rw [List.takeWhile_append_dropWhile] at he
      refine congr_sited he ?_ (many_bump_rest .unknown ts)
      exact congrArg (fun us => [Tree.node .error us]) (many_bump_trees .unknown ts)
    · exact nothing_sited ts

theorem expect_trees (k : Kind) (ts : List Token) :
    ∃ c, (expect k ts).trees = [c] ∧ Expected [k] c := by
  unfold expect either
  split
  · next h =>
    obtain ⟨t, us, rfl, ht⟩ := atKind_cons h
    exact ⟨.ofToken t, rfl, Or.inl ⟨k, by simp, t.text, by rw [← ht]; rfl⟩⟩
  · exact ⟨.node .error [], rfl, Or.inr rfl⟩

/-- What a matcher holds, if it begins with a name. -/
theorem matcher_shape (h : t.kind = .identifier) (ts : List Token) :
    MatcherShape (seq [bump, either (atAny matcherOps) bump missing, strays, expect .string]
      (t :: ts)).trees := by
  set op := either (atAny matcherOps) bump missing with hop
  obtain ⟨o, ho, hoe⟩ : ∃ c, (op ts).trees = [c] ∧ Expected matcherOps c := by
    rw [hop]
    unfold either
    split
    · next ha =>
      obtain ⟨o, us, rfl, hk⟩ := atAny_cons ha
      exact ⟨.ofToken o, rfl, Or.inl ⟨o.kind, hk, o.text, rfl⟩⟩
    · exact ⟨.node .error [], rfl, Or.inr rfl⟩
  obtain ⟨v, hv, hve⟩ := expect_trees .string (strays (op ts).rest).rest
  refine ⟨t.text, o, (strays (op ts).rest).trees, v, ?_, hoe, strays_trees _, hve⟩
  have hs : (seq [bump, op, strays, expect .string] (t :: ts)).trees = .ofToken t ::
      ((op ts).trees ++ ((strays (op ts).rest).trees ++
        ((expect .string (strays (op ts).rest).rest).trees ++ []))) := rfl
  rw [hs, ho, hv, Tree.ofToken, h]
  rfl

instance : Sits ([.identifier] :: Ks) matcher where
  sited ts h := by
    have hf := Sits.sited (r := seq [bump, either (atAny matcherOps) bump missing, strays,
      expect .string]) ts h
    refine nodeBy_sited (q := fun _ => .matcher) hf
      ⟨rfl, fun _ => hf.known, nofun, nofun, fun _ => ?_, nofun, nofun⟩
    cases ts with
    | nil => cases h
    | cons t ts => exact matcher_shape (List.mem_singleton.mp h.1) ts

instance : Sits ([.lBrace] :: Ks) selector where
  sited ts h := by
    have hf := Sits.sited (r := seq [bump,
      when (atKind .identifier) (node .matchers (commaList matcher)), optional .comma,
      skipUntil selectorStops, expect .rBrace]) ts h
    refine nodeBy_sited (q := fun _ => .selector) hf
      ⟨rfl, fun _ => hf.known, nofun, fun _ => ⟨?_, rfl⟩, nofun, nofun, nofun⟩
    cases ts with
    | nil => cases h
    | cons t ts => simpa [atKind] using h.1

instance : Sits Ks lineValue := by
  unfold lineValue
  infer_instance

instance (levels : Nat) : Sits Ks (orFilter levels) := by
  induction levels generalizing Ks with
  | zero => exact inferInstanceAs (Sits Ks refuse)
  | succ levels ih =>
    unfold orFilter
    infer_instance

instance (levels : Nat) : Sits (lineOps :: Ks) (lineFilter levels) where
  sited ts h := by
    have hf := Sits.sited (r := seq [node .filter bump, lineValue,
      when atOrValue (orFilter levels)]) ts h
    refine nodeBy_sited (q := fun _ => .lineFilter) hf
      ⟨rfl, fun _ => hf.known, nofun, nofun, nofun, fun _ => ?_, nofun⟩
    cases ts with
    | nil => cases h
    | cons t ts => exact ⟨t.kind, h.1, t.text, _, rfl⟩

instance (levels : Nat) : Sits Ks (lineFilters levels) := by
  unfold lineFilters
  infer_instance

/-- What a rule for one thing finds: nothing, the thing, or all that is left in an error node. -/
def Found.Gives (k : Kind) (f : Found) : Prop :=
  f.trees = [] ∨ ∃ t, f.trees = [t] ∧ (t.kind = k ∨ (t.kind = .error ∧ f.rest = []))

theorem single_gives (h : f.trees = [] ∨ ∃ t, f.trees = [t] ∧ t.kind = k) : f.Gives k := by
  rcases h with h | ⟨t, h, hk⟩
  · exact Or.inl h
  · exact Or.inr ⟨t, h, Or.inl hk⟩

theorem refuse_gives (ts : List Token) : (refuse ts).Gives k := by
  cases ts with
  | nil => exact Or.inl rfl
  | cons t ts => exact Or.inr ⟨_, rfl, Or.inr ⟨rfl, skipUntil_nil_rest (t :: ts)⟩⟩

section Chain

variable {join : List Token → Option Join} {wrap : List Tree → Tree} {operand : Nat → Rule}
  {least : Nat} {first : Rule} {lhs : Tree}

theorem climb_single (hkind : ∀ cs, (wrap cs).kind = k) (hk : lhs.kind = k)
    (limit ts : List Token) :
    ∃ t, (climb join wrap operand least limit lhs ts).trees = [t] ∧ t.kind = k := by
  induction limit generalizing lhs ts with
  | nil => exact ⟨lhs, rfl, hk⟩
  | cons _ limit ih =>
    rw [climb]
    split
    · exact ⟨lhs, rfl, hk⟩
    · split
      · exact ⟨lhs, rfl, hk⟩
      · exact ih (hkind _) _

theorem chain_single (hkind : ∀ cs, (wrap cs).kind = k)
    (hfirst : (first ts).trees = [] ∨ ∃ t, (first ts).trees = [t] ∧ t.kind = k) :
    (chain first join wrap operand least ts).trees = [] ∨
      ∃ t, (chain first join wrap operand least ts).trees = [t] ∧ t.kind = k := by
  rcases hfirst with h | ⟨lhs, h, hk⟩
  · left
    simp only [chain, h]
  · right
    simp only [chain, h]
    exact climb_single hkind hk (first ts).rest (first ts).rest

end Chain

theorem expected_leaves {c : Tree} (h : Expected K c) :
    c.leaves = [] ∨ ∃ k ∈ K, ∃ x, c.leaves = [⟨k, x⟩] := by
  rcases h with ⟨k, hk, x, rfl⟩ | rfl
  · exact Or.inr ⟨k, hk, x, rfl⟩
  · exact Or.inl rfl

theorem settled_of_last (front : List Token) {x : Text} (hl : leavesAll cs = front ++ [⟨k, x⟩])
    (hk : k ∈ Kind.rParen :: valueKinds) : Settled ts cs := by
  right
  left
  exact ⟨⟨k, x⟩, by rw [hl, List.getLast?_concat], hk⟩

/-- What ends with an expected value is settled. -/
theorem settled_of_expected (front : List Token) {c : Tree} (hl : leavesAll cs = front ++ c.leaves)
    (hfront : ∀ l ∈ front, l.kind ∉ valueKinds) (hc : Expected [k] c)
    (hk : k ∈ Kind.rParen :: valueKinds) : Settled ts cs := by
  rcases expected_leaves hc with he | ⟨l, hm, x, he⟩
  · left
    rw [hl, he, List.append_nil]
    exact hfront
  · obtain rfl := List.mem_singleton.mp hm
    exact settled_of_last front (hl.trans (congrArg _ he)) hk

theorem node_settled (h : Settled us cs) : Settled us [.node k cs] := by
  have hl : leavesAll [.node k cs] = leavesAll cs := List.append_nil _
  rwa [Settled, hl]

theorem comparison_settled {value k : Kind} (hv : value ∈ valueKinds) {o : Token}
    (ht : t.kind ∉ valueKinds) (ho : o.kind ∉ valueKinds) (ts : List Token) :
    Settled us (comparison value k (t :: o :: ts)).trees := by
  obtain ⟨c, hc, he⟩ := expect_trees value ts
  have hs : (comparison value k (t :: o :: ts)).trees =
      [.node k (.ofToken t :: .ofToken o :: ((expect value ts).trees ++ []))] := rfl
  rw [hs, hc]
  refine settled_of_expected [t, o] (c := c) ?_ ?_ he (List.mem_cons_of_mem _ hv)
  · simp [leavesAll, Tree.leaves, Tree.ofToken]
  · intro l hl
    simp only [List.mem_cons, List.not_mem_nil, or_false] at hl
    rcases hl with rfl | rfl
    · exact ht
    · exact ho

theorem matcher_settled (ht : t.kind = .identifier) (ts : List Token) :
    Settled us (matcher (t :: ts)).trees := by
  obtain ⟨name, op, stray, value, hm⟩ := matcher_shape ht ts
  have hs : (matcher (t :: ts)).trees = [.node .matcher (seq [bump,
    either (atAny matcherOps) bump missing, strays, expect .string] (t :: ts)).trees] := rfl
  rw [hs, hm.children]
  refine settled_of_expected (⟨.identifier, name⟩ :: (op.leaves ++ leavesAll stray)) ?_ ?_ hm.value
    (by decide)
  · simp [leavesAll, Tree.leaves, leavesAll_append]
  · intro l hl
    simp only [List.mem_cons, List.mem_append] at hl
    rcases hl with rfl | hl | hl
    · show Kind.identifier ∉ valueKinds
      decide
    · rcases expected_leaves hm.op with he | ⟨k, hk, x, he⟩
      · rw [he] at hl
        cases hl
      · rw [he] at hl
        obtain rfl := List.mem_singleton.mp hl
        exact (by decide : ∀ k ∈ matcherOps, k ∉ valueKinds) k hk
    · rcases hm.stray with he | ⟨strays, hu, he⟩
      · rw [he] at hl
        cases hl
      · rw [he] at hl
        simp only [leavesAll, Tree.leaves, Tree.leavesAll_ofToken, List.append_nil] at hl
        rw [hu l hl]
        decide

theorem ipLabelFilter_settled {o w l : Token} (ht : t.kind ∉ valueKinds) (ho : o.kind ∉ valueKinds)
    (hl : l.kind ∉ valueKinds) (ts : List Token) :
    Settled us (ipLabelFilter (t :: o :: w :: l :: ts)).trees := by
  obtain ⟨c, hc, hce⟩ := expect_trees .string ts
  obtain ⟨d, hd, hde⟩ := expect_trees .rParen (expect .string ts).rest
  have hs : (ipLabelFilter (t :: o :: w :: l :: ts)).trees = [.node .ipLabelFilter (.ofToken t ::
      .ofToken o :: .leaf (.keyword .ip) w.text :: .ofToken l :: ((expect .string ts).trees ++
        ((expect .rParen (expect .string ts).rest).trees ++ [])))] := rfl
  have hfront : ∀ x ∈ [t, o, ⟨.keyword .ip, w.text⟩, l], x.kind ∉ valueKinds := by
    intro x hx
    simp only [List.mem_cons, List.not_mem_nil, or_false] at hx
    rcases hx with rfl | rfl | rfl | rfl
    · exact ht
    · exact ho
    · show Kind.keyword .ip ∉ valueKinds
      decide
    · exact hl
  rw [hs, hc, hd]
  rcases hde with ⟨k, hk, x, rfl⟩ | rfl
  · obtain rfl := List.mem_singleton.mp hk
    refine settled_of_last ([t, o, ⟨.keyword .ip, w.text⟩, l] ++ c.leaves)
      (k := .rParen) (x := x) ?_ (by decide)
    simp [leavesAll, Tree.leaves, Tree.ofToken]
  · refine settled_of_expected _ (c := c) ?_ hfront hce (by decide)
    simp [leavesAll, Tree.leaves, Tree.ofToken]

/-- One node with a name, which is settled. -/
theorem labelComparison_settled (us : List Token) {o : Token} (ht : t.kind = .identifier)
    (ho : o.kind ∈ comparisonOps ++ matcherOps) (ts : List Token) :
    ∃ c, (labelComparison (t :: o :: ts)).trees = [c] ∧ c.kind.isNamed = true ∧
      Settled us (labelComparison (t :: o :: ts)).trees := by
  have htv : t.kind ∉ valueKinds := by
    rw [ht]
    decide
  have hov : o.kind ∉ valueKinds :=
    (by decide : ∀ k ∈ comparisonOps ++ matcherOps, k ∉ valueKinds) _ ho
  simp only [labelComparison]
  split_ifs with hip
  · simp only [Bool.and_eq_true, decide_eq_true_eq] at hip
    obtain ⟨w, vs, rfl, _⟩ := wordAt_cons (show wordAt 0 .ip ts = true from hip.1.2)
    obtain ⟨l, vs, rfl, hl⟩ := kindAt_cons (show kindAt 0 vs = .lParen from hip.2) (by decide)
    refine ⟨_, rfl, rfl, ipLabelFilter_settled htv hov ?_ vs⟩
    rw [hl]
    decide
  · exact ⟨_, rfl, rfl, matcher_settled ht (o :: ts)⟩
  · split
    · exact ⟨_, rfl, rfl, node_settled (comparison_settled (by decide) htv hov ts)⟩
    · exact ⟨_, rfl, rfl, node_settled (comparison_settled (by decide) htv hov ts)⟩
    · exact ⟨_, rfl, rfl, comparison_settled (by decide) htv hov ts⟩

instance (v k : Kind) [Holds v.isAsked] [Holds k.isOpen] {L : List Kind} :
    Sits (K :: L :: Ks) (comparison v k) := by
  unfold comparison
  infer_instance

theorem labelComparison_sited {o : Token} (ht : t.kind = .identifier)
    (ho : o.kind ∈ comparisonOps ++ matcherOps) (ts : List Token) :
    (labelComparison (t :: o :: ts)).Sited (t :: o :: ts) := by
  have hasked : ∀ k ∈ comparisonOps ++ matcherOps, k.isAsked = true := by decide
  have hf : Front [[.identifier], comparisonOps ++ matcherOps] (t :: o :: ts) :=
    front_cons (by simp [ht]) (by decide) (front_one ho hasked)
  simp only [labelComparison]
  split_ifs with hip
  · simp only [Bool.and_eq_true, decide_eq_true_eq] at hip
    have hfip : Front [[.identifier], comparisonOps ++ matcherOps, [.identifier], [.lParen]]
        (t :: o :: ts) :=
      front_cons (by simp [ht]) (by decide) (front_cons ho hasked
        (front_two (wordAt_kind (n := 0) hip.1.2) hip.2 (by decide) (by decide)))
    exact Sits.sited (r := node .ipLabelFilter _) _ hfip
  · exact Sits.sited (r := matcher) _ hf
  · split
    · exact Sits.sited (r := node .unitFilter (comparison .duration .durationFilter)) _ hf
    · exact Sits.sited (r := node .unitFilter (comparison .bytes .bytesFilter)) _ hf
    · exact Sits.sited (r := comparison .number .numberFilter) _ hf

/-- What parentheses around label filters hold behind the opening one. -/
theorem parenthesized_site {inner : Rule} [hi : Sits [] inner] (h : t.kind = .lParen)
    (ts : List Token) (hg : (inner ts).Gives .labelFilter) :
    Site (t :: ts) .labelFilter
      (seq [bump, orMissing .labelFilter inner, expect .rParen] (t :: ts)).trees := by
  have hfront : Front [[.lParen]] (t :: ts) := front_one (by simp [h]) (by decide)
  have hf := Sits.sited (r := seq [bump, orMissing .labelFilter inner, expect .rParen]) _ hfront
  refine ⟨rfl, fun _ => hf.known, nofun, nofun, nofun, nofun, fun _ => ?_⟩
  obtain ⟨d, hd, hde⟩ := expect_trees .rParen (orMissing .labelFilter inner ts).rest
  have hs : (seq [bump, orMissing .labelFilter inner, expect .rParen] (t :: ts)).trees =
      .ofToken t :: ((orMissing .labelFilter inner ts).trees ++
        ((expect .rParen (orMissing .labelFilter inner ts).rest).trees ++ [])) := rfl
  have hfind : ∀ c ds, c.kind.isNamed = true →
      ((Tree.ofToken t :: c :: ds).find? fun c => c.kind.isNamed) = some c := by
    intro c ds hc
    have ht : (Tree.ofToken t).kind.isNamed = false := by
      show t.kind.isNamed = false
      rw [h]
      rfl
    simp [ht, hc]
  rcases hg with hn | ⟨c, hc, hk | ⟨hk, hrest⟩⟩
  · have ho : (orMissing .labelFilter inner ts).trees = [.node .error []] := by
      simp [orMissing, Found.orMissing, Found.makes, hn, Found.followed, missing, node, nodeBy,
        nothing]
    rw [hs, ho, hd]
    refine ⟨_, hfind _ _ rfl, Or.inr ?_⟩
    refine settled_of_expected [t] (c := d) ?_ ?_ hde (by decide)
    · simp [leavesAll, Tree.leaves, Tree.ofToken]
    · intro l hl
      rw [List.mem_singleton.mp hl, h]
      decide
  · have ho : (orMissing .labelFilter inner ts).trees = [c] := by
      simp [orMissing, Found.orMissing, Found.makes, hc, hk]
    rw [hs, ho]
    exact ⟨c, hfind _ _ (by rw [hk]; rfl), Or.inl hk⟩
  · -- The error node has taken all tokens, so that the closing parenthesis is missing too.
    have ho : orMissing .labelFilter inner ts = (inner ts).followed (missing []) := by
      simp [orMissing, Found.orMissing, Found.makes, hc, hk, hrest]
    have hlen : ∀ n, (t :: ts).drop n = [] → (t :: ts).length ≤ n :=
      fun n => List.drop_eq_nil_iff.mp
    have hrest : (seq [bump, orMissing .labelFilter inner, expect .rParen] (t :: ts)).rest =
        [] := by
      show (expect .rParen (orMissing .labelFilter inner ts).rest).rest = []
      rw [ho]
      rfl
    rw [hs, ho, Found.followed, hc]
    refine ⟨c, hfind _ _ (by rw [hk]; rfl), Or.inr (Or.inr (Or.inr ?_))⟩
    have hle := hlen _ (hf.rest.symm.trans hrest)
    rw [hs, ho, Found.followed, hc] at hle
    exact hle

/-- A comparison, or label filters in parentheses, is one label filter in its place. -/
theorem labelOperand_sited {inner : Rule} [hi : Sits [] inner]
    (hg : ∀ us, (inner us).Gives .labelFilter) (ts : List Token) :
    (labelOperand inner ts).Sited ts := by
  unfold labelOperand either
  split
  · next hp =>
    obtain ⟨t, us, rfl, ht⟩ := atKind_cons hp
    have hfront : Front [[.lParen]] (t :: us) := front_one (by simp [ht]) (by decide)
    exact nodeBy_sited (q := fun _ => .labelFilter) (Sits.sited _ hfront)
      (parenthesized_site ht us (hg us))
  · next hp =>
    unfold when
    split
    · next hl =>
      rcases atLabelFilter_cons hl with ⟨t, us, rfl, ht⟩ | ⟨t, o, us, rfl, ht, ho⟩
      · simp [atKind, ht] at hp
      · have hf := labelComparison_sited ht ho us
        obtain ⟨c, hc, hnamed, hs⟩ := labelComparison_settled (t :: o :: us) ht ho us
        refine nodeBy_sited (q := fun _ => .labelFilter) hf
          ⟨rfl, fun _ => hf.known, nofun, nofun, nofun, nofun, fun _ => ⟨c, ?_, Or.inr hs⟩⟩
        simp [hc, hnamed]
    · exact nothing_sited ts

theorem labelOperand_single (inner : Rule) (ts : List Token) :
    (labelOperand inner ts).trees = [] ∨
      ∃ t, (labelOperand inner ts).trees = [t] ∧ t.kind = .labelFilter := by
  unfold labelOperand either
  split
  · exact Or.inr ⟨_, rfl, rfl⟩
  · unfold when
    split
    · exact Or.inr ⟨_, rfl, rfl⟩
    · exact Or.inl rfl

theorem labelJoin_sited {operand : Nat → Rule} (ho : ∀ n us, (operand n us).Sited us) {j : Join}
    (h : labelJoin ts = some j) : (andThen j.mark (operand j.right) ts).Sited ts := by
  refine followed_sited ?_ (ho _ _)
  unfold labelJoin at h
  split_ifs at h with hor hand hc hb
  all_goals cases h
  · exact bumpAs_sited ts (by simp)
  · exact bumpAs_sited ts (by simp)
  · simp only [Bool.and_eq_true, decide_eq_true_eq] at hc
    exact bump_sited ts (by simp [hc.1])
  · exact nothing_sited ts

theorem labelFilter_gives (levels least : Nat) (ts : List Token) :
    (labelFilter levels least ts).Gives .labelFilter := by
  cases levels with
  | zero => exact refuse_gives ts
  | succ levels => exact single_gives (chain_single (fun _ => rfl) (labelOperand_single _ ts))

/-- Joined label filters are a label filter that begins with one. -/
theorem joined_site {lhs : Tree} {more : List Tree} (hk : lhs.kind = .labelFilter)
    (h : ∀ x, .leaf .unknown x ∉ lhs :: more) : Site ts .labelFilter (lhs :: more) := by
  refine ⟨rfl, fun _ => h, nofun, nofun, nofun, nofun, fun _ => ⟨lhs, ?_, Or.inl hk⟩⟩
  have hn : lhs.kind.isNamed = true := by
    rw [hk]
    rfl
  simp [hn]

theorem labelFilter_sited (levels least : Nat) (ts : List Token) :
    (labelFilter levels least ts).Sited ts := by
  induction levels generalizing least ts with
  | zero => exact Sits.sited (r := refuse) ts (front_nil ts)
  | succ levels ih =>
    have hi : ∀ n, Sits [] (labelFilter levels n) := fun n => ⟨fun us _ => ih n us⟩
    have ho : ∀ n us, (orMissing .labelFilter (labelFilter levels n) us).Sited us :=
      fun n us => Sits.sited us (front_nil us)
    have hone : ∀ t, (labelOperand (labelFilter levels 0) ts).trees = [t] →
        t.kind = .labelFilter := by
      intro t ht
      rcases labelOperand_single (labelFilter levels 0) ts with hn | ⟨u, hu, hk⟩
      · rw [hn] at ht
        cases ht
      · rw [hu] at ht
        cases ht
        exact hk
    refine congr_sited (f := chain _ _ _ _ _ ts) ?_ rfl rfl
    refine chain_sited (k := .labelFilter) (fun _ => rfl) (fun us j => labelJoin_sited ho) ?_
      (labelOperand_sited (labelFilter_gives levels 0) ts) hone
    intro us f lhs more hf ht hk
    refine nodeBy_sited (r := fun _ => f) (q := fun _ => .labelFilter) hf ?_
    rw [ht]
    exact joined_site hk (ht ▸ hf.known)

instance (levels least : Nat) : Sits Ks (labelFilter levels least) :=
  ⟨fun ts _ => labelFilter_sited levels least ts⟩

instance : Sits ([.identifier] :: Ks) labelExtraction := by
  unfold labelExtraction
  infer_instance

instance : Sits ([.identifier] :: Ks) labelExtractions := by
  unfold labelExtractions
  infer_instance

instance : Sits Ks labelFormat := by
  unfold labelFormat
  infer_instance

instance [Holds k.isOpen] : Sits Ks (labelChoice k) := by
  unfold labelChoice
  infer_instance

instance : Sits Ks jsonParser where
  sited ts h := by
    unfold jsonParser
    split
    · exact Sits.sited ts h
    · exact Sits.sited ts h

theorem logfmtKind_open (ts : List Token) : (logfmtKind ts).isOpen = true := by
  unfold logfmtKind
  split_ifs <;> rfl

instance : Sits Ks logfmtParser where
  sited ts h := by
    have hk : Holds (logfmtKind (ts.drop 1)).isOpen := ⟨logfmtKind_open _⟩
    exact Sits.sited (r := node (logfmtKind (ts.drop 1)) _) ts h

instance (w : Keyword) : Sits Ks (namedStage w) := by
  unfold namedStage stringStage bareStage labelFormats labelChoices
  split <;> infer_instance

instance : Sits Ks wordStage where
  sited ts h := by
    unfold wordStage
    split
    · split <;> exact Sits.sited _ h
    · exact nothing_sited _

instance (levels : Nat) : Sits ((.pipe :: lineOps) :: Ks) (stage levels) := by
  unfold stage
  infer_instance

instance (levels : Nat) : Sits Ks (pipeline levels) := by
  unfold pipeline
  infer_instance

instance (levels : Nat) : Sits ([.lBrace] :: Ks) (logExpr levels) := by
  unfold logExpr
  infer_instance

instance : Sits ([.lBracket] :: Ks) range := by
  unfold range
  infer_instance

instance : Sits Ks offset := by
  unfold offset
  infer_instance

instance : Sits Ks unwrapped where
  sited ts h := by
    unfold unwrapped
    dsimp only
    split
    · next w hw =>
      split at hw
      · next t x us =>
        split at hw
        · next ht =>
          have hf : Front [[.identifier], [.lParen]] (t :: ⟨.lParen, x⟩ :: us) :=
            front_two ht rfl (by decide) (by decide)
          exact Sits.sited (r := seq [node .convOp (bumpWord w), bump, expect .identifier,
            expect .rParen]) _ hf
        · cases hw
      · cases hw
    · exact Sits.sited ts h

instance (levels : Nat) : Sits ([.pipe] :: [.identifier] :: Ks) (unwrap levels) := by
  unfold unwrap
  infer_instance

instance (levels : Nat) : Sits Ks (logRange levels) := by
  unfold logRange
  infer_instance

instance : Sits ([.identifier] :: [.lParen] :: Ks) grouping := by
  unfold grouping
  infer_instance

instance [Sits [] r] : Sits Ks (arguments r) := by
  unfold arguments
  infer_instance

instance : Sits Ks parameter := by
  unfold parameter
  infer_instance

instance (levels : Nat) (w : Keyword) : Sits Ks (rangeAggregation levels w) := by
  unfold rangeAggregation
  infer_instance

instance [Sits [] r] (w : Keyword) : Sits Ks (vectorAggregation r w) := by
  unfold vectorAggregation
  infer_instance

instance : Sits Ks vectorLiteral := by
  unfold vectorLiteral
  infer_instance

theorem call_sits {inner : Rule} [Sits [] inner] {levels : Nat} {name : Text}
    (h : call? levels inner name = some r) : Sits Ks r := by
  unfold call? at h
  split at h
  · cases h
    infer_instance
  · split at h
    · cases h
      infer_instance
    · split at h
      · cases h
        infer_instance
      · cases h

theorem parenthesesKind_open (cs : List Tree) : (parenthesesKind cs).isOpen = true := by
  unfold parenthesesKind
  split <;> rfl

instance {inner : Rule} [Sits [] inner] : Sits ([.lParen] :: Ks) (parentheses inner) where
  sited ts h := by
    have hf := Sits.sited (r := seq [bump, orMissing .expr inner, expect .rParen]) ts h
    exact nodeBy_sited hf (open_site (parenthesesKind_open _) hf.known)

/-- A number, or a number with a sign. -/
theorem literal_sited (h : t.kind = .number ∨ (t.kind ∈ [.add, .sub] ∧ atKind .number ts = true)) :
    (literal (t :: ts)).Sited (t :: ts) := by
  refine node_sited rfl (node_sited rfl (followed_sited ?_ (bump_sited _ ?_)))
  all_goals unfold when
  all_goals rcases h with h | ⟨h, hn⟩
  · simpa [atAny, h] using nothing_sited (t :: ts)
  · have hp : atAny [.add, .sub] (t :: ts) = true := by simpa [atAny] using h
    rw [if_pos hp]
    refine bump_sited (t :: ts) fun he => ?_
    rw [kindAt_zero] at he
    simp [he] at h
  · simp [atAny, h, nothing]
  · obtain ⟨u, us, rfl, hu⟩ := atKind_cons hn
    have hp : atAny [.add, .sub] (t :: u :: us) = true := by simpa [atAny] using h
    simp [hp, bump, hu]

/-- A sign begins an operand only in front of a number. -/
theorem signed_sited (h : t.kind ∈ [.add, .sub]) (ts : List Token) :
    (when (fun _ => atKind .number ts) (node .expr literal) (t :: ts)).Sited (t :: ts) := by
  unfold when
  split
  · next hn => exact node_sited rfl (literal_sited (Or.inr ⟨h, hn⟩))
  · exact nothing_sited _

theorem operand_sited {inner : Rule} [Sits [] inner] (levels : Nat) (ts : List Token) :
    (operand levels inner ts).Sited ts := by
  have hone : ∀ {k t us}, t.kind = k → k.isAsked = true → Front [[k]] (t :: us) := by
    intro k t us ht hk
    exact front_one (by simp [ht]) (by simpa using hk)
  unfold operand
  split
  · exact nothing_sited []
  · next t more =>
    split
    · next ht => exact Sits.sited (r := node .expr (logExpr levels)) _ (hone ht rfl)
    · next ht => exact Sits.sited (r := node .expr (parentheses inner)) _ (hone ht rfl)
    · next ht => exact node_sited rfl (literal_sited (Or.inl ht))
    · next ht => exact signed_sited (by simp [ht]) more
    · next ht => exact signed_sited (by simp [ht]) more
    · split
      · next r hr =>
        have hs : Sits [] r := call_sits hr
        exact Sits.sited (r := node .expr (node .metricExpr r)) _ (front_nil _)
      · exact nothing_sited _
    · exact nothing_sited _

theorem binaryJoin_sited {right : Nat → Rule} (hr : ∀ n us, (right n us).Sited us) {j : Join}
    (h : binaryJoin ts = some j) : (andThen j.mark (right j.right) ts).Sited ts := by
  refine followed_sited ?_ (hr _ _)
  cases ts with
  | nil => cases h
  | cons t us =>
    simp only [binaryJoin, Option.map_eq_some_iff] at h
    obtain ⟨⟨k, l, r⟩, ho, rfl⟩ := h
    have hk : k ≠ .unknown := (by decide : ∀ k ∈ binaryOps, k ≠ .unknown) k (operator?_readAs ho).2
    refine followed_sited (bumpAs_sited (t :: us) hk) ?_
    exact Sits.sited (r := when (wordAt 0 .bool) (node .boolModifier (bumpWord .bool))) _
      (front_nil _)

theorem operand_single (inner : Rule) (levels : Nat) (ts : List Token) :
    (operand levels inner ts).trees = [] ∨
      ∃ t, (operand levels inner ts).trees = [t] ∧ t.kind = .expr := by
  unfold operand
  split
  · exact Or.inl rfl
  · split
    any_goals exact Or.inr ⟨_, rfl, rfl⟩
    · unfold when
      split
      · exact Or.inr ⟨_, rfl, rfl⟩
      · exact Or.inl rfl
    · unfold when
      split
      · exact Or.inr ⟨_, rfl, rfl⟩
      · exact Or.inl rfl
    · split
      · exact Or.inr ⟨_, rfl, rfl⟩
      · exact Or.inl rfl
    · exact Or.inl rfl

theorem expr_single (levels least : Nat) (ts : List Token) :
    (expr (levels + 1) least ts).trees = [] ∨
      ∃ t, (expr (levels + 1) least ts).trees = [t] ∧ t.kind = .expr :=
  chain_single (fun _ => rfl) (operand_single _ levels ts)

theorem expr_sited (levels least : Nat) (ts : List Token) : (expr levels least ts).Sited ts := by
  induction levels generalizing least ts with
  | zero => exact Sits.sited (r := refuse) ts (front_nil ts)
  | succ levels ih =>
    have hi : ∀ n, Sits [] (expr levels n) := fun n => ⟨fun us _ => ih n us⟩
    have ho : ∀ n us, (orMissing .expr (expr levels n) us).Sited us :=
      fun n us => Sits.sited us (front_nil us)
    have hone : ∀ t, (operand levels (expr levels 0) ts).trees = [t] → t.kind = .expr := by
      intro t ht
      rcases operand_single (expr levels 0) levels ts with hn | ⟨u, hu, hk⟩
      · rw [hn] at ht
        cases ht
      · rw [hu] at ht
        cases ht
        exact hk
    refine congr_sited (f := chain _ _ _ _ _ ts) ?_ rfl rfl
    refine chain_sited (k := .expr) (fun _ => rfl) (fun us j => binaryJoin_sited ho) ?_
      (operand_sited levels ts) hone
    intro us f lhs more hf _ _
    exact node_sited (r := node .metricExpr (node .binOpExpr fun _ => f)) rfl
      (node_sited rfl (node_sited rfl hf))

/-- The nodes of a query are in their places. -/
theorem contents_sited (levels : Nat) (ts : List Token) : (contents levels ts).Sited ts := by
  have he : Sits [] (expr levels 0) := ⟨fun us _ => expr_sited levels 0 us⟩
  simp only [contents, andThen]
  refine followed_sited ?_ (Sits.sited _ (front_nil _))
  split
  · exact Sits.sited (r := orMissing .expr (expr levels 0)) ts (front_nil ts)
  · exact expr_sited levels 0 ts

theorem skipped_kinds (ts : List Token) :
    (skipUntil [] ts).trees.map Tree.kind = if ts = [] then [] else [.error] := by
  cases ts with
  | nil => rfl
  | cons t ts => rfl

/-- What a query is: an expression, an expression and what is left over, or neither. -/
theorem contents_kinds (levels : Nat) (ts : List Token) :
    (contents (levels + 1) ts).trees.map Tree.kind ∈ [[.expr], [.expr, .error], [.error]] := by
  have hf := expr_single levels 0 ts
  simp only [contents, andThen, Found.followed, List.map_append]
  by_cases hr : (expr (levels + 1) 0 ts).rest = []
  · rw [hr, List.isEmpty_nil, if_pos rfl]
    have hrest : ((expr (levels + 1) 0 ts).orMissing .expr).rest = [] := by
      unfold Found.orMissing
      split <;> exact hr
    rw [hrest, skipped_kinds, if_pos rfl, List.append_nil]
    rcases hf with hn | ⟨t, ht, hk⟩
    · simp [Found.orMissing, Found.makes, hn, Found.followed, missing, node, nodeBy, nothing,
        Tree.kind]
    · simp [Found.orMissing, Found.makes, ht, hk]
  · rw [if_neg (by simpa using hr), skipped_kinds, if_neg hr]
    rcases hf with hn | ⟨t, ht, hk⟩
    · simp [hn]
    · simp [ht, hk]

end Grammar

end LogQuery
