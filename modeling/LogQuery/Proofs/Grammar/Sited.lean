import LogQuery.Proofs.Grammar.LogShape
import LogQuery.Proofs.Precedence.Ranked
import LogQuery.Proofs.Tree.Within

/-! What holds of a node by the tokens that it begins at, whatever comes before and after it, and
however many error nodes there are. -/
namespace LogQuery

namespace Kind

/-- Nodes of which nothing is asked but that there are no stray characters in them. -/
@[reducible] def isOpen : Kind → Bool
  | .logQl | .expr | .logExpr | .metricExpr | .matchers | .pipelineExpr | .pipelineStage
  | .lineFilters | .filter | .filterOp | .orFilter
  | .labelParser | .jsonExpressionParser | .logfmtParser | .logfmtExpressionParser
  | .labelExtractionExpressionList | .labelExtractionExpression
  | .ipLabelFilter | .unitFilter | .durationFilter | .bytesFilter | .numberFilter
  | .lineFormatExpr | .labelFormatExpr | .labelsFormat | .labelFormatMatcher
  | .dropLabelsExpr | .dropLabels | .dropLabel | .keepLabelsExpr | .keepLabels | .keepLabel
  | .decolorizeExpr
  | .rangeAggregationExpr | .rangeOp | .logRangeExpr | .range | .offsetExpr | .unwrapExpr | .convOp
  | .vectorAggregationExpr | .vectorOp | .grouping | .labels
  | .binOpExpr | .boolModifier | .literalExpr | .vectorExpr => true
  | _ => false

theorem isNode_of_open {k : Kind} (h : k.isOpen = true) : k.isNode = true := by
  cases k <;> first | rfl | cases h

end Kind

namespace Grammar

open LogQuery.Tree (leavesAll leavesAll_append Within)

variable {k : Kind} {ts us : List Token} {t : Token} {p : Look} {a b r : Rule} {rs : List Rule}
  {f g : Found} {cs ds : List Tree} {K : List Kind} {Ks Ls : List (List Kind)} {w : Keyword}

/-- An expected leaf, or an empty error node in its place. -/
def Expected (ks : List Kind) (c : Tree) : Prop :=
  (∃ k ∈ ks, ∃ x, c = .leaf k x) ∨ c = .node .error []

/-- A name, an operator, an error node around characters that are no token, and a string. -/
structure MatcherParts (cs : List Tree) (name : Text) (op : Tree) (stray : List Tree)
    (value : Tree) : Prop where
  children : cs = .leaf .identifier name :: op :: (stray ++ [value])
  op : Expected matcherOps op
  stray : stray = [] ∨ ∃ us : List Token, (∀ u ∈ us, u.kind = .unknown) ∧
    stray = [.node .error (us.map .ofToken)]
  value : Expected [.string] value

def MatcherShape (cs : List Tree) : Prop :=
  ∃ name op stray value, MatcherParts cs name op stray value

/-- Values that a field may be compared with. -/
def valueKinds : List Kind := [.string, .number, .duration, .bytes]

/-- A comparison holds no value, or ends with its value or the parenthesis behind it, or takes all
tokens there are. -/
def Settled (ts : List Token) (cs : List Tree) : Prop :=
  (∀ l ∈ leavesAll cs, l.kind ∉ valueKinds) ∨
    (∃ l, (leavesAll cs).getLast? = some l ∧ l.kind ∈ Kind.rParen :: valueKinds) ∨
    ts.length ≤ (leavesAll cs).length

/-- What holds of a node of a kind that begins at some tokens. -/
structure Site (ts : List Token) (k : Kind) (cs : List Tree) : Prop where
  node : k.isNode = true
  unknown : k ≠ .error → ∀ x, .leaf .unknown x ∉ cs
  error : k = .error → cs = (ts.take cs.length).map .ofToken
  selector : k = .selector → atKind .lBrace ts = true ∧ (selector ts).trees = [.node .selector cs]
  matcher : k = .matcher → MatcherShape cs
  lineFilter : k = .lineFilter → ∃ op ∈ lineOps, ∃ x more, cs = .node .filter [.leaf op x] :: more
  labelFilter : k = .labelFilter → ∃ c, (cs.find? fun c => c.kind.isNamed) = some c ∧
    (c.kind = .labelFilter ∨ Settled ts cs)

/-- What holds of every node among some trees and below them, if these begin at some tokens. -/
def Sites (cs : List Tree) (ts : List Token) : Prop :=
  ∀ before k ds after, Within cs before (.node k ds) after → Site (ts.drop before.length) k ds

theorem open_site (hk : k.isOpen = true) (h : ∀ x, .leaf .unknown x ∉ cs) : Site ts k cs := by
  constructor
  · exact Kind.isNode_of_open hk
  · exact fun _ => h
  all_goals
    rintro rfl
    cases hk

theorem error_site (h : cs = (ts.take cs.length).map .ofToken) : Site ts .error cs := by
  constructor
  · rfl
  · exact fun hk => (hk rfl).elim
  · exact fun _ => h
  all_goals
    intro hk
    cases hk

theorem sites_nil : Sites [] ts := by
  intro before k ds after h
  cases h

theorem sites_tokens (us : List Token) : Sites (us.map .ofToken) ts :=
  fun _ _ _ _ h => (Tree.not_within_tokens h).elim

theorem sites_node (h : Site ts k cs) (hcs : Sites cs ts) : Sites [.node k cs] ts := by
  intro before l ds after hw
  cases hw with
  | head => exact h
  | inside _ _ hw => exact hcs _ _ _ _ hw
  | tail _ hw => cases hw

theorem sites_append (hcs : Sites cs ts) (hds : Sites ds (ts.drop (leavesAll cs).length)) :
    Sites (cs ++ ds) ts := by
  intro before k es after h
  rcases Tree.within_append h with ⟨_, hw, _⟩ | ⟨before', hw, rfl⟩
  · exact hcs _ _ _ _ hw
  · rw [List.length_append, ← List.drop_drop]
    exact hds _ _ _ _ hw

/-- What a rule finds: every node is in its place, and there are no stray characters beside them. -/
structure Found.Sited (ts : List Token) (f : Found) : Prop where
  rest : f.rest = ts.drop (leavesAll f.trees).length
  sites : Sites f.trees ts
  known : ∀ x, .leaf .unknown x ∉ f.trees

theorem nothing_sited (ts : List Token) : (nothing ts).Sited ts :=
  ⟨rfl, sites_nil, fun _ h => by cases h⟩

theorem followed_sited (hf : f.Sited ts) (hg : g.Sited f.rest) : (f.followed g).Sited ts := by
  constructor
  · simp only [Found.followed, leavesAll_append, List.length_append]
    rw [hg.rest, hf.rest, List.drop_drop]
  · exact sites_append hf.sites (hf.rest ▸ hg.sites)
  · intro x hx
    rcases List.mem_append.mp hx with hx | hx
    · exact hf.known x hx
    · exact hg.known x hx

/-- How deep a finding went says nothing about its trees. -/
theorem congr_sited (h : f.Sited ts) (ht : g.trees = f.trees) (hr : g.rest = f.rest) :
    g.Sited ts := by
  constructor
  · rw [hr, ht, h.rest]
  · rw [ht]
    exact h.sites
  · rw [ht]
    exact h.known

theorem nodeBy_sited {q : List Tree → Kind} (h : (r ts).Sited ts)
    (hs : Site ts (q (r ts).trees) (r ts).trees) : (nodeBy q r ts).Sited ts := by
  constructor
  · simpa [nodeBy, leavesAll, Tree.leaves] using h.rest
  · exact sites_node hs h.sites
  · intro x hx
    cases List.mem_singleton.mp hx

theorem node_sited (hk : k.isOpen = true) (h : (r ts).Sited ts) : (node k r ts).Sited ts :=
  nodeBy_sited h (open_site hk h.known)

theorem bumpAs_sited (ts : List Token) (hk : k ≠ .unknown) : (bumpAs k ts).Sited ts := by
  cases ts with
  | nil => exact nothing_sited []
  | cons t ts =>
    constructor
    · rfl
    · exact sites_tokens [⟨k, t.text⟩]
    · intro x hx
      cases List.mem_singleton.mp hx
      exact hk rfl

theorem bump_sited (ts : List Token) (hk : kindAt 0 ts ≠ .unknown) : (bump ts).Sited ts := by
  cases ts with
  | nil => exact nothing_sited []
  | cons t ts => exact bumpAs_sited (t :: ts) hk

/-- Tokens as they are in one error node. -/
theorem error_sited (us ts : List Token) (d : Nat) (c : Option (List Token)) :
    (⟨[.node .error (us.map .ofToken)], ts, d, c⟩ : Found).Sited (us ++ ts) := by
  constructor
  · simp [leavesAll, Tree.leaves, Tree.leavesAll_ofToken]
  · refine sites_node (error_site ?_) (sites_tokens us)
    simp
  · intro x hx
    cases List.mem_singleton.mp hx

/-- The kinds of the first of some tokens are in some lists. None of them is a stray character. -/
def Front : List (List Kind) → List Token → Prop
  | [], _ => True
  | _ :: _, [] => False
  | K :: Ks, t :: ts => t.kind ∈ K ∧ t.kind ≠ .unknown ∧ Front Ks ts

theorem front_nil (ts : List Token) : Front [] ts := trivial

/-- What a look tells of the first tokens. -/
class Looks (p : Look) (Ks : outParam (List (List Kind))) : Prop where
  front : ∀ ts, p ts = true → Front Ks ts

/-- What is known of the tokens that a rule leaves. -/
class Takes (Ks : List (List Kind)) (r : Rule) (Ls : outParam (List (List Kind))) : Prop where
  front : ∀ ts, Front Ks ts → Front Ls (r ts).rest

/-- What a rule finds at tokens with a known front is in its place. -/
class Sits (Ks : List (List Kind)) (r : Rule) : Prop where
  sited : ∀ ts, Front Ks ts → (r ts).Sited ts

instance : Takes (K :: Ks) bump Ks where
  front ts h := by
    cases ts with
    | nil => cases h
    | cons t ts => exact h.2.2

instance : Takes (K :: Ks) (bumpWord w) Ks where
  front ts h := by
    cases ts with
    | nil => cases h
    | cons t ts => exact h.2.2

instance [h : Takes Ks r Ls] : Takes Ks (node k r) Ls := ⟨h.front⟩

instance [ha : Takes Ks a Ls] [hb : Takes Ks b Ls] : Takes Ks (either p a b) Ls where
  front ts h := by
    unfold either
    split
    · exact ha.front ts h
    · exact hb.front ts h

instance (priority := low) : Takes Ks r [] := ⟨fun _ _ => front_nil _⟩

instance : Sits Ks nothing := ⟨fun ts _ => nothing_sited ts⟩

instance : Sits (K :: Ks) bump where
  sited ts h := by
    cases ts with
    | nil => exact nothing_sited []
    | cons t ts => exact bump_sited (t :: ts) h.2.1

instance : Sits Ks (bumpWord w) := ⟨fun ts _ => bumpAs_sited ts (by simp)⟩

instance : Sits Ks (skipUntil K) where
  sited ts _ := by
    unfold skipUntil
    set skipped := ts.takeWhile fun t => !K.contains t.kind
    have ht : skipped ++ ts.drop skipped.length = ts :=
      List.prefix_iff_eq_append.mp (List.takeWhile_prefix _)
    clear_value skipped
    cases skipped with
    | nil => exact nothing_sited ts
    | cons t more =>
      have hs := error_sited (t :: more) (ts.drop (t :: more).length) 0 none
      rwa [ht] at hs

instance : Sits Ks refuse := ⟨fun ts h => congr_sited (Sits.sited (r := skipUntil []) ts h) rfl rfl⟩

instance [ha : Sits Ks a] [ht : Takes Ks a Ls] [hb : Sits Ls b] : Sits Ks (andThen a b) :=
  ⟨fun ts h => followed_sited (ha.sited ts h) (hb.sited _ (ht.front ts h))⟩

instance : Sits Ks (seq []) := inferInstanceAs (Sits Ks nothing)

instance [Sits Ks r] [Takes Ks r Ls] [Sits Ls (seq rs)] : Sits Ks (seq (r :: rs)) :=
  inferInstanceAs (Sits Ks (andThen r (seq rs)))

instance [hp : Looks p Ls] [ha : Sits Ls a] [hb : Sits Ks b] : Sits Ks (either p a b) where
  sited ts h := by
    unfold either
    split
    · next hl => exact ha.sited ts (hp.front ts hl)
    · exact hb.sited ts h

instance [Looks p Ls] [Sits Ls r] : Sits Ks (when p r) :=
  inferInstanceAs (Sits Ks (either p r nothing))

instance [hp : Looks p Ls] [hr : Sits Ls r] : Sits Ks (many p r) := by
  have hgo : ∀ limit, Sits [] (many.go p r limit) := by
    intro limit
    induction limit with
    | nil => exact inferInstanceAs (Sits [] nothing)
    | cons _ limit ih =>
      have hr : Sits Ls (andThen r (many.go p r limit)) :=
        ⟨fun ts h => followed_sited (hr.sited ts h) (ih.sited _ (front_nil _))⟩
      exact inferInstanceAs (Sits [] (when p (andThen r (many.go p r limit))))
  exact ⟨fun ts _ => (hgo ts).sited ts (front_nil ts)⟩

instance [hk : Holds k.isOpen] [hr : Sits Ks r] : Sits Ks (node k r) :=
  ⟨fun ts h => node_sited hk.holds (hr.sited ts h)⟩

instance : Sits Ks missing := ⟨fun ts _ => error_sited [] ts 0 none⟩

instance [hr : Sits Ks r] : Sits Ks (orMissing k r) where
  sited ts h := by
    unfold orMissing Found.orMissing
    split
    · exact hr.sited ts h
    · exact followed_sited (hr.sited ts h) (error_sited [] _ 0 none)

instance [hr : Sits Ks r] : Sits Ks (deepen r) :=
  ⟨fun ts h => congr_sited (hr.sited ts h) rfl rfl⟩

section Chain

variable {join : List Token → Option Join} {wrap : List Tree → Tree} {operand : Nat → Rule}
  {least : Nat} {first : Rule}

/-- From a left operand in its place, that begins at `ts`, to all that is joined to it. -/
theorem climb_sited (hkind : ∀ cs, (wrap cs).kind = k)
    (hjoin : ∀ us j, join us = some j → (andThen j.mark (operand j.right) us).Sited us)
    (hwrap : ∀ us (f : Found) lhs more, f.Sited us → f.trees = lhs :: more → lhs.kind = k →
      (⟨[wrap f.trees], f.rest, f.depth, f.cut⟩ : Found).Sited us)
    (limit : List Token) {acc : Found} {lhs : Tree} (ht : acc.trees = [lhs]) (hk : lhs.kind = k)
    (hs : acc.Sited ts) :
    (acc.absorbed (climb join wrap operand least limit lhs acc.rest)).Sited ts := by
  induction limit generalizing acc lhs with
  | nil => exact congr_sited hs ht.symm rfl
  | cons _ limit ih =>
    rw [climb]
    split
    · exact congr_sited hs ht.symm rfl
    · next j hj =>
      split
      · exact congr_sited hs ht.symm rfl
      · have hf := followed_sited hs (hjoin acc.rest j hj)
        have htrees : (acc.followed (andThen j.mark (operand j.right) acc.rest)).trees =
            lhs :: (andThen j.mark (operand j.right) acc.rest).trees := by
          simp [Found.followed, ht]
        have hw := hwrap ts _ lhs _ hf htrees hk
        rw [htrees] at hw
        exact congr_sited (ih rfl (hkind _) hw) rfl rfl

theorem chain_sited (hkind : ∀ cs, (wrap cs).kind = k)
    (hjoin : ∀ us j, join us = some j → (andThen j.mark (operand j.right) us).Sited us)
    (hwrap : ∀ us (f : Found) lhs more, f.Sited us → f.trees = lhs :: more → lhs.kind = k →
      (⟨[wrap f.trees], f.rest, f.depth, f.cut⟩ : Found).Sited us)
    (hfirst : (first ts).Sited ts) (hone : ∀ t, (first ts).trees = [t] → t.kind = k) :
    (chain first join wrap operand least ts).Sited ts := by
  simp only [chain]
  split
  · next lhs ht => exact climb_sited hkind hjoin hwrap _ ht (hone lhs ht) hfirst
  · exact hfirst

end Chain

end Grammar

end LogQuery
