import LogQuery.Proofs.Grammar.Progress
import LogQuery.Proofs.Grammar.Production

/-! Trees whose operators and signs bind in the order of their levels. -/
namespace LogQuery

namespace Kind

/-- The levels of binary operators, the loosest first. -/
def operatorLevel : Kind → Nat
  | .keyword .or => 1
  | .keyword .and | .keyword .unlessMatched => 2
  | .eql | .neq | .gtr | .gte | .lss | .lte => 3
  | .add | .sub => 4
  | .mul | .div | .mod => 5
  | .pow => 6
  | _ => 0

/-- Nodes that join no operands. -/
@[reducible] def isPlain : Kind → Bool
  | .binOpExpr | .labelFilter => false
  | _ => true

end Kind

namespace Tree

/-- The operator of an expression that is a binary one without parentheses around it. -/
def operator? : Tree → Option Kind
  | node .expr [node .metricExpr [node .binOpExpr (_ :: op :: _)]] => some op.kind
  | _ => none

/-- Of what may stand between two label filters, `or` alone is loose. -/
def jointLevel (joint : List Kind) : Nat := if joint = [.keyword .or] then 1 else 2

/-- What stands between the two parts of a label filter that has no parentheses around it. -/
def joint? : Tree → Option (List Kind)
  | node .labelFilter (l :: more) =>
    if l.kind = .labelFilter then some (more.dropLast.map kind) else none
  | _ => none

/-- Operands bind at least as closely as the operator between them, and on one side more closely:
on the right, or for a power on the left. -/
structure OperandsOrdered (op : Kind) (l r : Tree) : Prop where
  left : ∀ o, l.operator? = some o →
    if op = .pow then op.operatorLevel < o.operatorLevel else op.operatorLevel ≤ o.operatorLevel
  right : ∀ o, r.operator? = some o →
    if op = .pow then op.operatorLevel ≤ o.operatorLevel else op.operatorLevel < o.operatorLevel

structure JointOrdered (joint : List Kind) (l r : Tree) : Prop where
  left : ∀ j, l.joint? = some j → jointLevel joint ≤ jointLevel j
  right : ∀ j, r.joint? = some j → jointLevel joint < jointLevel j

/-- What the children of a node owe to the levels. -/
def Ordered : Kind → List Tree → Prop
  | .binOpExpr, cs => ∃ l op modifier r, cs = l :: op :: (modifier ++ [r]) ∧
      l.kind = .expr ∧ op.kind ∈ Grammar.binaryOps ∧
      modifier.map kind ∈ [[], [.boolModifier]] ∧ r.kind = .expr ∧ OperandsOrdered op.kind l r
  | .labelFilter, cs => ∀ l more, cs = l :: more → l.kind = .labelFilter →
      ∃ joint r, more = joint ++ [r] ∧ r.kind = .labelFilter ∧
        joint.map kind ∈ [[], [.keyword .or], [.keyword .and], [.comma]] ∧
        JointOrdered (joint.map kind) l r
  | _, _ => True

/-- The children of every node are in order. -/
inductive Ranked : Tree → Prop
  | leaf (k : Kind) (x : Text) : Ranked (leaf k x)
  | node (k : Kind) (cs : List Tree) (h : Ordered k cs) (hcs : ∀ c ∈ cs, c.Ranked) :
    Ranked (node k cs)

theorem ordered_plain {k : Kind} (h : k.isPlain = true) (cs : List Tree) : Ordered k cs := by
  cases k <;> trivial

end Tree

namespace Grammar

open LogQuery.Tree (kindsAll)

variable {k : Kind} {ts us : List Token} {p : Look} {a b r : Rule} {rs : List Rule} {f g : Found}

/-- Unless there is an error node among them, the trees are ranked. -/
def Found.Ranked (f : Found) : Prop := .error ∉ kindsAll f.trees → ∀ t ∈ f.trees, t.Ranked

/-- A rule finds ranked trees, whatever it is given. -/
class Ranks (r : Rule) : Prop where
  ranked : ∀ ts, (r ts).Ranked

/-- A condition that is met by computing it. -/
class Holds (b : Bool) : Prop where
  holds : b = true

instance : Holds true := ⟨rfl⟩

theorem followed_ranked (hf : f.Ranked) (hg : g.Ranked) : (f.followed g).Ranked := by
  intro he t ht
  rw [Found.followed, kindsAll_append, List.mem_append, not_or] at he
  rcases List.mem_append.mp ht with ht | ht
  · exact hf he.1 t ht
  · exact hg he.2 t ht

theorem nothing_ranked (ts : List Token) : (nothing ts).Ranked := by
  intro _ t ht
  cases ht

/-- What stands under an error node is not asked for its order. -/
theorem error_ranked (h : .error ∈ kindsAll f.trees) : f.Ranked := fun he => (he h).elim

instance : Ranks nothing := ⟨nothing_ranked⟩

instance : Ranks (bumpAs k) where
  ranked ts := by
    cases ts with
    | nil => exact nothing_ranked []
    | cons t ts =>
      intro _ c hc
      obtain rfl := List.mem_singleton.mp hc
      exact .leaf k t.text

instance : Ranks bump where
  ranked ts := by
    cases ts with
    | nil => exact nothing_ranked []
    | cons t ts => exact Ranks.ranked (r := bumpAs t.kind) (t :: ts)

instance (w : Keyword) : Ranks (bumpWord w) := inferInstanceAs (Ranks (bumpAs _))

instance (ks : List Kind) : Ranks (skipUntil ks) where
  ranked ts := by
    simp only [skipUntil]
    split
    · exact nothing_ranked ts
    · exact error_ranked (by simp [kindsAll, Tree.kinds])

instance : Ranks refuse := ⟨fun ts => Ranks.ranked (r := skipUntil []) ts⟩

instance [ha : Ranks a] [hb : Ranks b] : Ranks (andThen a b) :=
  ⟨fun ts => followed_ranked (ha.ranked ts) (hb.ranked _)⟩

instance : Ranks (seq []) := inferInstanceAs (Ranks nothing)

instance [Ranks r] [Ranks (seq rs)] : Ranks (seq (r :: rs)) :=
  inferInstanceAs (Ranks (andThen r (seq rs)))

instance [ha : Ranks a] [hb : Ranks b] : Ranks (either p a b) where
  ranked ts := by
    unfold either
    split
    · exact ha.ranked ts
    · exact hb.ranked ts

instance [Ranks r] : Ranks (when p r) := inferInstanceAs (Ranks (either p r nothing))

instance [Ranks r] : Ranks (many p r) := by
  have hgo : ∀ limit, Ranks (many.go p r limit) := by
    intro limit
    induction limit with
    | nil => exact inferInstanceAs (Ranks nothing)
    | cons _ limit ih => exact inferInstanceAs (Ranks (when p (andThen r (many.go p r limit))))
  exact ⟨fun ts => (hgo ts).ranked ts⟩

/-- A node is ranked if its parts are and it joins them in order. -/
theorem nodeBy_ranked {q : List Tree → Kind} (h : (r ts).Ranked)
    (ho : .error ∉ kindsAll (r ts).trees → Tree.Ordered (q (r ts).trees) (r ts).trees) :
    (nodeBy q r ts).Ranked := by
  intro he t ht
  rw [nodeBy, List.mem_singleton] at ht
  subst ht
  have he' : .error ∉ kindsAll (r ts).trees := by
    simp only [nodeBy, kindsAll, Tree.kinds, List.append_nil, List.mem_cons, not_or] at he
    exact he.2
  exact .node _ _ (ho he') (h he')

instance [hk : Holds k.isPlain] [hr : Ranks r] : Ranks (node k r) where
  ranked ts := nodeBy_ranked (hr.ranked ts) fun _ => Tree.ordered_plain hk.holds _

instance : Ranks missing := inferInstanceAs (Ranks (node .error nothing))

instance : Ranks (optional k) := inferInstanceAs (Ranks (when _ bump))

instance : Ranks (expect k) := inferInstanceAs (Ranks (either _ bump missing))

instance [hr : Ranks r] : Ranks (orMissing k r) where
  ranked ts := by
    unfold orMissing Found.orMissing
    split
    · exact hr.ranked ts
    · exact followed_ranked (hr.ranked ts) (Ranks.ranked (r := missing) _)

instance [hr : Ranks r] : Ranks (deepen r) := ⟨hr.ranked⟩

/-- Without an error node, what a rule was asked for is there. -/
theorem orMissing_single (h : .error ∉ kindsAll (f.orMissing k).trees) :
    f.orMissing k = f ∧ ∃ t, f.trees = [t] ∧ t.kind = k := by
  unfold Found.orMissing at h ⊢
  split at h
  · next hm =>
    have hs := hm
    unfold Found.makes at hs
    split at hs
    · next t ht => exact ⟨if_pos hm, t, ht, of_decide_eq_true hs⟩
    · cases hs
  · exact (h (by simp [Found.followed, kindsAll_append, missing, node, nodeBy, kindsAll,
      Tree.kinds])).elim

section Climb

/-- The sign ahead, if there is one, binds more weakly than `least`. -/
def Stops (join : List Token → Option Join) (least : Nat) (us : List Token) : Prop :=
  ∀ j, join us = some j → j.left < least

variable {join : List Token → Option Join} {wrap : List Tree → Tree} {operand : Nat → Rule}
  {first : Rule} {powers? : Tree → Option (Nat × Nat)} {least : Nat} {lhs : Tree}

/-- A tree that may stand where signs bind at least as strongly as `least`. -/
structure Holding (k : Kind) (powers? : Tree → Option (Nat × Nat)) (least : Nat) (t : Tree) :
    Prop where
  kind : t.kind = k
  ranked : t.Ranked
  strong : ∀ l r, powers? t = some (l, r) → least ≤ l

/-- A rule finds one tree that may stand there, and leaves only signs that bind more weakly. -/
structure Found.Climbs (join : List Token → Option Join) (k : Kind)
    (powers? : Tree → Option (Nat × Nat)) (least : Nat) (f : Found) (t : Tree) : Prop where
  trees : f.trees = [t]
  holds : Holding k powers? least t
  stops : Stops join least f.rest

/-- What a left operand is before the sign ahead is looked at: its own sign, if it has one, is
strong enough, and would have left the sign ahead to its right operand if that were stronger. -/
structure Waits (join : List Token → Option Join) (k : Kind) (powers? : Tree → Option (Nat × Nat))
    (least : Nat) (t : Tree) (ts : List Token) : Prop where
  holds : Holding k powers? least t
  stops : ∀ l r, powers? t = some (l, r) → Stops join r ts

/-- One step: two operands around a sign are in order, and become an operand with that sign. -/
def Wraps (join : List Token → Option Join) (wrap : List Tree → Tree) (k : Kind)
    (powers? : Tree → Option (Nat × Nat)) : Prop :=
  ∀ ts j lhs rhs, join ts = some j → Waits join k powers? 0 lhs ts →
    Holding k powers? j.right rhs →
    let t := wrap (lhs :: ((j.mark ts).trees ++ [rhs]))
    .error ∉ t.kinds → t.kind = k ∧ t.Ranked ∧ powers? t = some (j.left, j.right)

section Turns

variable (hkinds : ∀ cs, .error ∈ kindsAll cs → .error ∈ (wrap cs).kinds)
  (hwrap : Wraps join wrap k powers?)
  (hoperand : ∀ n us, .error ∉ kindsAll (operand n us).trees →
    ∃ t, (operand n us).Climbs join k powers? n t)

include hkinds hwrap hoperand

/-- One turn of the loop: what is joined by a sign waits for the next one, since the sign was strong
enough, and its right operand has left only what is weaker. -/
theorem wrapped_waits {ts : List Token} {j : Join}
    (hj : join ts = some j) (hle : least ≤ j.left)
    (hlhs : .error ∉ lhs.kinds → Waits join k powers? least lhs ts)
    (hnew : .error ∉ (wrap (lhs :: (andThen j.mark (operand j.right) ts).trees)).kinds) :
    Waits join k powers? least (wrap (lhs :: (andThen j.mark (operand j.right) ts).trees))
      (andThen j.mark (operand j.right) ts).rest := by
  have hparts : .error ∉ kindsAll (lhs :: (andThen j.mark (operand j.right) ts).trees) :=
    fun h => hnew (hkinds _ h)
  simp only [andThen, Found.followed, kindsAll, kindsAll_append, List.mem_append,
    not_or] at hparts
  obtain ⟨rhs, hr⟩ := hoperand j.right (j.mark ts).rest hparts.2.2
  have hw := hlhs hparts.1
  have htrees : (andThen j.mark (operand j.right) ts).trees = (j.mark ts).trees ++ [rhs] := by
    simp [andThen, Found.followed, hr.trees]
  rw [htrees] at hnew ⊢
  -- For its own sign an operand on the left need not be as strong as `least`.
  have hleft : Waits join k powers? 0 lhs ts :=
    ⟨⟨hw.holds.kind, hw.holds.ranked, fun _ _ _ => Nat.zero_le _⟩, hw.stops⟩
  obtain ⟨hkind, hranked, hpowers⟩ := hwrap ts j lhs rhs hj hleft hr.holds hnew
  have hown : ∀ l r, powers? (wrap (lhs :: ((j.mark ts).trees ++ [rhs]))) = some (l, r) →
      l = j.left ∧ r = j.right := by
    intro l r h
    rw [hpowers] at h
    obtain ⟨rfl, rfl⟩ := Prod.mk.inj (Option.some.inj h)
    exact ⟨rfl, rfl⟩
  refine ⟨⟨hkind, hranked, ?_⟩, ?_⟩
  · intro l r h
    rw [(hown l r h).1]
    exact hle
  · intro l r h
    rw [(hown l r h).2]
    exact hr.stops

variable (hshorter : ∀ ts j, join ts = some j → Shorter (andThen j.mark (operand j.right)) ts)

include hshorter

/-- From a left operand on: whatever is joined to it in the end is in order, and the rule stops at a
sign that is too weak. The induction is on the tokens that are left. -/
theorem joined_climbs {ts : List Token}
    (hlhs : .error ∉ lhs.kinds → Waits join k powers? least lhs ts)
    (he : .error ∉ kindsAll (joined join wrap operand least lhs ts).trees) :
    ∃ t, (joined join wrap operand least lhs ts).Climbs join k powers? least t := by
  induction hn : ts.length using Nat.strong_induction_on generalizing ts lhs with
  | _ n ih =>
    cases hj : join ts with
    | none =>
      rw [joined_of_none hj] at he ⊢
      have hw := hlhs (by simpa [kindsAll] using he)
      refine ⟨lhs, rfl, hw.holds, ?_⟩
      intro j h
      rw [hj] at h
      cases h
    | some j =>
      by_cases hl : j.left < least
      · rw [joined_of_weak hj hl] at he ⊢
        have hw := hlhs (by simpa [kindsAll] using he)
        refine ⟨lhs, rfl, hw.holds, ?_⟩
        intro i h
        rw [hj] at h
        obtain rfl := Option.some.inj h
        exact hl
      · have hle : least ≤ j.left := by omega
        rw [joined_eq hshorter hj hle] at he ⊢
        have hs : (andThen j.mark (operand j.right) ts).rest.length < ts.length := hshorter ts j hj
        have hnext : .error ∉ (wrap (lhs :: (andThen j.mark (operand j.right) ts).trees)).kinds →
            Waits join k powers? least (wrap (lhs :: (andThen j.mark (operand j.right) ts).trees))
              (andThen j.mark (operand j.right) ts).rest :=
          wrapped_waits hkinds hwrap hoperand hj hle hlhs
        obtain ⟨t, ht⟩ := ih _ (by omega) hnext he rfl
        exact ⟨t, ht.trees, ht.holds, ht.stops⟩

/-- All that is joined to a first operand without a sign of its own, if there is such an operand. -/
theorem chain_climbs {ts : List Token}
    (hfirst : (first ts).trees = [] ∨ ∃ t, (first ts).trees = [t] ∧
      (.error ∉ t.kinds → t.kind = k ∧ t.Ranked ∧ powers? t = none))
    (he : .error ∉ kindsAll (chain first join wrap operand least ts).trees) :
    (chain first join wrap operand least ts).trees = [] ∨
      ∃ t, (chain first join wrap operand least ts).Climbs join k powers? least t := by
  rcases hfirst with hnone | ⟨lhs, hone, hlhs⟩
  · left
    simp [chain, hnone]
  · right
    have hchain : chain first join wrap operand least ts =
        (first ts).absorbed (joined join wrap operand least lhs (first ts).rest) := by
      simp only [chain, hone, joined]
    rw [hchain] at he ⊢
    have hwait : .error ∉ lhs.kinds → Waits join k powers? least lhs (first ts).rest := by
      intro h
      obtain ⟨hkind, hranked, hpowers⟩ := hlhs h
      refine ⟨⟨hkind, hranked, ?_⟩, ?_⟩
      · intro l r h
        rw [hpowers] at h
        cases h
      · intro l r h
        rw [hpowers] at h
        cases h
    obtain ⟨t, ht⟩ := joined_climbs hkinds hwrap hoperand hshorter hwait he
    exact ⟨t, ht.trees, ht.holds, ht.stops⟩

end Turns

/-- A rule that finds nothing, or one tree that may stand there, finds ranked trees. -/
theorem climbs_ranked {f : Found} (h : .error ∉ kindsAll f.trees →
    f.trees = [] ∨ ∃ t, f.Climbs join k powers? least t) : f.Ranked := by
  intro he t ht
  rcases h he with hn | ⟨u, hu⟩
  · rw [hn] at ht
    cases ht
  · rw [hu.trees, List.mem_singleton] at ht
    exact ht ▸ hu.holds.ranked

/-- A rule over levels, whose operands are what it is itself on the level below. -/
theorem levels_climb {rule : Nat → Nat → Rule} (start : Nat → Rule → Rule)
    (hzero : ∀ n, rule 0 n = refuse)
    (hsucc : ∀ levels n, rule (levels + 1) n = deepen (chain (start levels (rule levels 0)) join
      wrap (fun right => orMissing k (rule levels right)) n))
    (hshorter : ∀ levels ts j, join ts = some j →
      Shorter (andThen j.mark (orMissing k (rule levels j.right))) ts)
    (hkinds : ∀ cs, .error ∈ kindsAll cs → .error ∈ (wrap cs).kinds)
    (hwrap : Wraps join wrap k powers?)
    (hstart : ∀ levels inner [Ranks inner] ts, (start levels inner ts).trees = [] ∨
      ∃ t, (start levels inner ts).trees = [t] ∧
        (.error ∉ t.kinds → t.kind = k ∧ t.Ranked ∧ powers? t = none))
    (levels least : Nat) (ts : List Token) (he : .error ∉ kindsAll (rule levels least ts).trees) :
    (rule levels least ts).trees = [] ∨
      ∃ t, (rule levels least ts).Climbs join k powers? least t := by
  induction levels generalizing least ts with
  | zero =>
    rw [hzero] at he ⊢
    cases ts with
    | nil => exact Or.inl rfl
    | cons t ts => exact (he (by simp [refuse, skipUntil, kindsAll, Tree.kinds])).elim
  | succ levels ih =>
    have hinner : Ranks (rule levels 0) := ⟨fun us => climbs_ranked (ih 0 us)⟩
    have hoperand : ∀ n us, .error ∉ kindsAll (orMissing k (rule levels n) us).trees →
        ∃ t, (orMissing k (rule levels n) us).Climbs join k powers? n t := by
      intro n us h
      obtain ⟨hf, t, ht, -⟩ := orMissing_single h
      rw [orMissing, hf] at h ⊢
      rcases ih n us h with hn | hc
      · rw [hn] at ht
        cases ht
      · exact hc
    rw [hsucc] at he ⊢
    rcases chain_climbs hkinds hwrap hoperand (hshorter levels)
        (hstart levels (rule levels 0) ts) he with hn | ⟨t, ht⟩
    · exact Or.inl hn
    · exact Or.inr ⟨t, ht.trees, ht.holds, ht.stops⟩

end Climb

end Grammar

end LogQuery
