import LogQuery.Proofs.Grammar.Placed

/-! The parts of comparisons, label filters and line filters, wherever a query breaks off or goes
wrong: error nodes among them hold stray characters only, or all that was left where nesting was
refused. -/
namespace LogQuery

namespace Kind

/-- Nodes of which no parts are asked for. -/
@[reducible] def isFree : Kind → Bool
  | .labelFilter | .lineFilter | .orFilter => false
  | _ => true

end Kind

namespace Grammar

open LogQuery.Tree (leavesAll Within)

variable {k : Kind} {ts us : List Token} {t o : Token} {p : Look} {a b r : Rule} {rs : List Rule}
  {cs ds : List Tree} {c lhs : Tree} {cut more : Bool} {levels : Nat}

/-- What stands behind the name and the sign of a comparison. -/
inductive ValueParts (sign : Kind) : List Tree → Prop
  | string (stray : List Tree) (value : Tree) (hsign : sign ∈ matcherOps)
    (hstray : stray = [] ∨ ∃ us : List Token, (∀ u ∈ us, u.kind = .unknown) ∧
      stray = [.node .error (us.map .ofToken)])
    (hvalue : Expected [.string] value) : ValueParts sign (stray ++ [value])
  | address (x y : Text) (value close : Tree) (hsign : sign ∈ matcherOps)
    (hvalue : Expected [.string] value) (hclose : Expected [.rParen] close) :
    ValueParts sign [.leaf (.keyword .ip) x, .leaf .lParen y, value, close]
  | amount (k : Kind) (value : Tree) (hk : k ∈ unitKinds) (hvalue : Expected [k] value) :
    ValueParts sign [value]

/-- A name, a sign and a value. -/
structure TestParts (name : Text) (sign : Token) (rest cs : List Tree) : Prop where
  children : cs = .leaf .identifier name :: .ofToken sign :: rest
  value : ValueParts sign.kind rest
  signed : sign.kind ∈ comparisonOps ++ matcherOps

/-- Nodes of a name, a sign and a value. -/
def testKinds : List Kind := [.matcher, .ipLabelFilter, .unitFilter, .numberFilter]

/-- A comparison. Values with a unit have one more node around their comparison. -/
inductive IsTest (name : Text) (sign : Token) (rest : List Tree) : Tree → Prop
  | plain (k : Kind) (cs : List Tree) (hk : k ∈ testKinds) (h : TestParts name sign rest cs) :
    IsTest name sign rest (.node k cs)
  | unit (k : Kind) (cs : List Tree) (hk : k ∈ [.durationFilter, .bytesFilter])
    (h : TestParts name sign rest cs) : IsTest name sign rest (.node .unitFilter [.node k cs])

/-- All that is left, where nesting was refused. -/
def Refused (cut : Bool) (c : Tree) : Prop :=
  cut = true ∧ ∃ us : List Token, us ≠ [] ∧ c = .node .error (us.map .ofToken)

/-- Nesting was refused, and among some trees or below them an error node holds tokens. -/
def RefusedIn (cut : Bool) (cs : List Tree) : Prop :=
  ∃ before c after, Within cs before c after ∧ Refused cut c

theorem refusedIn_head (h : Refused cut c) : RefusedIn cut (c :: cs) :=
  ⟨[], c, _, .head c cs, h⟩

theorem refusedIn_tail (h : RefusedIn cut cs) (c : Tree) : RefusedIn cut (c :: cs) := by
  obtain ⟨before, d, after, hw, hd⟩ := h
  exact ⟨_, d, after, .tail c hw, hd⟩

theorem refusedIn_node (h : RefusedIn cut cs) (k : Kind) : RefusedIn cut [.node k cs] := by
  obtain ⟨before, d, after, hw, hd⟩ := h
  exact ⟨before, d, _, .inside k [] hw, hd⟩

theorem refusedIn_mem (h : RefusedIn cut [c]) (hc : c ∈ cs) : RefusedIn cut cs := by
  obtain ⟨before, d, after, hw, hd⟩ := h
  obtain ⟨_, _, hin⟩ := Tree.within_mem hc hw
  exact ⟨_, d, _, hin, hd⟩

/-- A comparison, label filters that are joined, or label filters in parentheses. The parentheses
may be empty, or what they hold may be refused. -/
inductive LabelParts (cut : Bool) : List Tree → Prop
  | test (name : Text) (sign : Token) (rest : List Tree) (c : Tree) (h : IsTest name sign rest c) :
    LabelParts cut [c]
  | joined (lhs : Tree) (more : List Tree) (h : lhs.kind = .labelFilter) :
    LabelParts cut (lhs :: more)
  | nested (x : Text) (inner : Tree) (more : List Tree) (h : inner.kind = .labelFilter) :
    LabelParts cut (.leaf .lParen x :: inner :: more)
  | empty (x : Text) (close : Tree) (h : Expected [.rParen] close) :
    LabelParts cut [.leaf .lParen x, .node .error [], close]
  | refused (x : Text) (inner : Tree) (more : List Tree) (h : Refused cut inner) :
    LabelParts cut (.leaf .lParen x :: inner :: more)

/-- A string, or an address range in parentheses. -/
inductive IsLineValue : List Tree → Prop
  | text (value : Tree) (h : Expected [.string] value) : IsLineValue [value]
  | address (x y : Text) (value close : Tree) (hvalue : Expected [.string] value)
    (hclose : Expected [.rParen] close) :
    IsLineValue [.node .filterOp [.leaf (.keyword .ip) x], .leaf .lParen y, value, close]

/-- A value, and the next filter of the chain or nothing. -/
inductive LineParts (cut : Bool) : List Tree → Prop
  | last (value : List Tree) (h : IsLineValue value) : LineParts cut value
  | next (value : List Tree) (ds : List Tree) (h : IsLineValue value) :
    LineParts cut (value ++ [.node .orFilter ds])
  | refused (value : List Tree) (c : Tree) (h : IsLineValue value) (hc : Refused cut c) :
    LineParts cut (value ++ [c])

/-- The parts of a node. -/
def Parts (cut : Bool) : Kind → List Tree → Prop
  | .labelFilter, cs => LabelParts cut cs
  | .lineFilter, cs => ∃ sign more, cs = .node .filter sign :: more ∧ LineParts cut more
  | .orFilter, cs => ∃ x more, cs = .leaf (.keyword .or) x :: more ∧ LineParts cut more
  | _, _ => True

theorem parts_free (h : k.isFree = true) : Parts cut k cs := by
  cases k <;> trivial

theorem refused_mono (h : Refused cut c) (hm : cut = true → more = true) : Refused more c :=
  ⟨hm h.1, h.2⟩

theorem labelParts_mono (h : LabelParts cut cs) (hm : cut = true → more = true) :
    LabelParts more cs := by
  cases h with
  | test name sign rest c h => exact .test name sign rest c h
  | joined lhs more h => exact .joined lhs more h
  | nested x inner more h => exact .nested x inner more h
  | empty x close h => exact .empty x close h
  | refused x inner more h => exact .refused x inner more (refused_mono h hm)

theorem lineParts_mono (h : LineParts cut cs) (hm : cut = true → more = true) :
    LineParts more cs := by
  cases h with
  | last value h => exact .last cs h
  | next value ds h => exact .next value ds h
  | refused value c h hc => exact .refused value c h (refused_mono hc hm)

theorem parts_mono (h : Parts cut k cs) (hm : cut = true → more = true) : Parts more k cs := by
  unfold Parts at h ⊢
  split at h
  · exact labelParts_mono h hm
  · obtain ⟨sign, rest, rfl, h⟩ := h
    exact ⟨sign, rest, rfl, lineParts_mono h hm⟩
  · obtain ⟨x, rest, rfl, h⟩ := h
    exact ⟨x, rest, rfl, lineParts_mono h hm⟩
  · trivial

/-- Every node among some trees and below them has its parts. -/
def Kept (cut : Bool) (cs : List Tree) : Prop :=
  ∀ before k ds after, Within cs before (.node k ds) after → Parts cut k ds

/-- Whatever it is given, a rule finds nodes with their parts. -/
class Keeps (r : Rule) : Prop where
  kept : ∀ ts, Kept (r ts).cut.isSome (r ts).trees

theorem kept_nil : Kept cut [] := by
  intro before k ds after h
  cases h

theorem kept_tokens (us : List Token) : Kept cut (us.map .ofToken) :=
  fun _ _ _ _ h => (Tree.not_within_tokens h).elim

theorem kept_node (hp : Parts cut k cs) (hcs : Kept cut cs) : Kept cut [.node k cs] := by
  intro before l ds after hw
  cases hw with
  | head => exact hp
  | inside _ _ hw => exact hcs _ _ _ _ hw
  | tail _ hw => cases hw

theorem kept_append (hcs : Kept cut cs) (hds : Kept cut ds) : Kept cut (cs ++ ds) := by
  intro before k es after h
  rcases Tree.within_append h with ⟨_, hw, _⟩ | ⟨_, hw, _⟩
  · exact hcs _ _ _ _ hw
  · exact hds _ _ _ _ hw

theorem kept_mono (h : Kept cut cs) (hm : cut = true → more = true) : Kept more cs :=
  fun _ _ _ _ hw => parts_mono (h _ _ _ _ hw) hm

theorem kept_inside (h : Kept cut [.node k cs]) : Kept cut cs :=
  fun _ _ _ _ hw => h _ _ _ _ (.inside k [] hw)

theorem kept_tail (h : Kept cut (c :: cs)) : Kept cut cs :=
  fun _ _ _ _ hw => h _ _ _ _ (.tail c hw)

theorem kept_head (h : Kept cut [.node k cs]) : Parts cut k cs := h _ _ _ _ (.head _ [])

theorem kept_mem (h : Kept cut cs) (hc : c ∈ cs) : Kept cut [c] := by
  intro before k ds after hw
  obtain ⟨_, _, hin⟩ := Tree.within_mem hc hw
  exact h _ _ _ _ hin

theorem kept_within {before after : List Token} (h : Kept cut cs) (hw : Within cs before c after) :
    Kept cut [c] := by
  intro before' k ds after' hin
  cases hin with
  | head => exact h _ _ _ _ hw
  | inside _ _ hin => exact h _ _ _ _ (Tree.within_trans hw hin)
  | tail _ hin => cases hin

/-- Once a level was refused, it stays refused. -/
theorem cut_left {x y : Option (List Token)} (h : x.isSome = true) : (x <|> y).isSome = true := by
  cases x with
  | none => cases h
  | some _ => rfl

theorem cut_right {x y : Option (List Token)} (h : y.isSome = true) : (x <|> y).isSome = true := by
  cases x with
  | none => exact h
  | some _ => rfl

theorem followed_kept {f g : Found} (hf : Kept f.cut.isSome f.trees)
    (hg : Kept g.cut.isSome g.trees) : Kept (f.followed g).cut.isSome (f.followed g).trees :=
  kept_append (kept_mono hf cut_left) (kept_mono hg cut_right)

theorem error_kept (us : List Token) : Kept cut [.node .error (us.map .ofToken)] :=
  kept_node trivial (kept_tokens us)

instance : Keeps nothing := ⟨fun _ => kept_nil⟩

instance : Keeps (bumpAs k) where
  kept ts := by
    cases ts with
    | nil => exact kept_nil
    | cons t ts => exact kept_tokens [⟨k, t.text⟩]

instance : Keeps bump where
  kept ts := by
    cases ts with
    | nil => exact kept_nil
    | cons t ts => exact kept_tokens [t]

instance (w : Keyword) : Keeps (bumpWord w) := inferInstanceAs (Keeps (bumpAs _))

instance (ks : List Kind) : Keeps (skipUntil ks) where
  kept ts := by
    simp only [skipUntil]
    split
    · exact kept_nil
    · exact error_kept _

instance : Keeps refuse := ⟨fun ts => kept_mono (Keeps.kept (r := skipUntil []) ts) fun _ => rfl⟩

instance [ha : Keeps a] [hb : Keeps b] : Keeps (andThen a b) :=
  ⟨fun ts => followed_kept (ha.kept ts) (hb.kept _)⟩

instance : Keeps (seq []) := inferInstanceAs (Keeps nothing)

instance [Keeps r] [Keeps (seq rs)] : Keeps (seq (r :: rs)) :=
  inferInstanceAs (Keeps (andThen r (seq rs)))

instance [ha : Keeps a] [hb : Keeps b] : Keeps (either p a b) where
  kept ts := by
    unfold either
    split
    · exact ha.kept ts
    · exact hb.kept ts

instance [Keeps r] : Keeps (when p r) := inferInstanceAs (Keeps (either p r nothing))

instance [Keeps r] : Keeps (many p r) := by
  have hgo : ∀ limit, Keeps (many.go p r limit) := by
    intro limit
    induction limit with
    | nil => exact inferInstanceAs (Keeps nothing)
    | cons _ limit ih => exact inferInstanceAs (Keeps (when p (andThen r (many.go p r limit))))
  exact ⟨fun ts => (hgo ts).kept ts⟩

instance [hk : Holds k.isFree] [hr : Keeps r] : Keeps (node k r) :=
  ⟨fun ts => kept_node (parts_free hk.holds) (hr.kept ts)⟩

instance : Keeps missing := inferInstanceAs (Keeps (node .error nothing))

instance : Keeps (optional k) := inferInstanceAs (Keeps (when _ bump))

instance : Keeps (expect k) := inferInstanceAs (Keeps (either _ bump missing))

instance [hr : Keeps r] : Keeps (orMissing k r) where
  kept ts := by
    unfold orMissing Found.orMissing
    split
    · exact hr.kept ts
    · exact followed_kept (hr.kept ts) (Keeps.kept (r := missing) _)

instance [hr : Keeps r] : Keeps (deepen r) := ⟨hr.kept⟩

section Chain

variable {join : List Token → Option Join} {wrap : List Tree → Tree} {operand : Nat → Rule}
  {least : Nat} {first : Rule}

/-- From a left operand with its parts to all that is joined to it. -/
theorem climb_kept (hkind : ∀ cs, (wrap cs).kind = k)
    (hjoin : ∀ ts j, join ts = some j → Keeps (andThen j.mark (operand j.right)))
    (hwrap : ∀ cut lhs more, lhs.kind = k → Kept cut (lhs :: more) → Kept cut [wrap (lhs :: more)])
    (limit ts : List Token) (hk : lhs.kind = k) (h : Kept cut [lhs]) :
    Kept (cut || (climb join wrap operand least limit lhs ts).cut.isSome)
      (climb join wrap operand least limit lhs ts).trees := by
  have hstop : Kept (cut || false) [lhs] := by rwa [Bool.or_false]
  induction limit generalizing cut lhs ts with
  | nil => exact hstop
  | cons _ limit ih =>
    rw [climb]
    split
    · exact hstop
    · next j hj =>
      split
      · exact hstop
      · set f := andThen j.mark (operand j.right) ts with hf
        have hr := (hjoin ts j hj).kept ts
        rw [← hf] at hr
        have hparts : Kept (cut || f.cut.isSome) ([lhs] ++ f.trees) :=
          kept_append (kept_mono h fun hc => by simp [hc]) (kept_mono hr fun hc => by simp [hc])
        have hnew := hwrap _ lhs _ hk hparts
        have hmore := ih f.rest (hkind _) hnew (by rwa [Bool.or_false])
        refine kept_mono hmore fun hc => ?_
        simp only [Bool.or_eq_true] at hc ⊢
        rcases hc with (hc | hc) | hc
        · exact Or.inl hc
        · exact Or.inr (cut_left hc)
        · exact Or.inr (cut_right hc)

theorem chain_keeps (hkind : ∀ cs, (wrap cs).kind = k)
    (hjoin : ∀ ts j, join ts = some j → Keeps (andThen j.mark (operand j.right)))
    (hwrap : ∀ cut lhs more, lhs.kind = k → Kept cut (lhs :: more) → Kept cut [wrap (lhs :: more)])
    [hf : Keeps first]
    (hone : ∀ ts, (first ts).trees = [] ∨ ∃ t, (first ts).trees = [t] ∧ t.kind = k) :
    Keeps (chain first join wrap operand least) where
  kept ts := by
    have hfirst := hf.kept ts
    rcases hone ts with hn | ⟨lhs, hl, hk⟩
    · simp only [chain, hn]
      exact hn ▸ hfirst
    · simp only [chain, hl]
      rw [hl] at hfirst
      refine kept_mono (climb_kept hkind hjoin hwrap _ _ hk hfirst) fun hc => ?_
      rcases Bool.or_eq_true_iff.mp hc with hc | hc
      · exact cut_left hc
      · exact cut_right hc

end Chain

/-! Label filters. -/

instance : Keeps matcher := by
  unfold matcher
  infer_instance

instance [Keeps r] : Keeps (commaList r) := by
  unfold commaList
  infer_instance

instance : Keeps selector := by
  unfold selector
  infer_instance

instance (v k : Kind) [Holds k.isFree] : Keeps (comparison v k) := by
  unfold comparison
  infer_instance

instance : Keeps ipLabelFilter := by
  unfold ipLabelFilter
  infer_instance

instance : Keeps labelComparison where
  kept ts := by
    simp only [labelComparison]
    split_ifs
    · exact Keeps.kept ts
    · exact Keeps.kept ts
    · split <;> exact Keeps.kept ts

theorem comparison_parts {v : Kind} (ht : t.kind = .identifier)
    (ho : o.kind ∈ comparisonOps ++ matcherOps) (hv : v ∈ unitKinds) (ts : List Token) :
    ∃ rest cs, (comparison v k (t :: o :: ts)).trees = [.node k cs] ∧
      TestParts t.text o rest cs := by
  obtain ⟨value, hvalue, he⟩ := expect_trees v ts
  have hs : (comparison v k (t :: o :: ts)).trees =
      [.node k (.ofToken t :: .ofToken o :: ((expect v ts).trees ++ []))] := rfl
  rw [hs, hvalue]
  refine ⟨_, _, rfl, ?_, .amount v value hv he, ho⟩
  rw [Tree.ofToken, ht]
  rfl

theorem matcher_parts (ht : t.kind = .identifier) (ho : o.kind ∈ matcherOps) (ts : List Token) :
    ∃ rest cs, (matcher (t :: o :: ts)).trees = [.node .matcher cs] ∧
      TestParts t.text o rest cs := by
  obtain ⟨value, hvalue, he⟩ := expect_trees .string (strays ts).rest
  have hop : either (atAny matcherOps) bump missing (o :: ts) = bump (o :: ts) := by
    rw [either, if_pos]
    simpa [atAny] using ho
  have hs : (matcher (t :: o :: ts)).trees = [.node .matcher (.ofToken t ::
      (either (atAny matcherOps) bump missing (o :: ts)).trees ++
        ((strays (either (atAny matcherOps) bump missing (o :: ts)).rest).trees ++
          ((expect .string
            (strays (either (atAny matcherOps) bump missing (o :: ts)).rest).rest).trees ++ [])))]
      := rfl
  have hb : bump (o :: ts) = ⟨[.ofToken o], ts, 0, none⟩ := rfl
  rw [hs, hop, hb, hvalue]
  refine ⟨_, _, rfl, ?_, .string _ value ho (strays_trees ts) he, List.mem_append_right _ ho⟩
  rw [Tree.ofToken, ht]
  rfl

theorem ipLabelFilter_parts {w l : Token} (ht : t.kind = .identifier)
    (ho : o.kind = .eq ∨ o.kind = .neq) (hl : l.kind = .lParen) (ts : List Token) :
    ∃ rest cs, (ipLabelFilter (t :: o :: w :: l :: ts)).trees = [.node .ipLabelFilter cs] ∧
      TestParts t.text o rest cs := by
  obtain ⟨value, hvalue, hv⟩ := expect_trees .string ts
  obtain ⟨close, hclose, hc⟩ := expect_trees .rParen (expect .string ts).rest
  have hs : (ipLabelFilter (t :: o :: w :: l :: ts)).trees = [.node .ipLabelFilter (.ofToken t ::
      .ofToken o :: .leaf (.keyword .ip) w.text :: .ofToken l :: ((expect .string ts).trees ++
        ((expect .rParen (expect .string ts).rest).trees ++ [])))] := rfl
  have hm : o.kind ∈ matcherOps := by
    rcases ho with ho | ho <;> rw [ho] <;> decide
  rw [hs, hvalue, hclose]
  refine ⟨[.leaf (.keyword .ip) w.text, .leaf .lParen l.text, value, close], _, rfl, ?_,
    .address w.text l.text value close hm hv hc, List.mem_append_right _ hm⟩
  rw [Tree.ofToken, Tree.ofToken, Tree.ofToken, ht, hl]
  rfl

/-- Where a label filter begins with a name, it is a comparison. -/
theorem labelComparison_test (ht : t.kind = .identifier)
    (ho : o.kind ∈ comparisonOps ++ matcherOps) (ts : List Token) :
    ∃ rest c, (labelComparison (t :: o :: ts)).trees = [c] ∧ IsTest t.text o rest c := by
  simp only [labelComparison]
  split_ifs with hip hm
  · simp only [Bool.and_eq_true, Bool.or_eq_true, decide_eq_true_eq] at hip
    obtain ⟨w, us, rfl, -⟩ := wordAt_cons (show wordAt 0 .ip ts = true from hip.1.2)
    obtain ⟨l, vs, rfl, hl⟩ := kindAt_cons (show kindAt 0 us = .lParen from hip.2) (by decide)
    obtain ⟨rest, cs, hs, hp⟩ := ipLabelFilter_parts (w := w) ht hip.1.1 hl vs
    exact ⟨rest, _, hs, .plain .ipLabelFilter cs (by decide) hp⟩
  · simp only [Bool.and_eq_true, List.contains_iff_mem] at hm
    obtain ⟨rest, cs, hs, hp⟩ := matcher_parts ht hm.1 ts
    exact ⟨rest, _, hs, .plain .matcher cs (by decide) hp⟩
  · split
    · obtain ⟨rest, cs, hs, hp⟩ :=
        comparison_parts (k := .durationFilter) (v := .duration) ht ho (by decide) ts
      refine ⟨rest, _, ?_, .unit .durationFilter cs (by decide) hp⟩
      rw [node, nodeBy, hs]
    · obtain ⟨rest, cs, hs, hp⟩ :=
        comparison_parts (k := .bytesFilter) (v := .bytes) ht ho (by decide) ts
      refine ⟨rest, _, ?_, .unit .bytesFilter cs (by decide) hp⟩
      rw [node, nodeBy, hs]
    · obtain ⟨rest, cs, hs, hp⟩ :=
        comparison_parts (k := .numberFilter) (v := .number) ht ho (by decide) ts
      exact ⟨rest, _, hs, .plain .numberFilter cs (by decide) hp⟩

/-- What a rule for one thing finds: nothing, the thing, or what is refused. -/
def Found.Yields (k : Kind) (f : Found) : Prop :=
  f.trees = [] ∨ ∃ t, f.trees = [t] ∧ (t.kind = k ∨ Refused f.cut.isSome t)

theorem refuse_cons (t : Token) (ts : List Token) :
    ∃ c, (refuse (t :: ts)).trees = [c] ∧ Refused (refuse (t :: ts)).cut.isSome c :=
  ⟨_, rfl, rfl, t :: (ts.takeWhile fun _ => true), List.cons_ne_nil _ _, rfl⟩

theorem refuse_yields (ts : List Token) : (refuse ts).Yields k := by
  cases ts with
  | nil => exact Or.inl rfl
  | cons t ts =>
    obtain ⟨c, hc, hr⟩ := refuse_cons t ts
    exact Or.inr ⟨c, hc, Or.inr hr⟩

theorem labelFilter_yields (levels least : Nat) (ts : List Token) :
    (labelFilter levels least ts).Yields .labelFilter := by
  cases levels with
  | zero => exact refuse_yields ts
  | succ levels =>
    have hs : (labelFilter (levels + 1) least ts).trees = [] ∨
        ∃ t, (labelFilter (levels + 1) least ts).trees = [t] ∧ t.kind = .labelFilter :=
      chain_single (fun _ => rfl) (labelOperand_single _ ts)
    rcases hs with hn | ⟨t, ht, hk⟩
    · exact Or.inl hn
    · exact Or.inr ⟨t, ht, Or.inl hk⟩

theorem nested_parts {inner : Rule} (ht : t.kind = .lParen) (hy : (inner ts).Yields .labelFilter) :
    LabelParts (seq [bump, orMissing .labelFilter inner, expect .rParen] (t :: ts)).cut.isSome
      (seq [bump, orMissing .labelFilter inner, expect .rParen] (t :: ts)).trees := by
  obtain ⟨close, hclose, he⟩ := expect_trees .rParen (orMissing .labelFilter inner ts).rest
  have hs : (seq [bump, orMissing .labelFilter inner, expect .rParen] (t :: ts)).trees =
      .leaf .lParen t.text :: ((orMissing .labelFilter inner ts).trees ++
        ((expect .rParen (orMissing .labelFilter inner ts).rest).trees ++ [])) := by
    rw [← ht]
    rfl
  rw [hs, hclose]
  rcases hy with hn | ⟨c, hc, hk | hr⟩
  · have ho : (orMissing .labelFilter inner ts).trees = [.node .error []] := by
      simp [orMissing, Found.orMissing, Found.makes, hn, Found.followed, missing, node, nodeBy,
        nothing]
    rw [ho]
    exact .empty t.text close he
  · have ho : (orMissing .labelFilter inner ts).trees = [c] := by
      simp [orMissing, Found.orMissing, Found.makes, hc, hk]
    rw [ho]
    exact .nested t.text c _ hk
  · obtain ⟨more, ho⟩ : ∃ more, (orMissing .labelFilter inner ts).trees = c :: more := by
      rw [orMissing, Found.orMissing]
      split
      · exact ⟨[], hc⟩
      · exact ⟨_, by rw [Found.followed, hc]; rfl⟩
    rw [ho]
    refine .refused t.text c _ (refused_mono hr fun h => ?_)
    have hcut : (orMissing .labelFilter inner ts).cut.isSome = true := by
      rw [orMissing, Found.orMissing]
      split
      · exact h
      · exact cut_left h
    exact cut_right (cut_left hcut)

/-- A comparison, or label filters in parentheses, has its parts. -/
theorem labelOperand_keeps {inner : Rule} [Keeps inner]
    (hy : ∀ ts, (inner ts).Yields .labelFilter) : Keeps (labelOperand inner) where
  kept ts := by
    unfold labelOperand either
    split
    · next hp =>
      obtain ⟨t, us, rfl, ht⟩ := atKind_cons hp
      exact kept_node (nested_parts ht (hy us)) (Keeps.kept (r := seq _) _)
    · next hp =>
      unfold when
      split
      · next hl =>
        rcases atLabelFilter_cons hl with ⟨t, us, rfl, ht⟩ | ⟨t, o, us, rfl, ht, ho⟩
        · simp [atKind, ht] at hp
        · obtain ⟨rest, c, hc, h⟩ := labelComparison_test ht ho us
          refine kept_node ?_ (Keeps.kept (r := labelComparison) _)
          show LabelParts _ (labelComparison (t :: o :: us)).trees
          rw [hc]
          exact .test t.text o rest c h
      · exact kept_nil

theorem labelJoin_keeps [Keeps r] {j : Join} (h : labelJoin ts = some j) :
    Keeps (andThen j.mark r) := by
  unfold labelJoin at h
  split_ifs at h
  all_goals
    cases h
    infer_instance

instance (levels least : Nat) : Keeps (labelFilter levels least) := by
  induction levels generalizing least with
  | zero => exact inferInstanceAs (Keeps refuse)
  | succ levels ih =>
    have hfirst := labelOperand_keeps (labelFilter_yields levels 0)
    have hchain : Keeps (chain (labelOperand (labelFilter levels 0)) labelJoin
        (.node .labelFilter) (fun right => orMissing .labelFilter (labelFilter levels right))
        least) :=
      chain_keeps (fun _ => rfl) (fun _ _ => labelJoin_keeps)
        (fun _ lhs more hk h => kept_node (.joined lhs more hk) h)
        (labelOperand_single (labelFilter levels 0))
    exact inferInstanceAs (Keeps (deepen (chain _ _ _ _ _)))

/-! Line filters. -/

instance : Keeps lineValue := by
  unfold lineValue
  infer_instance

theorem lineValue_parts (ts : List Token) : IsLineValue (lineValue ts).trees := by
  unfold lineValue either
  split
  · next h =>
    simp only [Bool.and_eq_true, decide_eq_true_eq] at h
    obtain ⟨w, vs, rfl, -⟩ := wordAt_cons h.1
    obtain ⟨l, us, rfl, hl⟩ := kindAt_cons (show kindAt 0 vs = .lParen from h.2) (by decide)
    obtain ⟨value, hvalue, hv⟩ := expect_trees .string us
    obtain ⟨close, hclose, hc⟩ := expect_trees .rParen (expect .string us).rest
    have hs : (seq [node .filterOp (bumpWord .ip), bump, expect .string, expect .rParen]
        (w :: l :: us)).trees = .node .filterOp [.leaf (.keyword .ip) w.text] ::
          .leaf .lParen l.text :: ((expect .string us).trees ++
            ((expect .rParen (expect .string us).rest).trees ++ [])) := by
      rw [← hl]
      rfl
    rw [hs, hvalue, hclose]
    exact .address w.text l.text value close hv hc
  · obtain ⟨value, hvalue, hv⟩ := expect_trees .string ts
    rw [hvalue]
    exact .text value hv

/-- Behind its sign, a line filter or a filter joined to it has a value, and what joins the next. -/
theorem line_parts {rule : Rule} (hy : ∀ us, atOrValue us = true →
      (∃ ds, (rule us).trees = [.node .orFilter ds]) ∨
        ∃ c, (rule us).trees = [c] ∧ Refused (rule us).cut.isSome c) (ts : List Token) :
    LineParts (seq [lineValue, when atOrValue rule] ts).cut.isSome
      (seq [lineValue, when atOrValue rule] ts).trees := by
  have hv := lineValue_parts ts
  have hs : (seq [lineValue, when atOrValue rule] ts).trees = (lineValue ts).trees ++
      ((when atOrValue rule (lineValue ts).rest).trees ++ []) := rfl
  rw [hs, List.append_nil]
  by_cases hor : atOrValue (lineValue ts).rest = true
  · have hw : when atOrValue rule (lineValue ts).rest = rule (lineValue ts).rest := if_pos hor
    rcases hy _ hor with ⟨ds, hd⟩ | ⟨c, hc, hr⟩
    · rw [hw, hd]
      exact .next _ ds hv
    · have hcut : (rule (lineValue ts).rest).cut.isSome = true := hr.1
      rw [← hw] at hcut
      rw [hw, hc]
      exact .refused _ c hv (refused_mono hr fun _ => cut_right (cut_left hcut))
  · have hw : when atOrValue rule (lineValue ts).rest = nothing (lineValue ts).rest := if_neg hor
    rw [hw]
    show LineParts _ ((lineValue ts).trees ++ [])
    rw [List.append_nil]
    exact .last _ hv

theorem orFilter_yields (levels : Nat) (h : atOrValue ts = true) :
    (∃ ds, (orFilter levels ts).trees = [.node .orFilter ds]) ∨
      ∃ c, (orFilter levels ts).trees = [c] ∧ Refused (orFilter levels ts).cut.isSome c := by
  cases levels with
  | zero =>
    cases ts with
    | nil => cases h
    | cons t ts => exact Or.inr (refuse_cons t ts)
  | succ levels => exact Or.inl ⟨_, rfl⟩

instance (levels : Nat) : Keeps (when atOrValue (orFilter levels)) := by
  induction levels with
  | zero => exact inferInstanceAs (Keeps (when atOrValue refuse))
  | succ levels ih =>
    constructor
    intro ts
    unfold when
    split
    · next h =>
      simp only [atOrValue, Bool.and_eq_true] at h
      obtain ⟨t, us, rfl, -⟩ := wordAt_cons h.1
      have hmore := line_parts (fun _ => orFilter_yields levels) us
      refine kept_node ⟨t.text, _, rfl, lineParts_mono hmore cut_right⟩
        (Keeps.kept (r := seq [bumpWord .or, lineValue, when atOrValue (orFilter levels)]) _)
    · exact kept_nil

instance (levels : Nat) : Keeps (lineFilter levels) where
  kept ts := by
    have hmore := line_parts (fun _ => orFilter_yields levels) (bump ts).rest
    exact kept_node ⟨_, _, rfl, lineParts_mono hmore cut_right⟩
      (Keeps.kept (r := seq [node .filter bump, lineValue, when atOrValue (orFilter levels)]) ts)

instance (levels : Nat) : Keeps (lineFilters levels) := by
  unfold lineFilters
  infer_instance

/-! Stages. -/

instance : Keeps labelExtraction := by
  unfold labelExtraction
  infer_instance

instance : Keeps labelExtractions := by
  unfold labelExtractions
  infer_instance

instance : Keeps labelFormat := by
  unfold labelFormat
  infer_instance

instance [Holds k.isFree] : Keeps (labelChoice k) := by
  unfold labelChoice
  infer_instance

instance : Keeps jsonParser where
  kept ts := by
    unfold jsonParser
    split <;> exact Keeps.kept ts

instance : Keeps logfmtParser where
  kept ts := by
    refine kept_node (parts_free ?_) (Keeps.kept (r := seq _) ts)
    unfold logfmtKind
    split_ifs <;> rfl

instance (w : Keyword) : Keeps (namedStage w) := by
  unfold namedStage stringStage bareStage labelFormats labelChoices
  split <;> infer_instance

instance : Keeps wordStage where
  kept ts := by
    unfold wordStage
    split
    · split <;> exact Keeps.kept _
    · exact kept_nil

instance (levels : Nat) : Keeps (stage levels) := by
  unfold stage
  infer_instance

instance (levels : Nat) : Keeps (pipeline levels) := by
  unfold pipeline
  infer_instance

instance (levels : Nat) : Keeps (logExpr levels) := by
  unfold logExpr
  infer_instance

/-! Calls. -/

instance : Keeps range := by
  unfold range
  infer_instance

instance : Keeps offset := by
  unfold offset
  infer_instance

instance : Keeps unwrapped where
  kept ts := by
    unfold unwrapped
    dsimp only
    split <;> exact Keeps.kept ts

instance (levels : Nat) : Keeps (unwrap levels) := by
  unfold unwrap
  infer_instance

instance (levels : Nat) : Keeps (logRange levels) := by
  unfold logRange
  infer_instance

instance : Keeps grouping := by
  unfold grouping
  infer_instance

instance [Keeps r] : Keeps (arguments r) := by
  unfold arguments
  infer_instance

instance : Keeps parameter := by
  unfold parameter
  infer_instance

theorem call_keeps [Keeps a] {name : Text} (h : call? levels a name = some r) : Keeps r := by
  unfold call? at h
  split at h
  · cases h
    unfold rangeAggregation
    infer_instance
  · split at h
    · cases h
      unfold vectorAggregation
      infer_instance
    · split at h
      · cases h
        unfold vectorLiteral
        infer_instance
      · cases h

/-! Expressions. -/

instance : Keeps literal := by
  unfold literal
  infer_instance

instance [Keeps a] : Keeps (parentheses a) where
  kept ts := by
    refine kept_node (parts_free ?_)
      (Keeps.kept (r := seq [bump, orMissing .expr a, expect .rParen]) ts)
    unfold parenthesesKind
    split <;> rfl

instance [Keeps a] : Keeps (operand levels a) where
  kept ts := by
    unfold operand
    split
    · exact kept_nil
    · next t us =>
      split
      · exact Keeps.kept (r := node .expr (logExpr levels)) _
      · exact Keeps.kept (r := node .expr (parentheses a)) _
      · exact Keeps.kept (r := node .expr literal) _
      · exact Keeps.kept (r := when (fun _ => atKind .number us) (node .expr literal)) _
      · exact Keeps.kept (r := when (fun _ => atKind .number us) (node .expr literal)) _
      · split
        · next r hr =>
          have := call_keeps hr
          exact Keeps.kept (r := node .expr (node .metricExpr r)) _
        · exact kept_nil
      · exact kept_nil

theorem binaryJoin_keeps [Keeps r] {j : Join} (h : binaryJoin ts = some j) :
    Keeps (andThen j.mark r) := by
  cases ts with
  | nil => cases h
  | cons t us =>
    obtain ⟨⟨op, left, right⟩, -, rfl⟩ := Option.map_eq_some_iff.mp h
    have : Keeps boolModifier := by
      unfold boolModifier
      infer_instance
    infer_instance

instance (levels least : Nat) : Keeps (expr levels least) := by
  induction levels generalizing least with
  | zero => exact inferInstanceAs (Keeps refuse)
  | succ levels ih =>
    have hchain : Keeps (chain (operand levels (expr levels 0)) binaryJoin binary
        (fun right => orMissing .expr (expr levels right)) least) :=
      chain_keeps (fun _ => rfl) (fun _ _ => binaryJoin_keeps)
        (fun _ _ _ _ h => kept_node trivial (kept_node trivial (kept_node trivial h)))
        (operand_single (expr levels 0) levels)
    exact inferInstanceAs (Keeps (deepen (chain _ _ _ _ _)))

/-- Every node of a query has its parts. -/
theorem contents_kept (levels : Nat) (ts : List Token) :
    Kept (contents levels ts).cut.isSome (contents levels ts).trees := by
  refine followed_kept ?_ (Keeps.kept (r := skipUntil []) _)
  dsimp only
  split
  · exact Keeps.kept (r := orMissing .expr (expr levels 0)) ts
  · exact Keeps.kept (r := expr levels 0) ts

end Grammar

end LogQuery
