import LogQuery.Proofs.Grammar.Progress

/-! Rules on tokens that are cut off behind a value. As long as a rule is ahead of the cut it does
the same with and without the tokens behind; past the cut there is no name left to be read. -/
namespace LogQuery.Grammar

open LogQuery.Tree (leavesAll leavesAll_append)

variable {k : Kind} {ks : List Kind} {ts us ls : List Token} {t c d : Token} {p : Look}
  {a b r : Rule} {rs : List Rule} {f g : Found} {w : Keyword}

/-- Tokens that a value, or the parentheses around one, may end with. -/
def closers : List Kind := [.rParen, .string, .number, .duration, .bytes]

/-- The last token ahead of a cut, and what it was in front of other tokens: a number that has lost
the minute sign of its duration to them. -/
inductive Alike : Token → Token → Prop
  | same {c : Token} (h : c.kind ∈ closers) : Alike c c
  | minute {c d : Token} (hc : c.kind = .duration) (hd : d.kind = .number) : Alike c d

/-- Tokens up to a cut, and the tokens that they are cut from. -/
inductive Cut : List Token → List Token → Prop
  | last {c d : Token} (h : Alike c d) (back : List Token) : Cut [c] (d :: back)
  | cons (t : Token) {ts us : List Token} (h : Cut ts us) : Cut (t :: ts) (t :: us)

theorem alike_closers (h : Alike c d) : c.kind ∈ closers ∧ d.kind ∈ closers := by
  cases h with
  | same h => exact ⟨h, h⟩
  | minute hc hd => simp [closers, hc, hd]

theorem cut_append (front : List Token) (h : Cut ts us) : Cut (front ++ ts) (front ++ us) := by
  induction front with
  | nil => exact h
  | cons t front ih => exact .cons t ih

theorem cut_ne_nil (h : Cut ts us) : ts ≠ [] ∧ us ≠ [] := by
  cases h with
  | last _ back => exact ⟨List.cons_ne_nil _ _, List.cons_ne_nil _ _⟩
  | cons t _ => exact ⟨List.cons_ne_nil _ _, List.cons_ne_nil _ _⟩

/-- There is no name among some tokens. -/
def Nameless (ts : List Token) : Prop := ∀ t ∈ ts, t.kind ≠ .identifier

theorem nameless_closer (h : Alike c d) : Nameless [c] := by
  intro t ht
  obtain rfl := List.mem_singleton.mp ht
  intro hk
  have hc := (alike_closers h).1
  rw [hk] at hc
  exact absurd hc (by decide)

/-- The token behind which the cut is made is no name on either side. -/
theorem cut_nameless (h : Cut ts us) (n : Nat) (hn : Nameless (ts.drop n)) :
    Nameless ((us.take ts.length).drop n) := by
  induction h generalizing n with
  | @last c d h back =>
    intro t ht
    obtain rfl := List.mem_singleton.mp (List.mem_of_mem_drop ht)
    intro hk
    have hd := (alike_closers h).2
    rw [hk] at hd
    exact absurd hd (by decide)
  | cons t h ih =>
    cases n with
    | zero =>
      have hts := ih 0 fun u hu => hn u (.tail t hu)
      intro u hu
      rcases List.mem_cons.mp hu with rfl | hu
      · exact hn _ (.head _)
      · exact hts u hu
    | succ n => exact ih n hn

/-- What two findings have in common that are made of tokens up to a cut and of the tokens that they
are cut from. -/
inductive Agree (ts : List Token) (f g : Found) : Prop
  /-- Both are ahead of the cut. -/
  | ahead (trees : f.trees = g.trees) (rest : Cut f.rest g.rest)
  /-- From some place on they differ, where no names are ahead of the cut. -/
  | past (ls : List Token) (left : ls <+: leavesAll f.trees) (right : ls <+: leavesAll g.trees)
    (nameless : Nameless (ts.drop ls.length))

/-- A rule takes as many tokens as its trees have leaves, and does the same ahead of a cut. -/
class Agrees (r : Rule) : Prop where
  counts : ∀ ts, (r ts).rest = ts.drop (leavesAll (r ts).trees).length
  agree : ∀ t ts us, Cut ts us → Agree (t :: ts) (r (t :: ts)) (r (t :: us))

/-- A look at a token ahead of the last tells the same whether or not there are tokens behind. -/
class Steady (p : Look) : Prop where
  steady : ∀ t ts us, Cut ts us → p (t :: ts) = p (t :: us)

theorem agree_nameless (h : Nameless ts) : Agree ts f g :=
  .past [] (List.nil_prefix) (List.nil_prefix) h

theorem agree_cut [hr : Agrees r] (h : Cut ts us) : Agree ts (r ts) (r us) := by
  cases h with
  | last h back => exact agree_nameless (nameless_closer h)
  | cons t h => exact hr.agree t _ _ h

/-- How deep a finding went says nothing about its trees. -/
theorem congr_agree {f' g' : Found} (h : Agree ts f g) (hf : f'.trees = f.trees)
    (hfr : f'.rest = f.rest) (hg : g'.trees = g.trees) (hgr : g'.rest = g.rest) :
    Agree ts f' g' := by
  cases h with
  | ahead ht hr => exact .ahead (by rw [hf, hg, ht]) (by rw [hfr, hgr]; exact hr)
  | past ls hl hr hn => exact .past ls (by rw [hf]; exact hl) (by rw [hg]; exact hr) hn

instance : Agrees nothing where
  counts _ := rfl
  agree t _ _ h := .ahead rfl (.cons t h)

instance : Agrees (bumpAs k) where
  counts ts := by cases ts <;> rfl
  agree _ _ _ h := .ahead rfl h

instance : Agrees bump where
  counts ts := by cases ts <;> rfl
  agree _ _ _ h := .ahead rfl h

instance : Agrees (bumpWord w) := inferInstanceAs (Agrees (bumpAs _))

theorem followed_counts (hf : f.rest = ts.drop (leavesAll f.trees).length)
    (hg : g.rest = f.rest.drop (leavesAll g.trees).length) :
    (f.followed g).rest = ts.drop (leavesAll (f.followed g).trees).length := by
  simp only [Found.followed, leavesAll_append, List.length_append]
  rw [hg, hf, List.drop_drop]

theorem followed_agree {f' g' : Found} (hf : Agree ts f g)
    (hc : f.rest = ts.drop (leavesAll f.trees).length)
    (hg : Cut f.rest g.rest → Agree f.rest f' g') : Agree ts (f.followed f') (g.followed g') := by
  cases hf with
  | ahead ht hr =>
    cases hg hr with
    | ahead ht' hr' => exact .ahead (by simp only [Found.followed, ht, ht']) hr'
    | past ls hl hr' hn =>
      refine .past (leavesAll f.trees ++ ls) ?_ ?_ ?_
      · simpa only [Found.followed, leavesAll_append, List.prefix_append_right_inj] using hl
      · simpa only [Found.followed, ht, leavesAll_append, List.prefix_append_right_inj] using hr'
      · rw [List.length_append, ← List.drop_drop, ← hc]
        exact hn
  | past ls hl hr hn =>
    refine .past ls ?_ ?_ hn
    · simp only [Found.followed, leavesAll_append]
      exact hl.trans (List.prefix_append _ _)
    · simp only [Found.followed, leavesAll_append]
      exact hr.trans (List.prefix_append _ _)

instance [ha : Agrees a] [hb : Agrees b] : Agrees (andThen a b) where
  counts ts := followed_counts (ha.counts ts) (hb.counts _)
  agree t ts us h := followed_agree (ha.agree t ts us h) (ha.counts _) fun hr => agree_cut hr

instance : Agrees (seq []) := inferInstanceAs (Agrees nothing)

instance [Agrees r] [Agrees (seq rs)] : Agrees (seq (r :: rs)) :=
  inferInstanceAs (Agrees (andThen r (seq rs)))

instance [hp : Steady p] [ha : Agrees a] [hb : Agrees b] : Agrees (either p a b) where
  counts ts := by
    unfold either
    split
    · exact ha.counts ts
    · exact hb.counts ts
  agree t ts us h := by
    unfold either
    rw [hp.steady t ts us h]
    split
    · exact ha.agree t ts us h
    · exact hb.agree t ts us h

instance [Steady p] [Agrees r] : Agrees (when p r) := inferInstanceAs (Agrees (either p r nothing))

theorem nodeBy_leaves (q : List Tree → Kind) (r : Rule) (ts : List Token) :
    leavesAll (nodeBy q r ts).trees = leavesAll (r ts).trees := by
  simp [nodeBy, leavesAll, Tree.leaves]

instance {q : List Tree → Kind} [hr : Agrees r] : Agrees (nodeBy q r) where
  counts ts := by
    rw [nodeBy_leaves]
    exact hr.counts ts
  agree t ts us h := by
    cases hr.agree t ts us h with
    | ahead ht hrest => exact .ahead (by simp only [nodeBy, ht]) hrest
    | past ls hl hright hn => exact .past ls (by rwa [nodeBy_leaves]) (by rwa [nodeBy_leaves]) hn

instance [Agrees r] : Agrees (node k r) := inferInstanceAs (Agrees (nodeBy _ r))

instance : Agrees missing := inferInstanceAs (Agrees (node .error nothing))

instance [Steady (atKind k)] : Agrees (optional k) := inferInstanceAs (Agrees (when _ bump))

instance [Steady (atKind k)] : Agrees (expect k) := inferInstanceAs (Agrees (either _ bump missing))

theorem skipUntil_leaves (ks : List Kind) (ts : List Token) :
    leavesAll (skipUntil ks ts).trees = ts.takeWhile fun t => !ks.contains t.kind := by
  unfold skipUntil
  generalize ts.takeWhile (fun t => !ks.contains t.kind) = skipped
  cases skipped with
  | nil => rfl
  | cons u us => simp [leavesAll, Tree.leaves, Tree.leavesAll_ofToken, Tree.ofToken]

theorem skipUntil_rest (ks : List Kind) (ts : List Token) : (skipUntil ks ts).rest =
    ts.drop (ts.takeWhile fun t => !ks.contains t.kind).length := by
  unfold skipUntil
  generalize ts.takeWhile (fun t => !ks.contains t.kind) = skipped
  cases skipped <;> rfl

/-- Tokens are skipped up to the same place, or past the cut. -/
theorem takeWhile_cut {q : Token → Bool} (h : Cut ts us) :
    (ts.takeWhile q = us.takeWhile q ∧
        Cut (ts.drop (ts.takeWhile q).length) (us.drop (us.takeWhile q).length)) ∨
      ∃ ls, ls <+: ts.takeWhile q ∧ ls <+: us.takeWhile q ∧ Nameless (ts.drop ls.length) := by
  induction h with
  | last h back => exact Or.inr ⟨[], List.nil_prefix, List.nil_prefix, nameless_closer h⟩
  | cons t h ih =>
    by_cases hq : q t = true
    · rw [List.takeWhile_cons_of_pos hq, List.takeWhile_cons_of_pos hq]
      rcases ih with ⟨he, hc⟩ | ⟨ls, hl, hr, hn⟩
      · exact Or.inl ⟨by rw [he], hc⟩
      · refine Or.inr ⟨t :: ls, ?_, ?_, hn⟩
        · exact (List.prefix_cons_inj t).mpr hl
        · exact (List.prefix_cons_inj t).mpr hr
    · rw [List.takeWhile_cons_of_neg hq, List.takeWhile_cons_of_neg hq]
      exact Or.inl ⟨rfl, .cons t h⟩

theorem skipUntil_agree (ks : List Kind) (h : Cut ts us) :
    Agree ts (skipUntil ks ts) (skipUntil ks us) := by
  rcases takeWhile_cut (q := fun t => !ks.contains t.kind) h with ⟨he, hc⟩ | ⟨ls, hl, hr, hn⟩
  · refine .ahead ?_ ?_
    · simp only [skipUntil, he]
      split <;> rfl
    · rw [skipUntil_rest, skipUntil_rest]
      exact hc
  · refine .past ls ?_ ?_ hn
    · rwa [skipUntil_leaves]
    · rwa [skipUntil_leaves]

instance : Agrees (skipUntil ks) where
  counts ts := by rw [skipUntil_rest, skipUntil_leaves]
  agree t _ _ h := skipUntil_agree ks (.cons t h)

instance : Agrees refuse where
  counts ts := Agrees.counts (r := skipUntil []) ts
  agree t _ _ h := congr_agree (skipUntil_agree [] (.cons t h)) rfl rfl rfl rfl

theorem orMissing_leaves (k : Kind) (f : Found) :
    leavesAll (f.orMissing k).trees = leavesAll f.trees := by
  unfold Found.orMissing
  split
  · rfl
  · simp [Found.followed, missing, node, nodeBy, nothing, leavesAll, Tree.leaves, leavesAll_append]

theorem orMissing_rest (k : Kind) (f : Found) : (f.orMissing k).rest = f.rest := by
  unfold Found.orMissing
  split <;> rfl

theorem orMissing_agree (k : Kind) (h : Agree ts f g) :
    Agree ts (f.orMissing k) (g.orMissing k) := by
  cases h with
  | ahead ht hr =>
    refine .ahead ?_ ?_
    · have hm : f.makes k = g.makes k := by rw [Found.makes, Found.makes, ht]
      unfold Found.orMissing
      rw [hm]
      split
      · exact ht
      · simp only [Found.followed, ht]
        rfl
    · rwa [orMissing_rest, orMissing_rest]
  | past ls hl hr hn =>
    exact .past ls (by rwa [orMissing_leaves]) (by rwa [orMissing_leaves]) hn

instance [hr : Agrees r] : Agrees (orMissing k r) where
  counts ts := by
    rw [orMissing, orMissing_rest, orMissing_leaves]
    exact hr.counts ts
  agree t ts us h := orMissing_agree k (hr.agree t ts us h)

instance [hr : Agrees r] : Agrees (deepen r) where
  counts := hr.counts
  agree t ts us h := congr_agree (hr.agree t ts us h) rfl rfl rfl rfl

/-- A rule takes a token wherever a look allows it. -/
class Advances (p : Look) (r : Rule) : Prop where
  shorter : ∀ ts, p ts = true → Shorter r ts

theorem many_counts [hr : Agrees r] [hs : Advances p r] (ts : List Token) :
    (many p r ts).rest = ts.drop (leavesAll (many p r ts).trees).length := by
  induction hn : ts.length using Nat.strong_induction_on generalizing ts with
  | _ n ih =>
    subst hn
    rw [many_eq hs.shorter]
    unfold when
    split
    · next hl => exact followed_counts (hr.counts ts) (ih _ (hs.shorter ts hl) _ rfl)
    · rfl

theorem many_agree [hp : Steady p] [hr : Agrees r] [hs : Advances p r] (h : Cut ts us) :
    Agree ts (many p r ts) (many p r us) := by
  induction hn : ts.length using Nat.strong_induction_on generalizing ts us with
  | _ n ih =>
    subst hn
    cases h with
    | last h back => exact agree_nameless (nameless_closer h)
    | cons t h =>
      rw [many_eq hs.shorter]
      unfold when
      rw [hp.steady t _ _ h]
      split
      · next hl =>
        rw [← hp.steady t _ _ h] at hl
        exact followed_agree (hr.agree t _ _ h) (hr.counts _) fun hc =>
          ih _ (hs.shorter _ hl) hc rfl
      · exact .ahead rfl (.cons t h)

instance [Steady p] [Agrees r] [Advances p r] : Agrees (many p r) where
  counts := many_counts
  agree t _ _ h := many_agree (.cons t h)

section Chain

variable {join : List Token → Option Join} {wrap : List Tree → Tree} {operand : Nat → Rule}
  {least : Nat} {first : Rule}

/-- A sign between operands takes a token, and is the same ahead of a cut. -/
structure Joins (join : List Token → Option Join) (operand : Nat → Rule) : Prop where
  steady : ∀ t ts us, Cut ts us → join (t :: ts) = join (t :: us)
  agrees : ∀ ts j, join ts = some j → Agrees (andThen j.mark (operand j.right))
  shorter : ∀ ts j, join ts = some j → Shorter (andThen j.mark (operand j.right)) ts

/-- What is joined to a left operand stands behind its leaves. -/
theorem joined_leaves (hj : Joins join operand) (hw : ∀ cs, (wrap cs).leaves = leavesAll cs)
    (least : Nat) (lhs : Tree) (ts : List Token) : ∃ more,
      leavesAll (joined join wrap operand least lhs ts).trees = lhs.leaves ++ more ∧
        (joined join wrap operand least lhs ts).rest = ts.drop more.length := by
  induction hn : ts.length using Nat.strong_induction_on generalizing lhs ts with
  | _ n ih =>
    subst hn
    have hstop : ∃ more, leavesAll (⟨[lhs], ts, 0, none⟩ : Found).trees = lhs.leaves ++ more ∧
        (⟨[lhs], ts, 0, none⟩ : Found).rest = ts.drop more.length := ⟨[], rfl, rfl⟩
    cases hjoin : join ts with
    | none =>
      rw [joined_of_none hjoin]
      exact hstop
    | some j =>
      by_cases hl : j.left < least
      · rw [joined_of_weak hjoin hl]
        exact hstop
      · rw [joined_eq hj.shorter hjoin (Nat.not_lt.mp hl)]
        have hx := (hj.agrees ts j hjoin).counts ts
        obtain ⟨more, hm, hr⟩ := ih _ (hj.shorter ts j hjoin)
          (wrap (lhs :: (andThen j.mark (operand j.right) ts).trees)) _ rfl
        refine ⟨leavesAll (andThen j.mark (operand j.right) ts).trees ++ more, ?_, ?_⟩
        · simp only [Found.absorbed, hm, hw, leavesAll, List.append_assoc]
        · rw [Found.absorbed, hr, hx, List.drop_drop, List.length_append]

theorem joined_agree (hj : Joins join operand) (hw : ∀ cs, (wrap cs).leaves = leavesAll cs)
    (least : Nat) (lhs : Tree) (h : Cut ts us) :
    ((joined join wrap operand least lhs ts).trees = (joined join wrap operand least lhs us).trees ∧
        Cut (joined join wrap operand least lhs ts).rest
          (joined join wrap operand least lhs us).rest) ∨
      ∃ ls, lhs.leaves ++ ls <+: leavesAll (joined join wrap operand least lhs ts).trees ∧
        lhs.leaves ++ ls <+: leavesAll (joined join wrap operand least lhs us).trees ∧
        Nameless (ts.drop ls.length) := by
  induction hn : ts.length using Nat.strong_induction_on generalizing lhs ts us with
  | _ n ih =>
    subst hn
    cases h with
    | @last c d h back =>
      obtain ⟨more, hm, -⟩ := joined_leaves hj hw least lhs [c]
      obtain ⟨more', hm', -⟩ := joined_leaves hj hw least lhs (d :: back)
      refine Or.inr ⟨[], ?_, ?_, nameless_closer h⟩
      · rw [List.append_nil, hm]
        exact List.prefix_append _ _
      · rw [List.append_nil, hm']
        exact List.prefix_append _ _
    | @cons t ts us h =>
      have hsame := hj.steady t ts us h
      cases hjoin : join (t :: ts) with
      | none =>
        rw [joined_of_none hjoin, joined_of_none (hsame ▸ hjoin)]
        exact Or.inl ⟨rfl, .cons t h⟩
      | some j =>
        by_cases hl : j.left < least
        · rw [joined_of_weak hjoin hl, joined_of_weak (hsame ▸ hjoin) hl]
          exact Or.inl ⟨rfl, .cons t h⟩
        · have hjoin' : join (t :: us) = some j := hsame ▸ hjoin
          rw [joined_eq hj.shorter hjoin (Nat.not_lt.mp hl),
            joined_eq hj.shorter hjoin' (Nat.not_lt.mp hl)]
          have hx := hj.agrees _ j hjoin
          have hc := hx.counts (t :: ts)
          have hshort := hj.shorter _ j hjoin
          simp only [Found.absorbed]
          cases hx.agree t ts us h with
          | ahead ht hr =>
            rw [← ht]
            rcases ih _ hshort (wrap (lhs :: (andThen j.mark (operand j.right) (t :: ts)).trees)) hr
              rfl with ho | ⟨ls, hl, hr', hn⟩
            · exact Or.inl ho
            · refine Or.inr ⟨leavesAll (andThen j.mark (operand j.right) (t :: ts)).trees ++ ls,
                ?_, ?_, ?_⟩
              · simpa only [hw, leavesAll, List.append_assoc] using hl
              · simpa only [hw, leavesAll, List.append_assoc] using hr'
              · rwa [List.length_append, ← List.drop_drop, ← hc]
          | past ls hl hr hn =>
            refine Or.inr ⟨ls, ?_, ?_, hn⟩
            · obtain ⟨more, hm, -⟩ := joined_leaves hj hw least
                (wrap (lhs :: (andThen j.mark (operand j.right) (t :: ts)).trees))
                (andThen j.mark (operand j.right) (t :: ts)).rest
              rw [hm, hw, leavesAll, List.append_assoc, List.prefix_append_right_inj]
              exact hl.trans (List.prefix_append _ _)
            · obtain ⟨more, hm, -⟩ := joined_leaves hj hw least
                (wrap (lhs :: (andThen j.mark (operand j.right) (t :: us)).trees))
                (andThen j.mark (operand j.right) (t :: us)).rest
              rw [hm, hw, leavesAll, List.append_assoc, List.prefix_append_right_inj]
              exact hr.trans (List.prefix_append _ _)

theorem chain_found (first : Rule) (join : List Token → Option Join) (wrap : List Tree → Tree)
    (operand : Nat → Rule) (least : Nat) (ts : List Token) :
    (∃ lhs, (first ts).trees = [lhs] ∧ chain first join wrap operand least ts =
        (first ts).absorbed (joined join wrap operand least lhs (first ts).rest)) ∨
      ((∀ lhs, (first ts).trees ≠ [lhs]) ∧ chain first join wrap operand least ts = first ts) := by
  simp only [chain]
  split
  · next lhs h => exact Or.inl ⟨lhs, h, rfl⟩
  · next h => exact Or.inr ⟨h, rfl⟩

theorem chain_leaves (hj : Joins join operand) (hw : ∀ cs, (wrap cs).leaves = leavesAll cs)
    (first : Rule) (least : Nat) (ts : List Token) : ∃ more,
      leavesAll (chain first join wrap operand least ts).trees =
          leavesAll (first ts).trees ++ more ∧
        (chain first join wrap operand least ts).rest = (first ts).rest.drop more.length := by
  rcases chain_found first join wrap operand least ts with ⟨lhs, ht, he⟩ | ⟨-, he⟩
  · obtain ⟨more, hm, hr⟩ := joined_leaves hj hw least lhs (first ts).rest
    rw [he, ht]
    exact ⟨more, by simpa [Found.absorbed, leavesAll] using hm, hr⟩
  · rw [he]
    exact ⟨[], (List.append_nil _).symm, rfl⟩

theorem agrees_chain [hf : Agrees first] (hj : Joins join operand)
    (hw : ∀ cs, (wrap cs).leaves = leavesAll cs) :
    Agrees (chain first join wrap operand least) where
  counts ts := by
    obtain ⟨more, hm, hr⟩ := chain_leaves hj hw first least ts
    rw [hr, hm, hf.counts ts, List.drop_drop, List.length_append]
  agree t ts us h := by
    cases hf.agree t ts us h with
    | ahead ht hr =>
      rcases chain_found first join wrap operand least (t :: ts) with ⟨lhs, hl, he⟩ | ⟨hn, he⟩
      · rcases chain_found first join wrap operand least (t :: us) with ⟨l, hl', he'⟩ | ⟨hn, _⟩
        · obtain rfl : lhs = l := by simpa [hl, hl'] using ht
          rw [he, he']
          rcases joined_agree hj hw least lhs hr with ⟨ho, hc⟩ | ⟨ls, h₁, h₂, hn⟩
          · exact .ahead ho hc
          · refine .past (lhs.leaves ++ ls) h₁ h₂ ?_
            have hc := hf.counts (t :: ts)
            rw [hl] at hc
            rw [List.length_append, ← List.drop_drop]
            simpa [leavesAll, hc] using hn
        · exact (hn lhs (ht ▸ hl)).elim
      · rcases chain_found first join wrap operand least (t :: us) with ⟨l, hl', _⟩ | ⟨_, he'⟩
        · exact (hn l (ht ▸ hl')).elim
        · rw [he, he']
          exact .ahead ht hr
    | past ls hl hr hn =>
      obtain ⟨more, hm, -⟩ := chain_leaves hj hw first least (t :: ts)
      obtain ⟨more', hm', -⟩ := chain_leaves hj hw first least (t :: us)
      refine .past ls ?_ ?_ hn
      · rw [hm]
        exact hl.trans (List.prefix_append _ _)
      · rw [hm']
        exact hr.trans (List.prefix_append _ _)

end Chain

end LogQuery.Grammar
