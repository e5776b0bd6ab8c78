import LogQuery.Proofs.Recording.Expr
import LogQuery.Proofs.Tree.Closing
import LogQuery.Proofs.Tree.Leaves

/-! The tree that the events of a query denote: its nodes are the starts, its leaves the tokens, and
what each event does while the tree is built shows in the tree that is left. -/
namespace LogQuery

open Event (WellFormed finishes tokensAt)
open Survey (Child Forward Grows Sited leafOf)
open LogQuery.Tree (Encloses buildFrom? buildStep? ofEvents?)

variable {ts : List Token} {r : Recorder} {s m m' : Survey} {g : Marked}
  {events before after : List Event} {e : Event} {place : Nat}

/-- A start by which another one is named as what encloses it. -/
def Event.Named (es : List Event) (p : Nat) : Prop :=
  ∃ (i : Nat) (k : Kind), es[i]? = some (start k (some p))

/-- What an event does behind some others, between two states of a building that ends in a third.
- A token becomes a child of the innermost open node.
- A finish closes the innermost open node. It is the one that was recorded when that node was
  completed: as many finishes stand before it as nodes were completed before.
- A start that another one names as its parent was opened with that one. Any other start opens the
  starts that enclose it from there on, so that it is the innermost, the last of them in the node
  that was the innermost until then, or at the top. -/
def Survey.Handles (r : Recorder) (s : Survey) (before : List Event) (m m' : Survey) : Event → Prop
  | .placeholder => m' = m
  | .token _ => m'.opens = m.opens ∧ ∃ o, m.top = some o ∧ Child s (some o) before.length
  | .finish => ∃ o, m.opens = o :: m'.opens ∧ r.completed[finishes before]? = some o.1
  | .start k parent =>
    Event.Named r.events before.length ∧ m' = m ∨
      ¬ Event.Named r.events before.length ∧ ∃ outer, Encloses r.events parent outer ∧
        m'.opens = (before.length, k) :: outer ++ m.opens ∧
        ∀ o ∈ ((before.length, k) :: outer).getLast?, Child s m.top o.1

/-- What is built from the tokens of a query and the events of a recording. The building with marks
comes to an end, where one tree is closed and no node is open. -/
structure Built (ts : List Token) (r : Recorder) (s : Survey) (g : Marked) : Prop where
  run : Survey.from? r.events 0 r.events (.ofTokens ts) = some s
  root : s.stack = [] ∧ s.closed = [g]
  /-- Without the marks it is the tree of the events. -/
  tree : ofEvents? ts r.events = some g.tree
  nodup : (g.families.map Family.parent).Nodup
  nodes : ∀ i k, some (i, k) ∈ g.families.map Family.parent ↔
    ∃ p, r.events[i]? = some (.start k p)
  first : ∀ i k p, r.events[i]? = some (.start k (some p)) →
    ∃ l ms, ⟨some (p, l), some i :: ms⟩ ∈ g.families
  tokens : (tokensAt 0 r.events).length = (Token.significant ts).length
  leaves : (g.leaves.filter fun l => !l.2.isTrivia) =
    List.zipWith leafOf (tokensAt 0 r.events) (Token.significant ts)
  /-- Without the marks they are the leaves of the tree. -/
  unmarked : g.tree.leaves = g.leaves.map Prod.snd
  /-- A completion records one finish, behind those of the completions before it. -/
  finishes : finishes r.events = r.completed.length
  /-- So each finish closes the node whose completion recorded it. -/
  closings : s.closings = r.completed

namespace Survey

/-- A tree that is all that is left has no node open, and is closed. -/
theorem closed_one (hs : from? events 0 events (ofTokens ts) = some s) (hstack : s.stack = [])
    {x : Tree} (hx : ofEvents? ts events = some x) : ∃ g, s.closed = [g] ∧ g.tree = x := by
  have hb : buildFrom? events 0 events ⟨ts, [], [], []⟩ = some s.building :=
    (from_building events (ofTokens ts)).trans (congrArg (Option.map building) hs)
  have hr : s.building.remains = (s.closed.map Marked.tree).reverse := by
    simp [Tree.Building.remains, building, hstack]
  rw [ofEvents?, hb, Option.map_some, hr] at hx
  split at hx
  · next k cs h =>
    obtain ⟨g, hg, hgt⟩ : ∃ g, s.closed = [g] ∧ g.tree = .node k cs := by
      have h' := List.reverse_eq_iff.mp (Option.some.inj h)
      obtain ⟨g, gs, hcl, hgt, hgs⟩ := List.map_eq_cons_iff.mp h'
      exact ⟨g, by rw [hcl, List.map_eq_nil_iff.mp hgs], hgt⟩
    exact ⟨g, hg, hgt.trans (Option.some.inj hx)⟩
  · cases hx

theorem families_one (hstack : s.stack = []) (hg : s.closed = [g]) :
    s.families = ⟨none, [g.place?]⟩ :: g.families := by
  rw [families, hstack, hg]
  simp [familiesFrom, Marked.familiesAll]

/-- The states before and after one event of a run, and what is known of them. -/
structure Between (events : List Event) (ts : List Token) (before : List Event) (e : Event)
    (after : List Event) (s m m' : Survey) : Prop where
  split : events = before ++ e :: after
  run : from? events 0 before (ofTokens ts) = some m
  step : step? events before.length e m = some m'
  rest : from? events (before.length + 1) after m' = some s
  sited : Sited events before.length m
  grows : Grows m' s

theorem between_get (h : Between events ts before e after s m m') :
    events[before.length]? = some e := by
  rw [h.split]
  simp

theorem from_split (hf : Forward events) (he : events = before ++ e :: after)
    (hs : from? events 0 events (ofTokens ts) = some s) :
    ∃ m m', Between events ts before e after s m m' := by
  have hfront : before <+: events.drop 0 := ⟨e :: after, he.symm⟩
  have hback : after <+: events.drop (before.length + 1) := by
    rw [he]
    simp
  rw [show from? events 0 events = from? events 0 (before ++ e :: after) from congrArg _ he,
    from_append, Nat.zero_add] at hs
  obtain ⟨m, hm, hs⟩ := Option.bind_eq_some_iff.mp hs
  obtain ⟨m', hm', hs⟩ := Option.bind_eq_some_iff.mp hs
  have hsited := (from_sited hf (sited_ofTokens events ts) hfront hm).1
  rw [Nat.zero_add] at hsited
  have hget : events[before.length]? = some e := by
    rw [he]
    simp
  exact ⟨m, m', he, hm, hm', hs, hsited,
    (from_sited hf (step_sited hf hsited hget hm').1 hback hs).2⟩

/-- At the top stands the root, and nothing else. -/
theorem child_root (hroot : s.stack = [] ∧ s.closed = [g]) (hn : s.parents.Nodup)
    (h : Child s none place) : g.place? = some place := by
  have hfam := families_one hroot.1 hroot.2
  obtain ⟨ms, hm, hp⟩ := h
  rw [parents, hfam, List.map_cons, List.nodup_cons] at hn
  rw [hfam] at hm
  rcases List.mem_cons.mp hm with hm | hm
  · cases hm
    exact (List.mem_singleton.mp hp).symm
  · exact (hn.1 (List.mem_map.mpr ⟨_, hm, rfl⟩)).elim

/-- While there are token events to come, there are tokens. -/
theorem tokens_left (hk : ∀ k ∈ events.filterMap Event.tokenKind?, k.isTrivia = false)
    (hl : (tokensAt 0 events).length = (Token.significant ts).length) {k : Kind}
    (he : events = before ++ .token k :: after)
    (hm : from? events 0 before (ofTokens ts) = some m) : m.addTrivia.tokens ≠ [] := by
  intro hnil
  have hfiles := from_files (fun l hl => hk l (by
    rw [he, List.filterMap_append]
    exact List.mem_append_left _ hl)) hm
  have hnone : Token.significant m.tokens = [] :=
    (addTrivia_files m).tokens.symm.trans (by rw [hnil]; rfl)
  have hdrop : (Token.significant ts).length ≤ (tokensAt 0 before).length :=
    List.drop_eq_nil_iff.mp (hfiles.tokens.symm.trans hnone)
  have hcount : (tokensAt 0 events).length =
      (tokensAt 0 before).length + (1 + (tokensAt (0 + before.length + 1) after).length) := by
    rw [he, Event.tokensAt_append, List.length_append, ← List.singleton_append,
      Event.tokensAt_append, List.length_append]
    rfl
  omega

end Survey

/-- The kinds that are recorded for tokens which are not trivia are no trivia. -/
theorem recorded_solid
    (h : List.Forall₂ Token.RecordedAs (Token.significant ts) (events.filterMap Event.tokenKind?)) :
    ∀ k ∈ events.filterMap Event.tokenKind?, k.isTrivia = false := by
  intro k hk
  obtain ⟨t, ht, hr⟩ := exists_of_forall₂ h.flip hk
  have hs : t.isTrivia = false := by simpa using (List.mem_filter.mp ht).2
  rcases hr with rfl | ⟨w, -, rfl⟩
  · exact hs
  · rfl

/-- What a run over all events leaves, if it closes each node that it opens. -/
theorem built_of_runs (hwf : WellFormed (Token.significant ts) r.events)
    (hs : Survey.Runs r.events 0 r.events [] r.completed (.ofTokens ts) s) {x : Tree}
    (hx : ofEvents? ts r.events = some x) : ∃ g, Built ts r s g := by
  have hf : Forward r.events := fun i p k hi => (hwf.parent_later i p k hi).1
  have hstack : s.stack = [] := List.map_eq_nil_iff.mp hs.opens
  obtain ⟨g, hg, rfl⟩ := Survey.closed_one hs.run hstack hx
  have hfam := Survey.families_one hstack hg
  have hsited : Sited r.events (0 + r.events.length) s :=
    (Survey.from_sited hf (Survey.sited_ofTokens r.events ts) (List.prefix_refl _) hs.run).1
  have hmet : ∀ {i : Nat} {e : Event}, r.events[i]? = some e → s.Met (0 + r.events.length) i :=
    fun hi => .inl (by rw [Nat.zero_add]; exact (List.getElem?_eq_some_iff.mp hi).1)
  have hparents : s.parents = none :: g.families.map Family.parent := by
    rw [Survey.parents, hfam, List.map_cons]
  have hfiles := Survey.from_files (recorded_solid hwf.tokens) hs.run
  have hleaves : s.leaves = g.leaves := by
    rw [Survey.leaves, hstack, hg]
    exact Marked.leavesAll_one g
  obtain ⟨closings, hc, hlen⟩ := Survey.from_closings hf (List.prefix_refl _) hs.run
  have hclosings : s.closings = r.completed := hs.closings
  exact ⟨g, {
    run := hs.run
    root := ⟨hstack, hg⟩
    tree := hx
    nodup := (List.nodup_cons.mp (hparents ▸ hsited.nodup)).2
    nodes := by
      intro i k
      have h := hsited.starts i k
      rw [hparents, List.mem_cons] at h
      simp only [reduceCtorEq, false_or] at h
      exact h.trans (exists_congr fun p => and_iff_left_of_imp hmet)
    first := by
      intro i k p hi
      obtain ⟨l, ms, hm⟩ := hsited.first i k p hi (hmet hi)
      rw [hfam] at hm
      rcases List.mem_cons.mp hm with hm | hm
      · cases hm
      · exact ⟨l, ms, hm⟩
    tokens := by rw [hwf.tokens.length_eq, ← Event.tokensAt_kinds 0, List.length_map]
    leaves := by
      rw [← hleaves]
      exact hfiles.solid
    unmarked := Marked.tree_leaves g
    finishes := by
      rw [← hclosings, hc]
      exact hlen.symm
    closings := hclosings }⟩

/-- What is built is a node, and its place is a start. -/
theorem built_root (h : Built ts r s g) (hp : g.place? = some place) :
    ∃ k p, r.events[place]? = some (.start k p) := by
  obtain ⟨k, cs, hg⟩ : ∃ k cs, g.tree = .node k cs := by
    have ht := h.tree
    rw [ofEvents?] at ht
    split at ht
    · exact ⟨_, _, (Option.some.inj ht).symm⟩
    · cases ht
  cases g with
  | trivia t => cases hg
  | token i t => cases hg
  | node i l ds =>
    obtain rfl := Option.some.inj hp
    exact ⟨l, (h.nodes i l).mp (by rw [Marked.families, List.map_cons]; exact .head _)⟩

section Handles

variable {k : Kind} {parent : Option Nat}

theorem token_handles (h : Built ts r s g) (hwf : WellFormed (Token.significant ts) r.events)
    (hf : Forward r.events) (hb : Survey.Between r.events ts before (.token k) after s m m') :
    s.Handles r before m m' (.token k) := by
  obtain ⟨-, ho, -, hchild⟩ := Survey.step_token hb.step
  have hleft : m.addTrivia.tokens ≠ [] :=
    Survey.tokens_left (recorded_solid hwf.tokens) h.tokens hb.split hb.run
  have hc : Child s m.top before.length := Survey.child_grows (hchild hleft) hb.grows
  refine ⟨ho, ?_⟩
  cases htop : m.top with
  | some o => exact ⟨o, rfl, htop ▸ hc⟩
  | none =>
    -- only the root stands at the top, and that is no token
    rw [htop] at hc
    have hn := (Survey.from_sited hf (Survey.sited_ofTokens r.events ts) (List.prefix_refl _)
      h.run).1.nodup
    obtain ⟨l, p, hp⟩ := built_root h (Survey.child_root h.root hn hc)
    cases (Survey.between_get hb).symm.trans hp

theorem finish_handles (h : Built ts r s g) (hf : Forward r.events)
    (hb : Survey.Between r.events ts before .finish after s m m') :
    s.Handles r before m m' .finish := by
  obtain ⟨-, o, ho, hclose⟩ := Survey.step_finish hb.step
  obtain ⟨first, hfirst, hlen⟩ :=
    Survey.from_closings hf ⟨.finish :: after, hb.split.symm⟩ hb.run
  obtain ⟨last, hlast, -⟩ := Survey.from_closings hf (by rw [hb.split]; simp) hb.rest
  refine ⟨o, ho, ?_⟩
  rw [← h.closings, hlast, hclose, hfirst, ← hlen]
  simp [Survey.ofTokens]

theorem start_handles (hf : Forward r.events)
    (hb : Survey.Between r.events ts before (.start k parent) after s m m') :
    s.Handles r before m m' (.start k parent) := by
  by_cases hn : Event.Named r.events before.length
  · obtain ⟨i, l, hi⟩ := hn
    have hopened : before.length ∈ m.opened :=
      (hb.sited.opened _).mpr ⟨i, l, hi, .inl (hf _ _ _ hi)⟩
    exact .inl ⟨⟨i, l, hi⟩, Option.some.inj (hb.step.symm.trans (Survey.step_again hopened))⟩
  · have hopened : before.length ∉ m.opened := fun hin => by
      obtain ⟨i, l, hi, -⟩ := (hb.sited.opened _).mp hin
      exact hn ⟨i, l, hi⟩
    obtain ⟨outer, ho⟩ := Survey.step_opens hf (Survey.between_get hb) hopened hb.step
    exact .inr ⟨hn, outer, ho.encloses, ho.opens.opens,
      fun o hl => Survey.child_grows (ho.opens.last o hl) hb.grows⟩

end Handles

/-- Each event does what is said of it. -/
theorem built_handles (h : Built ts r s g) (hwf : WellFormed (Token.significant ts) r.events)
    (he : r.events = before ++ e :: after) :
    ∃ m m', Survey.from? r.events 0 before (.ofTokens ts) = some m ∧
      buildFrom? r.events 0 before ⟨ts, [], [], []⟩ = some m.building ∧
      Survey.step? r.events before.length e m = some m' ∧
      buildStep? r.events before.length e m.building = some m'.building ∧
      s.Handles r before m m' e := by
  have hf : Forward r.events := fun i p k hi => (hwf.parent_later i p k hi).1
  obtain ⟨m, m', hb⟩ := Survey.from_split hf he h.run
  refine ⟨m, m', hb.run, (Survey.from_building before (.ofTokens ts)).trans (by rw [hb.run]; rfl),
    hb.step, (Survey.step_building m).trans (by rw [hb.step]; rfl), ?_⟩
  cases e with
  | placeholder => exact (Option.some.inj hb.step).symm
  | token k => exact token_handles h hwf hf hb
  | finish => exact finish_handles h hf hb
  | start k parent => exact start_handles hf hb

/-- The events that are recorded for the tokens of a query build one tree. Each start is a node of
it, closed by the finish of its own completion, and each token a leaf, and every event does what is
said of it while the tree is built. -/
theorem recorded_built (ts : List Token) : ∃ r s g,
    Recording.root (.ofTokens (Token.significant ts)) = some ((), r) ∧ Built ts r s g ∧
      ∀ before e after, r.events = before ++ e :: after → ∃ m m',
        Survey.from? r.events 0 before (.ofTokens ts) = some m ∧
          buildFrom? r.events 0 before ⟨ts, [], [], []⟩ = some m.building ∧
          Survey.step? r.events before.length e m = some m' ∧
          buildStep? r.events before.length e m.building = some m'.building ∧
          s.Handles r before m m' e := by
  obtain ⟨_, r, hr, h, -⟩ :=
    Recording.root_gives (r := .ofTokens (Token.significant ts)) rfl
  set cs := (Grammar.contents Grammar.maxLevels (Token.significant ts)).trees
  have ha : Tree.Ahead .logQl cs := Tree.ahead_of_kind (by decide) cs
  have hreads : List.Forall₂ Token.ReadAs (Token.significant ts) (Tree.leavesAll cs) :=
    Grammar.queryTree_reads Grammar.maxLevels _
  have hevents : r.events = (Tree.node .logQl cs).eventsAt 0 none :=
    h.events.trans (Tree.eventsAtAll_one _ _)
  have hcompleted : r.completed = (Tree.node .logQl cs).completedAt 0 :=
    h.completed.trans (Tree.completedAtAll_one _ _)
  have hwf : WellFormed (Token.significant ts) r.events := by
    rw [hevents, Tree.eventsAt_node ha]
    exact Event.wellFormed_of_reads hreads
  obtain ⟨s, hs⟩ := Survey.runs_tree (Tree.node .logQl cs) (s := .ofTokens ts) (by simp)
    (by rw [hevents]; exact List.prefix_refl _ : _ <+: r.events.drop 0)
    (Tree.fresh_none (by simp [Survey.ofTokens, Tree.Apart]))
  rw [← hevents, ← hcompleted] at hs
  have hx : ofEvents? ts r.events = some ((Tree.node .logQl cs).withTrivia ts) :=
    hevents ▸ Tree.ofEvents_withTrivia ha hreads
  obtain ⟨g, hg⟩ := built_of_runs hwf hs hx
  exact ⟨r, s, g, hr, hg, fun _ _ _ he => built_handles hg hwf he⟩

end LogQuery
