import LogQuery.Proofs.Recording.Recorded
import LogQuery.Proofs.Tree.Family

/-! Which finish closes which node. Over the events of a tree the building comes to an end, opens
what encloses the tree, and closes the nodes of the tree in the order of their completion. -/
namespace LogQuery

namespace Survey

open LogQuery.Tree (Ahead Apart Fresh Inside apart_append apart_mono apart_of_inside completedAt
  completedAtAll completedAt_node drop_of_front enclosing_all eventCount eventCountAll eventsAt
  eventsAtAll eventsAt_length eventsAt_node followsFirst followsFirst_leaf fresh_children fresh_first
  fresh_none get_of_front inside_append inside_mono inside_nil leaf node tail_of_front)

variable {s t u : Survey} {events es fs : List Event} {e : Event} {place stop own : Nat} {k : Kind}
  {parent : Option Nat} {o : Nat × Kind} {outer os : List (Nat × Kind)} {closed more : List Nat}
  {cs rest : List Tree} {first : Tree}

/-- A run that comes to an end, opens what is outside of its events, and closes what is inside. -/
structure Runs (events : List Event) (place : Nat) (es : List Event) (outer : List (Nat × Kind))
    (closed : List Nat) (s t : Survey) : Prop where
  run : from? events place es s = some t
  opens : t.opens = outer ++ s.opens
  opened : ∃ inner, Inside place (place + es.length) inner ∧
    t.opened = inner ++ (outer.map Prod.fst ++ s.opened)
  closings : t.closings = s.closings ++ closed

theorem runs_nil (events : List Event) (place : Nat) (s : Survey) :
    Runs events place [] [] [] s s where
  run := rfl
  opens := rfl
  opened := ⟨[], inside_nil _ _, rfl⟩
  closings := (List.append_nil _).symm

theorem runs_append (h : Runs events place es outer closed s t)
    (h' : Runs events (place + es.length) fs [] more t u) :
    Runs events place (es ++ fs) outer (closed ++ more) s u where
  run := by rw [from_append, h.run, Option.bind_some, h'.run]
  opens := h'.opens.trans h.opens
  opened := by
    obtain ⟨inner, hi, ho⟩ := h.opened
    obtain ⟨inner', hi', ho'⟩ := h'.opened
    refine ⟨inner' ++ inner, inside_append ?_ ?_, ?_⟩
    · exact inside_mono hi' (Nat.le_add_right _ _) (by rw [List.length_append]; omega)
    · exact inside_mono hi (Nat.le_refl _) (by rw [List.length_append]; omega)
    · rw [ho', ho, List.map_nil, List.nil_append, List.append_assoc]
  closings := by rw [h'.closings, h.closings, List.append_assoc]

theorem runs_token (events : List Event) (place : Nat) (k : Kind) (s : Survey) :
    ∃ t, Runs events place [.token k] [] [] s t := by
  have hs : step? events place (.token k) s = some (s.addTrivia.addToken place k) := rfl
  obtain ⟨hq, ho, hc, -⟩ := step_token hs
  exact ⟨_, rfl, ho, ⟨[], inside_nil _ _, hq.opened⟩, hc.trans (List.append_nil _).symm⟩

/-- A start where events of a tree may be read opens its node. -/
theorem start_runs (h : Fresh events place stop parent outer s.opened) (hl : place < stop)
    (he : events[place]? = some (.start k parent)) :
    ∃ t, step? events place (.start k parent) s = some t ∧
      t.opens = (place, k) :: outer ++ s.opens ∧
      t.opened = outer.map Prod.fst ++ s.opened ∧ t.closings = s.closings := by
  have hn : place ∉ s.opened := fun hm => by
    have := h.unopened place hm
    omega
  have hout : ∀ o ∈ outer, place < o.1 ∧ o.1 ∉ s.opened := fun o ho =>
    ⟨by have := (h.outside o ho).1; omega, (h.outside o ho).2⟩
  have hs : step? events place (.start k parent) s = some (s.openChain (place, k) outer) := by
    simp only [step?, List.contains_iff_mem, hn, if_false, enclosing_all h.encloses hout,
      Option.map_some]
  have ho : Opens events (place, k) outer s (s.openChain (place, k) outer) :=
    openChain_opens (.start he (fun o hm => (hout o hm).1) h.encloses) s
  exact ⟨_, hs, ho.opens, ho.opened, ho.closings⟩

/-- A finish closes the innermost open node. -/
theorem finish_runs (events : List Event) (place : Nat) (h : s.opens = o :: os) :
    ∃ t, step? events place .finish s = some t ∧ t.opens = os ∧ t.opened = s.opened ∧
      t.closings = s.closings ++ [o.1] := by
  have hsome : ∀ u : Survey, u.opens = s.opens → ∃ t, u.close? = some t := by
    intro u hu
    obtain ⟨ts, _ | ⟨f, more⟩, closed, opened, closings⟩ := u
    · rw [h] at hu
      cases hu
    · exact ⟨_, rfl⟩
  obtain ⟨t, ht⟩ : ∃ t, step? events place .finish s = some t := by
    simp only [step?]
    split
    · exact hsome _ (addTrivia_quiet s).2.1
    · exact hsome s rfl
  obtain ⟨hq, o', ho, hc⟩ := step_finish ht
  obtain ⟨rfl, hos⟩ := List.cons.inj (h.symm.trans ho)
  exact ⟨t, ht, hos.symm, hq.opened, hc⟩

/-- A node that starts before its children. -/
theorem runs_ahead (ha : Ahead k cs) (he : (node k cs).eventsAt place parent <+: events.drop place)
    (hf : Fresh events place (place + (node k cs).eventCount) parent outer s.opened)
    (hc : ∀ s : Survey, Apart (place + 1) (place + 1 + eventCountAll cs) s.opened →
      ∃ t, Runs events (place + 1) (eventsAtAll (place + 1) cs) []
        (completedAtAll (place + 1) cs) s t) :
    ∃ t, Runs events place ((node k cs).eventsAt place parent) outer ((node k cs).completedAt place)
      s t := by
  have hcount : (node k cs).eventCount = eventCountAll cs + 2 := rfl
  rw [eventsAt_node ha] at he ⊢
  obtain ⟨t, ht, hto, htd, htc⟩ := start_runs hf (by omega) (get_of_front he)
  have hu : Apart (place + 1) (place + 1 + eventCountAll cs) t.opened := by
    rw [htd]
    exact apart_mono (fresh_children hf) (Nat.le_succ _) (by omega)
  obtain ⟨u, hr⟩ := hc t hu
  have hopens : u.opens = (place, k) :: (outer ++ s.opens) := hr.opens.trans hto
  obtain ⟨v, hv, hvo, hvd, hvc⟩ :=
    finish_runs events (place + 1 + (eventsAtAll (place + 1) cs).length) hopens
  obtain ⟨inner, hi, hd⟩ := hr.opened
  refine ⟨v, ?_, hvo, ⟨inner, inside_mono hi (Nat.le_succ _) ?_, ?_⟩, ?_⟩
  · rw [List.cons_append, from?, ht, Option.bind_some, from_append, hr.run, Option.bind_some, from?,
      hv]
    rfl
  · rw [List.length_append, List.length_cons]
    omega
  · rw [hvd, hd, htd]
    rfl
  · rw [hvc, hr.closings, htc, completedAt_node ha, List.append_assoc]

/-- A node that starts behind its first child, by which it was opened. -/
theorem runs_behind (hk : followsFirst k first = true) (ho : own = place + first.eventCount)
    (hf : Runs events place (first.eventsAt place (some own)) ((own, k) :: outer)
      (first.completedAt place) s t)
    (hr : Runs events (own + 1) (eventsAtAll (own + 1) rest) [] (completedAtAll (own + 1) rest)
      t u) :
    ∃ v, Runs events place ((node k (first :: rest)).eventsAt place parent) outer
      ((node k (first :: rest)).completedAt place) s v := by
  have hlen : place + (first.eventsAt place (some own)).length = own := by
    rw [eventsAt_length, ho]
  obtain ⟨inner, hi, hd⟩ := hf.opened
  obtain ⟨inner', hi', hd'⟩ := hr.opened
  have hown : own ∈ t.opened := by
    rw [hd]
    exact List.mem_append_right _ (.head _)
  have hopens : u.opens = (own, k) :: (outer ++ s.opens) := hr.opens.trans hf.opens
  obtain ⟨v, hv, hvo, hvd, hvc⟩ :=
    finish_runs events (own + 1 + (eventsAtAll (own + 1) rest).length) hopens
  have hevents : (node k (first :: rest)).eventsAt place parent =
      first.eventsAt place (some own) ++
        (.start k parent :: (eventsAtAll (own + 1) rest ++ [.finish])) := by
    rw [eventsAt, if_pos hk, List.append_assoc, ← ho, List.cons_append]
  have hcompleted : (node k (first :: rest)).completedAt place =
      first.completedAt place ++ (completedAtAll (own + 1) rest ++ [own]) := by
    rw [completedAt, if_pos hk, ← ho, List.append_assoc]
  refine ⟨v, ?_, hvo, ⟨inner' ++ (inner ++ [own]), ?_, ?_⟩, ?_⟩
  · rw [hevents, from_append, hf.run, Option.bind_some, hlen, from?, step_again hown,
      Option.bind_some, from_append, hr.run, Option.bind_some, from?, hv]
    rfl
  · rw [hevents]
    simp only [List.length_append, List.length_cons, List.length_nil] at hi hi' ⊢
    refine inside_append (inside_mono hi' (by omega) (by omega))
      (inside_append (inside_mono hi (Nat.le_refl _) (by omega)) fun p hp => ?_)
    obtain rfl := List.mem_singleton.mp hp
    omega
  · rw [hvd, hd', hd]
    simp
  · rw [hvc, hr.closings, hf.closings, hcompleted]
    simp only [List.append_assoc]

theorem step_closings (hf : Forward events) (he : events[place]? = some e)
    (hs : step? events place e s = some t) :
    ∃ more, t.closings = s.closings ++ more ∧ more.length = Event.finishes [e] := by
  cases e with
  | placeholder =>
    cases hs
    exact ⟨[], (List.append_nil _).symm, rfl⟩
  | token k => exact ⟨[], (step_token hs).2.2.1.trans (List.append_nil _).symm, rfl⟩
  | finish =>
    obtain ⟨-, o, -, hc⟩ := step_finish hs
    exact ⟨[o.1], hc, rfl⟩
  | start k parent =>
    by_cases hn : place ∈ s.opened
    · obtain rfl := Option.some.inj ((step_again hn).symm.trans hs)
      exact ⟨[], (List.append_nil _).symm, rfl⟩
    · obtain ⟨outer, ho⟩ := step_opens hf he hn hs
      exact ⟨[], ho.opens.closings.trans (List.append_nil _).symm, rfl⟩

/-- Each finish of a run closes one node. -/
theorem from_closings (hf : Forward events) (he : es <+: events.drop place)
    (hs : from? events place es s = some t) :
    ∃ more, t.closings = s.closings ++ more ∧ more.length = Event.finishes es := by
  induction es generalizing place s with
  | nil =>
    cases hs
    exact ⟨[], (List.append_nil _).symm, rfl⟩
  | cons e es ih =>
    obtain ⟨u, hu, ht⟩ := Option.bind_eq_some_iff.mp hs
    obtain ⟨more, hm, hl⟩ := ih (tail_of_front he) ht
    obtain ⟨first, hfirst, hlen⟩ := step_closings hf (get_of_front he) hu
    refine ⟨first ++ more, by rw [hm, hfirst, List.append_assoc], ?_⟩
    rw [List.length_append, hlen, hl]
    exact List.countP_append.symm

mutual

/-- Over the events of a tree the nodes are closed in the order in which they were completed. The
induction is on the tree; a first child is read under the node that starts behind it. -/
theorem runs_tree : (t : Tree) → {place : Nat} → {parent : Option Nat} →
    {outer : List (Nat × Kind)} → {s : Survey} → (∀ k x, t = leaf k x → outer = []) →
    t.eventsAt place parent <+: events.drop place →
    Fresh events place (place + t.eventCount) parent outer s.opened →
    ∃ u, Runs events place (t.eventsAt place parent) outer (t.completedAt place) s u
  | leaf k x, place, parent, outer, s, ho, _, _ => by
    obtain rfl := ho k x rfl
    exact runs_token events place k s
  | node k [], _, _, _, _, _, he, hf =>
    runs_ahead (by simp [Ahead]) he hf fun s _ => ⟨s, runs_nil _ _ _⟩
  | node k (first :: rest), place, parent, outer, s, _, he, hf => by
    have hcount : (node k (first :: rest)).eventCount =
        first.eventCount + eventCountAll rest + 2 := rfl
    by_cases hk : followsFirst k first
    · rw [eventsAt, if_pos hk, List.append_assoc] at he
      have hown := drop_of_front he
      rw [eventsAt_length] at hown
      obtain ⟨t, ht⟩ := runs_tree first (s := s)
        (fun l x hl => by rw [hl, followsFirst_leaf] at hk; cases hk)
        ((List.prefix_append _ _).trans he)
        (fresh_first hf (get_of_front hown) (by omega) (by omega))
      obtain ⟨inner, hi, hd⟩ := ht.opened
      rw [eventsAt_length] at hi
      have hu : Apart (place + first.eventCount + 1)
          (place + first.eventCount + 1 + eventCountAll rest) t.opened := by
        rw [hd]
        refine apart_append (apart_of_inside hi (Nat.le_succ _)) ?_
        rw [List.map_cons, List.cons_append]
        refine List.forall_mem_cons.mpr ⟨.inl (Nat.lt_succ_self _), ?_⟩
        exact apart_mono (fresh_children hf) (by omega) (by omega)
      obtain ⟨u, hr⟩ := runs_forest rest
        (tail_of_front ((List.prefix_append _ _).trans hown)) hu
      exact runs_behind hk rfl ht hr
    · have ha : Ahead k (first :: rest) := by simpa [Ahead] using hk
      rw [eventsAt_node ha] at he
      exact runs_ahead ha (by rwa [eventsAt_node ha]) hf fun s hs =>
        runs_forest (first :: rest) (tail_of_front ((List.prefix_append _ _).trans he)) hs

theorem runs_forest : (cs : List Tree) → {place : Nat} → {s : Survey} →
    eventsAtAll place cs <+: events.drop place →
    Apart place (place + eventCountAll cs) s.opened →
    ∃ u, Runs events place (eventsAtAll place cs) [] (completedAtAll place cs) s u
  | [], place, s, _, _ => ⟨s, runs_nil _ _ _⟩
  | c :: cs, place, s, he, ho => by
    have hcount : eventCountAll (c :: cs) = c.eventCount + eventCountAll cs := rfl
    rw [eventsAtAll] at he ⊢
    have he' := drop_of_front he
    obtain ⟨t, ht⟩ := runs_tree c (fun _ _ _ => rfl) ((List.prefix_append _ _).trans he)
      (fresh_none (apart_mono ho (Nat.le_refl _) (by omega)))
    obtain ⟨inner, hi, hd⟩ := ht.opened
    rw [eventsAt_length] at hi he'
    have hu : Apart (place + c.eventCount) (place + c.eventCount + eventCountAll cs) t.opened := by
      rw [hd]
      exact apart_append (apart_of_inside hi (Nat.le_refl _))
        (apart_mono ho (by omega) (by omega))
    obtain ⟨u, hr⟩ := runs_forest cs he' hu
    refine ⟨u, runs_append ht ?_⟩
    rw [eventsAt_length]
    exact hr

end

end Survey

end LogQuery
