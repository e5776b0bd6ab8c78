import LogQuery.Proofs.Event.Recorder

/-! Parents of nodes that were preceded, whatever the order of the actions. The parent of a node is
the place of the placeholder that was recorded when the node was preceded for the last time. There
stands the start of the node that its marker was completed into, or still the placeholder, unless
the marker was abandoned with nothing recorded behind it. Then the placeholder is gone, and its
place is left for what is recorded next. -/
namespace LogQuery.Recorder

variable {r s : Recorder} {m n c i p place : Nat} {k : Kind} {e : Event} {a : Action}
  {as before after : List Action}

/-- What an action does to the events. -/
inductive Writes (r : Recorder) (a : Action) : List Event → Prop
  | more (new : List Event) (hnew : ∀ e ∈ new, Event.isStart e = false)
      (hnone : ∀ c, a = .precede c → r.completed[c]? = none) : Writes r a (r.events ++ new)
  | node (m place : Nat) (k : Kind) (ha : a = .complete m k) (hm : r.marker? m = some place) :
      Writes r a (r.events.set place (.start k none) ++ [.finish])
  | back (m place : Nat) (ha : a = .abandon m) (hm : r.marker? m = some place)
      (hlast : place + 1 = r.events.length) : Writes r a r.events.dropLast
  | parent (c i : Nat) (k : Kind) (p : Option Nat) (ha : a = .precede c)
      (hc : r.completed[c]? = some i) (hi : r.events[i]? = some (.start k p)) :
      Writes r a (r.events.set i (.start k (some r.events.length)) ++ [.placeholder])

theorem writes_same (he : s.events = r.events) (ha : ∀ c, a ≠ .precede c) :
    Writes r a s.events := by
  rw [he, ← List.append_nil r.events]
  refine .more [] (fun e he => nomatch he) fun c hc => absurd hc (ha c)

theorem writes_bumpAs (k : Kind) (ha : ∀ c, a ≠ .precede c) : Writes r a (r.bumpAs k).events := by
  unfold bumpAs
  split
  · exact writes_same rfl ha
  · refine .more [.token k] (fun e he => ?_) fun c hc => absurd hc (ha c)
    rw [List.mem_singleton.mp he]
    rfl

theorem run_writes (h : Sound r) (a : Action) : Writes r a (r.run a).2.events := by
  cases a with
  | start =>
    refine .more [.placeholder] (fun e he => ?_) (by simp)
    rw [List.mem_singleton.mp he]
    rfl
  | bump => exact writes_bumpAs _ (by simp)
  | bumpAs k => exact writes_bumpAs k (by simp)
  | eat k =>
    simp only [run]
    split
    · exact writes_bumpAs _ (by simp)
    · exact writes_same rfl (by simp)
  | isAt k => exact writes_same rfl (by simp)
  | isAtAny ks => exact writes_same rfl (by simp)
  | isSpelled n word => exact writes_same rfl (by simp)
  | peek n => exact writes_same rfl (by simp)
  | complete m k =>
    simp only [run]
    split
    · next place hm => exact .node m place k rfl hm
    · exact writes_same rfl (by simp)
  | abandon m =>
    simp only [run]
    split
    · next place hm =>
      rw [abandon]
      split
      · next hlast => exact .back m place rfl hm hlast
      · exact writes_same rfl (by simp)
    · exact writes_same rfl (by simp)
  | drop m =>
    simp only [run]
    split <;> exact writes_same rfl (by simp)
  | precede c =>
    simp only [run]
    split
    · next i hc =>
      obtain ⟨k, p, hi⟩ := h.completed i (List.mem_of_getElem? hc)
      rw [precede]
      simp only [hi]
      exact .parent c i k p rfl hc hi
    · next hc =>
      rw [← List.append_nil r.events]
      refine .more [] (List.forall_mem_nil _) fun d hd => ?_
      cases hd
      exact hc
  | enter times => exact writes_same (enterTimes_same times r).1 (by simp)
  | leave times => exact writes_same rfl (by simp)

/-- What becomes of an event in one action: it stays, or it is a placeholder that is completed or
taken back, or a start that gets another parent. -/
theorem run_event (h : Sound r) (a : Action) (he : r.events[place]? = some e) :
    (r.run a).2.events[place]? = some e ∨
      (∃ m k, a = .complete m k ∧ r.marker? m = some place ∧
        (r.run a).2.events[place]? = some (.start k none)) ∨
      (∃ m, a = .abandon m ∧ r.marker? m = some place ∧ (r.run a).2.events.length = place) ∨
      ∃ k p q, e = .start k p ∧ (r.run a).2.events[place]? = some (.start k (some q)) := by
  obtain ⟨hlt, -⟩ := List.getElem?_eq_some_iff.mp he
  have hw := run_writes h a
  generalize (r.run a).2.events = es at hw ⊢
  cases hw with
  | more new hnew hnone => exact .inl (getElem?_mono he)
  | node m q k ha hm =>
    by_cases hq : q = place
    · subst hq
      exact .inr (.inl ⟨m, k, ha, hm, getElem?_mono (List.getElem?_set_self hlt)⟩)
    · exact .inl (getElem?_mono (by rwa [List.getElem?_set_ne hq]))
  | back m q ha hm hlast =>
    by_cases hq : q = place
    · subst hq
      refine .inr (.inr (.inl ⟨m, ha, hm, ?_⟩))
      rw [List.length_dropLast]
      omega
    · exact .inl (by rwa [List.getElem?_dropLast, if_pos (by omega)])
  | parent c i k p ha hc hi =>
    by_cases hp : i = place
    · subst hp
      rw [hi] at he
      cases he
      exact .inr (.inr (.inr ⟨k, p, _, rfl, getElem?_mono (List.getElem?_set_self hlt)⟩))
    · exact .inl (getElem?_mono (by rwa [List.getElem?_set_ne hp]))

/-- A parent was there before, or its node is preceded by the action, and then it is the place
behind all events. -/
theorem run_parent (h : Sound r) (a : Action)
    (he : (r.run a).2.events[i]? = some (.start k (some p))) :
    (r.events[i]? = some (.start k (some p)) ∧ ∀ c, a = .precede c → r.completed[c]? ≠ some i) ∨
      ∃ c, a = .precede c ∧ r.completed[c]? = some i ∧ r.events.length = p := by
  -- what is recorded at the end is no start with a parent
  have hfront {es new : List Event} (hnew : ∀ e ∈ new, e ≠ .start k (some p))
      (hi : (es ++ new)[i]? = some (.start k (some p))) : es[i]? = some (.start k (some p)) := by
    rw [List.getElem?_append] at hi
    split at hi
    · exact hi
    · exact absurd rfl (hnew _ (List.mem_of_getElem? hi))
  have hw := run_writes h a
  generalize (r.run a).2.events = es at hw he
  cases hw with
  | more new hnew hnone =>
    refine .inl ⟨hfront (fun e hmem heq => ?_) he, fun c hc hi => ?_⟩
    · rw [heq] at hmem
      cases hnew _ hmem
    · rw [hnone c hc] at hi
      cases hi
  | node m place l ha hm =>
    have hi := hfront (by simp) he
    rw [List.getElem?_set] at hi
    split at hi
    · split at hi <;> cases hi
    · exact .inl ⟨hi, fun c hc => by rw [ha] at hc; cases hc⟩
  | back m place ha hm hlast =>
    rw [List.getElem?_dropLast] at he
    split at he
    · exact .inl ⟨he, fun c hc => by rw [ha] at hc; cases hc⟩
    · cases he
  | parent c j l q ha hc hj =>
    have hi := hfront (by simp) he
    rw [List.getElem?_set] at hi
    split at hi
    · next hji =>
      split at hi
      · cases hi
        exact .inr ⟨c, ha, by rw [hc, hji], rfl⟩
      · cases hi
    · next hji =>
      refine .inl ⟨hi, fun d hd hdi => ?_⟩
      rw [ha] at hd
      cases hd
      exact hji (Option.some.inj (hc.symm.trans hdi))

/-- The events reach beyond a place all the time that the actions take, so that the event there is
the same one. -/
def Stays (r : Recorder) (place : Nat) (as : List Action) : Prop :=
  ∀ done todo, as = done ++ todo → place < (r.runAll done).events.length

/-- What becomes of the placeholder of a marker while some actions are run. -/
inductive Fate (r : Recorder) (m place : Nat) (as : List Action) : Prop
  /-- It stays, and becomes the start of the node that the marker is completed into. -/
  | completed (done todo : List Action) (k : Kind) (p : Option Nat) (hs : Stays r place as)
      (hd : as = done ++ .complete m k :: todo) (hm : (r.runAll done).marker? m = some place)
      (he : (r.runAll as).events[place]? = some (.start k p))
  /-- It stays a placeholder. -/
  | left (hs : Stays r place as) (he : (r.runAll as).events[place]? = some .placeholder)
  /-- The marker is abandoned when the placeholder is the last event. Behind that the events end
  where it was, and whatever stands there at last is recorded later. -/
  | takenBack (done todo : List Action) (hd : as = done ++ .abandon m :: todo)
      (hm : (r.runAll done).marker? m = some place)
      (he : (r.runAll (done ++ [.abandon m])).events.length = place)

theorem stays_front (hs : Stays r place (as ++ after)) : Stays r place as :=
  fun done todo hd => hs done (todo ++ after) (by rw [hd, List.append_assoc])

theorem stays_concat (hs : Stays r place as) (he : place < ((r.runAll as).run a).2.events.length) :
    Stays r place (as ++ [a]) := by
  intro done todo hd
  rcases List.eq_nil_or_concat todo with rfl | ⟨todo, b, rfl⟩
  · rw [List.append_nil] at hd
    rw [← hd, runAll_concat]
    exact he
  · rw [List.concat_eq_append, ← List.append_assoc] at hd
    exact hs done todo (List.append_inj_left' hd rfl)

/-- As long as the placeholder of a marker stays, no other marker has its place. -/
theorem stays_own (h : Sound r) (hm : r.marker? m = some place) (hs : Stays r place as)
    (hn : (r.runAll as).marker? n = some place) : n = m := by
  induction as using List.reverseRecOn with
  | nil => exact h.own hm hn
  | append_singleton as a ih =>
    have hs' := stays_front hs
    rw [runAll_concat] at hn
    rcases (run_marker a).mp hn with ⟨hn, -⟩ | ⟨-, -, hplace⟩
    · exact ih hs' hn
    · exact absurd (hs' as [] (List.append_nil as).symm) (by omega)

/-- A marker that is not used up meets one of the three fates, whatever the actions are. -/
theorem fate_runAll (h : Sound r) (hm : r.marker? m = some place) (as : List Action) :
    Fate r m place as := by
  induction as using List.reverseRecOn with
  | nil =>
    refine .left (fun done todo hd => ?_) (h.waiting hm)
    obtain ⟨rfl, -⟩ := List.append_eq_nil_iff.mp hd.symm
    exact waiting_lt h hm
  | append_singleton as a ih =>
    have hsound := (sound_runAll h as).1
    have hreach {e : Event} (he : ((r.runAll as).run a).2.events[place]? = some e) :
        place < ((r.runAll as).run a).2.events.length := (List.getElem?_eq_some_iff.mp he).1
    cases ih with
    | completed done todo k p hs hd hdone he =>
      -- a start is at no marker's place, so that it can only get another parent
      have hno : ∀ n, (r.runAll as).marker? n ≠ some place := fun n hn => by
        cases (hsound.waiting hn).symm.trans he
      have hd' : as ++ [a] = done ++ .complete m k :: (todo ++ [a]) := by rw [hd]; simp
      rcases run_event hsound a he with he | ⟨n, -, -, hn, -⟩ | ⟨n, -, hn, -⟩ | ⟨l, q, p', hl, he⟩
      · exact .completed done _ k p (stays_concat hs (hreach he)) hd' hdone
          (by rw [runAll_concat, he])
      · exact absurd hn (hno n)
      · exact absurd hn (hno n)
      · cases hl
        exact .completed done _ k _ (stays_concat hs (hreach he)) hd' hdone
          (by rw [runAll_concat, he])
    | left hs he =>
      rcases run_event hsound a he with he | ⟨n, k, rfl, hn, he⟩ | ⟨n, rfl, hn, hlen⟩ |
        ⟨k, p, q, hk, -⟩
      · exact .left (stays_concat hs (hreach he)) (by rw [runAll_concat, he])
      · obtain rfl := stays_own h hm hs hn
        exact .completed as [] k none (stays_concat hs (hreach he)) rfl hn
          (by rw [runAll_concat, he])
      · obtain rfl := stays_own h hm hs hn
        exact .takenBack as [] rfl hn (by rw [runAll_concat, hlen])
      · cases hk
    | takenBack done todo hd hdone he =>
      exact .takenBack done (todo ++ [a]) (by rw [hd]; simp) hdone he

/-- The node at `i` is preceded by one of the actions, when the events end at a place, and by none
of the later ones. -/
structure Preceded (r : Recorder) (as : List Action) (i place : Nat) (before : List Action)
    (c : Nat) (after : List Action) : Prop where
  split : as = before ++ .precede c :: after
  node : (r.runAll before).completed[c]? = some i
  behind : (r.runAll before).events.length = place
  last : ∀ done d todo, after = done ++ .precede d :: todo →
    (r.runAll (before ++ .precede c :: done)).completed[d]? ≠ some i

theorem preceded_concat (h : Preceded r as i place before c after)
    (ha : ∀ d, a = .precede d → (r.runAll as).completed[d]? ≠ some i) :
    Preceded r (as ++ [a]) i place before c (after ++ [a]) where
  split := by rw [h.split, List.append_assoc, List.cons_append]
  node := h.node
  behind := h.behind
  last := by
    intro done d todo hd
    rcases List.eq_nil_or_concat todo with rfl | ⟨todo, b, rfl⟩
    · obtain ⟨rfl, hlast⟩ := List.append_inj' hd rfl
      rw [← h.split]
      exact ha d (List.singleton_inj.mp hlast)
    · rw [List.concat_eq_append, ← List.cons_append, ← List.append_assoc] at hd
      exact h.last done d todo (List.append_inj_left' hd rfl)

/-- A parent is the place where the events ended when the node was preceded for the last time. -/
theorem parent_preceded (h : Sound r)
    (hnone : ∀ {i p : Nat} {k : Kind}, r.events[i]? ≠ some (.start k (some p))) (as : List Action)
    (he : (r.runAll as).events[i]? = some (.start k (some p))) :
    ∃ before c after, Preceded r as i p before c after := by
  induction as using List.reverseRecOn with
  | nil => exact absurd he hnone
  | append_singleton as a ih =>
    rw [runAll_concat] at he
    rcases run_parent (sound_runAll h as).1 a he with ⟨he, ha⟩ | ⟨c, rfl, hc, hlen⟩
    · obtain ⟨before, c, after, hp⟩ := ih he
      exact ⟨before, c, after ++ [a], preceded_concat hp ha⟩
    · exact ⟨as, c, [], rfl, hc, hlen, by simp⟩

/-- Whatever the actions are, the parent of a node is where the events ended when the node was
preceded for the last time. There stands the start of the node that the marker made then was
completed into, or that marker's placeholder, unless it was taken back when the marker was abandoned
with nothing recorded behind it. -/
theorem runAll_parents (ts : List Token) (as : List Action)
    (he : ((ofTokens ts).runAll as).events[i]? = some (.start k (some p))) :
    ∃ before c after m, Preceded (ofTokens ts) as i p before c after ∧
      (((ofTokens ts).runAll before).run (.precede c)).1 = .number m ∧
      Fate ((ofTokens ts).runAll (before ++ [.precede c])) m p after := by
  have hsound := sound_ofTokens ts
  obtain ⟨before, c, after, hp⟩ := parent_preceded hsound (by simp [ofTokens]) as he
  have hrun : ((ofTokens ts).runAll before).run (.precede c) =
      (.number ((ofTokens ts).runAll before).markers.length,
        ((ofTokens ts).runAll before).precede i) := by
    simp only [run, hp.node]
  refine ⟨before, c, after, _, hp, congrArg Prod.fst hrun, ?_⟩
  refine fate_runAll (sound_runAll hsound _).1 ?_ after
  rw [runAll_concat, hrun, ← hp.behind, marker?]
  simp [precede]

/-- A node around the one before it, and a third that is no part of either. -/
def precededActions : List Action :=
  [.start, .bump, .complete 0 .matcher, .precede 0, .bump, .complete 1 .labelFilter, .start, .bump,
    .complete 2 .error]

theorem runAll_parents_completed :
    ((ofTokens letterTokens).runAll precededActions).events[0]? = some (.start .matcher (some 3)) ∧
      ∃ before c after m, Preceded (ofTokens letterTokens) precededActions 0 3 before c after ∧
        (((ofTokens letterTokens).runAll before).run (.precede c)).1 = .number m ∧
        Fate ((ofTokens letterTokens).runAll (before ++ [.precede c])) m 3 after := by
  have he : ((ofTokens letterTokens).runAll precededActions).events[0]? =
      some (.start .matcher (some 3)) := by decide
  exact ⟨he, runAll_parents letterTokens precededActions he⟩

/-- A marker that is abandoned as soon as its node was preceded. -/
def abandonedActions : List Action :=
  [.start, .bump, .complete 0 .matcher, .precede 0, .abandon 1]

/-- All markers are used up, and the parent is past the end of the events. With one more node behind
it, which has nothing to do with the first, that one has become its parent. -/
theorem runAll_not_parents :
    let r := (ofTokens letterTokens).runAll abandonedActions
    let s := r.runAll [.start, .bump, .complete 2 .error]
    (∀ m, r.marker? m = none ∧ s.marker? m = none) ∧
      r.events = [.start .matcher (some 3), .token .identifier, .finish] ∧
      s.events = [.start .matcher (some 3), .token .identifier, .finish, .start .error none,
        .token .comma, .finish] := by
  refine ⟨fun m => ?_, by decide, by decide⟩
  rcases m with _ | _ | _ | m <;> exact ⟨rfl, rfl⟩

end LogQuery.Recorder
