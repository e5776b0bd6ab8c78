import LogQuery.Proofs.Recording.Rule

/-! Rules that may give a node, the levels they are nested in, and operands joined by signs. -/
namespace LogQuery.Recording

open Recorder (Recorded Opened)
open Grammar (Rule Look Found Shorter andThen nothing deepen refuse maxLevels)
open LogQuery.Tree (Ahead)

variable {α : Type} {d least : Nat} {k : Kind} {r s : Recorder} {cs : List Tree} {f : Found}
  {a : Recording (Option (Nat × α))} {q : Rule} {P : α → Tree → Prop}

/-- A node is completed. It is told by its number and what is known of it. -/
def Told (k : Kind) (P : α → Tree → Prop) (r : Recorder) (cs : List Tree) (x : Nat × α)
    (s : Recorder) : Prop :=
  ∃ es, cs = [.node k es] ∧ P x.2 (.node k es) ∧
    s.completed[x.1]? = some (r.events.length + (Tree.node k es).lead)

/-- Where no node is given, an error node stands for what is left, or nothing is recorded. -/
def Made (k : Kind) (P : α → Tree → Prop) (r : Recorder) (cs : List Tree) :
    Option (Nat × α) → Recorder → Prop
  | some x, s => Told k P r cs x s
  | none, _ => cs = [] ∨ ∃ es, cs = [.node .error es]

/-- At a depth of nesting, a run records whatever a rule finds, and tells whether it is a node of
some kind. -/
def Makes (d : Nat) (k : Kind) (P : α → Tree → Prop) (a : Recording (Option (Nat × α)))
    (q : Rule) : Prop :=
  ∀ r, r.depth = d → Gives a r (q r.rest) (Made k P r (q r.rest).trees)

/-- As before, and where there is no node nothing is recorded. -/
def Tries (d : Nat) (k : Kind) (P : α → Tree → Prop) (a : Recording (Option (Nat × α)))
    (q : Rule) : Prop :=
  ∀ r, r.depth = d → Gives a r (q r.rest) fun x s =>
    match x with
    | some x => Told k P r (q r.rest).trees x s
    | none => (q r.rest).trees = []

theorem makes_records (h : Makes d k P a q) : Records d (do let _ ← a) q := fun r hd =>
  gives_map (h r hd) fun _ _ _ _ => trivial

theorem made_makes {x : Option (Nat × α)} (hk : k ≠ .error) (h : Made k P r f.trees x s) :
    f.makes k = x.isSome := by
  obtain ⟨cs, us, n, c⟩ := f
  cases x with
  | some x =>
    obtain ⟨es, rfl, -⟩ := h
    simp [Grammar.Found.makes, LogQuery.Tree.kind]
  | none =>
    obtain h | ⟨es, h⟩ := h
    · cases h
      rfl
    · cases h
      simp [Grammar.Found.makes, LogQuery.Tree.kind, hk.symm]

/-- An error node is recorded if no node is given. -/
theorem missingUnless_gives {x : Option (Nat × α)} (hk : k ≠ .error) (hr : Recorded r f s)
    (h : Made k P r f.trees x s) :
    ∃ t, (if x.isNone then missing else pure ()) s = some ((), t) ∧
      Recorded r (f.orMissing k) t := by
  rw [Found.orMissing, made_makes hk h]
  cases x with
  | some x => exact ⟨s, rfl, hr⟩
  | none =>
    obtain ⟨_, t, ht, hs, -⟩ := missing_records s rfl
    rw [hr.rest] at hs
    exact ⟨t, ht, Recorder.recorded_append hr hs⟩

theorem closed_makes {a : Recording Unit} (ha : Records d a q) (hk : ∀ ts, Ahead k (q ts).trees) :
    Makes d k (fun _ _ => True) (do let c ← closed k a; return some (c, ()))
      (Grammar.node k q) := by
  intro r hd
  refine gives_map (closed_gives (ha r.start hd) (hk r.rest)) fun c s _ hc => ?_
  refine ⟨_, rfl, trivial, ?_⟩
  rw [LogQuery.Tree.lead_of_ahead (hk r.rest)]
  exact hc

theorem orMissing_records (h : Makes d k P a q) (hk : k ≠ .error) :
    Records d (orMissing a) (Grammar.orMissing k q) := by
  intro r hd
  obtain ⟨x, s, ha, hs, hx⟩ := h r hd
  obtain ⟨t, ht, hr⟩ := missingUnless_gives hk hs hx
  exact ⟨(), t, (run_bind ha).trans ht, hr, trivial⟩

/-- A marker that is not needed is taken back with its placeholder. -/
theorem recorded_abandon (r : Recorder) :
    abandon r.markers.length r.start =
        some ((), r.start.abandon r.markers.length r.events.length) ∧
      Recorded r (nothing r.rest) (r.start.abandon r.markers.length r.events.length) := by
  have hm : r.start.marker? r.markers.length = some r.events.length := by
    simp [Recorder.marker?, Recorder.start]
  have he : r.start.events.getLast? = some .placeholder := by simp [Recorder.start]
  refine ⟨by simp only [abandon, hm, he, true_or, if_true], ?_⟩
  exact {
    tokens := rfl
    rest := rfl
    position := id
    events := by
      simp [Recorder.abandon, Recorder.useUp, Recorder.start, nothing, Tree.eventsAtAll]
    completed := (List.append_nil _).symm
    refused := (Recorder.recorded_nil r).refused
    depth := rfl
    deepest := id
    markers := ⟨1, by simp [Recorder.abandon, Recorder.useUp, Recorder.start]⟩ }

theorem attempt_run {choose : List Token → Option (Recording α)} (r : Recorder) :
    attempt k choose r =
      (match choose r.rest with
        | some b => do
          let x ← b
          let c ← complete r.markers.length k
          return some (c, x)
        | none => do
          abandon r.markers.length
          return none : Recording _) r.start := rfl

/-- Where nothing is chosen nothing is to be found, and otherwise the choice records the contents
of a node. -/
theorem attempt_tries {choose : List Token → Option (Recording α)}
    (hn : ∀ ts, choose ts = none → q ts = nothing ts)
    (hs : ∀ r b, r.depth = d → choose r.rest = some b → ∃ cs, (q r.rest).trees = [.node k cs] ∧
      Ahead k cs ∧ Gives b r { q r.rest with trees := cs } fun x _ => P x (.node k cs)) :
    Tries d k P (attempt k choose) q := by
  intro r hd
  cases hc : choose r.rest with
  | none =>
    obtain ⟨ha, hr⟩ := recorded_abandon r
    rw [hn _ hc]
    refine ⟨none, _, ?_, hr, rfl⟩
    rw [attempt_run, hc]
    exact run_bind ha
  | some b =>
    obtain ⟨cs, ht, hk, x, s, hb, hr, hx⟩ := hs r.start b hd hc
    obtain ⟨c, u, hcu, hu, hcc⟩ := complete_gives (Recorder.opened_start r) hr
      (Recorder.encloses_all hk r) ht rfl rfl
    refine ⟨some (c, x), u, ?_, hu, ⟨cs, ht, hx, ?_⟩⟩
    · rw [attempt_run, hc]
      exact (run_bind hb).trans (run_bind hcu)
    · rw [LogQuery.Tree.lead_of_ahead hk]
      exact hcc

section Nested

/-- More levels than can be entered. -/
structure Enough (limit d : Nat) : Prop where
  pos : 0 < limit
  levels : maxLevels < limit + d

theorem enough_inside {limit : Nat} (h : Enough (limit + 1) d) (hd : d < maxLevels) :
    Enough limit (d + 1) := by
  have := h.levels
  constructor <;> omega

/-- The recorder inside of one more level. -/
def inside (r : Recorder) : Recorder :=
  { r with depth := r.depth + 1, deepest := max r.deepest (r.depth + 1) }

/-- The recorder where a level is refused. -/
def refusing (r : Recorder) : Recorder := { r with refused := r.refused <|> some r.rest }

theorem recorded_leave (hd : r.depth < maxLevels) (h : Recorded (inside r) f s) :
    Recorded r f s.leave where
  tokens := h.tokens
  rest := h.rest
  position := h.position
  events := h.events
  completed := h.completed
  refused := h.refused
  depth := by
    have hd := h.depth
    rw [inside] at hd
    rw [Recorder.leave, hd, Nat.add_sub_cancel]
  deepest := fun hr => h.deepest (Nat.max_le.mpr ⟨hr, hd⟩)
  markers := h.markers

theorem recorded_refused (h : Recorded (refusing r) (Grammar.skipUntil [] r.rest) s) :
    Recorded r (refuse r.rest) s where
  tokens := h.tokens
  rest := h.rest
  position := h.position
  events := h.events
  completed := h.completed
  refused := by
    have hr := h.refused
    rw [Grammar.skipUntil_cut] at hr
    rw [hr, refusing]
    cases r.refused <;> rfl
  depth := h.depth
  deepest := h.deepest
  markers := h.markers

theorem nested_inside {a : Recording (Option α)} {x : Option α} (hd : r.depth < maxLevels)
    (h : a (inside r) = some (x, s)) : nested a r = some (x, s.leave) := by
  have he : enter r = some (true, inside r) := by
    simp only [enter, Recorder.enter, hd, if_true, inside]
  exact (run_bind he).trans (run_bind h)

theorem nested_refused {a : Recording (Option α)} (hd : ¬ r.depth < maxLevels)
    (h : skipUntil [] (refusing r) = some ((), s)) : nested a r = some (none, s) := by
  have he : enter r = some (false, refusing r) := by
    simp only [enter, Recorder.enter, hd, if_false, refusing]
  exact (run_bind he).trans (run_bind h)

theorem refuse_trees (ts : List Token) :
    (refuse ts).trees = [] ∨ ∃ es, (refuse ts).trees = [.node .error es] := by
  change (Grammar.skipUntil [] ts).trees = [] ∨ ∃ es, (Grammar.skipUntil [] ts).trees = _
  rw [skipUntil_eq, Grammar.when]
  split
  · exact Or.inr ⟨_, rfl⟩
  · exact Or.inl rfl

/-- The levels of the grammar are those that are left of the recorder's. -/
theorem nested_makes {f g : Nat → Rule} (hz : f 0 = refuse) (hs : ∀ n, f (n + 1) = deepen (g n))
    (h : d < maxLevels → Makes (d + 1) k P a (g (maxLevels - (d + 1)))) :
    Makes d k P (nested a) (f (maxLevels - d)) := by
  intro r hd
  by_cases hl : r.depth < maxLevels
  · obtain ⟨x, s, ha, hr, hx⟩ := h (hd ▸ hl) (inside r) (congrArg (· + 1) hd)
    have hf : f (maxLevels - d) = deepen (g (maxLevels - (d + 1))) := by
      rw [← hs]
      congr 1
      omega
    rw [hf]
    exact ⟨x, _, nested_inside hl ha, Recorder.recorded_congr (recorded_leave hl hr) rfl rfl rfl,
      by cases x <;> exact hx⟩
  · obtain ⟨_, s, ha, hr, -⟩ := skipUntil_records [] (refusing r) hd
    have hf : f (maxLevels - d) = refuse := by
      rw [← hz]
      congr 1
      omega
    rw [hf]
    exact ⟨none, s, nested_refused hl ha, recorded_refused hr, refuse_trees r.rest⟩

end Nested

section Climb

variable {join : List Token → Option Join} {join' : List Token → Option Grammar.Join}
  {wrap : List Tree → Tree} {operand : Nat → Recording Unit} {operand' : Nat → Rule}
  {close : Nat → Recording (Nat × α)} {first : Recording (Option (Nat × α))}

/-- Two signs that are recorded and read alike, and bind alike. -/
def Alike (d : Nat) : Option Join → Option Grammar.Join → Prop
  | some j, some j' => Records d j.mark j'.mark ∧ j.left = j'.left ∧ j.right = j'.right
  | none, none => True
  | _, _ => False

/-- A marker that precedes a node is completed around it and what was recorded behind it. -/
def Closes (k : Kind) (P : α → Tree → Prop) (wrap : List Tree → Tree)
    (close : Nat → Recording (Nat × α)) : Prop :=
  ∀ {r s t : Recorder} {m : Nat} {ks : List Tree} {f g : Found},
    Opened r m (r.events ++ (Tree.node k ks).eventsAt r.events.length
        (some (r.events.length + (Tree.node k ks).eventCount)))
      (r.completed ++ (Tree.node k ks).completedAt r.events.length) s → Recorded s f t →
    g.trees = [wrap (.node k ks :: f.trees)] → g.rest = f.rest →
    (s.refused <|> f.cut) = (r.refused <|> g.cut) →
    ∃ x u, close m t = some (x, u) ∧ Recorded r g u ∧ Told k P r g.trees x u

/-- A node may be preceded once it is recorded. -/
theorem precede_run {x : Nat × α} (h : Recorded r f s) (hx : Told k P r f.trees x s) :
    ∃ ks t, f.trees = [.node k ks] ∧ precede x.1 s = some (s.markers.length, t) ∧
      t.depth = s.depth ∧ t.rest = f.rest ∧ t.refused = (r.refused <|> f.cut) ∧
      Opened r s.markers.length (r.events ++ (Tree.node k ks).eventsAt r.events.length
        (some (r.events.length + (Tree.node k ks).eventCount)))
        (r.completed ++ (Tree.node k ks).completedAt r.events.length) t := by
  obtain ⟨ks, hks, -, hc⟩ := hx
  exact ⟨ks, s.precede _, hks, by simp only [precede, hc], rfl, h.rest, h.refused,
    Recorder.opened_precede h hks rfl⟩

theorem climb_run_of_stop {x : Nat × α} {limit : Nat}
    (h : ∀ j, join s.rest = some j → j.left < least) :
    climb join operand close least (limit + 1) x s = some (x, s) := by
  simp only [climb, ahead]
  cases hj : join s.rest with
  | none => rfl
  | some j => simp only [h j hj, if_true]; rfl

theorem climb_run_of_sign {x : Nat × α} {limit : Nat} {j : Join} (h : join s.rest = some j)
    (hl : ¬ j.left < least) :
    climb join operand close least (limit + 1) x s =
      (do
        let m ← precede x.1
        j.mark
        operand j.right
        let y ← close m
        climb join operand close least limit y) s := by
  simp only [climb, ahead, h, hl, if_false]

/-- Each time around takes a token, so that the limit is not met. -/
theorem climb_gives (hj : ∀ ts, Alike d (join ts) (join' ts))
    (ho : ∀ n, Records d (operand n) (operand' n)) (hc : Closes k P wrap close)
    (hs : ∀ ts j, join' ts = some j → Shorter (andThen j.mark (operand' j.right)) ts)
    (limit : Nat) :
    ∀ {s f lhs x}, s.depth = d → Recorded r f s → f.trees = [lhs] → Told k P r f.trees x s →
      f.rest.length < limit → ∃ y t, climb join operand close least limit x s = some (y, t) ∧
        Recorded r (f.absorbed (Grammar.joined join' wrap operand' least lhs f.rest)) t ∧
        Told k P r (Grammar.joined join' wrap operand' least lhs f.rest).trees y t := by
  induction limit with
  | zero => exact fun _ _ _ _ hl => absurd hl (Nat.not_lt_zero _)
  | succ limit ih =>
    intro s f lhs x hd hr hf hx hl
    have hstay : ∀ {g : Found}, g = ⟨[lhs], f.rest, 0, none⟩ → Recorded r (f.absorbed g) s ∧
        Told k P r g.trees x s := by
      rintro g rfl
      refine ⟨Recorder.recorded_congr hr hf.symm rfl ?_, hf ▸ hx⟩
      show (f.cut <|> none) = f.cut
      cases f.cut <;> rfl
    have ha := hj f.rest
    rw [← hr.rest] at ha
    cases hn : join s.rest with
    | none =>
      rw [hn] at ha
      cases hn' : join' s.rest with
      | some j' => simp [hn', Alike] at ha
      | none =>
        rw [hr.rest] at hn'
        exact ⟨x, s, climb_run_of_stop (by simp [hn]), hstay (Grammar.joined_of_none hn')⟩
    | some j =>
      rw [hn] at ha
      cases hn' : join' s.rest with
      | none => simp [hn', Alike] at ha
      | some j' =>
        rw [hn'] at ha
        obtain ⟨hm, hleft, hright⟩ := ha
        rw [hr.rest] at hn'
        by_cases hw : j.left < least
        · exact ⟨x, s, climb_run_of_stop (by simp [hn, hw]),
            hstay (Grammar.joined_of_weak hn' (hleft ▸ hw))⟩
        · rw [Grammar.joined_eq hs hn' (by omega)]
          obtain ⟨ks, t, hlhs, hp, htd, htr, htc, hopen⟩ := precede_run hr hx
          obtain rfl : lhs = .node k ks := by simpa using hf.symm.trans hlhs
          obtain ⟨_, u, hu, hru, -⟩ := hm t (htd.trans hd)
          obtain ⟨_, v, hv, hrv, -⟩ := ho j.right u (hru.depth.trans (htd.trans hd))
          rw [htr] at hru
          rw [hru.rest, hright] at hrv
          set g := andThen j'.mark (operand' j'.right) f.rest with hg
          obtain ⟨y, w, hw', hrw, hy⟩ := hc hopen (Recorder.recorded_append hru hrv)
            (g := f.absorbed { g with trees := [wrap (.node k ks :: g.trees)] }) rfl rfl (by
              rw [htc]
              cases r.refused <;> rfl)
          have hshort : g.rest.length < f.rest.length := hs f.rest j' hn'
          have hwd : w.depth = d := by rw [hrw.depth, ← hr.depth, hd]
          obtain ⟨z, o, ho', hro, hz⟩ :=
            ih hwd hrw rfl hy (Nat.lt_of_lt_of_le hshort (by omega))
          refine ⟨z, o, ?_, Recorder.recorded_congr hro rfl rfl ?_, hz⟩
          · rw [climb_run_of_sign hn hw]
            exact (run_bind hp).trans ((run_bind hu).trans ((run_bind hv).trans
              ((run_bind hw').trans ho')))
          · simp only [Found.absorbed]
            cases f.cut <;> rfl

theorem chain_run_of_none (h : first r = some (none, s)) :
    chain first join operand close least r = some (none, s) := run_bind h

theorem chain_run_of_some {x y : Nat × α} {t : Recorder} (h : first r = some (some x, s))
    (hc : climb join operand close least (s.rest.length + 1) x s = some (y, t)) :
    chain first join operand close least r = some (some y, t) :=
  (run_bind h).trans (run_bind hc)

theorem chain_makes (hf : Tries d k P first q) (hj : ∀ ts, Alike d (join ts) (join' ts))
    (ho : ∀ n, Records d (operand n) (operand' n)) (hc : Closes k P wrap close)
    (hs : ∀ ts j, join' ts = some j → Shorter (andThen j.mark (operand' j.right)) ts) :
    Makes d k P (chain first join operand close least)
      (Grammar.chain q join' wrap operand' least) := by
  intro r hd
  obtain ⟨x, s, ha, hr, hx⟩ := hf r hd
  cases x with
  | none =>
    have hq : Grammar.chain q join' wrap operand' least r.rest = q r.rest := by
      simp only [Grammar.chain, hx]
    rw [hq]
    exact ⟨none, s, chain_run_of_none ha, hr, Or.inl hx⟩
  | some x =>
    obtain ⟨ks, hks, -⟩ := id hx
    have hq : Grammar.chain q join' wrap operand' least r.rest = (q r.rest).absorbed
        (Grammar.joined join' wrap operand' least (.node k ks) (q r.rest).rest) := by
      simp only [Grammar.chain, hks, Grammar.joined]
    obtain ⟨y, t, hy, hrt, ht⟩ := climb_gives hj ho hc hs (s.rest.length + 1)
      (hr.depth.trans hd) hr hks hx (by rw [hr.rest]; exact Nat.lt_succ_self _)
    rw [hq]
    exact ⟨some y, t, chain_run_of_some ha hy, hrt, ht⟩

end Climb

end LogQuery.Recording
