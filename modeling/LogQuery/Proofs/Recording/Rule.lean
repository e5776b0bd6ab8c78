import LogQuery.Proofs.Grammar.Loop
import LogQuery.Proofs.Recording.Recorded

/-! Steps, sequences and loops record what the rules of the grammar find. -/
namespace LogQuery.Recording

open Recorder (Recorded Encloses)
open Grammar (Rule Look Found Shorter andThen seq)
open LogQuery.Tree (Ahead enclosingKinds)

variable {α β : Type} {d : Nat} {k : Kind} {r s : Recorder} {f g : Found} {p o : Look}
  {a b : Recording Unit} {q q' : Rule} {qs : List Rule}

theorem run_bind {a : Recording α} {b : α → Recording β} {x : α} (h : a r = some (x, s)) :
    (a >>= b) r = b x s := by
  change (a r).bind (fun z => b z.1 z.2) = _
  rw [h]
  rfl

theorem run_start (r : Recorder) : start r = some (r.markers.length, r.start) := rfl

/-- A run from a recorder has a result, for which it records a finding. -/
def Gives (a : Recording α) (r : Recorder) (f : Found) (P : α → Recorder → Prop) : Prop :=
  ∃ x s, a r = some (x, s) ∧ Recorded r f s ∧ P x s

theorem gives_pure {x : α} {P : α → Recorder → Prop} (h : P x r) :
    Gives (pure x) r (Grammar.nothing r.rest) P := ⟨x, r, rfl, Recorder.recorded_nil r, h⟩

theorem gives_bind {a : Recording α} {b : α → Recording β} {P : α → Recorder → Prop}
    {Q : β → Recorder → Prop} (ha : Gives a r f P)
    (hb : ∀ x s, Recorded r f s → P x s → Gives (b x) s g Q) :
    Gives (a >>= b) r (f.followed g) Q := by
  obtain ⟨x, s, hx, hr, hp⟩ := ha
  obtain ⟨y, t, hy, hs, hq⟩ := hb x s hr hp
  exact ⟨y, t, (run_bind hx).trans hy, Recorder.recorded_append hr hs, hq⟩

/-- A result that is worked out from another records nothing more. -/
theorem gives_map {a : Recording α} {h : α → β} {P : α → Recorder → Prop}
    {Q : β → Recorder → Prop} (ha : Gives a r f P)
    (hq : ∀ x s, Recorded r f s → P x s → Q (h x) s) :
    Gives (do let x ← a; return h x) r f Q := by
  obtain ⟨x, s, hx, hr, hp⟩ := ha
  exact ⟨h x, s, run_bind hx, hr, hq x s hr hp⟩

/-- At a depth of nesting, a run records whatever a rule finds. -/
def Records (d : Nat) (a : Recording Unit) (q : Rule) : Prop :=
  ∀ r, r.depth = d → Gives a r (q r.rest) fun _ _ => True

theorem nothing_records : Records d (pure ()) Grammar.nothing := fun _ _ => gives_pure trivial

/-- What `Records` says, where a rule is entered at tokens of which something is asserted. -/
def RecordsAt (p : Look) (d : Nat) (a : Recording Unit) (q : Rule) : Prop :=
  ∀ r, r.depth = d → p r.rest = true → Gives a r (q r.rest) fun _ _ => True

theorem records_at (h : Records d a q) : RecordsAt p d a q := fun r hd _ => h r hd

theorem andThen_recordsAt (ha : RecordsAt p d a q) (hb : RecordsAt o d b q')
    (hp : ∀ ts, p ts = true → o (q ts).rest = true) :
    RecordsAt p d (do a; b) (andThen q q') := by
  intro r hd hr
  refine gives_bind (ha r hd hr) fun _ s hs _ => ?_
  have h := hb s (hs.depth.trans hd)
  rw [hs.rest] at h
  exact h (hp _ hr)

theorem andThen_records (ha : Records d a q) (hb : Records d b q') :
    Records d (do a; b) (andThen q q') := by
  intro r hd
  have h := andThen_recordsAt (p := fun _ => true) (o := fun _ => true) (records_at ha)
    (records_at hb) fun _ _ => rfl
  exact h r hd rfl

theorem seq_recordsAt (ha : RecordsAt p d a q) (hb : RecordsAt o d b (seq qs))
    (hp : ∀ ts, p ts = true → o (q ts).rest = true) :
    RecordsAt p d (do a; b) (seq (q :: qs)) := andThen_recordsAt ha hb hp

theorem seq_records (ha : Records d a q) (hb : Records d b (seq qs)) :
    Records d (do a; b) (seq (q :: qs)) := andThen_records ha hb

theorem last_records (ha : Records d a q) : Records d a (seq [q]) := by
  intro r hd
  obtain ⟨x, s, hx, hr, hp⟩ := ha r hd
  refine ⟨x, s, hx, Recorder.recorded_congr hr (List.append_nil _) rfl ?_, hp⟩
  show ((q r.rest).cut <|> none) = _
  cases (q r.rest).cut <;> rfl

theorem ahead_records {f : List Token → Recording Unit}
    (h : ∀ r, r.depth = d → Gives (f r.rest) r (q r.rest) fun _ _ => True) :
    Records d (ahead f) q := h

theorem gives_either {a b : Recording α} {P : α → Recorder → Prop}
    (ha : p r.rest = true → Gives a r f P) (hb : p r.rest = false → Gives b r f P) :
    Gives (either p a b) r f P := by
  have hab : either p a b r = if p r.rest then a r else b r := by
    simp only [either, ahead]
    split <;> rfl
  rw [Gives, hab]
  split
  · next h => exact ha h
  · next h => exact hb (by simpa using h)

theorem either_recordsAt (ha : RecordsAt p d a q) (hb : Records d b q') :
    Records d (either p a b) (Grammar.either p q q') := by
  intro r hd
  refine gives_either (fun h => ?_) fun h => ?_
  · rw [Grammar.either, if_pos h]
    exact ha r hd h
  · rw [Grammar.either, if_neg (by simp [h])]
    exact hb r hd

theorem either_records (ha : Records d a q) (hb : Records d b q') :
    Records d (either p a b) (Grammar.either p q q') := either_recordsAt (records_at ha) hb

theorem when_records (ha : Records d a q) : Records d (when p a) (Grammar.when p q) :=
  either_records ha nothing_records

/-- Where an assertion holds, it changes nothing. -/
theorem assert_recordsAt (h : Records d a q) : RecordsAt p d (do assert p; a) q := by
  intro r hd hr
  have hp : assert p r = some ((), r) := by
    rw [assert, either, ahead, if_pos hr]
    rfl
  rw [Gives, run_bind hp]
  exact h r hd

theorem bumpAs_records : Records d (bumpAs k) (Grammar.bumpAs k) := by
  intro r _
  refine ⟨(), _, rfl, ?_, trivial⟩
  cases h : r.rest with
  | nil =>
    rw [Recorder.bumpAs_end h, ← h]
    have hn : (Grammar.bumpAs k r.rest) = Grammar.nothing r.rest := by
      rw [h]
      rfl
    rw [hn]
    exact Recorder.recorded_nil r
  | cons t ts =>
    rw [← h]
    exact Recorder.recorded_bumpAs h k

theorem bumpWord_records {w : Keyword} : Records d (bumpWord w) (Grammar.bumpWord w) :=
  bumpAs_records

theorem bump_records : Records d bump Grammar.bump := by
  intro r hd
  have hk := bumpAs_records (k := r.kindAt 0) r hd
  have hb : Grammar.bumpAs (r.kindAt 0) r.rest = Grammar.bump r.rest := by
    rw [Recorder.kindAt]
    cases r.rest <;> rfl
  rw [hb] at hk
  exact hk

/-- Loops end before their limit, since each time around takes a token. -/
theorem many_records (ha : Records d a q) (hs : ∀ ts, p ts = true → Shorter q ts) :
    Records d (many p a) (Grammar.many p q) := by
  have hgo : ∀ limit r, r.depth = d → r.rest.length < limit →
      Gives (many.go p a limit) r (Grammar.many p q r.rest) fun _ _ => True := by
    intro limit
    induction limit with
    | zero => exact fun r _ hl => absurd hl (Nat.not_lt_zero _)
    | succ limit ih =>
      intro r hd hl
      rw [Grammar.many_eq hs, many.go]
      refine gives_either (fun hp => ?_) fun hp => ?_
      · rw [Grammar.when, if_pos hp]
        have hshort : (q r.rest).rest.length < r.rest.length := hs _ hp
        refine gives_bind (ha r hd) fun _ s hr _ => ?_
        have h := ih s (hr.depth.trans hd) (by rw [hr.rest]; omega)
        rw [hr.rest] at h
        exact h
      · rw [Grammar.when, if_neg (by simp [hp])]
        exact gives_pure trivial
  exact fun r hd => hgo _ r hd (Nat.lt_succ_self _)

/-- A marker is completed around what was recorded behind it. -/
theorem complete_gives {t : Recorder} {tree : Tree} {m : Nat} {es : List Event} {ps : List Nat}
    (ho : Recorder.Opened r m es ps s) (h : Recorded s f t) (he : Encloses r es ps k tree f.trees)
    (hg : g.trees = [tree]) (hr : g.rest = f.rest)
    (hc : (s.refused <|> f.cut) = (r.refused <|> g.cut)) :
    ∃ c u, complete m k t = some (c, u) ∧ Recorded r g u ∧ u.completed[c]? = some es.length := by
  obtain ⟨hm, hp, hu, hcu⟩ := Recorder.recorded_complete ho h he hg hr hc
  exact ⟨_, _, by simp only [complete, hm, hp, if_true], hu, hcu⟩

theorem closed_gives (h : Gives a r.start f fun _ _ => True) (hk : Ahead k f.trees) :
    Gives (closed k a) r { f with trees := [.node k f.trees] }
      fun c s => s.completed[c]? = some r.events.length := by
  obtain ⟨_, s, ha, hs, -⟩ := h
  obtain ⟨c, u, hc, hu, hcu⟩ := complete_gives (g := { f with trees := [.node k f.trees] })
    (Recorder.opened_start r) hs (Recorder.encloses_all hk r) rfl rfl rfl
  exact ⟨c, u, (run_bind (run_start r)).trans ((run_bind ha).trans hc), hu, hcu⟩

/-- The kind of a node may be worked out from what is recorded in it. -/
theorem nodeBy_gives {a : Recording Kind} (h : Gives a r.start f fun x _ => x = k)
    (hk : Ahead k f.trees) :
    Gives (nodeBy a) r { f with trees := [.node k f.trees] } fun x _ => x = k := by
  obtain ⟨_, s, ha, hs, rfl⟩ := h
  obtain ⟨c, u, hc, hu, -⟩ := complete_gives (g := { f with trees := [.node _ f.trees] })
    (Recorder.opened_start r) hs (Recorder.encloses_all hk r) rfl rfl rfl
  exact ⟨_, u, (run_bind (run_start r)).trans ((run_bind ha).trans (run_bind hc)), hu, rfl⟩

theorem node_gives (h : Gives a r.start f fun _ _ => True) (hk : Ahead k f.trees) :
    Gives (node k a) r { f with trees := [.node k f.trees] } fun _ _ => True :=
  gives_map (closed_gives h hk) fun _ _ _ _ => trivial

theorem node_records_of_ahead (ha : Records d a q) (hk : ∀ ts, Ahead k (q ts).trees) :
    Records d (node k a) (Grammar.node k q) := fun r hd =>
  node_gives (ha r.start hd) (hk r.rest)

theorem node_records (ha : Records d a q) (hk : k ∉ enclosingKinds) :
    Records d (node k a) (Grammar.node k q) :=
  node_records_of_ahead ha fun _ => LogQuery.Tree.ahead_of_kind hk _

theorem node_recordsAt (ha : RecordsAt p d a q) (hk : k ∉ enclosingKinds) :
    RecordsAt p d (node k a) (Grammar.node k q) := fun r hd hr =>
  node_gives (ha r.start hd hr) (LogQuery.Tree.ahead_of_kind hk _)

theorem missing_records : Records d missing Grammar.missing :=
  node_records nothing_records (by decide)

theorem optional_records : Records d (optional k) (Grammar.optional k) := when_records bump_records

theorem expect_records : Records d (expect k) (Grammar.expect k) :=
  either_records bump_records missing_records

/-- The tokens before the first that is not skipped, taken one by one. -/
theorem skipped_eq (stops : List Kind) (ts : List Token) :
    Grammar.many (atSkipped stops) Grammar.bump ts =
      ⟨(ts.takeWhile fun t => !stops.contains t.kind).map Tree.ofToken,
        ts.dropWhile fun t => !stops.contains t.kind, 0, none⟩ := by
  have hs : ∀ ts, atSkipped stops ts = true → Shorter Grammar.bump ts := fun ts h =>
    Grammar.shorter_bump (by rintro rfl; cases h)
  induction ts with
  | nil => rfl
  | cons t ts ih =>
    rw [Grammar.many_eq hs, Grammar.when, List.takeWhile_cons, List.dropWhile_cons]
    change (if !stops.contains t.kind then _ else _) = _
    split
    · simp only [andThen, Grammar.bump, ih, Grammar.Found.followed]
      rfl
    · rfl

theorem skipUntil_eq (stops : List Kind) :
    Grammar.skipUntil stops =
      Grammar.when (atSkipped stops)
        (Grammar.node .error (Grammar.many (atSkipped stops) Grammar.bump)) := by
  funext ts
  cases ts with
  | nil => rfl
  | cons t ts =>
    have hd : ∀ us : List Token, us.drop (us.takeWhile fun t => !stops.contains t.kind).length =
        us.dropWhile fun t => !stops.contains t.kind := by
      intro us
      induction us with
      | nil => rfl
      | cons u us ih =>
        rw [List.takeWhile_cons, List.dropWhile_cons]
        split
        · exact ih
        · rfl
    rw [Grammar.skipUntil, Grammar.when, hd]
    change _ = if !stops.contains t.kind then _ else _
    rw [Grammar.node, Grammar.nodeBy, skipped_eq, List.takeWhile_cons]
    split <;> simp_all [Grammar.nothing]

theorem skipUntil_records (stops : List Kind) :
    Records d (skipUntil stops) (Grammar.skipUntil stops) := by
  rw [skipUntil_eq]
  refine when_records (node_records (many_records bump_records fun ts h => ?_) (by decide))
  exact Grammar.shorter_bump (by rintro rfl; cases h)

end LogQuery.Recording
