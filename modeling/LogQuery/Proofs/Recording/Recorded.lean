import LogQuery.Proofs.Event.WellFormed
import LogQuery.Recording

/-! What a run does to its recorder: it appends the events of what a rule finds, completes the nodes
found, takes the tokens below them, and leaves the depth and the markers of others as they were. -/
namespace LogQuery

namespace Tree

/-- How many events of a tree stand before its own start. -/
def lead : Tree → Nat
  | node k (first :: _) => if followsFirst k first then first.eventCount else 0
  | _ => 0

/-- Children that are enclosed from the front, their node being recognised before them. -/
def Ahead (k : Kind) (cs : List Tree) : Prop := ∀ c ∈ cs.head?, followsFirst k c = false

/-- The kinds of nodes that may be recognised behind their first child. -/
def enclosingKinds : List Kind := [.binOpExpr, .metricExpr, .expr, .labelFilter]

theorem ahead_of_kind {k : Kind} (h : k ∉ enclosingKinds) (cs : List Tree) : Ahead k cs := by
  intro c _
  cases k <;> first | rfl | exact absurd (by decide) h

theorem lead_of_ahead {k : Kind} {cs : List Tree} (h : Ahead k cs) : (node k cs).lead = 0 := by
  cases cs with
  | nil => rfl
  | cons c cs => rw [lead, h c rfl, if_neg Bool.false_ne_true]

/-- The own start of a node stands where its lead ends. -/
theorem eventsAt_start (place : Nat) (parent : Option Nat) (k : Kind) (cs : List Tree) :
    ((node k cs).eventsAt place parent)[(node k cs).lead]? = some (.start k parent) := by
  cases cs with
  | nil => rfl
  | cons first more =>
    rw [eventsAt, lead]
    split
    · rw [List.append_assoc, List.getElem?_append_right (by rw [eventsAt_length]), eventsAt_length,
        Nat.sub_self]
      rfl
    · rfl

/-- A parent found later changes the own start of a node and nothing else. -/
theorem eventsAt_set (place : Nat) (p : Nat) (k : Kind) (cs : List Tree) :
    ((node k cs).eventsAt place none).set (node k cs).lead (.start k (some p)) =
      (node k cs).eventsAt place (some p) := by
  cases cs with
  | nil => rfl
  | cons first more =>
    rw [eventsAt, eventsAt, lead]
    split
    · rw [List.append_assoc, List.append_assoc,
        List.set_append_right _ _ (by rw [eventsAt_length]), eventsAt_length, Nat.sub_self]
      rfl
    · rfl

theorem eventsAtAll_append (place : Nat) (ts us : List Tree) :
    eventsAtAll place (ts ++ us) =
      eventsAtAll place ts ++ eventsAtAll (place + (eventsAtAll place ts).length) us := by
  induction ts generalizing place with
  | nil => rfl
  | cons t ts ih =>
    rw [List.cons_append, eventsAtAll, ih, eventsAtAll, List.append_assoc, List.length_append,
      eventsAt_length, Nat.add_assoc]

theorem eventsAtAll_one (place : Nat) (t : Tree) : eventsAtAll place [t] = t.eventsAt place none :=
  List.append_nil _

mutual

/-- The places of the starts of the nodes of a tree whose first event stands at `place`, in the order
in which the nodes are completed. -/
def completedAt (place : Nat) : Tree → List Nat
  | leaf _ _ => []
  | node _ [] => [place]
  | node k (first :: more) =>
    if followsFirst k first then
      let own := place + first.eventCount
      first.completedAt place ++ completedAtAll (own + 1) more ++ [own]
    else
      first.completedAt (place + 1) ++ completedAtAll (place + 1 + first.eventCount) more ++ [place]

def completedAtAll (place : Nat) : List Tree → List Nat
  | [] => []
  | t :: ts => t.completedAt place ++ completedAtAll (place + t.eventCount) ts

end

theorem completedAtAll_append (place : Nat) (ts us : List Tree) :
    completedAtAll place (ts ++ us) =
      completedAtAll place ts ++ completedAtAll (place + (eventsAtAll place ts).length) us := by
  induction ts generalizing place with
  | nil => rfl
  | cons t ts ih =>
    rw [List.cons_append, completedAtAll, ih, completedAtAll, eventsAtAll, List.append_assoc,
      List.length_append, eventsAt_length, Nat.add_assoc]

theorem completedAtAll_one (place : Nat) (t : Tree) :
    completedAtAll place [t] = t.completedAt place := List.append_nil _

/-- The children of a node that starts before them are completed before it. -/
theorem completedAt_node {k : Kind} {cs : List Tree} (h : Ahead k cs) (place : Nat) :
    (node k cs).completedAt place = completedAtAll (place + 1) cs ++ [place] := by
  cases cs with
  | nil => rfl
  | cons c cs =>
    rw [completedAt, if_neg (by rw [h c rfl]; exact Bool.false_ne_true), completedAtAll]

end Tree

namespace Recorder

open Grammar (Found maxLevels)

variable {r s : Recorder} {f g : Found} {us : List Token}

/-- Between two recorders a finding of the grammar is recorded: its trees, the tokens it leaves, and
those it leaves where a level was first refused. -/
structure Recorded (r : Recorder) (f : Found) (s : Recorder) : Prop where
  tokens : s.tokens = r.tokens
  rest : s.rest = f.rest
  position : r.position ≤ r.tokens.length → s.position ≤ s.tokens.length
  events : s.events = r.events ++ Tree.eventsAtAll r.events.length f.trees
  completed : s.completed = r.completed ++ Tree.completedAtAll r.events.length f.trees
  refused : s.refused = (r.refused <|> f.cut)
  depth : s.depth = r.depth
  deepest : r.deepest ≤ maxLevels → s.deepest ≤ maxLevels
  markers : ∃ n, s.markers = r.markers ++ List.replicate n none

theorem recorded_nil (r : Recorder) : Recorded r (Grammar.nothing r.rest) r where
  tokens := rfl
  rest := rfl
  position := id
  events := (List.append_nil _).symm
  completed := (List.append_nil _).symm
  refused := by cases r.refused <;> rfl
  depth := rfl
  deepest := id
  markers := ⟨0, (List.append_nil _).symm⟩

theorem recorded_append {t : Recorder} (h : Recorded r f s) (h' : Recorded s g t) :
    Recorded r (f.followed g) t where
  tokens := h'.tokens.trans h.tokens
  rest := h'.rest
  position := fun hp => h'.position (h.position hp)
  events := by
    rw [h'.events, h.events, Found.followed, Tree.eventsAtAll_append, List.append_assoc,
      List.length_append]
  completed := by
    rw [h'.completed, h.completed, h.events, Found.followed, Tree.completedAtAll_append,
      List.append_assoc, List.length_append]
  refused := by
    rw [h'.refused, h.refused, Found.followed]
    cases r.refused <;> rfl
  depth := h'.depth.trans h.depth
  deepest := fun hd => h'.deepest (h.deepest hd)
  markers := by
    obtain ⟨n, hn⟩ := h.markers
    obtain ⟨m, hm⟩ := h'.markers
    exact ⟨n + m, by rw [hm, hn, List.append_assoc, ← List.replicate_add]⟩

/-- How deep a finding went says nothing about what is recorded. -/
theorem recorded_congr (h : Recorded r f s) (ht : g.trees = f.trees) (hr : g.rest = f.rest)
    (hc : g.cut = f.cut) : Recorded r g s where
  tokens := h.tokens
  rest := h.rest.trans hr.symm
  position := h.position
  events := by rw [h.events, ht]
  completed := by rw [h.completed, ht]
  refused := by rw [h.refused, hc]
  depth := h.depth
  deepest := h.deepest
  markers := h.markers

theorem recorded_bumpAs {t : Token} (h : r.rest = t :: us) (k : Kind) :
    Recorded r (Grammar.bumpAs k r.rest) (r.bumpAs k) := by
  have hl : r.position < r.tokens.length := by
    have := congrArg List.length h
    rw [rest, List.length_drop, List.length_cons] at this
    omega
  have he : r.bumpAs k =
      { r with events := r.events ++ [.token k], position := r.position + 1 } := by
    rw [bumpAs, if_neg (by simpa [atEnd] using hl)]
  rw [he, h]
  exact {
    tokens := rfl
    rest := by
      rw [rest, List.drop_eq_getElem_cons hl] at h
      exact (List.cons.inj h).2
    position := fun _ => hl
    events := rfl
    completed := (List.append_nil _).symm
    refused := by cases r.refused <;> rfl
    depth := rfl
    deepest := id
    markers := ⟨0, (List.append_nil _).symm⟩ }

/-- Nothing is left to be recorded. -/
theorem bumpAs_end (h : r.rest = []) (k : Kind) : r.bumpAs k = r := by
  have hl : r.tokens.length ≤ r.position := by
    simpa [rest] using h
  rw [bumpAs, if_pos (by simpa [atEnd] using hl)]

/-- Some events are recorded and some nodes completed, and behind them stands the placeholder of the
last marker. -/
structure Opened (r : Recorder) (m : Nat) (es : List Event) (ps : List Nat) (s : Recorder) :
    Prop where
  tokens : s.tokens = r.tokens
  position : r.position ≤ r.tokens.length → s.position ≤ s.tokens.length
  events : s.events = es ++ [.placeholder]
  completed : s.completed = ps
  depth : s.depth = r.depth
  deepest : r.deepest ≤ maxLevels → s.deepest ≤ maxLevels
  number : r.markers.length ≤ m
  markers : s.markers = r.markers ++ List.replicate (m - r.markers.length) none ++ [some es.length]

theorem opened_start (r : Recorder) :
    Opened r r.markers.length r.events r.completed r.start where
  tokens := rfl
  position := id
  events := rfl
  completed := rfl
  depth := rfl
  deepest := id
  number := Nat.le_refl _
  markers := by simp [start]

/-- A marker in front of a node that is recorded: the node's start names it as its parent. -/
theorem opened_precede {k : Kind} {ks : List Tree} {place : Nat} (h : Recorded r f s)
    (hf : f.trees = [.node k ks]) (hp : place = r.events.length + (Tree.node k ks).lead) :
    Opened r s.markers.length (r.events ++ (Tree.node k ks).eventsAt r.events.length
      (some (r.events.length + (Tree.node k ks).eventCount)))
      (r.completed ++ (Tree.node k ks).completedAt r.events.length) (s.precede place) := by
  have he := h.events
  rw [hf, Tree.eventsAtAll_one] at he
  have hs : s.events[place]? = some (.start k none) := by
    rw [he, hp, List.getElem?_append_right (Nat.le_add_right _ _), Nat.add_sub_cancel_left]
    exact Tree.eventsAt_start _ _ k ks
  have hlen : s.events.length = r.events.length + (Tree.node k ks).eventCount := by
    rw [he, List.length_append, Tree.eventsAt_length]
  obtain ⟨n, hn⟩ := h.markers
  exact {
    tokens := h.tokens
    position := h.position
    events := by
      have hset := Tree.eventsAt_set r.events.length s.events.length k ks
      simp only [precede, hs]
      rw [List.append_left_inj, ← hlen, ← hset, he, hp, List.set_append_right _ _
        (Nat.le_add_right _ _), Nat.add_sub_cancel_left, ← he]
    completed := by
      have hc := h.completed
      rw [hf, Tree.completedAtAll_one] at hc
      exact hc
    depth := h.depth
    deepest := h.deepest
    number := by simp [hn]
    markers := by
      rw [List.length_append, Tree.eventsAt_length, ← hlen]
      simp [precede, hn] }

/-- Where some events are recorded and some nodes completed, a node is to be recorded whose start
comes next: its last children stand behind it, what comes before them is recorded. -/
structure Encloses (r : Recorder) (es : List Event) (ps : List Nat) (k : Kind) (tree : Tree)
    (cs : List Tree) : Prop where
  events : r.events ++ Tree.eventsAt r.events.length none tree =
    es ++ .start k none :: Tree.eventsAtAll (es.length + 1) cs ++ [.finish]
  completed : r.completed ++ tree.completedAt r.events.length =
    ps ++ Tree.completedAtAll (es.length + 1) cs ++ [es.length]

/-- A node behind its first child, and one around all its children. -/
theorem encloses_first {k : Kind} {first : Tree} (h : Tree.followsFirst k first = true)
    (r : Recorder) (cs : List Tree) :
    Encloses r (r.events ++ first.eventsAt r.events.length
        (some (r.events.length + first.eventCount)))
      (r.completed ++ first.completedAt r.events.length) k (.node k (first :: cs)) cs where
  events := by
    rw [Tree.eventsAt, if_pos h, List.length_append, Tree.eventsAt_length]
    simp only [List.append_assoc]
  completed := by
    rw [Tree.completedAt, if_pos h, List.length_append, Tree.eventsAt_length]
    simp only [List.append_assoc]

theorem encloses_all {k : Kind} {cs : List Tree} (h : Tree.Ahead k cs) (r : Recorder) :
    Encloses r r.events r.completed k (.node k cs) cs where
  events := by rw [Tree.eventsAt_node h, List.append_assoc]
  completed := by rw [Tree.completedAt_node h, List.append_assoc]

/-- A node around what is recorded behind its placeholder. -/
theorem recorded_complete {t : Recorder} {tree : Tree} {m : Nat} {k : Kind} {es : List Event}
    {ps : List Nat} (ho : Opened r m es ps s) (h : Recorded s f t)
    (he : Encloses r es ps k tree f.trees) (hg : g.trees = [tree]) (hr : g.rest = f.rest)
    (hc : (s.refused <|> f.cut) = (r.refused <|> g.cut)) :
    t.marker? m = some es.length ∧ t.events[es.length]? = some .placeholder ∧
      Recorded r g (t.complete m es.length k) ∧
      (t.complete m es.length k).completed[t.completed.length]? = some es.length := by
  obtain ⟨n, hn⟩ := h.markers
  have hm : t.markers = r.markers ++ List.replicate (m - r.markers.length) none ++
      some es.length :: List.replicate n none := by
    rw [hn, ho.markers, List.append_assoc _ [_], List.singleton_append]
  have hml :
      (r.markers ++ List.replicate (m - r.markers.length) (none : Option Nat)).length = m := by
    have := ho.number
    simp only [List.length_append, List.length_replicate]
    omega
  have hte : t.events = es ++ .placeholder :: Tree.eventsAtAll (es.length + 1) f.trees := by
    rw [h.events, ho.events, List.append_assoc, List.singleton_append, List.length_append]
    rfl
  refine ⟨?_, ?_, ?_, ?_⟩
  · rw [marker?, hm, List.getElem?_append_right (Nat.le_of_eq hml), hml, Nat.sub_self]
    rfl
  · rw [hte, List.getElem?_append_right (Nat.le_refl _), Nat.sub_self]
    rfl
  · exact {
      tokens := h.tokens.trans ho.tokens
      rest := h.rest.trans hr.symm
      position := fun hp => h.position (ho.position hp)
      events := by
        rw [hg, Tree.eventsAtAll_one, he.events]
        simp only [complete, useUp, hte]
        rw [List.set_append_right _ _ (Nat.le_refl _), Nat.sub_self]
        rfl
      completed := by
        rw [hg, Tree.completedAtAll_one, he.completed]
        simp only [complete, useUp]
        rw [h.completed, ho.completed, ho.events, List.length_append]
        rfl
      refused := h.refused.trans hc
      depth := h.depth.trans ho.depth
      deepest := fun hd => h.deepest (ho.deepest hd)
      markers := by
        refine ⟨m - r.markers.length + 1 + n, ?_⟩
        simp only [complete, useUp, hm]
        rw [List.set_append_right _ _ (Nat.le_of_eq hml), hml, Nat.sub_self, List.set_cons_zero,
          List.append_assoc, List.replicate_add, List.replicate_succ']
        simp }
  · simp [complete, useUp]

end Recorder

end LogQuery
