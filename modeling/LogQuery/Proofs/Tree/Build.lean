import LogQuery.Proofs.Event.WellFormed
import LogQuery.Tree.Build

/-! Building a tree from its events gives the tree back, with the blanks and comments of the query
filled in. -/
namespace LogQuery.Tree

open Building

variable {events es fs : List Event} {place fuel : Nat} {parent : Option Nat} {k K : Kind}
  {outer : List (Nat × Kind)} {more : List (Kind × List Tree)} {ds closed : List Tree}
  {opened opened' used : List Nat} {ts us : List Token} {b : Building}

theorem buildFrom_append (events es fs : List Event) (place : Nat) (b : Building) :
    buildFrom? events place (es ++ fs) b =
      (buildFrom? events place es b).bind (buildFrom? events (place + es.length) fs) := by
  induction es generalizing place b with
  | nil => rfl
  | cons e es ih =>
    simp only [List.cons_append, buildFrom?, Option.bind_assoc, List.length_cons]
    congr 1
    funext c
    rw [ih, Nat.add_right_comm, Nat.add_assoc]

/-- The starts that enclose one another from a parent on stand in this order. -/
inductive Encloses (events : List Event) : Option Nat → List (Nat × Kind) → Prop where
  | none : Encloses events none []
  | start {p : Nat} {k : Kind} {parent : Option Nat} {outer : List (Nat × Kind)} :
      events[p]? = some (.start k parent) → (∀ o ∈ outer, p < o.1) →
      Encloses events parent outer → Encloses events (some p) ((p, k) :: outer)

theorem encloses_length (h : Encloses events parent outer) :
    ∀ p, parent = some p → outer.length + p ≤ events.length := by
  induction h with
  | none => simp
  | @start p k parent outer hp ho h ih =>
    intro q hq
    obtain rfl := Option.some.inj hq
    have hl := (List.getElem?_eq_some_iff.mp hp).1
    rw [List.length_cons]
    cases h with
    | none =>
      rw [List.length_nil]
      omega
    | @start r l _ _ hr _ _ =>
      have hi := ih r rfl
      have hlt : p < r := ho (r, l) List.mem_cons_self
      omega

theorem enclosing_eq (h : Encloses events parent outer) {after : Nat}
    (ho : ∀ o ∈ outer, after < o.1 ∧ o.1 ∉ used) (hl : outer.length ≤ fuel) :
    enclosing? events after used fuel parent = some outer := by
  induction h generalizing used fuel with
  | none => cases fuel <;> rfl
  | @start p k parent outer hp hlt _ ih =>
    obtain ⟨hap, hu⟩ := ho (p, k) List.mem_cons_self
    cases fuel with
    | zero => simp at hl
    | succ fuel =>
      have hc : (decide (p ≤ after) || used.contains p) = false := by
        simpa using ⟨hap, hu⟩
      have hi : enclosing? events after (p :: used) fuel parent = some outer := by
        refine ih (fun o hm => ?_) (Nat.le_of_succ_le_succ hl)
        have h₁ := ho o (List.mem_cons_of_mem _ hm)
        have h₂ := hlt o hm
        refine ⟨h₁.1, fun hin => ?_⟩
        rcases List.mem_cons.mp hin with rfl | hin
        · omega
        · exact h₁.2 hin
      simp [enclosing?, hap, hu, hp, hi]

theorem enclosing_all (h : Encloses events parent outer) {after : Nat}
    (ho : ∀ o ∈ outer, after < o.1 ∧ o.1 ∉ used) :
    enclosing? events after used events.length parent = some outer := by
  refine enclosing_eq h ho ?_
  cases h with
  | none => exact Nat.zero_le _
  | @start p k parent outer hp hlt h =>
    have := encloses_length (.start hp hlt h) p rfl
    omega

theorem addAll_eq (cs : List Tree) (ts : List Token) (K : Kind) (ds : List Tree)
    (more : List (Kind × List Tree)) (closed : List Tree) (opened : List Nat) :
    cs.foldl (fun b t => add t b) ⟨ts, (K, ds) :: more, closed, opened⟩ =
      ⟨ts, (K, cs.reverse ++ ds) :: more, closed, opened⟩ := by
  induction cs generalizing ds with
  | nil => rfl
  | cons c cs ih =>
    rw [List.foldl_cons, show add c ⟨ts, (K, ds) :: more, closed, opened⟩ =
      ⟨ts, (K, c :: ds) :: more, closed, opened⟩ from rfl, ih]
    simp

/-- Trivia goes into the innermost open node. -/
theorem addTrivia_open (ts : List Token) (K : Kind) (ds : List Tree)
    (more : List (Kind × List Tree)) (closed : List Tree) (opened : List Nat) :
    addTrivia ⟨ts, (K, ds) :: more, closed, opened⟩ =
      ⟨ts.dropWhile Token.isTrivia,
        (K, ((ts.takeWhile Token.isTrivia).map ofToken).reverse ++ ds) :: more, closed,
        opened⟩ := by
  have h := addAll_eq ((ts.takeWhile Token.isTrivia).map ofToken) ts K ds more closed opened
  rw [List.foldl_map] at h
  rw [addTrivia, h]

theorem openAll_eq (ks : List Kind) (k : Kind) (b : Building) :
    b.openAll (ks.reverse ++ [k]) = { b with stack := (k, []) :: ks.map (·, []) ++ b.stack } := by
  rw [openAll, List.foldl_append, ← List.foldr_eq_foldl_reverse, List.foldl_cons, List.foldl_nil]
  congr 2
  induction ks with
  | nil => rfl
  | cons l ks ih => rw [List.foldr_cons, ih]; rfl

/-- Places within the events of a tree. -/
def Inside (place stop : Nat) (ps : List Nat) : Prop := ∀ p ∈ ps, place ≤ p ∧ p < stop

/-- Places before or behind the events of a tree. -/
def Apart (place stop : Nat) (ps : List Nat) : Prop := ∀ p ∈ ps, p < place ∨ stop ≤ p

variable {stop i j : Nat} {ps qs : List Nat}

theorem inside_nil (place stop : Nat) : Inside place stop [] := by
  intro p hp
  cases hp

theorem inside_append (hp : Inside place stop ps) (hq : Inside place stop qs) :
    Inside place stop (ps ++ qs) :=
  List.forall_mem_append.mpr ⟨hp, hq⟩

theorem inside_mono (h : Inside i j ps) (hi : place ≤ i) (hj : j ≤ stop) :
    Inside place stop ps := by
  intro p hp
  have := h p hp
  omega

theorem apart_append (hp : Apart place stop ps) (hq : Apart place stop qs) :
    Apart place stop (ps ++ qs) :=
  List.forall_mem_append.mpr ⟨hp, hq⟩

theorem apart_mono (h : Apart i j ps) (hi : i ≤ place) (hj : stop ≤ j) : Apart place stop ps := by
  intro p hp
  have := h p hp
  omega

theorem apart_of_inside (h : Inside i j ps) (hj : j ≤ place) : Apart place stop ps := by
  intro p hp
  have := h p hp
  omega

/-- Where events of a tree may be read: the starts that enclose the tree are behind all of them,
and none of their own starts was opened before. -/
structure Fresh (events : List Event) (place stop : Nat) (parent : Option Nat)
    (outer : List (Nat × Kind)) (opened : List Nat) : Prop where
  encloses : Encloses events parent outer
  outside : ∀ o ∈ outer, stop ≤ o.1 ∧ o.1 ∉ opened
  unopened : Apart place stop opened

theorem fresh_none (h : Apart place stop opened) : Fresh events place stop none [] opened :=
  ⟨.none, by simp, h⟩

/-- The first child of a node that starts behind it is also enclosed by that node. -/
theorem fresh_first (h : Fresh events place stop parent outer opened) {own : Nat}
    (he : events[own]? = some (.start k parent)) (hp : place ≤ own) (ho : own < stop) :
    Fresh events place own (some own) ((own, k) :: outer) opened where
  encloses := by
    refine .start he (fun o hm => ?_) h.encloses
    have := (h.outside o hm).1
    omega
  outside := by
    intro o hm
    rcases List.mem_cons.mp hm with rfl | hm
    · refine ⟨Nat.le_refl _, fun hin => ?_⟩
      have := h.unopened _ hin
      omega
    · have ⟨h₁, h₂⟩ := h.outside o hm
      exact ⟨by omega, h₂⟩
  unopened := apart_mono h.unopened (Nat.le_refl _) ho.le

/-- The open nodes once trivia is read and what encloses a tree is opened. -/
def openBefore (outer : List (Nat × Kind)) (ts : List Token) (K : Kind) (ds : List Tree)
    (more : List (Kind × List Tree)) : List (Kind × List Tree) :=
  outer.map (fun o => (o.2, [])) ++
    (K, ((ts.takeWhile Token.isTrivia).map ofToken).reverse ++ ds) :: more

theorem openBefore_ne_nil (outer : List (Nat × Kind)) (ts : List Token) (K : Kind)
    (ds : List Tree) (more : List (Kind × List Tree)) : openBefore outer ts K ds more ≠ [] := by
  simp [openBefore]

/-- A start that is met before those that enclose it opens all of them. -/
theorem buildStep_start (h : Fresh events place stop parent outer opened) (hl : place < stop)
    (k : Kind) (ts : List Token) (K : Kind) (ds : List Tree) (more : List (Kind × List Tree))
    (closed : List Tree) :
    buildStep? events place (.start k parent) ⟨ts, (K, ds) :: more, closed, opened⟩ =
      some ⟨ts.dropWhile Token.isTrivia, (k, []) :: openBefore outer ts K ds more, closed,
        outer.map Prod.fst ++ opened⟩ := by
  have hn : place ∉ opened := fun hm => by
    have := h.unopened place hm
    omega
  have he : enclosing? events place opened events.length parent = some outer :=
    enclosing_all h.encloses fun o ho => ⟨by have := (h.outside o ho).1; omega, (h.outside o ho).2⟩
  simp [buildStep?, hn, he, addTrivia_open, openAll_eq, openBefore, Function.comp_def]

/-- A start that was opened from the inside is passed over. -/
theorem buildStep_opened (h : place ∈ b.opened) :
    buildStep? events place (.start k parent) b = some b := by
  simp [buildStep?, h]

theorem buildStep_finish (cs : List Tree) (h : more ≠ []) :
    buildStep? events place .finish ⟨ts, (k, cs) :: more, closed, opened⟩ =
      some (add (node k cs.reverse) ⟨ts, more, closed, opened⟩) := by
  have hl : more.length ≠ 0 := fun hl => h (List.length_eq_zero_iff.mp hl)
  simp [buildStep?, hl, close?]

theorem drop_of_front (h : es ++ fs <+: events.drop place) :
    fs <+: events.drop (place + es.length) := by
  obtain ⟨rest, hr⟩ := h
  refine ⟨rest, ?_⟩
  rw [← List.drop_drop, ← hr, List.append_assoc, List.drop_left]

theorem tail_of_front {e : Event} (h : e :: es <+: events.drop place) :
    es <+: events.drop (place + 1) := by
  rw [← List.singleton_append] at h
  exact drop_of_front h

theorem get_of_front {e : Event} (h : e :: es <+: events.drop place) : events[place]? = some e := by
  obtain ⟨rest, hr⟩ := h
  have h0 : (events.drop place)[0]? = some e := by rw [← hr]; rfl
  simpa using h0

/-- The children that follow a first child, whose trivia is already outside of it. -/
theorem fillAll_first (c : Tree) (cs : List Tree) (ts : List Token) :
    fillAll (c :: cs) (ts.dropWhile Token.isTrivia) =
      ((c.fill (ts.dropWhile Token.isTrivia)).1 ::
          (fillAll cs (c.fill (ts.dropWhile Token.isTrivia)).2).1,
        (fillAll cs (c.fill (ts.dropWhile Token.isTrivia)).2).2) := by
  have ht : (ts.dropWhile Token.isTrivia).takeWhile Token.isTrivia = [] := by
    rw [List.takeWhile_eq_nil_iff]
    intro hl
    simpa using List.dropWhile_get_zero_not Token.isTrivia ts hl
  simp [fillAll, ht, List.dropWhile_idempotent]

/-- The tokens below a first child come before those below its siblings. -/
theorem significant_first {c : Tree} {cs : List Tree} {taken after : List Token}
    (hs : Token.significant ts = taken ++ after)
    (hr : List.Forall₂ Token.ReadAs taken (c.leaves ++ leavesAll cs)) :
    ∃ here later, Token.significant ts = here ++ (later ++ after) ∧
      List.Forall₂ Token.ReadAs here c.leaves ∧
      List.Forall₂ Token.ReadAs later (leavesAll cs) ∧
      Token.significant (c.fill (ts.dropWhile Token.isTrivia)).2 = later ++ after := by
  have h₁ := List.forall₂_take_append taken c.leaves (leavesAll cs) hr
  have h₂ := List.forall₂_drop_append taken c.leaves (leavesAll cs) hr
  have hs₁ : Token.significant ts =
      taken.take c.leaves.length ++ (taken.drop c.leaves.length ++ after) := by
    rw [hs, ← List.append_assoc, List.take_append_drop]
  obtain ⟨_, _, _, hs₂⟩ := fill_reads c (List.dropWhile_idempotent Token.isTrivia ts)
    ((significant_dropWhile ts).trans hs₁) h₁
  exact ⟨_, _, hs₁, h₁, h₂, hs₂⟩

/-- Once a tree and what encloses it are opened, none of the starts below it is. -/
theorem fresh_children (h : Fresh events place stop parent outer opened) :
    Apart place stop (outer.map Prod.fst ++ opened) := by
  refine apart_append (fun p hp => ?_) h.unopened
  obtain ⟨o, ho, rfl⟩ := List.mem_map.mp hp
  exact Or.inr (h.outside o ho).1

/-- A node that starts before its children is opened, gets them, and is closed. -/
theorem buildFrom_ahead {cs filled : List Tree}
    (ha : ∀ c ∈ cs.head?, followsFirst k c = false)
    (hf : Fresh events place (place + (node k cs).eventCount) parent outer opened)
    (hb : buildFrom? events (place + 1) (eventsAtAll (place + 1) cs)
        ⟨ts.dropWhile Token.isTrivia, (k, []) :: openBefore outer ts K ds more, closed,
          outer.map Prod.fst ++ opened⟩ =
      some ⟨us, (k, filled.reverse ++ []) :: openBefore outer ts K ds more, closed, opened'⟩) :
    buildFrom? events place ((node k cs).eventsAt place parent)
        ⟨ts, (K, ds) :: more, closed, opened⟩ =
      some (add (node k filled) ⟨us, openBefore outer ts K ds more, closed, opened'⟩) := by
  have hl : place < place + (node k cs).eventCount := by
    rw [eventCount]
    omega
  rw [eventsAt_node ha, List.cons_append, buildFrom?, buildStep_start hf hl, Option.bind_some,
    buildFrom_append, hb, Option.bind_some, buildFrom?,
    buildStep_finish _ (openBefore_ne_nil outer ts K ds more)]
  simp [buildFrom?]

/-- A node that starts behind its first child has a node as first child. -/
theorem followsFirst_leaf (k l : Kind) (x : Text) : followsFirst k (leaf l x) = false := by
  cases k <;> rfl

/-- A node that starts behind its first child is already open there, and gets the other children. -/
theorem buildFrom_behind {first filled : Tree} {rest others : List Tree}
    (hk : followsFirst k first = true) (hmore : more ≠ []) (ho : place + first.eventCount ∈ opened)
    (hf : buildFrom? events place (first.eventsAt place (some (place + first.eventCount))) b =
      some (add filled ⟨ts, (k, []) :: more, closed, opened⟩))
    (hr : buildFrom? events (place + first.eventCount + 1)
        (eventsAtAll (place + first.eventCount + 1) rest)
        ⟨ts, (k, [filled]) :: more, closed, opened⟩ =
      some ⟨us, (k, others.reverse ++ [filled]) :: more, closed, opened'⟩) :
    buildFrom? events place ((node k (first :: rest)).eventsAt place parent) b =
      some (add (node k (filled :: others)) ⟨us, more, closed, opened'⟩) := by
  have ha : add filled ⟨ts, (k, []) :: more, closed, opened⟩ =
      ⟨ts, (k, [filled]) :: more, closed, opened⟩ := rfl
  rw [eventsAt, if_pos hk, List.append_assoc, buildFrom_append, hf, Option.bind_some, ha,
    eventsAt_length, List.cons_append, buildFrom?, buildStep_opened ho, Option.bind_some,
    buildFrom_append, hr, Option.bind_some, buildFrom?, buildStep_finish _ hmore]
  simp [buildFrom?]

mutual

/-- The events of a tree add the tree to the innermost open node, and open what encloses it. The
induction is on the tree; `inner` are the starts below it that were opened from the inside. -/
theorem buildFrom_tree : (t : Tree) → {place : Nat} → {parent : Option Nat} →
    {outer : List (Nat × Kind)} → {ts taken after : List Token} → {opened : List Nat} →
    (K : Kind) → (ds : List Tree) → (more : List (Kind × List Tree)) → (closed : List Tree) →
    (∀ k x, t = leaf k x → outer = []) →
    t.eventsAt place parent <+: events.drop place →
    Fresh events place (place + t.eventCount) parent outer opened →
    Token.significant ts = taken ++ after → List.Forall₂ Token.ReadAs taken t.leaves →
    ∃ inner, Inside place (place + t.eventCount) inner ∧
      buildFrom? events place (t.eventsAt place parent) ⟨ts, (K, ds) :: more, closed, opened⟩ =
        some (add (t.fill (ts.dropWhile Token.isTrivia)).1
          ⟨(t.fill (ts.dropWhile Token.isTrivia)).2, openBefore outer ts K ds more, closed,
            inner ++ (outer.map Prod.fst ++ opened)⟩)
  | leaf k x, place, parent, outer, ts, taken, after, opened, K, ds, more, closed, ho, _, _, hs,
      hr => by
    obtain rfl := ho k x rfl
    refine ⟨[], inside_nil _ _, ?_⟩
    cases hr with
    | @cons u _ _ _ h hr =>
      cases hr
      rw [← significant_dropWhile] at hs
      obtain ⟨us, hus, -⟩ := eq_cons_of_significant (List.dropWhile_idempotent _ _) hs
      have hx : x = u.text := h.1
      simp only [eventsAt, buildFrom?, buildStep?, addTrivia_open, addToken, hus, fill, hx]
      rfl
  | node k [], place, parent, outer, ts, taken, after, opened, K, ds, more, closed, _, _, hf, _,
      _ =>
    ⟨[], inside_nil _ _, buildFrom_ahead (by simp) hf rfl⟩
  | node k (first :: rest), place, parent, outer, ts, taken, after, opened, K, ds, more, closed, _,
      he, hf, hs, hr => by
    have hcount : (node k (first :: rest)).eventCount =
        first.eventCount + eventCountAll rest + 2 := rfl
    by_cases hk : followsFirst k first
    · rw [eventsAt, if_pos hk, List.append_assoc] at he
      have hown := drop_of_front he
      rw [eventsAt_length] at hown
      have hc : eventsAtAll (place + first.eventCount + 1) rest <+: _ :=
        tail_of_front ((List.prefix_append _ _).trans hown)
      obtain ⟨here, later, hs₁, hr₁, hr₂, hs₂⟩ := significant_first hs hr
      -- the first child is read under its node, which it opens
      obtain ⟨inner₁, hi₁, hb₁⟩ := buildFrom_tree first K ds more closed
        (fun l x hl => by rw [hl, followsFirst_leaf] at hk; cases hk)
        ((List.prefix_append _ _).trans he)
        (fresh_first hf (get_of_front hown) (by omega) (by omega)) hs₁ hr₁
      have hn : Inside place (place + first.eventCount + 1)
          (inner₁ ++ [place + first.eventCount]) := by
        refine inside_append (inside_mono hi₁ (Nat.le_refl _) (Nat.le_succ _)) ?_
        intro p hp
        rw [List.mem_singleton.mp hp]
        omega
      have hu : Apart (place + first.eventCount + 1)
          (place + first.eventCount + 1 + eventCountAll rest)
          (inner₁ ++ ((place + first.eventCount) :: (outer.map Prod.fst ++ opened))) := by
        rw [List.append_cons]
        exact apart_append (apart_of_inside hn (Nat.le_refl _))
          (apart_mono (fresh_children hf) (by omega) (by omega))
      obtain ⟨inner₂, hi₂, hb₂⟩ := buildFrom_forest rest k
        [(first.fill (ts.dropWhile Token.isTrivia)).1] (openBefore outer ts K ds more) closed hc hu
        hs₂ hr₂
      refine ⟨inner₂ ++ (inner₁ ++ [place + first.eventCount]), ?_, ?_⟩
      · exact inside_append (inside_mono hi₂ (by omega) (by omega))
          (inside_mono hn (Nat.le_refl _) (by omega))
      · rw [fill, fillAll_first, buildFrom_behind hk (openBefore_ne_nil outer ts K ds more)
          (by simp) hb₁ hb₂]
        simp
    · have ha : ∀ c ∈ (first :: rest).head?, followsFirst k c = false := by
        simpa using hk
      rw [eventsAt_node ha] at he
      obtain ⟨inner, hi, hb⟩ := buildFrom_forest (first :: rest) k []
        (openBefore outer ts K ds more) closed (tail_of_front ((List.prefix_append _ _).trans he))
        (apart_mono (fresh_children hf) (Nat.le_succ _) (by rw [eventCountAll]; omega))
        ((significant_dropWhile ts).trans hs) hr
      refine ⟨inner, inside_mono hi (Nat.le_succ _) ?_, buildFrom_ahead ha hf hb⟩
      rw [eventCountAll]
      omega

/-- The events of siblings add them to the innermost open node, with the trivia between them. -/
theorem buildFrom_forest : (cs : List Tree) → {place : Nat} → {ts taken after : List Token} →
    {opened : List Nat} → (K : Kind) → (ds : List Tree) → (more : List (Kind × List Tree)) →
    (closed : List Tree) → eventsAtAll place cs <+: events.drop place →
    Apart place (place + eventCountAll cs) opened →
    Token.significant ts = taken ++ after → List.Forall₂ Token.ReadAs taken (leavesAll cs) →
    ∃ inner, Inside place (place + eventCountAll cs) inner ∧
      buildFrom? events place (eventsAtAll place cs) ⟨ts, (K, ds) :: more, closed, opened⟩ =
        some ⟨(fillAll cs ts).2, (K, (fillAll cs ts).1.reverse ++ ds) :: more, closed,
          inner ++ opened⟩
  | [], place, ts, taken, after, opened, K, ds, more, closed, _, _, _, _ =>
    ⟨[], inside_nil _ _, rfl⟩
  | c :: cs, place, ts, taken, after, opened, K, ds, more, closed, he, ho, hs, hr => by
    have hcount : eventCountAll (c :: cs) = c.eventCount + eventCountAll cs := rfl
    rw [eventsAtAll] at he ⊢
    have he₂ := drop_of_front he
    rw [eventsAt_length] at he₂
    obtain ⟨here, later, hs₁, hr₁, hr₂, hs₂⟩ := significant_first hs hr
    obtain ⟨inner₁, hi₁, hb₁⟩ := buildFrom_tree c K ds more closed (fun _ _ _ => rfl)
      ((List.prefix_append _ _).trans he)
      (fresh_none (apart_mono ho (Nat.le_refl _) (by omega))) hs₁ hr₁
    have hu : Apart (place + c.eventCount) (place + c.eventCount + eventCountAll cs)
        (inner₁ ++ opened) :=
      apart_append (apart_of_inside hi₁ (Nat.le_refl _)) (apart_mono ho (by omega) (by omega))
    obtain ⟨inner₂, hi₂, hb₂⟩ := buildFrom_forest cs K
      ((c.fill (ts.dropWhile Token.isTrivia)).1 ::
        (((ts.takeWhile Token.isTrivia).map ofToken).reverse ++ ds)) more closed he₂ hu hs₂ hr₂
    refine ⟨inner₂ ++ inner₁, ?_, ?_⟩
    · exact inside_append (inside_mono hi₂ (by omega) (by omega))
        (inside_mono hi₁ (Nat.le_refl _) (by omega))
    · rw [buildFrom_append, hb₁, eventsAt_length]
      simp only [Option.bind_some, List.map_nil, List.nil_append, openBefore, add, fillAll]
      rw [hb₂]
      simp

end

/-- The events of a node over all significant tokens build the node, and trivia is put back where
`withTrivia` puts it. -/
theorem ofEvents_withTrivia {cs : List Tree} (ha : ∀ c ∈ cs.head?, followsFirst k c = false)
    (hr : List.Forall₂ Token.ReadAs (Token.significant ts) (leavesAll cs)) :
    ofEvents? ts (node k cs).events = some ((node k cs).withTrivia ts) := by
  have he : (node k cs).events = .start k none :: eventsAtAll 1 cs ++ [.finish] :=
    eventsAt_node ha 0 none
  set all := (node k cs).events
  have hc : eventsAtAll 1 cs <+: all.drop 1 := by
    rw [he]
    exact List.prefix_append _ _
  have hu : Apart 1 (1 + eventCountAll cs) [] := by simp [Apart]
  obtain ⟨inner, _, hb⟩ := buildFrom_forest cs k [] [] [] hc hu (List.append_nil _).symm hr
  have hs : buildStep? all 0 (.start k none) ⟨ts, [], [], []⟩ =
      some ⟨ts, [(k, [])], [], []⟩ := by
    cases hl : all.length <;> simp [buildStep?, enclosing?, openAll, hl]
  have hf : buildStep? all (1 + (eventsAtAll 1 cs).length) .finish
      ⟨(fillAll cs ts).2, [(k, (fillAll cs ts).1.reverse ++ [])], [], inner ++ []⟩ =
        some ⟨[], [], [(node k cs).withTrivia ts], inner ++ []⟩ := by
    have ht := List.takeWhile_eq_self_iff.mpr (fillAll_rest_trivia hr)
    have hd := List.dropWhile_eq_nil_iff.mpr (fillAll_rest_trivia hr)
    simp [buildStep?, addTrivia_open, close?, add, withTrivia, ht, hd]
  have hall : buildFrom? all 0 all ⟨ts, [], [], []⟩ =
      some ⟨[], [], [(node k cs).withTrivia ts], inner ++ []⟩ := by
    conv_lhs => arg 3; rw [he]
    rw [List.cons_append, buildFrom?, hs, Option.bind_some, buildFrom_append, hb, Option.bind_some,
      buildFrom?, hf]
    rfl
  rw [ofEvents?, hall]
  rfl

end LogQuery.Tree
