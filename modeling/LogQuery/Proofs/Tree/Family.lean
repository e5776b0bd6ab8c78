import LogQuery.Proofs.Tree.Build
import LogQuery.Proofs.Tree.Survey

/-! Who is whose child. While a tree is built, children are only added behind others: what is the
child of an open node then is so in the tree that is left. -/
namespace LogQuery

/-- The children of a node, by the places of their events. Without a node, the trees at the top. -/
structure Family where
  parent : Option (Nat × Kind)
  children : List (Option Nat)

namespace Marked

mutual

def families : Marked → List Family
  | trivia _ => []
  | token _ _ => []
  | node place k cs => ⟨some (place, k), cs.map place?⟩ :: familiesAll cs

def familiesAll : List Marked → List Family
  | [] => []
  | c :: cs => c.families ++ familiesAll cs

end

theorem familiesAll_reverse (cs : List Marked) :
    (familiesAll cs.reverse).Perm (familiesAll cs) := by
  have happend : ∀ cs ds : List Marked,
      familiesAll (cs ++ ds) = familiesAll cs ++ familiesAll ds := by
    intro cs ds
    induction cs with
    | nil => rfl
    | cons c cs ih => rw [List.cons_append, familiesAll, ih, familiesAll, List.append_assoc]
  induction cs with
  | nil => exact .refl _
  | cons c cs ih =>
    rw [List.reverse_cons, happend, familiesAll, familiesAll, familiesAll, List.append_nil]
    exact (ih.append_right _).trans List.perm_append_comm

end Marked

namespace Survey

open LogQuery.Marked (place? familiesAll familiesAll_reverse)
open LogQuery.Tree (Encloses enclosing?)

variable {s t u : Survey} {c : Marked} {o : Nat × Kind} {os outer : List (Nat × Kind)}
  {events es : List Event} {e : Event} {n place : Nat} {k : Kind} {parent : Option Nat}
  {q : Option (Nat × Kind)}

/-- The families of open and closed nodes, where the innermost of the open ones has some children
more. -/
def familiesFrom (inner : List (Option Nat)) (closed : List Marked) : List Frame → List Family
  | [] => ⟨none, closed.reverse.map place? ++ inner⟩ :: familiesAll closed
  | f :: more => ⟨some (f.place, f.kind), f.children.reverse.map place? ++ inner⟩ ::
      (familiesAll f.children ++ familiesFrom [some f.place] closed more)

def families (s : Survey) : List Family := familiesFrom [] s.closed s.stack

def parents (s : Survey) : List (Option (Nat × Kind)) := s.families.map Family.parent

/-- The innermost open node. -/
def top (s : Survey) : Option (Nat × Kind) := s.opens.head?

/-- The family of the innermost open node comes first. There a child is added or a node opened. -/
theorem families_top (s : Survey) : ∃ ms rest, s.families = ⟨s.top, ms⟩ :: rest ∧
    (∀ c, (s.add c).families = ⟨s.top, ms ++ [c.place?]⟩ :: (c.families ++ rest)) ∧
    ∀ o, (s.enter o).families = ⟨some o, []⟩ :: ⟨s.top, ms ++ [some o.1]⟩ :: rest := by
  obtain ⟨ts, _ | ⟨f, more⟩, closed, opened, closings⟩ := s
  · refine ⟨closed.reverse.map place?, familiesAll closed, ?_, fun c => ?_, fun o => ?_⟩
    · simp [families, familiesFrom, top, opens]
    · simp [families, familiesFrom, top, opens, add, familiesAll]
    · simp [families, familiesFrom, top, opens, enter, familiesAll]
  · refine ⟨f.children.reverse.map place?,
      familiesAll f.children ++ familiesFrom [some f.place] closed more, ?_, fun c => ?_,
      fun o => ?_⟩
    · simp [families, familiesFrom, top, opens]
    · simp [families, familiesFrom, top, opens, add, familiesAll]
    · simp [families, familiesFrom, top, opens, enter, familiesAll]

/-- A node that is closed stays the child that it was. -/
theorem close_families (h : s.close? = some t) : t.families.Perm s.families := by
  obtain ⟨ts, _ | ⟨f, more⟩, closed, opened, closings⟩ := s
  · cases h
  · cases h
    obtain ⟨ms, rest, -, hadd, henter⟩ :=
      families_top ⟨ts, more, closed, opened, closings ++ [f.place]⟩
    have hinner : familiesFrom [some f.place] closed more = ⟨_, ms ++ [some f.place]⟩ :: rest :=
      (List.cons.inj (henter (f.place, f.kind))).2
    rw [hadd, families, familiesFrom, hinner, Marked.families, List.append_nil]
    refine (List.Perm.swap _ _ _).trans (.cons _ ?_)
    exact (((familiesAll_reverse f.children).append_right rest).cons _).trans
      List.perm_middle.symm

/-- Families only get more children, and those behind the others. -/
def Grows (s t : Survey) : Prop :=
  ∀ q ms, ⟨q, ms⟩ ∈ s.families → ∃ more, ⟨q, ms ++ more⟩ ∈ t.families

theorem grows_refl (s : Survey) : Grows s s := fun q ms h => ⟨[], by rwa [List.append_nil]⟩

theorem grows_trans (h : Grows s t) (h' : Grows t u) : Grows s u := by
  intro q ms hm
  obtain ⟨more, hm⟩ := h q ms hm
  obtain ⟨still, hm⟩ := h' q _ hm
  exact ⟨more ++ still, by rwa [← List.append_assoc]⟩

theorem grows_of_perm (h : t.families.Perm s.families) : Grows s t := fun q ms hm =>
  ⟨[], by rw [List.append_nil]; exact h.mem_iff.mpr hm⟩

/-- Something stands below a node, or at the top. -/
def Child (s : Survey) (q : Option (Nat × Kind)) (place : Nat) : Prop :=
  ∃ ms, ⟨q, ms⟩ ∈ s.families ∧ some place ∈ ms

def FirstChild (s : Survey) (p place : Nat) : Prop :=
  ∃ k ms, ⟨some (p, k), some place :: ms⟩ ∈ s.families

theorem child_grows (h : Child s q place) (hg : Grows s t) : Child t q place := by
  obtain ⟨ms, hm, hp⟩ := h
  obtain ⟨more, hm⟩ := hg q ms hm
  exact ⟨_, hm, List.mem_append_left _ hp⟩

theorem firstChild_grows {p : Nat} (h : FirstChild s p place) (hg : Grows s t) :
    FirstChild t p place := by
  obtain ⟨k, ms, hm⟩ := h
  obtain ⟨more, hm⟩ := hg _ _ hm
  exact ⟨k, _, hm⟩

theorem add_grows (c : Marked) (s : Survey) : Grows s (s.add c) := by
  obtain ⟨ms, rest, hs, hadd, -⟩ := families_top s
  intro q ns hm
  rw [hs] at hm
  rw [hadd c]
  rcases List.mem_cons.mp hm with hm | hm
  · cases hm
    exact ⟨[c.place?], .head _⟩
  · exact ⟨[], by simp [hm]⟩

theorem add_child (s : Survey) (h : c.place? = some place) : Child (s.add c) s.top place := by
  obtain ⟨ms, rest, -, hadd, -⟩ := families_top s
  exact ⟨_, by rw [hadd c]; exact .head _, by simp [h]⟩

theorem add_parents (hc : c.families = []) (s : Survey) : (s.add c).parents = s.parents := by
  obtain ⟨ms, rest, hs, hadd, -⟩ := families_top s
  rw [parents, parents, hadd c, hs, hc]
  rfl

theorem enter_grows (o : Nat × Kind) (s : Survey) : Grows s (s.enter o) := by
  obtain ⟨ms, rest, hs, -, henter⟩ := families_top s
  intro q ns hm
  rw [hs] at hm
  rw [henter o]
  rcases List.mem_cons.mp hm with hm | hm
  · cases hm
    exact ⟨[some o.1], .tail _ (.head _)⟩
  · exact ⟨[], by simp [hm]⟩

theorem enter_child (o : Nat × Kind) (s : Survey) : Child (s.enter o) s.top o.1 := by
  obtain ⟨ms, rest, -, -, henter⟩ := families_top s
  exact ⟨_, by rw [henter o]; exact .tail _ (.head _), by simp⟩

theorem enter_parents (o : Nat × Kind) (s : Survey) :
    (s.enter o).parents = some o :: s.parents := by
  obtain ⟨ms, rest, hs, -, henter⟩ := families_top s
  rw [parents, parents, henter o, hs]
  rfl

/-- What was opened last has no children yet, so that what is opened in it is its first child. -/
theorem enter_first (o o' : Nat × Kind) (s : Survey) :
    FirstChild ((s.enter o').enter o) o'.1 o.1 := by
  obtain ⟨ms, rest, hs, -, henter⟩ := families_top s
  obtain ⟨ns, _, ht, -, henter'⟩ := families_top (s.enter o')
  obtain rfl : ns = [] := by
    rw [henter o'] at ht
    exact (Family.mk.inj (List.cons.inj ht).1).2.symm
  exact ⟨o'.2, [], by rw [henter' o]; exact .tail _ (.head _)⟩

theorem openAll_grows (os : List (Nat × Kind)) (s : Survey) : Grows s (s.openAll os) := by
  induction os with
  | nil => exact grows_refl s
  | cons o os ih => exact grows_trans ih (enter_grows o _)

theorem openAll_parents (os : List (Nat × Kind)) (s : Survey) :
    (s.openAll os).parents = os.map some ++ s.parents := by
  induction os with
  | nil => rfl
  | cons o os ih => exact (enter_parents o (s.openAll os)).trans (congrArg (some o :: ·) ih)

/-- The last of some nodes that are opened together becomes a child of what was open. -/
theorem openAll_last (s : Survey) (h : o ∈ os.getLast?) : Child (s.openAll os) s.top o.1 := by
  induction os with
  | nil => cases h
  | cons o' os ih =>
    cases os with
    | nil =>
      obtain rfl : o' = o := by simpa using h
      exact enter_child o' s
    | cons o'' os => exact child_grows (ih h) (enter_grows o' _)

/-- Each of some starts that enclose one another becomes the first child of its parent. -/
theorem openAll_first (h : Encloses events parent os) (s : Survey) :
    ∀ o ∈ os, ∀ k p, events[o.1]? = some (.start k (some p)) → FirstChild (s.openAll os) p o.1 := by
  induction h with
  | none => intro o ho; cases ho
  | @start p l parent outer hp _ h ih =>
    intro o ho k q hq
    rcases List.mem_cons.mp ho with rfl | ho
    · obtain ⟨rfl, rfl⟩ := Event.start.inj (Option.some.inj (hp.symm.trans hq))
      cases h with
      | @start _ l' _ _ _ _ _ => exact enter_first _ _ _
    · exact firstChild_grows (ih o ho k q hq) (enter_grows _ _)

section Events

/-- The parent of a start that is enclosed stands behind it. -/
def Forward (events : List Event) : Prop :=
  ∀ (i p : Nat) (k : Kind), events[i]? = some (.start k (some p)) → i < p

theorem encloses_later (h : Encloses events (some place) outer) : ∀ o ∈ outer, place ≤ o.1 := by
  intro o ho
  cases h with
  | start _ hlt _ =>
    rcases List.mem_cons.mp ho with rfl | ho
    · exact Nat.le_refl _
    · exact (hlt o ho).le

theorem encloses_start (h : Encloses events parent outer) :
    ∀ o ∈ outer, ∃ q, events[o.1]? = some (.start o.2 q) := by
  induction h with
  | none => intro o ho; cases ho
  | start hp _ _ ih =>
    intro o ho
    rcases List.mem_cons.mp ho with rfl | ho
    · exact ⟨_, hp⟩
    · exact ih o ho

/-- Of starts that enclose one another, each is the parent of the one before it. -/
theorem encloses_named (h : Encloses events parent outer) (p : Nat) :
    p ∈ outer.map Prod.fst ↔
      parent = some p ∨ ∃ o ∈ outer, events[o.1]? = some (.start o.2 (some p)) := by
  induction h with
  | none => simp
  | @start q l parent outer hq _ _ ih =>
    rw [List.map_cons, List.mem_cons, ih]
    simp only [List.mem_cons, exists_eq_or_imp, hq, Option.some.injEq, Event.start.injEq, true_and]
    exact or_congr_left eq_comm

theorem encloses_nodup (h : Encloses events parent outer) : outer.Nodup := by
  induction h with
  | none => exact .nil
  | start _ hlt _ ih => exact List.nodup_cons.mpr ⟨fun hm => Nat.lt_irrefl _ (hlt _ hm), ih⟩

theorem enclosing_encloses (hf : Forward events) {after fuel : Nat} {used : List Nat}
    (h : enclosing? events after used fuel parent = some outer) :
    Encloses events parent outer ∧ ∀ o ∈ outer, after < o.1 ∧ o.1 ∉ used := by
  induction fuel generalizing used parent outer with
  | zero =>
    cases parent with
    | none =>
      cases h
      exact ⟨.none, by simp⟩
    | some p => cases h
  | succ fuel ih =>
    cases parent with
    | none =>
      cases h
      exact ⟨.none, by simp⟩
    | some p =>
      rw [enclosing?] at h
      split at h
      · cases h
      · next hp =>
        simp only [Bool.or_eq_true, decide_eq_true_eq, List.contains_iff_mem, not_or,
          Nat.not_le] at hp
        split at h
        · next k parent hk =>
          obtain ⟨outer, ho, rfl⟩ := Option.map_eq_some_iff.mp h
          obtain ⟨he, hout⟩ := ih ho
          refine ⟨.start hk (fun o hm => ?_) he, fun o hm => ?_⟩
          · cases parent with
            | none => cases he; cases hm
            | some q => exact Nat.lt_of_lt_of_le (hf p q k hk) (encloses_later he o hm)
          · rcases List.mem_cons.mp hm with rfl | hm
            · exact hp
            · exact ⟨(hout o hm).1, fun hu => (hout o hm).2 (List.mem_cons_of_mem _ hu)⟩
        · cases h

end Events

/-- A step that opens no node. -/
structure Quiet (s t : Survey) : Prop where
  grows : Grows s t
  parents : t.parents.Perm s.parents
  opened : t.opened = s.opened

theorem quiet_refl (s : Survey) : Quiet s s := ⟨grows_refl s, .refl _, rfl⟩

theorem quiet_trans (h : Quiet s t) (h' : Quiet t u) : Quiet s u :=
  ⟨grows_trans h.grows h'.grows, h'.parents.trans h.parents, h'.opened.trans h.opened⟩

theorem add_same (c : Marked) (s : Survey) : (s.add c).opens = s.opens ∧
    (s.add c).opened = s.opened ∧ (s.add c).closings = s.closings := by
  obtain ⟨ts, _ | ⟨f, more⟩, closed, opened, closings⟩ := s <;> exact ⟨rfl, rfl, rfl⟩

theorem add_quiet (hc : c.families = []) (s : Survey) : Quiet s (s.add c) where
  grows := add_grows c s
  parents := by rw [add_parents hc]
  opened := (add_same c s).2.1

theorem addTrivia_quiet (s : Survey) : Quiet s s.addTrivia ∧ s.addTrivia.opens = s.opens ∧
    s.addTrivia.closings = s.closings := by
  have hadd : ∀ (ts : List Token) (s : Survey),
      Quiet s (ts.foldl (fun s t => s.add (.trivia t)) s) ∧
        (ts.foldl (fun s t => s.add (.trivia t)) s).opens = s.opens ∧
          (ts.foldl (fun s t => s.add (.trivia t)) s).closings = s.closings := by
    intro ts
    induction ts with
    | nil => exact fun s => ⟨quiet_refl s, rfl, rfl⟩
    | cons t ts ih =>
      intro s
      obtain ⟨hq, ho, hc⟩ := ih (s.add (.trivia t))
      obtain ⟨hso, -, hsc⟩ := add_same (.trivia t) s
      exact ⟨quiet_trans (add_quiet rfl s) hq, ho.trans hso, hc.trans hsc⟩
  obtain ⟨hq, ho, hc⟩ := hadd (s.tokens.takeWhile Token.isTrivia) s
  exact ⟨⟨hq.grows, hq.parents, hq.opened⟩, ho, hc⟩

theorem addToken_quiet (place : Nat) (k : Kind) (s : Survey) : Quiet s (s.addToken place k) ∧
    (s.addToken place k).opens = s.opens ∧ (s.addToken place k).closings = s.closings ∧
      (s.tokens ≠ [] → Child (s.addToken place k) s.top place) := by
  obtain ⟨_ | ⟨t, ts⟩, stack, closed, opened, closings⟩ := s
  · exact ⟨quiet_refl _, rfl, rfl, fun h => (h rfl).elim⟩
  · set s : Survey := ⟨t :: ts, stack, closed, opened, closings⟩
    have hq := add_quiet (c := .token place ⟨k, t.text⟩) rfl s
    obtain ⟨ho, -, hc⟩ := add_same (.token place ⟨k, t.text⟩) s
    exact ⟨⟨hq.grows, hq.parents, hq.opened⟩, ho, hc, fun _ => add_child s rfl⟩

theorem close_quiet (h : s.close? = some t) :
    Quiet s t ∧ ∃ o, s.opens = o :: t.opens ∧ t.closings = s.closings ++ [o.1] := by
  have hp := close_families h
  obtain ⟨ts, _ | ⟨f, more⟩, closed, opened, closings⟩ := s
  · cases h
  · cases h
    obtain ⟨hopens, hopened, hclosings⟩ := add_same (.node f.place f.kind f.children.reverse)
      ⟨ts, more, closed, opened, closings ++ [f.place]⟩
    exact ⟨⟨grows_of_perm hp, hp.map _, hopened⟩, (f.place, f.kind), by rw [hopens]; rfl, hclosings⟩

theorem openAll_same (os : List (Nat × Kind)) (s : Survey) : (s.openAll os).opens = os ++ s.opens ∧
    (s.openAll os).opened = s.opened ∧ (s.openAll os).closings = s.closings := by
  induction os with
  | nil => exact ⟨rfl, rfl, rfl⟩
  | cons o os ih =>
    obtain ⟨ho, hd, hc⟩ := ih
    exact ⟨congrArg (o :: ·) ho, hd, hc⟩

/-- What a start does that is met before those that enclose it. -/
structure Opens (events : List Event) (o : Nat × Kind) (outer : List (Nat × Kind)) (s t : Survey) :
    Prop where
  grows : Grows s t
  parents : t.parents.Perm ((o :: outer).map some ++ s.parents)
  opened : t.opened = outer.map Prod.fst ++ s.opened
  opens : t.opens = o :: outer ++ s.opens
  closings : t.closings = s.closings
  last : ∀ p ∈ (o :: outer).getLast?, Child t s.top p.1
  first : ∀ p ∈ o :: outer, ∀ k q, events[p.1]? = some (.start k (some q)) → FirstChild t q p.1

theorem openChain_opens (h : Encloses events (some o.1) (o :: outer)) (s : Survey) :
    Opens events o outer s (s.openChain o outer) := by
  obtain ⟨u, hcase, ht⟩ := openChain_eq o outer s
  obtain ⟨hq, hu, hcl⟩ : Quiet s u ∧ u.opens = s.opens ∧ u.closings = s.closings := by
    rcases hcase with rfl | rfl
    · exact ⟨quiet_refl _, rfl, rfl⟩
    · exact addTrivia_quiet s
  rw [ht]
  set v : Survey := { u with opened := outer.map Prod.fst ++ u.opened } with hv
  have htop : v.top = s.top := congrArg List.head? hu
  obtain ⟨ho, hd, hc⟩ := openAll_same (o :: outer) v
  exact {
    grows := grows_trans hq.grows (openAll_grows _ v)
    parents := by
      rw [openAll_parents]
      exact hq.parents.append_left _
    opened := hd.trans (by rw [hv, hq.opened])
    opens := ho.trans (congrArg (o :: outer ++ ·) hu)
    closings := hc.trans hcl
    last := fun p hp => htop ▸ openAll_last v hp
    first := fun p hp => openAll_first h v p hp }

theorem step_token (h : step? events place (.token k) s = some t) :
    Quiet s t ∧ t.opens = s.opens ∧ t.closings = s.closings ∧
      (s.addTrivia.tokens ≠ [] → Child t s.top place) := by
  obtain rfl := Option.some.inj h
  obtain ⟨hq, ho, hc⟩ := addTrivia_quiet s
  obtain ⟨hq', ho', hc', hchild⟩ := addToken_quiet place k s.addTrivia
  have htop : s.addTrivia.top = s.top := congrArg List.head? ho
  exact ⟨quiet_trans hq hq', ho'.trans ho, hc'.trans hc, fun hn => htop ▸ hchild hn⟩

theorem step_finish (h : step? events place .finish s = some t) :
    Quiet s t ∧ ∃ o, s.opens = o :: t.opens ∧ t.closings = s.closings ++ [o.1] := by
  simp only [step?] at h
  split at h
  · obtain ⟨hq, ho, hc⟩ := addTrivia_quiet s
    obtain ⟨hq', o, ho', hc'⟩ := close_quiet h
    exact ⟨quiet_trans hq hq', o, ho.symm.trans ho', by rw [hc', hc]⟩
  · exact close_quiet h

theorem step_again (h : place ∈ s.opened) : step? events place (.start k parent) s = some s := by
  simp only [step?, List.contains_iff_mem, h, if_true]

/-- A start that is met before those that enclose it, and what its step does. -/
structure Opening (events : List Event) (place : Nat) (k : Kind) (parent : Option Nat)
    (outer : List (Nat × Kind)) (s t : Survey) : Prop where
  start : events[place]? = some (.start k parent)
  unopened : place ∉ s.opened
  encloses : Encloses events parent outer
  later : ∀ o ∈ outer, place < o.1 ∧ o.1 ∉ s.opened
  opens : Opens events (place, k) outer s t

theorem step_opens (hf : Forward events) (he : events[place]? = some (.start k parent))
    (hn : place ∉ s.opened) (h : step? events place (.start k parent) s = some t) :
    ∃ outer, Opening events place k parent outer s t := by
  simp only [step?, List.contains_iff_mem, hn, if_false] at h
  obtain ⟨outer, ho, rfl⟩ := Option.map_eq_some_iff.mp h
  obtain ⟨henc, hout⟩ := enclosing_encloses hf ho
  have hall : Encloses events (some place) ((place, k) :: outer) :=
    .start he (fun o hm => (hout o hm).1) henc
  exact ⟨outer, he, hn, henc, hout, openChain_opens hall s⟩

theorem opening_encloses (h : Opening events place k parent outer s t) :
    Encloses events (some place) ((place, k) :: outer) :=
  .start h.start (fun o hm => (h.later o hm).1) h.encloses

/-- A start that is before some place, or was opened ahead of it. -/
def Met (s : Survey) (place i : Nat) : Prop := i < place ∨ i ∈ s.opened

/-- What holds when the events before some place are handled: every start that was met is a node of
its own, and the first child of its parent. -/
structure Sited (events : List Event) (place : Nat) (s : Survey) : Prop where
  nodup : s.parents.Nodup
  starts : ∀ i k, some (i, k) ∈ s.parents ↔ ∃ p, events[i]? = some (.start k p) ∧ s.Met place i
  opened : ∀ p, p ∈ s.opened ↔ ∃ i k, events[i]? = some (.start k (some p)) ∧ s.Met place i
  first : ∀ i k p, events[i]? = some (.start k (some p)) → s.Met place i → FirstChild s p i

theorem sited_ofTokens (events : List Event) (ts : List Token) : Sited events 0 (ofTokens ts) where
  nodup := by simp [parents, families, familiesFrom, ofTokens, familiesAll]
  starts := by simp [parents, families, familiesFrom, ofTokens, familiesAll, Met]
  opened := by simp [ofTokens, Met]
  first := by simp [ofTokens, Met]

/-- Unless the event is a start that was not opened ahead, nothing is new. -/
theorem sited_quiet (h : Sited events place s) (hq : Quiet s t)
    (hn : ∀ k p, events[place]? = some (.start k p) → place ∈ s.opened) :
    Sited events (place + 1) t := by
  have hmet : ∀ {i : Nat} {k : Kind} {p : Option Nat}, events[i]? = some (.start k p) →
      (t.Met (place + 1) i ↔ s.Met place i) := by
    intro i k p hi
    rw [Met, Met, hq.opened]
    refine ⟨fun hl => ?_, fun hl => hl.imp_left Nat.lt_succ_of_lt⟩
    rcases hl with hl | hl
    · rcases Nat.lt_succ_iff_lt_or_eq.mp hl with hl | rfl
      · exact .inl hl
      · exact .inr (hn k p hi)
    · exact .inr hl
  exact {
    nodup := hq.parents.nodup_iff.mpr h.nodup
    starts := by
      intro i k
      rw [hq.parents.mem_iff, h.starts]
      exact exists_congr fun p => and_congr_right fun hi => (hmet hi).symm
    opened := by
      intro p
      rw [hq.opened, h.opened]
      exact exists_congr fun i => exists_congr fun k => and_congr_right fun hi => (hmet hi).symm
    first := fun i k p hi hl => firstChild_grows (h.first i k p hi ((hmet hi).mp hl)) hq.grows }

section Opening

variable (h : Sited events place s) (ho : Opening events place k parent outer s t)
include ho

/-- What is met with a start is the start and those that enclose it. -/
theorem met_opening {i : Nat} {l : Kind} {p : Option Nat} (hi : events[i]? = some (.start l p)) :
    t.Met (place + 1) i ↔ (i, l) ∈ (place, k) :: outer ∨ s.Met place i := by
  have hmem : (i, l) ∈ (place, k) :: outer ↔ i = place ∨ i ∈ outer.map Prod.fst := by
    rw [← List.mem_cons, ← List.map_cons (f := Prod.fst) (a := (place, k))]
    refine ⟨fun hm => List.mem_map_of_mem hm, fun hm => ?_⟩
    obtain ⟨⟨j, l'⟩, hj, rfl⟩ := List.mem_map.mp hm
    obtain ⟨q, hq⟩ := encloses_start (opening_encloses ho) _ hj
    obtain ⟨rfl, -⟩ := Event.start.inj (Option.some.inj (hi.symm.trans hq))
    exact hj
  rw [hmem, Met, Met, ho.opens.opened, List.mem_append, Nat.lt_succ_iff_lt_or_eq]
  tauto

theorem opening_new : ∀ o ∈ (place, k) :: outer, ¬ s.Met place o.1 := by
  intro o hm hl
  rcases List.mem_cons.mp hm with rfl | hm
  · exact hl.elim (Nat.lt_irrefl _) ho.unopened
  · exact hl.elim (fun hl => Nat.lt_asymm hl (ho.later o hm).1) (ho.later o hm).2

include h

theorem opening_nodup : t.parents.Nodup := by
  refine ho.opens.parents.nodup_iff.mpr (List.nodup_append.mpr ⟨?_, h.nodup, ?_⟩)
  · exact (encloses_nodup (opening_encloses ho)).map fun _ _ => Option.some.inj
  · rintro _ hm _ hq rfl
    obtain ⟨o, hin, rfl⟩ := List.mem_map.mp hm
    obtain ⟨_, -, hl⟩ := (h.starts o.1 o.2).mp hq
    exact opening_new ho o hin hl

theorem opening_starts (i : Nat) (l : Kind) : some (i, l) ∈ t.parents ↔
    ∃ p, events[i]? = some (.start l p) ∧ t.Met (place + 1) i := by
  rw [ho.opens.parents.mem_iff, List.mem_append, h.starts,
    List.mem_map_of_injective fun _ _ => Option.some.inj]
  constructor
  · rintro (hm | ⟨p, hp, hl⟩)
    · obtain ⟨p, hp⟩ := encloses_start (opening_encloses ho) _ hm
      exact ⟨p, hp, (met_opening ho hp).mpr (.inl hm)⟩
    · exact ⟨p, hp, (met_opening ho hp).mpr (.inr hl)⟩
  · rintro ⟨p, hp, hl⟩
    exact ((met_opening ho hp).mp hl).imp_right fun hl => ⟨p, hp, hl⟩

/-- What is opened ahead is what the starts that are met name as their parents. -/
theorem opening_opened (p : Nat) : p ∈ t.opened ↔
    ∃ i l, events[i]? = some (.start l (some p)) ∧ t.Met (place + 1) i := by
  have hnamed : p ∈ outer.map Prod.fst ↔
      ∃ o ∈ (place, k) :: outer, events[o.1]? = some (.start o.2 (some p)) := by
    rw [encloses_named ho.encloses]
    simp [ho.start]
  rw [ho.opens.opened, List.mem_append, hnamed, h.opened]
  constructor
  · rintro (⟨⟨i, l⟩, hm, hp⟩ | ⟨i, l, hp, hl⟩)
    · exact ⟨i, l, hp, (met_opening ho hp).mpr (.inl hm)⟩
    · exact ⟨i, l, hp, (met_opening ho hp).mpr (.inr hl)⟩
  · rintro ⟨i, l, hp, hl⟩
    rcases (met_opening ho hp).mp hl with hm | hl
    · exact .inl ⟨(i, l), hm, hp⟩
    · exact .inr ⟨i, l, hp, hl⟩

theorem sited_opening : Sited events (place + 1) t where
  nodup := opening_nodup h ho
  starts := opening_starts h ho
  opened := opening_opened h ho
  first := by
    intro i l p hp hl
    rcases (met_opening ho hp).mp hl with hm | hl
    · exact ho.opens.first _ hm l p hp
    · exact firstChild_grows (h.first i l p hp hl) ho.opens.grows

end Opening

/-- One step keeps what holds of the starts, and adds to the families. -/
theorem step_sited (hf : Forward events) (h : Sited events place s) (he : events[place]? = some e)
    (hs : step? events place e s = some t) : Sited events (place + 1) t ∧ Grows s t := by
  have hother : Quiet s t → (∀ k p, e ≠ .start k p) →
      Sited events (place + 1) t ∧ Grows s t := fun hq hne =>
    ⟨sited_quiet h hq fun k p hp => (hne k p (Option.some.inj (he.symm.trans hp))).elim, hq.grows⟩
  cases e with
  | placeholder =>
    obtain rfl := Option.some.inj hs
    exact hother (quiet_refl s) (by simp)
  | token k => exact hother (step_token hs).1 (by simp)
  | finish => exact hother (step_finish hs).1 (by simp)
  | start k parent =>
    by_cases hn : place ∈ s.opened
    · obtain rfl := Option.some.inj ((step_again hn).symm.trans hs)
      exact ⟨sited_quiet h (quiet_refl s) fun _ _ _ => hn, grows_refl s⟩
    · obtain ⟨outer, ho⟩ := step_opens hf he hn hs
      exact ⟨sited_opening h ho, ho.opens.grows⟩

theorem from_append (events es fs : List Event) (n : Nat) (s : Survey) :
    from? events n (es ++ fs) s = (from? events n es s).bind (from? events (n + es.length) fs) := by
  induction es generalizing n s with
  | nil => rfl
  | cons e es ih =>
    simp only [List.cons_append, from?, Option.bind_assoc, List.length_cons]
    congr 1
    funext t
    rw [ih, Nat.add_right_comm, Nat.add_assoc]

theorem from_sited (hf : Forward events) (h : Sited events n s) (he : es <+: events.drop n)
    (hs : from? events n es s = some t) : Sited events (n + es.length) t ∧ Grows s t := by
  induction es generalizing n s with
  | nil =>
    obtain rfl := Option.some.inj hs
    exact ⟨h, grows_refl s⟩
  | cons e es ih =>
    obtain ⟨u, hu, ht⟩ := Option.bind_eq_some_iff.mp hs
    obtain ⟨h', hg⟩ := step_sited hf h (Tree.get_of_front he) hu
    obtain ⟨h'', hg'⟩ := ih h' (Tree.tail_of_front he) ht
    rw [List.length_cons, Nat.add_comm es.length, ← Nat.add_assoc]
    exact ⟨h'', grows_trans hg hg'⟩

end Survey

end LogQuery
