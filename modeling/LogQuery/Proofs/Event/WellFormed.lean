import LogQuery.Event
import LogQuery.Proofs.Tree.Trivia
import Mathlib.Data.List.Nodup

/-! The events of a query: starts and finishes match like parentheses, every token is recorded once,
and a parent is a start of its own behind the start that names it. -/
namespace LogQuery

namespace Event

variable {place own i j n : Nat} {parent : Option Nat} {k : Kind} {es fs ms : List Event}
  {ls : List Token}

def isStart : Event → Bool
  | start _ _ => true
  | _ => false

def isFinish : Event → Bool
  | finish => true
  | _ => false

def starts (es : List Event) : Nat := es.countP isStart

def finishes (es : List Event) : Nat := es.countP isFinish

def tokenKind? : Event → Option Kind
  | token k => some k
  | _ => none

def parent? : Event → Option Nat
  | start _ p => p
  | _ => none

/-- Events in which each node is finished after it is started. -/
structure Balanced (es : List Event) : Prop where
  open_or_closed : ∀ n, finishes (es.take n) ≤ starts (es.take n)
  closed : finishes es = starts es

theorem balanced_nil : Balanced [] := ⟨fun n => by simp [finishes], rfl⟩

theorem balanced_token (k : Kind) : Balanced [token k] := by
  refine ⟨fun n => ?_, rfl⟩
  cases n with
  | zero => simp [finishes]
  | succ n => simp [finishes, isFinish]

theorem balanced_append (hf : Balanced fs) (hm : Balanced ms) : Balanced (fs ++ ms) := by
  refine ⟨fun n => ?_, ?_⟩
  · have h₁ := hf.open_or_closed n
    have h₂ := hm.open_or_closed (n - fs.length)
    simp only [starts, finishes, List.take_append, List.countP_append] at h₁ h₂ ⊢
    omega
  · have h₁ := hf.closed
    have h₂ := hm.closed
    simp only [starts, finishes, List.countP_append] at h₁ h₂ ⊢
    omega

/-- Inside of a node its start is not finished. -/
theorem open_inside (h : Balanced es) (hn : 0 < n) (hl : n < es.length + 2) :
    finishes ((start k parent :: es ++ [finish]).take n) <
      starts ((start k parent :: es ++ [finish]).take n) := by
  obtain ⟨m, rfl⟩ : ∃ m, n = m + 1 := ⟨n - 1, by omega⟩
  have hb := h.open_or_closed m
  have ht : (es ++ [finish]).take m = es.take m := List.take_append_of_le_length (by omega)
  simp only [List.cons_append, List.take_succ_cons, ht, starts, finishes, List.countP_cons,
    isStart, isFinish] at hb ⊢
  simp only [if_true, Bool.false_eq_true, if_false]
  omega

theorem balanced_node (h : Balanced es) : Balanced (start k parent :: es ++ [finish]) := by
  have hc : finishes (start k parent :: es ++ [finish]) =
      starts (start k parent :: es ++ [finish]) := by
    have := h.closed
    simp only [starts, finishes, List.cons_append, List.countP_cons, List.countP_append,
      List.countP_nil, isStart, isFinish] at this ⊢
    simp [this]
  refine ⟨fun n => ?_, hc⟩
  rcases Nat.eq_zero_or_pos n with rfl | hn
  · simp [finishes]
  · by_cases hl : n < es.length + 2
    · exact (open_inside h hn hl).le
    · rw [List.take_of_length_le (by simp; omega)]
      exact hc.le

/-- Events that begin at a place, record some tokens, and leave one start to be enclosed by a
parent behind them. -/
structure Segment (place : Nat) (parent : Option Nat) (ls : List Token) (es : List Event) :
    Prop where
  no_placeholder : placeholder ∉ es
  tokens : es.filterMap tokenKind? = ls.map Token.kind
  balanced : Balanced es
  forward : ∀ {i k p}, es[i]? = some (start k (some p)) →
    some p = parent ∨ place + i < p ∧ ∃ l q, es[p - place]? = some (start l q)
  distinct : (∀ p, parent = some p → place + es.length ≤ p) → (es.filterMap parent?).Nodup

theorem segment_nil (place : Nat) (parent : Option Nat) : Segment place parent [] [] where
  no_placeholder := by simp
  tokens := rfl
  balanced := balanced_nil
  forward := by simp
  distinct := by simp

theorem segment_token (place : Nat) (parent : Option Nat) (k : Kind) (x : Text) :
    Segment place parent [⟨k, x⟩] [token k] where
  no_placeholder := by simp
  tokens := rfl
  balanced := balanced_token k
  forward := by
    intro i l p h
    cases i <;> simp at h
  distinct := fun _ => List.nodup_nil

/-- Parents named inside of a segment are inside of it. -/
theorem segment_target (h : Segment place parent ls es) {p : Nat}
    (hp : p ∈ es.filterMap parent?) :
    some p = parent ∨ place < p ∧ p < place + es.length := by
  obtain ⟨e, he, hep⟩ := List.mem_filterMap.mp hp
  obtain ⟨i, hi, rfl⟩ := List.getElem_of_mem he
  cases hs : es[i] with
  | start k q =>
    rw [hs] at hep
    cases hep
    obtain hp | ⟨hlt, l, q, hq⟩ := h.forward (i := i) (by rw [List.getElem?_eq_getElem hi, hs])
    · exact Or.inl hp
    · have := (List.getElem?_eq_some_iff.mp hq).1
      exact Or.inr ⟨by omega, by omega⟩
  | _ => simp [hs, parent?] at hep

theorem segment_append {ks : List Token} (hf : Segment place none ks fs)
    (hm : Segment (place + fs.length) none ls ms) :
    Segment place none (ks ++ ls) (fs ++ ms) where
  no_placeholder := by simp [hf.no_placeholder, hm.no_placeholder]
  tokens := by simp [hf.tokens, hm.tokens]
  balanced := balanced_append hf.balanced hm.balanced
  forward := by
    intro i k p h
    right
    rw [List.getElem?_append] at h
    split at h
    · next hi =>
      obtain hp | ⟨hlt, l, q, hq⟩ := hf.forward h
      · cases hp
      · have hl := (List.getElem?_eq_some_iff.mp hq).1
        exact ⟨hlt, l, q, by rw [List.getElem?_append_left hl, hq]⟩
    · next hi =>
      obtain hp | ⟨hlt, l, q, hq⟩ := hm.forward h
      · cases hp
      · refine ⟨by omega, l, q, ?_⟩
        rw [List.getElem?_append_right (by omega), ← hq]
        congr 1
        omega
  distinct := by
    intro _
    rw [List.filterMap_append, List.nodup_append]
    refine ⟨hf.distinct (by simp), hm.distinct (by simp), ?_⟩
    intro a ha b hb
    obtain h | h := segment_target hf ha
    · cases h
    · obtain h' | h' := segment_target hm hb
      · cases h'
      · omega

theorem tokenKinds_node (k : Kind) (parent : Option Nat) (ms : List Event) :
    (start k parent :: ms ++ [finish]).filterMap tokenKind? = ms.filterMap tokenKind? := by
  rw [List.cons_append, List.filterMap_cons_none rfl, List.filterMap_append]
  exact List.append_nil _

theorem parents_node (k : Kind) (parent : Option Nat) (ms : List Event) :
    (start k parent :: ms ++ [finish]).filterMap parent? =
      parent.toList ++ ms.filterMap parent? := by
  have hms : (ms ++ [finish]).filterMap parent? = ms.filterMap parent? := by
    rw [List.filterMap_append]
    exact List.append_nil _
  rw [List.cons_append]
  cases parent with
  | none =>
    rw [List.filterMap_cons_none rfl, hms]
    rfl
  | some p =>
    rw [List.filterMap_cons_some (show parent? (start k (some p)) = some p from rfl), hms]
    rfl

/-- A start behind its first child, the child's own start naming it as parent. -/
theorem segment_node {ks : List Token} (ho : own = place + fs.length)
    (hf : Segment place (some own) ks fs) (hm : Segment (own + 1) none ls ms) :
    Segment place parent (ks ++ ls) (fs ++ (start k parent :: ms ++ [finish])) where
  no_placeholder := by simp [hf.no_placeholder, hm.no_placeholder]
  tokens := by
    rw [List.filterMap_append, tokenKinds_node, hf.tokens, hm.tokens, List.map_append]
  balanced := balanced_append hf.balanced (balanced_node hm.balanced)
  forward := by
    intro i l p h
    have hown :
        (fs ++ (start k parent :: ms ++ [finish]))[own - place]? = some (start k parent) := by
      rw [List.getElem?_append_right (by omega), show own - place - fs.length = 0 by omega]
      rfl
    rw [List.getElem?_append] at h
    split at h
    · next hi =>
      obtain hp | ⟨hlt, l, q, hq⟩ := hf.forward h
      · obtain rfl := Option.some.inj hp
        exact Or.inr ⟨by omega, k, parent, hown⟩
      · have hl := (List.getElem?_eq_some_iff.mp hq).1
        exact Or.inr ⟨hlt, l, q, by rw [List.getElem?_append_left hl, hq]⟩
    · next hi =>
      cases hd : i - fs.length with
      | zero =>
        rw [hd] at h
        simp only [List.cons_append, List.getElem?_cons_zero, Option.some.injEq, start.injEq] at h
        exact Or.inl h.2.symm
      | succ d =>
        rw [hd, List.cons_append, List.getElem?_cons_succ, List.getElem?_append] at h
        split at h
        · next hd' =>
          obtain hp | ⟨hlt, l, q, hq⟩ := hm.forward h
          · cases hp
          · have hl := (List.getElem?_eq_some_iff.mp hq).1
            refine Or.inr ⟨by omega, l, q, ?_⟩
            rw [List.getElem?_append_right (by omega),
              show p - place - fs.length = (p - (own + 1)) + 1 by omega, List.cons_append,
              List.getElem?_cons_succ, List.getElem?_append_left hl, hq]
        · next hd' =>
          rw [List.getElem?_singleton] at h
          split at h <;> cases h
  distinct := by
    intro hp
    have hlen : (fs ++ (start k parent :: ms ++ [finish])).length = fs.length + ms.length + 2 := by
      simp
      omega
    have hfd := hf.distinct fun p hp => by cases hp; omega
    have hmd := hm.distinct (by simp)
    have hft : ∀ p ∈ fs.filterMap parent?, p ≤ own := by
      intro p hp
      obtain h | h := segment_target hf hp
      · exact (Option.some.inj h).le
      · omega
    have hmt : ∀ p ∈ ms.filterMap parent?, own < p ∧ p < own + 1 + ms.length := by
      intro p hp
      obtain h | h := segment_target hm hp
      · cases h
      · omega
    rw [List.filterMap_append, parents_node, List.nodup_append, List.nodup_append]
    refine ⟨hfd, ⟨?_, hmd, ?_⟩, ?_⟩
    · cases parent with
      | none => exact List.nodup_nil
      | some p => exact List.nodup_singleton p
    · intro p hpp q hq
      have := hp p (Option.mem_toList.mp hpp)
      have := hmt q hq
      omega
    · intro p hpf q hq
      have := hft p hpf
      rcases List.mem_append.mp hq with hq | hq
      · have := hp q (Option.mem_toList.mp hq)
        omega
      · have := hmt q hq
        omega

end Event

namespace Tree

open Event (Segment segment_nil segment_append segment_node)

mutual

theorem eventsAt_length (place : Nat) (parent : Option Nat) :
    (t : Tree) → (t.eventsAt place parent).length = t.eventCount
  | leaf _ _ => rfl
  | node k [] => rfl
  | node k (first :: more) => by
    have hf := fun place parent => eventsAt_length place parent first
    have hm := fun place => eventsAtAll_length place more
    rw [eventsAt]
    split
    · simp only [List.length_append, List.length_cons, List.length_nil, hf, hm, eventCount,
        eventCountAll]
      omega
    · simp only [List.length_append, List.length_cons, List.length_nil, hf, hm, eventCount,
        eventCountAll]
      omega

theorem eventsAtAll_length (place : Nat) :
    (ts : List Tree) → (eventsAtAll place ts).length = eventCountAll ts
  | [] => rfl
  | t :: ts => by
    have ht := eventsAt_length place none t
    have hts := eventsAtAll_length (place + t.eventCount) ts
    simp only [eventsAtAll, eventCountAll, List.length_append, ht, hts]

end

mutual

/-- Each constructor of a tree gives one shape of segment, and a node recognised by its first child
is the only one that gives its child a parent. -/
theorem eventsAt_segment (place : Nat) (parent : Option Nat) :
    (t : Tree) → Segment place parent t.leaves (t.eventsAt place parent)
  | leaf k x => Event.segment_token place parent k x
  | node k [] => segment_node rfl (segment_nil place _) (segment_nil (place + 1) none)
  | node k (first :: more) => by
    have hl := eventsAt_length place (some (place + first.eventCount)) first
    have hm := eventsAtAll_segment (place + 1 + first.eventCount) more
    rw [eventsAt]
    split
    · have hf := eventsAt_segment place (some (place + first.eventCount)) first
      rw [Nat.add_right_comm] at hm
      rw [List.append_assoc]
      exact segment_node (by rw [hl]) hf hm
    · have hf := eventsAt_segment (place + 1) none first
      rw [← eventsAt_length (place + 1) none first] at hm
      have h := segment_append hf hm
      rw [eventsAt_length] at h
      exact segment_node rfl (segment_nil place _) h

theorem eventsAtAll_segment (place : Nat) :
    (ts : List Tree) → Segment place none (leavesAll ts) (eventsAtAll place ts)
  | [] => segment_nil place none
  | t :: ts => by
    have hts := eventsAtAll_segment (place + t.eventCount) ts
    rw [← eventsAt_length place none t] at hts
    have h := segment_append (eventsAt_segment place none t) hts
    rw [eventsAt_length] at h
    exact h

end

/-- A node that is not recognised by its first child starts before it. -/
theorem eventsAt_node {k : Kind} {cs : List Tree}
    (h : ∀ c ∈ cs.head?, followsFirst k c = false) (place : Nat) (parent : Option Nat) :
    (node k cs).eventsAt place parent =
      .start k parent :: eventsAtAll (place + 1) cs ++ [.finish] := by
  cases cs with
  | nil => rfl
  | cons first more =>
    have hf : followsFirst k first = false := h first rfl
    simp [eventsAt, eventsAtAll, hf]

end Tree

/-- A token is recorded under its own kind, or under the keyword it spells. -/
def Token.RecordedAs (t : Token) (k : Kind) : Prop :=
  k = t.kind ∨ ∃ w : Keyword, t.spells w = true ∧ k = .keyword w

/-- The events of one query: a root that is open until the last event, in which every token is
recorded and every parent is the start of a node that is recognised later. -/
structure Event.WellFormed (ts : List Token) (es : List Event) : Prop where
  no_placeholder : placeholder ∉ es
  tokens : List.Forall₂ Token.RecordedAs ts (es.filterMap tokenKind?)
  begins : es.head? = some (start .logQl none)
  ends : es.getLast? = some finish
  open_before : ∀ n, 0 < n → n < es.length → finishes (es.take n) < starts (es.take n)
  closed : finishes es = starts es
  parent_later : ∀ (i p : Nat) (k : Kind), es[i]? = some (start k (some p)) →
    i < p ∧ ∃ l q, es[p]? = some (start l q)
  parent_unique : ∀ (i j p : Nat) (k l : Kind), es[i]? = some (start k (some p)) →
    es[j]? = some (start l (some p)) → i = j

namespace Event

/-- In a list without repeated parents, a parent tells the start that names it. -/
theorem parents_unique {es : List Event} (h : (es.filterMap parent?).Nodup) {i j p : Nat}
    {k l : Kind} (hi : es[i]? = some (start k (some p)))
    (hj : es[j]? = some (start l (some p))) : i = j := by
  have hd : es.Pairwise fun d e => ∀ a, parent? d = some a → ∀ b, parent? e = some b → a ≠ b :=
    List.pairwise_filterMap.mp h
  have hlt : ∀ {i j : Nat} {k l : Kind}, es[i]? = some (start k (some p)) →
      es[j]? = some (start l (some p)) → ¬ i < j := by
    intro i j k l hi hj hlt
    obtain ⟨hi', hi⟩ := List.getElem?_eq_some_iff.mp hi
    obtain ⟨hj', hj⟩ := List.getElem?_eq_some_iff.mp hj
    have hij := List.pairwise_iff_getElem.mp hd i j hi' hj' hlt
    exact hij p (by rw [hi]; rfl) p (by rw [hj]; rfl) rfl
  have h₁ := hlt hi hj
  have h₂ := hlt hj hi
  omega

theorem recorded_of_reads {ts ls : List Token} (h : List.Forall₂ Token.ReadAs ts ls) :
    List.Forall₂ Token.RecordedAs ts (ls.map Token.kind) :=
  List.forall₂_map_right_iff.mpr (h.imp fun _ _ hr => hr.2)

/-- Whatever the trees are that a root holds, its events are well-formed. -/
theorem wellFormed_of_reads {ts : List Token} {cs : List Tree}
    (h : List.Forall₂ Token.ReadAs ts (Tree.leavesAll cs)) :
    WellFormed ts (start .logQl none :: Tree.eventsAtAll 1 cs ++ [finish]) := by
  have hm := Tree.eventsAtAll_segment 1 cs
  have hs := Tree.eventsAt_segment 0 none (.node .logQl cs)
  rw [Tree.eventsAt_node (fun _ _ => rfl)] at hs
  exact {
    no_placeholder := hs.no_placeholder
    tokens := by
      rw [hs.tokens]
      exact recorded_of_reads h
    begins := rfl
    ends := List.getLast?_concat
    open_before := fun n hn hl => open_inside hm.balanced hn (hl.trans_eq (by simp))
    closed := hs.balanced.closed
    parent_later := by
      intro i p k h
      obtain hp | ⟨hlt, l, q, hq⟩ := hs.forward h
      · cases hp
      · exact ⟨by omega, l, q, hq⟩
    parent_unique := fun i j p k l => parents_unique (hs.distinct (by simp)) }

end Event

end LogQuery
