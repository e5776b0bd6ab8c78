import LogQuery.Proofs.Word

/-! Places in a tree, by the way down to them. Of two places one is on the way to the other, or one
ends before the other begins. -/
namespace LogQuery.Tree

/-- A place in a tree: the numbers of the children on the way down, the tokens ahead of it, and the
tree that stands there. -/
structure Spot where
  path : List Nat
  ahead : List Token
  tree : Tree

namespace Spot

/-- A place in a child, as a place in its parent. -/
def under (place : Nat) (ahead : List Token) (s : Spot) : Spot :=
  ⟨place :: s.path, ahead ++ s.ahead, s.tree⟩

/-- A place in the tree that stands at another. -/
def within (s r : Spot) : Spot := ⟨s.path ++ r.path, s.ahead ++ r.ahead, r.tree⟩

/-- The way down to the one goes on below the other. -/
def Below (s above : Spot) : Prop := ∃ n more, s.path = above.path ++ n :: more

end Spot

mutual

/-- The places of a kind in the order of the text, each before those below it. -/
def spots (k : Kind) : Tree → List Spot
  | leaf l x => if l = k then [⟨[], [], leaf l x⟩] else []
  | node l cs => (if l = k then [⟨[], [], node l cs⟩] else []) ++ spotsAll k 0 [] cs

def spotsAll (k : Kind) (place : Nat) (ahead : List Token) : List Tree → List Spot
  | [] => []
  | t :: ts =>
    (t.spots k).map (Spot.under place ahead) ++ spotsAll k (place + 1) (ahead ++ t.leaves) ts

end

/-- What stands in a tree at the end of a way down. -/
inductive Leads : Tree → Spot → Prop
  | here (t : Tree) : Leads t ⟨[], [], t⟩
  | child (k : Kind) (cs ds : List Tree) {c : Tree} {s : Spot} (h : Leads c s) :
    Leads (node k (cs ++ c :: ds)) (s.under cs.length (leavesAll cs))

variable {t u c : Tree} {cs ds : List Tree} {s r : Spot} {k l : Kind} {before after : List Token}

theorem spotsAll_append (cs ds : List Tree) (place : Nat) (ahead : List Token) :
    spotsAll k place ahead (cs ++ ds) =
      spotsAll k place ahead cs ++ spotsAll k (place + cs.length) (ahead ++ leavesAll cs) ds := by
  induction cs generalizing place ahead with
  | nil => simp [spotsAll, leavesAll]
  | cons c cs ih => simp [spotsAll, leavesAll, ih, Nat.add_assoc, Nat.add_comm 1]

mutual

theorem leads_of_mem : (t : Tree) → {s : Spot} → s ∈ t.spots k → Leads t s ∧ s.tree.kind = k
  | leaf l x, s, h => by
    rw [spots] at h
    split at h
    · next hl =>
      obtain rfl := List.mem_singleton.mp h
      exact ⟨.here _, hl⟩
    · cases h
  | node l cs, s, h => by
    rw [spots, List.mem_append] at h
    rcases h with h | h
    · split at h
      · next hl =>
        obtain rfl := List.mem_singleton.mp h
        exact ⟨.here _, hl⟩
      · cases h
    · obtain ⟨front, c, back, r, rfl, hr, hk, rfl⟩ := leadsAll_of_mem cs h
      refine ⟨?_, hk⟩
      simpa using Leads.child l front back hr

theorem leadsAll_of_mem : (cs : List Tree) → {place : Nat} → {ahead : List Token} → {s : Spot} →
    s ∈ spotsAll k place ahead cs → ∃ front c back r, cs = front ++ c :: back ∧ Leads c r ∧
      r.tree.kind = k ∧ s = r.under (place + front.length) (ahead ++ leavesAll front)
  | [], _, _, _, h => by cases h
  | c :: cs, place, ahead, s, h => by
    rw [spotsAll, List.mem_append] at h
    rcases h with h | h
    · obtain ⟨r, hr, rfl⟩ := List.mem_map.mp h
      obtain ⟨hr, hk⟩ := leads_of_mem c hr
      exact ⟨[], c, cs, r, rfl, hr, hk, by simp [leavesAll]⟩
    · obtain ⟨front, d, back, r, rfl, hr, hk, rfl⟩ := leadsAll_of_mem cs h
      refine ⟨c :: front, d, back, r, rfl, hr, hk, ?_⟩
      simp [leavesAll, Nat.add_assoc, Nat.add_comm 1]

end

theorem mem_of_leads (h : Leads t s) : s ∈ t.spots s.tree.kind := by
  induction h with
  | here t => cases t <;> simp [spots, kind]
  | @child k cs ds c s _ ih =>
    have hm : s.under cs.length (leavesAll cs) ∈
        (c.spots s.tree.kind).map (Spot.under cs.length (leavesAll cs)) :=
      List.mem_map_of_mem ih
    rw [spots, spotsAll_append, spotsAll]
    simp only [Nat.zero_add, List.nil_append, List.mem_append]
    exact Or.inr (Or.inr (Or.inl hm))

/-- The places of a kind are all ways down to a tree of that kind. -/
theorem mem_spots : s ∈ t.spots k ↔ Leads t s ∧ s.tree.kind = k := by
  constructor
  · exact leads_of_mem t
  · rintro ⟨h, rfl⟩
    exact mem_of_leads h

theorem leads_leaves (h : Leads t s) : ∃ back, t.leaves = s.ahead ++ s.tree.leaves ++ back := by
  induction h with
  | here t => exact ⟨[], by simp⟩
  | @child k cs ds c s _ ih =>
    obtain ⟨back, hb⟩ := ih
    exact ⟨back ++ leavesAll ds, by simp [leaves, leavesAll_append, leavesAll, hb, Spot.under]⟩

theorem within_append_right (h : Within ds before u after) (cs : List Tree) :
    Within (cs ++ ds) (leavesAll cs ++ before) u after := by
  induction cs with
  | nil => exact h
  | cons c cs ih =>
    rw [leavesAll, List.append_assoc]
    exact .tail c ih

theorem leads_within (h : Leads t s) : ∃ after, Within [t] s.ahead s.tree after := by
  induction h with
  | here t => exact ⟨[], .head t []⟩
  | @child k cs ds c s _ ih =>
    obtain ⟨after, hc⟩ := ih
    exact ⟨_, .inside k [] (within_append_right (within_append_left hc ds) cs)⟩

/-- Below a node, what a way leads to stands among the children or below them. -/
theorem leads_below (h : Leads (node k cs) s) (hk : s.tree.kind ≠ k) :
    ∃ after, Within cs s.ahead s.tree after := by
  obtain ⟨after, hw⟩ := leads_within h
  generalize s.ahead = ahead at hw
  generalize s.tree = u at hw hk
  cases hw with
  | head => exact (hk rfl).elim
  | inside _ _ hw => exact ⟨_, hw⟩
  | tail _ hw => cases hw

/-- Of two members of a list, they are one, or either stands behind the other. -/
theorem split_cases {α : Type} {a b : α} {as bs xs ys : List α}
    (h : as ++ a :: xs = bs ++ b :: ys) :
    (as = bs ∧ a = b ∧ xs = ys) ∨ (∃ mid, bs = as ++ a :: mid ∧ xs = mid ++ b :: ys) ∨
      ∃ mid, as = bs ++ b :: mid ∧ ys = mid ++ a :: xs := by
  rcases List.append_eq_append_iff.mp h with ⟨mid, rfl, hm⟩ | ⟨mid, rfl, hm⟩
  · cases mid with
    | nil =>
      obtain ⟨rfl, rfl⟩ := List.cons.inj hm
      exact Or.inl ⟨by simp, rfl, rfl⟩
    | cons c mid =>
      obtain ⟨rfl, rfl⟩ := List.cons.inj hm
      exact Or.inr (Or.inl ⟨mid, rfl, rfl⟩)
  · cases mid with
    | nil =>
      obtain ⟨rfl, rfl⟩ := List.cons.inj hm
      exact Or.inl ⟨by simp, rfl, rfl⟩
    | cons c mid =>
      obtain ⟨rfl, rfl⟩ := List.cons.inj hm
      exact Or.inr (Or.inr ⟨mid, rfl, rfl⟩)

/-- What is in a child ends before the children behind it begin. -/
theorem under_ahead (h : Leads c s) (cs mid : List Tree) (n m : Nat) (r : Spot) :
    ∃ between, (r.under m (leavesAll (cs ++ c :: mid))).ahead =
      (s.under n (leavesAll cs)).ahead ++ s.tree.leaves ++ between := by
  obtain ⟨back, hc⟩ := leads_leaves h
  refine ⟨back ++ leavesAll mid ++ r.ahead, ?_⟩
  simp [Spot.under, leavesAll_append, leavesAll, hc]

/-- Of two places in a tree, one is at or below the other, or one ends before the other begins. -/
theorem leads_apart (hs : Leads t s) (hr : Leads t r) :
    (∃ q, Leads s.tree q ∧ r = s.within q) ∨ (∃ q, Leads r.tree q ∧ s = r.within q) ∨
      (∃ mid, r.ahead = s.ahead ++ s.tree.leaves ++ mid) ∨
        ∃ mid, s.ahead = r.ahead ++ r.tree.leaves ++ mid := by
  induction hs generalizing r with
  | here t => exact Or.inl ⟨r, hr, rfl⟩
  | @child k cs ds c s hs ih =>
    have hs' : Leads (node k (cs ++ c :: ds)) (s.under cs.length (leavesAll cs)) :=
      .child k cs ds hs
    generalize ht : node k (cs ++ c :: ds) = t at hr hs'
    cases hr with
    | here => exact Or.inr (Or.inl ⟨_, hs', rfl⟩)
    | @child l cs' ds' c' r hr =>
      rcases split_cases (node.inj ht).2 with ⟨rfl, rfl, rfl⟩ | ⟨mid, rfl, -⟩ | ⟨mid, rfl, -⟩
      · rcases ih hr with ⟨q, hq, rfl⟩ | ⟨q, hq, rfl⟩ | ⟨mid, hm⟩ | ⟨mid, hm⟩
        · exact Or.inl ⟨q, hq, by simp [Spot.under, Spot.within]⟩
        · exact Or.inr (Or.inl ⟨q, hq, by simp [Spot.under, Spot.within]⟩)
        · exact Or.inr (Or.inr (Or.inl ⟨mid, by simp [Spot.under, hm]⟩))
        · exact Or.inr (Or.inr (Or.inr ⟨mid, by simp [Spot.under, hm]⟩))
      · exact Or.inr (Or.inr (Or.inl (under_ahead hs _ mid _ _ r)))
      · exact Or.inr (Or.inr (Or.inr (under_ahead hr _ mid _ _ s)))

/-- A way down that goes on below a place leads on from the tree there. -/
theorem leads_on {more : List Nat} (hs : Leads t s) (hr : Leads t r)
    (h : r.path = s.path ++ more) : ∃ q, Leads s.tree q ∧ r = s.within q := by
  induction hs generalizing r with
  | here t => exact ⟨r, hr, rfl⟩
  | @child k cs ds c s hs ih =>
    generalize ht : node k (cs ++ c :: ds) = t at hr
    cases hr with
    | here => cases h
    | @child l cs' ds' c' r hr =>
      obtain ⟨hlength, hpath⟩ := List.cons.inj h
      obtain ⟨rfl, hc⟩ := List.append_inj (node.inj ht).2 hlength.symm
      obtain ⟨rfl, -⟩ := List.cons.inj hc
      obtain ⟨q, hq, rfl⟩ := ih hr hpath
      exact ⟨q, hq, by simp [Spot.under, Spot.within]⟩

/-- A way down to another tree has a first step. -/
theorem leads_path (h : Leads t s) : s.tree = t ∨ ∃ n more, s.path = n :: more := by
  cases h with
  | here => exact Or.inl rfl
  | child k cs ds h => exact Or.inr ⟨_, _, rfl⟩

/-- Every node among some trees or below them is of a kind of nodes. -/
def Proper (cs : List Tree) : Prop :=
  ∀ before k ds after, Within cs before (node k ds) after → k.isNode = true

theorem proper_head (h : Proper (node k ds :: cs)) : k.isNode = true := h _ _ _ _ (.head _ cs)

theorem proper_inside (h : Proper (node k ds :: cs)) : Proper ds :=
  fun _ _ _ _ hw => h _ _ _ _ (.inside k cs hw)

theorem proper_tail (h : Proper (c :: cs)) : Proper cs := fun _ _ _ _ hw => h _ _ _ _ (.tail c hw)

theorem proper_alone (h : Proper (c :: cs)) : Proper [c] :=
  fun _ _ _ _ hw => h _ _ _ _ (within_append_left hw cs)

theorem proper_within (h : Proper cs) (hu : Within cs before u after) : Proper [u] := by
  intro before' l es after' hw
  cases hw with
  | head => exact h _ _ _ _ hu
  | inside _ _ hw => exact h _ _ _ _ (within_trans hu hw)
  | tail _ hw => cases hw

/-- What is not listed is a leaf. -/
theorem leaf_of_not_named (h : Proper (c :: cs)) (hc : ¬ c.kind.isNamed = true) :
    ∃ k x, c = leaf k x ∧ ¬ k.isNamed = true := by
  cases c with
  | leaf k x => exact ⟨k, x, rfl, hc⟩
  | node k ds => exact (hc (node_named (proper_head h))).elim

mutual

/-- A walk through the elements of a kind goes from place to place. -/
theorem walk_spots (hk : k.isNamed = true) (t : Tree) (start : Nat) (h : Proper [t]) :
    ((t.elementAt start).walk fun l => l = k) =
      (t.spots k).map fun s => s.tree.elementAt (start + (Token.spelled s.ahead).bytes) := by
  cases t with
  | leaf l x =>
    by_cases hl : l = k <;>
      simp [elementAt, Element.walk, Element.walkAll, spots, hl, Token.spelled, Text.bytes]
  | node l cs =>
    have hcs := walkAll_spots hk cs start 0 [] (proper_inside h)
    rw [show (Token.spelled []).bytes = 0 from rfl, Nat.add_zero] at hcs
    rw [elementAt, Element.walk, hcs, spots, List.map_append]
    congr 1
    by_cases hl : l = k <;> simp [elementAt, hl, Token.spelled, Text.bytes]

theorem walkAll_spots (hk : k.isNamed = true) (cs : List Tree) (start place : Nat)
    (ahead : List Token) (h : Proper cs) :
    Element.walkAll (fun l => l = k) (elementsAt (start + (Token.spelled ahead).bytes) cs) =
      (spotsAll k place ahead cs).map fun s =>
        s.tree.elementAt (start + (Token.spelled s.ahead).bytes) := by
  cases cs with
  | nil => rfl
  | cons c cs =>
    have hc := walk_spots hk c (start + (Token.spelled ahead).bytes) (proper_alone h)
    have hcs := walkAll_spots hk cs start (place + 1) (ahead ++ c.leaves) (proper_tail h)
    rw [Token.spelled_append, Text.bytes_append, Element.leaves_bytes, ← Nat.add_assoc] at hcs
    rw [elementsAt, spotsAll, List.map_append, ← hcs, List.map_map]
    split
    · rw [Element.walkAll, hc]
      congr 1
      apply List.map_congr_left
      intro s _
      simp [Spot.under, Token.spelled_append, Text.bytes_append, Nat.add_assoc]
    · next hn =>
      obtain ⟨l, x, rfl, hl⟩ := leaf_of_not_named h hn
      have hne : l ≠ k := fun he => hl (he ▸ hk)
      simp [spots, hne]

end

/-- The tokens of a kind below some trees. -/
def tokens (k : Kind) (cs : List Tree) : List Token := (leavesAll cs).filter fun l => l.kind = k

mutual

/-- The outermost elements of a kind of tokens are the tokens of that kind. -/
theorem outermost_tokens (hk : k.isNamed = true) (hn : k.isNode = false) (t : Tree)
    (h : Proper [t]) : t.outermost k = (t.leaves.filter fun l => l.kind = k).map ofToken := by
  cases t with
  | leaf l x => by_cases hl : l = k <;> simp [outermost, leaves, ofToken, hl]
  | node l cs =>
    have hl : l ≠ k := by
      rintro rfl
      exact absurd (proper_head h) (by simp [hn])
    rw [outermost, if_neg hl, outermostAll_tokens hk hn cs (proper_inside h)]
    rfl

theorem outermostAll_tokens (hk : k.isNamed = true) (hn : k.isNode = false) (cs : List Tree)
    (h : Proper cs) :
    outermostAll k cs = (tokens k cs).map ofToken := by
  cases cs with
  | nil => rfl
  | cons c cs =>
    have hc := outermost_tokens hk hn c (proper_alone h)
    have hcs := outermostAll_tokens hk hn cs (proper_tail h)
    rw [outermostAll, tokens, leavesAll, List.filter_append, List.map_append, hcs]
    split
    · rw [hc]
      rfl
    · next hnot =>
      obtain ⟨l, x, rfl, hl⟩ := leaf_of_not_named h hnot
      have hne : l ≠ k := fun he => hl (he ▸ hk)
      simp [leaves, hne, tokens]

end

end LogQuery.Tree

namespace LogQuery

open LogQuery.Tree (Proper Within)

variable {query : Text} {before after : List Token} {u : Tree} {cs : List Tree} {k : Kind}

theorem parse_proper (query : Text) : Proper (parse query).children :=
  fun _ _ _ _ hw => within_node hw

theorem root_proper (query : Text) : Proper [parse query] := by
  intro before l ds after h
  rw [parse_children] at h
  cases h with
  | head => decide
  | inside _ _ h => exact within_node h
  | tail _ h => cases h

/-- The element of what stands at a place. -/
def Tree.Spot.element (s : Tree.Spot) : Element :=
  s.tree.elementAt (Token.spelled s.ahead).bytes

/-- The elements of a kind are what stands at the places of that kind. -/
theorem elements_spots (query : Text) (hk : k.isNamed = true) :
    elements query (some [k]) = ((parse query).spots k).map Tree.Spot.element := by
  have hw := Tree.walk_spots hk (parse query) 0 (root_proper query)
  simp only [Nat.zero_add] at hw
  rw [elements_walk]
  exact hw

theorem firstSelector_spots (query : Text) :
    firstSelector? query = ((parse query).spots .selector).head?.map Tree.Spot.element := by
  rw [firstSelector?, elements_spots query rfl, List.head?_map]

theorem first_element {first : Tree.Spot} {rest : List Tree.Spot}
    (h : (parse query).spots .selector = first :: rest) :
    firstSelector? query = some first.element := by
  rw [firstSelector_spots, h]
  rfl

/-- Below the root, what stands at a place. -/
theorem spot_within {s : Tree.Spot} (hk : k ≠ .logQl) (h : s ∈ (parse query).spots k) :
    s.tree.kind = k ∧ ∃ after, Within (parse query).children s.ahead s.tree after := by
  obtain ⟨hl, rfl⟩ := Tree.mem_spots.mp h
  rw [parse_children] at hl
  exact ⟨rfl, Tree.leads_below hl hk⟩

theorem spot_node {s : Tree.Spot} (hn : k.isNode = true) (hk : k ≠ .logQl)
    (h : s ∈ (parse query).spots k) :
    ∃ cs after, s.tree = .node k cs ∧
      Within (parse query).children s.ahead (.node k cs) after := by
  obtain ⟨rfl, after, hw⟩ := spot_within hk h
  obtain ⟨path, ahead, u⟩ := s
  cases u with
  | leaf l x => exact absurd hn (Bool.eq_false_iff.mp (within_leaf hw))
  | node l cs => exact ⟨cs, after, rfl, hw⟩

end LogQuery
