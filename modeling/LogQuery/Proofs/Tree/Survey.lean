import LogQuery.Tree.Build

/-! Building with marks. Every node that is built keeps the place of the start it comes from, and
every leaf the place of its token event. Without the marks it is the building of the tree. -/
namespace LogQuery

/-- A tree whose nodes and leaves know the events they come from. Trivia come from none. -/
inductive Marked where
  | trivia (t : Token)
  | token (place : Nat) (t : Token)
  | node (place : Nat) (kind : Kind) (children : List Marked)

namespace Marked

def place? : Marked → Option Nat
  | trivia _ => none
  | token place _ => some place
  | node place _ _ => some place

mutual

def tree : Marked → Tree
  | trivia t => .ofToken t
  | token _ t => .ofToken t
  | node _ k cs => .node k (treeAll cs)

def treeAll : List Marked → List Tree
  | [] => []
  | c :: cs => c.tree :: treeAll cs

end

theorem treeAll_eq (cs : List Marked) : treeAll cs = cs.map tree := by
  induction cs with
  | nil => rfl
  | cons c cs ih => rw [treeAll, ih, List.map_cons]

end Marked

/-- An open node, by the place of its start, with its children from the newest. -/
structure Frame where
  place : Nat
  kind : Kind
  children : List Marked

/-- A tree under construction, with marks. -/
structure Survey where
  tokens : List Token
  stack : List Frame
  closed : List Marked
  /-- Starts that were already opened from the inside. -/
  opened : List Nat
  /-- The starts of the nodes that were closed, in this order. -/
  closings : List Nat

namespace Survey

open LogQuery.Tree (Building enclosing? buildStep? buildFrom?)

def ofTokens (ts : List Token) : Survey := ⟨ts, [], [], [], []⟩

/-- The open nodes by their starts, from the innermost. -/
def opens (s : Survey) : List (Nat × Kind) := s.stack.map fun f => (f.place, f.kind)

def add (c : Marked) (s : Survey) : Survey :=
  match s.stack with
  | [] => { s with closed := c :: s.closed }
  | f :: more => { s with stack := { f with children := c :: f.children } :: more }

def addTrivia (s : Survey) : Survey :=
  { ((s.tokens.takeWhile Token.isTrivia).foldl (fun s t => s.add (.trivia t)) s) with
    tokens := s.tokens.dropWhile Token.isTrivia }

def addToken (place : Nat) (k : Kind) (s : Survey) : Survey :=
  match s.tokens with
  | [] => s
  | t :: ts => { s.add (.token place ⟨k, t.text⟩) with tokens := ts }

def enter (o : Nat × Kind) (s : Survey) : Survey := { s with stack := ⟨o.1, o.2, []⟩ :: s.stack }

/-- Opens nodes from the last one, so that the first is the innermost. -/
def openAll (os : List (Nat × Kind)) (s : Survey) : Survey := os.foldr enter s

/-- Opens a node at its start, and with it the starts that enclose it from there on. -/
def openChain (o : Nat × Kind) (outer : List (Nat × Kind)) (s : Survey) : Survey :=
  let s := if s.stack.isEmpty then s else s.addTrivia
  { s with opened := outer.map Prod.fst ++ s.opened }.openAll (o :: outer)

def close? (s : Survey) : Option Survey :=
  match s.stack with
  | [] => none
  | f :: more =>
    some ({ s with stack := more, closings := s.closings ++ [f.place] }.add
      (.node f.place f.kind f.children.reverse))

def step? (events : List Event) (place : Nat) (e : Event) (s : Survey) : Option Survey :=
  match e with
  | .placeholder => some s
  | .token k => some (s.addTrivia.addToken place k)
  | .finish => (if s.stack.length = 1 then s.addTrivia else s).close?
  | .start k parent =>
    if s.opened.contains place then some s
    else
      (enclosing? events place s.opened events.length parent).map fun outer =>
        s.openChain (place, k) outer

def from? (events : List Event) : Nat → List Event → Survey → Option Survey
  | _, [], s => some s
  | place, e :: es, s => (step? events place e s).bind (from? events (place + 1) es)

theorem openChain_eq (o : Nat × Kind) (outer : List (Nat × Kind)) (s : Survey) :
    ∃ u, (u = s ∨ u = s.addTrivia) ∧ s.openChain o outer =
      { u with opened := outer.map Prod.fst ++ u.opened }.openAll (o :: outer) := by
  unfold openChain
  split
  · exact ⟨s, .inl rfl, rfl⟩
  · exact ⟨s.addTrivia, .inr rfl, rfl⟩

/-- What is built, without the marks. -/
def building (s : Survey) : Building :=
  ⟨s.tokens, s.stack.map fun f => (f.kind, f.children.map Marked.tree), s.closed.map Marked.tree,
    s.opened⟩

section Building

variable {events : List Event} {place : Nat} {e : Event} {s : Survey}

theorem add_building (c : Marked) (s : Survey) : (s.add c).building = s.building.add c.tree := by
  obtain ⟨ts, _ | ⟨f, more⟩, closed, opened, closings⟩ := s <;> rfl

theorem addTrivia_building (s : Survey) : s.addTrivia.building = s.building.addTrivia := by
  have hadd : ∀ (ts : List Token) (s : Survey),
      (ts.foldl (fun s t => s.add (.trivia t)) s).building =
        ts.foldl (fun b t => b.add (.ofToken t)) s.building := by
    intro ts
    induction ts with
    | nil => exact fun _ => rfl
    | cons t ts ih =>
      intro s
      rw [List.foldl_cons, ih, add_building, List.foldl_cons]
      rfl
  have h := hadd (s.tokens.takeWhile Token.isTrivia) s
  rw [Building.addTrivia]
  change _ = { (s.tokens.takeWhile Token.isTrivia).foldl _ s.building with
    tokens := s.tokens.dropWhile Token.isTrivia }
  rw [← h]
  rfl

theorem addToken_building (place : Nat) (k : Kind) (s : Survey) :
    (s.addToken place k).building = s.building.addToken k := by
  obtain ⟨_ | ⟨t, ts⟩, _ | ⟨f, more⟩, closed, opened, closings⟩ := s <;> rfl

theorem openAll_building (os : List (Nat × Kind)) (s : Survey) :
    (s.openAll os).building = s.building.openAll (os.map Prod.snd).reverse := by
  rw [Building.openAll, List.foldl_reverse]
  induction os with
  | nil => rfl
  | cons o os ih =>
    have he : (s.openAll (o :: os)).building =
        { (s.openAll os).building with stack := (o.2, []) :: (s.openAll os).building.stack } := rfl
    rw [he, ih]
    rfl

theorem openChain_building (o : Nat × Kind) (outer : List (Nat × Kind)) (s : Survey) :
    (s.openChain o outer).building =
      { if s.building.stack.isEmpty then s.building else s.building.addTrivia with
        opened := outer.map Prod.fst ++
          (if s.building.stack.isEmpty then s.building else s.building.addTrivia).opened }.openAll
        ((outer.map Prod.snd).reverse ++ [o.2]) := by
  have he : s.building.stack.isEmpty = s.stack.isEmpty := List.isEmpty_map ..
  rw [openChain, openAll_building, List.map_cons, List.reverse_cons, he]
  split
  · rfl
  · rw [← addTrivia_building]
    rfl

theorem close_building (s : Survey) : s.building.close? = s.close?.map building := by
  obtain ⟨ts, _ | ⟨f, more⟩, closed, opened, closings⟩ := s
  · rfl
  · have hb := add_building (.node f.place f.kind f.children.reverse)
      ⟨ts, more, closed, opened, closings ++ [f.place]⟩
    rw [Marked.tree, Marked.treeAll_eq, List.map_reverse] at hb
    exact congrArg some hb.symm

/-- What is built with marks is what is built. -/
theorem step_building (s : Survey) :
    buildStep? events place e s.building = (step? events place e s).map building := by
  cases e with
  | placeholder => rfl
  | token k =>
    simp only [buildStep?, step?, Option.map_some]
    rw [addToken_building, addTrivia_building]
  | finish =>
    have hl : s.building.stack.length = s.stack.length := List.length_map ..
    simp only [buildStep?, step?, hl]
    split
    · rw [← addTrivia_building, close_building]
    · rw [close_building]
  | start k parent =>
    have ho : s.building.opened = s.opened := rfl
    simp only [buildStep?, step?, ho]
    split
    · rfl
    · rw [Option.map_map]
      congr 1
      funext outer
      exact (openChain_building (place, k) outer s).symm

theorem from_building (es : List Event) (s : Survey) :
    buildFrom? events place es s.building = (from? events place es s).map building := by
  induction es generalizing place s with
  | nil => rfl
  | cons e es ih =>
    rw [buildFrom?, from?, step_building, Option.bind_map, Option.map_bind]
    congr 1
    funext t
    exact ih t

end Building

end Survey

end LogQuery
