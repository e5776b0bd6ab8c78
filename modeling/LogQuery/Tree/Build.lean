import LogQuery.Event

/-! Trees built from events and the tokens of a query, blanks and comments included. -/
namespace LogQuery.Tree

/-- A tree under construction: open nodes from the innermost, each with its children from the
newest. -/
structure Building where
  tokens : List Token
  stack : List (Kind × List Tree)
  closed : List Tree
  /-- Starts that were already opened from the inside. -/
  opened : List Nat

namespace Building

def add (t : Tree) (b : Building) : Building :=
  match b.stack with
  | [] => { b with closed := t :: b.closed }
  | (k, cs) :: more => { b with stack := (k, t :: cs) :: more }

def addTrivia (b : Building) : Building :=
  let trivia := b.tokens.takeWhile Token.isTrivia
  { (trivia.foldl (fun b t => b.add (.ofToken t)) b) with
    tokens := b.tokens.dropWhile Token.isTrivia }

/-- The next token under another kind. Past the last token nothing is added. -/
def addToken (k : Kind) (b : Building) : Building :=
  match b.tokens with
  | [] => b
  | t :: ts => { b.add (leaf k t.text) with tokens := ts }

def openAll (ks : List Kind) (b : Building) : Building :=
  { b with stack := ks.foldl (fun stack k => (k, []) :: stack) b.stack }

def close? (b : Building) : Option Building :=
  match b.stack with
  | [] => none
  | (k, cs) :: more => some ({ b with stack := more }.add (node k cs.reverse))

/-- What all open nodes would leave behind, from the oldest. -/
def remains (b : Building) : List Tree :=
  (b.stack.flatMap Prod.snd ++ b.closed).reverse

end Building

/-- The starts that enclose one another from `place` on, each of them later than `after` and not
used before. -/
def enclosing? (events : List Event) (after : Nat) (used : List Nat) :
    Nat → Option Nat → Option (List (Nat × Kind))
  | _, none => some []
  | 0, some _ => none
  | fuel + 1, some place =>
    if place ≤ after || used.contains place then none
    else
      match events[place]? with
      | some (.start k parent) =>
        (enclosing? events after (place :: used) fuel parent).map ((place, k) :: ·)
      | _ => none

def buildStep? (events : List Event) (place : Nat) (e : Event) (b : Building) : Option Building :=
  match e with
  | .placeholder => some b
  | .token k => some (b.addTrivia.addToken k)
  | .finish => (if b.stack.length = 1 then b.addTrivia else b).close?
  | .start k parent =>
    if b.opened.contains place then some b
    else
      (enclosing? events place b.opened events.length parent).map fun outer =>
        let b := if b.stack.isEmpty then b else b.addTrivia
        { b with opened := outer.map Prod.fst ++ b.opened }.openAll
          ((outer.map Prod.snd).reverse ++ [k])

def buildFrom? (events : List Event) : Nat → List Event → Building → Option Building
  | _, [], b => some b
  | place, e :: es, b => (buildStep? events place e b).bind (buildFrom? events (place + 1) es)

/-- The one node that events describe, if they describe one. -/
def ofEvents? (tokens : List Token) (events : List Event) : Option Tree :=
  match (buildFrom? events 0 events ⟨tokens, [], [], []⟩).map Building.remains with
  | some [.node k cs] => some (.node k cs)
  | _ => none

end LogQuery.Tree
