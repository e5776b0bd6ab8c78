import LogQuery.Tree

/-! Trees written as a flat list of events. A node that was recognised only after its first child
starts behind it; the child's start names the event that encloses it. -/
namespace LogQuery

inductive Event where
  /-- A node begins. A parent, if given, is the place of the start that encloses it. -/
  | start (kind : Kind) (parent : Option Nat)
  | token (kind : Kind)
  | finish
  /-- The place of a start that was not made. -/
  | placeholder
  deriving DecidableEq, Repr

namespace Tree

/-- Joined expressions and filters are recognised by what follows their first child. -/
def followsFirst : Kind → Tree → Bool
  | .binOpExpr, node _ _ => true
  | .metricExpr, node .binOpExpr _ => true
  | .expr, node .metricExpr (node .binOpExpr _ :: _) => true
  | .labelFilter, node .labelFilter _ => true
  | _, _ => false

mutual

def eventCount : Tree → Nat
  | leaf _ _ => 1
  | node _ cs => eventCountAll cs + 2

def eventCountAll : List Tree → Nat
  | [] => 0
  | t :: ts => t.eventCount + eventCountAll ts

end

mutual

/-- The events of a tree whose first event stands at `place`. -/
def eventsAt (place : Nat) (parent : Option Nat) : Tree → List Event
  | leaf k _ => [.token k]
  | node k [] => [.start k parent, .finish]
  | node k (first :: more) =>
    if followsFirst k first then
      let own := place + first.eventCount
      first.eventsAt place (some own)
        ++ .start k parent :: eventsAtAll (own + 1) more ++ [.finish]
    else
      .start k parent :: first.eventsAt (place + 1) none
        ++ eventsAtAll (place + 1 + first.eventCount) more ++ [.finish]

def eventsAtAll (place : Nat) : List Tree → List Event
  | [] => []
  | t :: ts => t.eventsAt place none ++ eventsAtAll (place + t.eventCount) ts

end

def events (t : Tree) : List Event := t.eventsAt 0 none

end Tree
end LogQuery
