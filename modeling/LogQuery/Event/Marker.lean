import LogQuery.Event
import LogQuery.Grammar.Expr

/-! Recording events. A marker keeps the place where a node may begin; it is used up when the node is
completed, abandoned or dropped. -/
namespace LogQuery

structure Recorder where
  tokens : List Token
  /-- How many tokens are recorded. -/
  position : Nat
  events : List Event
  /-- How many levels of nesting are entered. -/
  depth : Nat
  /-- How many were entered at the deepest point so far. -/
  deepest : Nat
  /-- The tokens that were left where a level was first refused. -/
  refused : Option (List Token)
  /-- The place of each marker, by its number. A marker that is used up has none. -/
  markers : List (Option Nat)
  /-- The start of each completed node, by its number. -/
  completed : List Nat

namespace Recorder

def ofTokens (ts : List Token) : Recorder := ⟨ts, 0, [], 0, 0, none, [], []⟩

def rest (r : Recorder) : List Token := r.tokens.drop r.position

def kindAt (r : Recorder) (n : Nat) : Kind := Grammar.kindAt n r.rest

def textAt (r : Recorder) (n : Nat) : Text := (r.rest[n]?.map Token.text).getD []

def spelledAt (r : Recorder) (n : Nat) (word : Text) : Bool :=
  r.kindAt n = .identifier && r.textAt n = word

def atEnd (r : Recorder) : Bool := r.tokens.length ≤ r.position

def marker? (r : Recorder) (m : Nat) : Option Nat := (r.markers[m]?).join

def useUp (r : Recorder) (m : Nat) : Recorder := { r with markers := r.markers.set m none }

/-- A new marker, with a placeholder of its own at the end of the events. -/
def start (r : Recorder) : Recorder :=
  { r with
    events := r.events ++ [.placeholder]
    markers := r.markers ++ [some r.events.length] }

def bumpAs (r : Recorder) (k : Kind) : Recorder :=
  if r.atEnd then r
  else { r with events := r.events ++ [.token k], position := r.position + 1 }

def bump (r : Recorder) : Recorder := r.bumpAs (r.kindAt 0)

def complete (r : Recorder) (m place : Nat) (k : Kind) : Recorder :=
  { r.useUp m with
    events := r.events.set place (.start k none) ++ [.finish]
    completed := r.completed ++ [place] }

/-- Takes the placeholder back if nothing was recorded after it. -/
def abandon (r : Recorder) (m place : Nat) : Recorder :=
  { r.useUp m with
    events := if place + 1 = r.events.length then r.events.dropLast else r.events }

/-- A new marker for a node around one that is completed. -/
def precede (r : Recorder) (place : Nat) : Recorder :=
  let enclosed :=
    match r.events[place]? with
    | some (.start k _) => r.events.set place (.start k (some r.events.length))
    | _ => r.events
  { r with
    events := enclosed ++ [.placeholder]
    markers := r.markers ++ [some r.events.length] }

/-- One level deeper, and whether there was one. -/
def enter (r : Recorder) : Bool × Recorder :=
  if r.depth < Grammar.maxLevels then
    (true, { r with depth := r.depth + 1, deepest := max r.deepest (r.depth + 1) })
  else (false, { r with refused := r.refused <|> some r.rest })

def leave (r : Recorder) : Recorder := { r with depth := r.depth - 1 }

end Recorder
end LogQuery
