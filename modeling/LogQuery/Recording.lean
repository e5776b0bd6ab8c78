import LogQuery.Event.Marker

/-! Recording events as the grammar goes: a run on a recorder that has no result if a marker is not
used as it is meant to, if a rule is entered at tokens that it does not take, or if a limit on a
loop is met. -/
namespace LogQuery

abbrev Recording (α : Type) := StateT Recorder Option α

namespace Recording

open Grammar (Look atKind)

variable {α : Type}

def stuck : Recording α := fun _ => none

def start : Recording Nat := fun r => some (r.markers.length, r.start)

def bump : Recording Unit := fun r => some ((), r.bump)

def bumpAs (k : Kind) : Recording Unit := fun r => some ((), r.bumpAs k)

def bumpWord (w : Keyword) : Recording Unit := bumpAs (.keyword w)

/-- Makes a node of a marker, whose own placeholder is to stand at its place. -/
def complete (m : Nat) (k : Kind) : Recording Nat := fun r =>
  match r.marker? m with
  | some place =>
    if r.events[place]? = some .placeholder then some (r.completed.length, r.complete m place k)
    else none
  | none => none

def abandon (m : Nat) : Recording Unit := fun r =>
  match r.marker? m with
  | some place =>
    if r.events.getLast? = some .placeholder ∨ place + 1 ≠ r.events.length then
      some ((), r.abandon m place)
    else none
  | none => none

def precede (c : Nat) : Recording Nat := fun r =>
  match r.completed[c]? with
  | some place => some (r.markers.length, r.precede place)
  | none => none

def enter : Recording Bool := fun r => some r.enter

def leave : Recording Unit := fun r => some ((), r.leave)

/-- Goes on as the tokens ahead tell. -/
def ahead (f : List Token → Recording α) : Recording α := fun r => f r.rest r

def when (p : Look) (a : Recording Unit) : Recording Unit :=
  ahead fun ts => if p ts then a else pure ()

def either (p : Look) (a b : Recording α) : Recording α := ahead fun ts => if p ts then a else b

/-- Has no result where the tokens ahead are not those that a rule takes for granted. -/
def assert (p : Look) : Recording Unit := either p (pure ()) stuck

/-- Repeats as long as the tokens ahead allow it. Each time around is to take a token, so that the
limit is not met. -/
def many (p : Look) (a : Recording Unit) : Recording Unit := ahead fun ts => go (ts.length + 1)
where
  go : Nat → Recording Unit
    | 0 => stuck
    | limit + 1 => when p (do a; go limit)

/-- A node of the kind that its contents turn out to have. -/
def nodeBy (a : Recording Kind) : Recording Kind := do
  let m ← start
  let k ← a
  let _ ← complete m k
  return k

def closed (k : Kind) (a : Recording Unit) : Recording Nat := do
  let m ← start
  a
  complete m k

def node (k : Kind) (a : Recording Unit) : Recording Unit := do
  let _ ← closed k a

/-- An empty error node where something was expected. -/
def missing : Recording Unit := node .error (pure ())

def optional (k : Kind) : Recording Unit := when (atKind k) bump

def expect (k : Kind) : Recording Unit := either (atKind k) bump missing

def atSkipped (stops : List Kind) : Look
  | t :: _ => !stops.contains t.kind
  | [] => false

/-- One error node around all tokens before the first of a stopping kind, if there are any. -/
def skipUntil (stops : List Kind) : Recording Unit :=
  when (atSkipped stops) (node .error (many (atSkipped stops) bump))

def orMissing (a : Recording (Option α)) : Recording Unit := do
  let x ← a
  if x.isNone then missing

/-- Past the last level, all that is left becomes one error node. -/
def nested (a : Recording (Option α)) : Recording (Option α) := do
  if ← enter then
    let x ← a
    leave
    return x
  else
    skipUntil []
    return none

/-- A node if the tokens ahead begin one, with what is known of its contents. -/
def attempt (k : Kind) (choose : List Token → Option (Recording α)) :
    Recording (Option (Nat × α)) := do
  let m ← start
  ahead fun ts =>
    match choose ts with
    | some a => do
      let x ← a
      let c ← complete m k
      return some (c, x)
    | none => do
      abandon m
      return none

/-- A sign between two operands: how it is recorded, and how strongly it binds the operands on its
left and right. -/
structure Join where
  mark : Recording Unit
  left : Nat
  right : Nat

/-- Operands joined by signs that bind at least as strongly as `least`. Each time around, the node
on the left is preceded by one that encloses it. -/
def climb (join : List Token → Option Join) (operand : Nat → Recording Unit)
    (close : Nat → Recording (Nat × α)) (least : Nat) : Nat → Nat × α → Recording (Nat × α)
  | 0, _ => stuck
  | limit + 1, lhs => ahead fun ts =>
    match join ts with
    | none => return lhs
    | some j =>
      if j.left < least then return lhs
      else do
        let m ← precede lhs.1
        j.mark
        operand j.right
        let lhs ← close m
        climb join operand close least limit lhs

def chain (first : Recording (Option (Nat × α))) (join : List Token → Option Join)
    (operand : Nat → Recording Unit) (close : Nat → Recording (Nat × α)) (least : Nat) :
    Recording (Option (Nat × α)) := do
  match ← first with
  | none => return none
  | some lhs => ahead fun ts => do
    let lhs ← climb join operand close least (ts.length + 1) lhs
    return some lhs

end Recording
end LogQuery
