import LogQuery.Recording.Expr

/-! Recording events by hand, one action after another. -/
namespace LogQuery

/-- One action on a recorder. Markers and completed nodes are given by their numbers. -/
inductive Action where
  | start
  | bump
  | bumpAs (kind : Kind)
  | eat (kind : Kind)
  | isAt (kind : Kind)
  | isAtAny (kinds : List Kind)
  | isSpelled (n : Nat) (word : Text)
  | peek (n : Nat)
  | complete (marker : Nat) (kind : Kind)
  | abandon (marker : Nat)
  | drop (marker : Nat)
  | precede (completed : Nat)
  | enter (times : Nat)
  | leave (times : Nat)

/-- What an action answers. -/
inductive Action.Answer where
  | done
  | number (n : Nat)
  | flag (b : Bool)
  | token (kind : Kind) (text : Text)
  /-- A marker was dropped without a node. -/
  | leaked
  | noMarker
  | noCompleted

namespace Recorder

/-- Records what is left of the tokens as a query. -/
def finish (r : Recorder) : Recorder :=
  match Recording.root r with
  | some (_, r) => r
  | none => r

def enterTimes : Nat → Recorder → Nat × Recorder
  | 0, r => (0, r)
  | n + 1, r =>
    match r.enter with
    | (true, r) =>
      let (entered, r) := enterTimes n r
      (entered + 1, r)
    | (false, r) => (0, r)

def run (r : Recorder) : Action → Action.Answer × Recorder
  | .start => (.number r.markers.length, r.start)
  | .bump => (.done, r.bump)
  | .bumpAs k => (.done, r.bumpAs k)
  | .eat k => if r.kindAt 0 = k then (.flag true, r.bump) else (.flag false, r)
  | .isAt k => (.flag (r.kindAt 0 = k), r)
  | .isAtAny ks => (.flag (ks.contains (r.kindAt 0)), r)
  | .isSpelled n word => (.flag (r.spelledAt n word), r)
  | .peek n => (.token (r.kindAt n) (r.textAt n), r)
  | .complete m k =>
    match r.marker? m with
    | some place => (.number r.completed.length, r.complete m place k)
    | none => (.noMarker, r)
  | .abandon m =>
    match r.marker? m with
    | some place => (.done, r.abandon m place)
    | none => (.noMarker, r)
  | .drop m =>
    match r.marker? m with
    | some _ => (.leaked, r.useUp m)
    | none => (.noMarker, r)
  | .precede c =>
    match r.completed[c]? with
    | some place => (.number r.markers.length, r.precede place)
    | none => (.noCompleted, r)
  | .enter times =>
    let (entered, r) := enterTimes times r
    (.number entered, r)
  | .leave times => (.done, { r with depth := r.depth - times })

/-- Some actions, one after another. -/
def runAll (r : Recorder) (as : List Action) : Recorder := as.foldl (fun r a => (r.run a).2) r

end Recorder

end LogQuery
