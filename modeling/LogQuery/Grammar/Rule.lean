import LogQuery.Tree

/-! Rules that turn the front of a list of tokens into trees. A rule never fails: what is missing
or unexpected is recorded as an error node. -/
namespace LogQuery.Grammar

/-- What a rule made of its tokens, and the tokens it left. -/
structure Found where
  trees : List Tree
  rest : List Token
  /-- How many levels of nesting were entered at the deepest point. -/
  depth : Nat
  /-- The tokens that were left where a level was first refused. -/
  cut : Option (List Token)

abbrev Rule := List Token → Found

abbrev Look := List Token → Bool

def kindAt (n : Nat) (ts : List Token) : Kind := (ts[n]?.map Token.kind).getD .eof

def wordAt (n : Nat) (w : Keyword) (ts : List Token) : Bool := (ts[n]?.map (·.spells w)).getD false

@[simp] theorem kindAt_nil (n : Nat) : kindAt n [] = .eof := rfl

@[simp] theorem kindAt_zero (t : Token) (ts : List Token) : kindAt 0 (t :: ts) = t.kind := rfl

@[simp] theorem kindAt_succ (n : Nat) (t : Token) (ts : List Token) :
    kindAt (n + 1) (t :: ts) = kindAt n ts := rfl

@[simp] theorem wordAt_nil (n : Nat) (w : Keyword) : wordAt n w [] = false := rfl

@[simp] theorem wordAt_zero (w : Keyword) (t : Token) (ts : List Token) :
    wordAt 0 w (t :: ts) = t.spells w := rfl

@[simp] theorem wordAt_succ (n : Nat) (w : Keyword) (t : Token) (ts : List Token) :
    wordAt (n + 1) w (t :: ts) = wordAt n w ts := rfl

def atKind (k : Kind) : Look
  | t :: _ => t.kind = k
  | [] => false

def atAny (ks : List Kind) : Look
  | t :: _ => ks.contains t.kind
  | [] => false

def nothing : Rule := fun ts => ⟨[], ts, 0, none⟩

/-- Both findings, the second made of what the first left. -/
def Found.followed (f g : Found) : Found :=
  ⟨f.trees ++ g.trees, g.rest, max f.depth g.depth, f.cut <|> g.cut⟩

/-- The first finding's history with the second one's trees, which take up the first one's. -/
def Found.absorbed (f g : Found) : Found := ⟨g.trees, g.rest, max f.depth g.depth, f.cut <|> g.cut⟩

def andThen (a b : Rule) : Rule := fun ts =>
  let f := a ts
  f.followed (b f.rest)

def seq : List Rule → Rule
  | [] => nothing
  | r :: rs => andThen r (seq rs)

def when (p : Look) (r : Rule) : Rule := fun ts => if p ts then r ts else nothing ts

def either (p : Look) (a b : Rule) : Rule := fun ts => if p ts then a ts else b ts

/-- Repeats a rule as long as the tokens ahead allow it, at most once for each of them. -/
def many (p : Look) (r : Rule) : Rule := fun ts => go ts ts
where
  go : List Token → Rule
    | [] => nothing
    | _ :: limit => when p (andThen r (go limit))

def nodeBy (pick : List Tree → Kind) (r : Rule) : Rule := fun ts =>
  let f := r ts
  { f with trees := [.node (pick f.trees) f.trees] }

def node (k : Kind) (r : Rule) : Rule := nodeBy (fun _ => k) r

def bump : Rule
  | t :: ts => ⟨[.ofToken t], ts, 0, none⟩
  | [] => nothing []

/-- Takes a token as another kind. -/
def bumpAs (k : Kind) : Rule
  | t :: ts => ⟨[.leaf k t.text], ts, 0, none⟩
  | [] => nothing []

def bumpWord (w : Keyword) : Rule := bumpAs (.keyword w)

/-- An empty error node where something was expected. -/
def missing : Rule := node .error nothing

def optional (k : Kind) : Rule := when (atKind k) bump

def expect (k : Kind) : Rule := either (atKind k) bump missing

/-- One error node around all tokens before the first of a stopping kind, if there are any. -/
def skipUntil (stops : List Kind) : Rule := fun ts =>
  let skipped := ts.takeWhile fun t => !stops.contains t.kind
  match skipped with
  | [] => nothing ts
  | _ => ⟨[.node .error (skipped.map .ofToken)], ts.drop skipped.length, 0, none⟩

def Found.makes (k : Kind) (f : Found) : Bool :=
  match f.trees with
  | [t] => t.kind = k
  | _ => false

def Found.orMissing (k : Kind) (f : Found) : Found :=
  if f.makes k then f else f.followed (missing f.rest)

def orMissing (k : Kind) (r : Rule) : Rule := fun ts => (r ts).orMissing k

/-- Past the last level, all that is left becomes one error node. -/
def refuse : Rule := fun ts => { skipUntil [] ts with cut := some ts }

def deepen (r : Rule) : Rule := fun ts =>
  let f := r ts
  { f with depth := f.depth + 1 }

/-- A sign between two operands: what it takes from the tokens, and how strongly it binds the
operands on its left and right. -/
structure Join where
  mark : Rule
  left : Nat
  right : Nat

/-- Operands joined by signs that bind at least as strongly as `least`, from the left, with no more
signs than the limit has tokens. -/
def climb (join : List Token → Option Join) (wrap : List Tree → Tree) (operand : Nat → Rule)
    (least : Nat) : List Token → Tree → Rule
  | [], lhs, ts => ⟨[lhs], ts, 0, none⟩
  | _ :: limit, lhs, ts =>
    match join ts with
    | none => ⟨[lhs], ts, 0, none⟩
    | some j =>
      if j.left < least then ⟨[lhs], ts, 0, none⟩
      else
        let f := andThen j.mark (operand j.right) ts
        f.absorbed (climb join wrap operand least limit (wrap (lhs :: f.trees)) f.rest)

/-- A first operand, and where there is one, all that is joined to it. -/
def chain (first : Rule) (join : List Token → Option Join) (wrap : List Tree → Tree)
    (operand : Nat → Rule) (least : Nat) : Rule := fun ts =>
  let f := first ts
  match f.trees with
  | [lhs] => f.absorbed (climb join wrap operand least f.rest lhs f.rest)
  | _ => f

end LogQuery.Grammar
