import LogQuery.Text.Alphanumeric

/-! Variables and the home directory in patterns of files. -/
namespace LogQuery

namespace Expansion

/-- A piece of a pattern: plain text, or a variable and what stands for it if it is not set. -/
inductive Part where
  | plain (t : Text)
  | variable (name : Text) (default : Option Text)
  deriving DecidableEq, Repr

def isNameChar (c : Char) : Bool := c = '_' || Text.isAlphanumeric c

/-- The variable that braces enclose. A default follows a name that is not empty. -/
def braced (inside : Text) : Part := go [] inside
where
  go (before : Text) : Text → Part
    | ':' :: '-' :: t =>
      if before.isEmpty then .variable inside none else .variable before.reverse (some t)
    | c :: t => go (c :: before) t
    | [] => .variable inside none

/-- The pieces of a pattern. Two dollar signs stand for one; one that opens no variable stays. -/
def parts : Nat → Text → List Part
  | 0, t => [.plain t]
  | _, [] => []
  | fuel + 1, '$' :: '{' :: t =>
    match t.dropWhile (· ≠ '}') with
    | [] => .plain ['$', '{'] :: parts fuel t
    | _ :: rest => braced (t.takeWhile (· ≠ '}')) :: parts fuel rest
  | fuel + 1, '$' :: '$' :: t => .plain ['$'] :: parts fuel t
  | fuel + 1, '$' :: t =>
    match t.takeWhile isNameChar with
    | [] => .plain ['$'] :: parts fuel t
    | name => .variable name none :: parts fuel (t.dropWhile isNameChar)
  | fuel + 1, c :: t => .plain [c] :: parts fuel t

def ofText (t : Text) : List Part := parts t.length t

end Expansion

/-- The variables of a user, and the directory that a tilde stands for. -/
structure Environment (m : Type → Type) where
  home : Option Text
  get? : Text → m (Option Text)

namespace Environment

open Expansion (Part)

variable {m : Type → Type} [Monad m]

def value? (env : Environment m) : Part → m (Option Text)
  | .plain t => return some t
  | .variable name default => return (← env.get? name).or default

/-- One variable without a value spoils the whole. -/
def values? (env : Environment m) : List Part → m (Option Text)
  | [] => return some []
  | p :: ps => do
    match ← env.value? p with
    | none => return none
    | some t => return (← env.values? ps).map (t ++ ·)

/-- A tilde alone or before a slash stands for the home directory. -/
def atHome (env : Environment m) : Text → Text
  | ['~'] => env.home.getD ['~']
  | '~' :: '/' :: t => env.home.getD ['~'] ++ '/' :: t
  | t => t

/-- A pattern with a variable that has no value stays as it is. A tilde that comes out of a variable
stays a tilde. -/
def expand (env : Environment m) (pattern : Text) : m Text := do
  match ← env.values? (Expansion.ofText pattern) with
  | none => return pattern
  | some t =>
    if pattern.head? ≠ some '~' && t.head? = some '~' then return t else return env.atHome t

end Environment
end LogQuery
