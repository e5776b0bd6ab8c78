import LogQuery.Text

/-! JSON values. Numbers are kept as they are written, members in their order. -/
namespace LogQuery

inductive Json where
  | null
  | bool (b : Bool)
  | number (literal : Text)
  | string (t : Text)
  | array (items : List Json)
  | object (members : List (Text × Json))
  deriving Repr, Inhabited

namespace Json

def ofString (s : String) : Json := string s.toList

def ofNat (n : Nat) : Json := number (Text.ofNat n)

def ofOption {α : Type} (f : α → Json) : Option α → Json
  | some a => f a
  | none => null

def list {α : Type} (f : α → Json) (xs : List α) : Json := array (xs.map f)

/-- An object from names and values. -/
def record (members : List (String × Json)) : Json :=
  object (members.map fun (n, v) => (n.toList, v))

/-- The values of the named members, where they are given. An array gives exactly these members in
their order; an object may hold others. -/
def members? (names : List String) : Json → Option (List (Option Json))
  | object ms => some (names.map fun n => ms.lookup n.toList)
  | array xs => if xs.length = names.length then some (xs.map some) else none
  | _ => none

def string? : Json → Option Text
  | string t => some t
  | _ => none

def list? {α : Type} (f : Json → Option α) : Json → Option (List α)
  | array xs => xs.mapM f
  | _ => none

/-- A value chosen by its symbol, which may also be the only member of an object. -/
def choice? {α : Type} (all : List α) (symbol : α → String) : Json → Option α
  | string t => all.find? fun a => (symbol a).toList = t
  | object [(t, null)] => all.find? fun a => (symbol a).toList = t
  | _ => none

/-- A member that may be missing or null. -/
def optional? {α : Type} (f : Json → Option α) : Option Json → Option (Option α)
  | none | some null => some none
  | some j => (f j).map some

end Json
end LogQuery
