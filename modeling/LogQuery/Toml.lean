import LogQuery.Text

/-! TOML documents as tables within tables. -/
namespace LogQuery

/-- How a table came to be. -/
inductive Toml.Style where
  /-- By a header of its own. -/
  | explicit
  /-- On the way to the table that a header names. -/
  | implied
  /-- On the way to the key that a dotted key names. -/
  | dotted
  /-- Between braces. -/
  | closed
  deriving DecidableEq, Repr

inductive Toml where
  | string (t : Text)
  | boolean (b : Bool)
  | integer (value : Int)
  | float (literal : Text)
  | moment (literal : Text)
  | array (items : List Toml)
  /-- The tables of a repeated header. -/
  | tables (items : List Toml)
  | table (style : Toml.Style) (members : List (Text × Toml))
  deriving Repr

namespace Toml

def empty : Toml := table .explicit []

def members : Toml → List (Text × Toml)
  | table _ ms => ms
  | _ => []

def get? (t : Toml) (key : Text) : Option Toml := t.members.lookup key

/-- Replaces the value of a key, or adds it at the end. -/
def put (key : Text) (value : Toml) : List (Text × Toml) → List (Text × Toml)
  | [] => [(key, value)]
  | (k, v) :: ms => if k = key then (k, value) :: ms else (k, v) :: put key value ms

/-- May keys be added to a table from outside? By a dotted key only to one that no header made. -/
def isOpen (byDots : Bool) : Style → Bool
  | .explicit => !byDots
  | .implied | .dotted => true
  | .closed => false

/-- Changes the table at the end of a path, which is made where it is missing. -/
def change? (byDots : Bool) (f : Toml → Option Toml) : List Text → Toml → Option Toml
  | [], t => f t
  | k :: ks, table style ms =>
    (match ms.lookup k with
      | none => change? byDots f ks (table (if byDots then .dotted else .implied) [])
      | some (table s inner) =>
        if isOpen byDots s then change? byDots f ks (table s inner) else none
      | some (tables items) =>
        match items.getLast? with
        | some last => (change? byDots f ks last).map fun t => tables (items.dropLast ++ [t])
        | none => none
      | some _ => none).map fun t => table style (put k t ms)
  | _ :: _, _ => none

/-- Adds a key to the table that dots lead to, and only to one made by dots. -/
def insert? (path : List Text) (key : Text) (value : Toml) (t : Toml) : Option Toml :=
  change? true
    (fun t =>
      match t with
      | table style ms =>
        if (style == .dotted) == path.isEmpty || (ms.lookup key).isSome then none
        else some (table style (ms ++ [(key, value)]))
      | _ => none)
    path t

/-- The table of a header, which may have been implied before. -/
def header? (path : List Text) (key : Text) (t : Toml) : Option Toml :=
  change? false
    (fun t =>
      match t with
      | table style ms =>
        match ms.lookup key with
        | none => some (table style (put key empty ms))
        | some (table .implied inner) => some (table style (put key (table .explicit inner) ms))
        | some _ => none
      | _ => none)
    path t

/-- One more table of a repeated header. -/
def repeated? (path : List Text) (key : Text) (t : Toml) : Option Toml :=
  change? false
    (fun t =>
      match t with
      | table style ms =>
        match ms.lookup key with
        | none => some (table style (put key (tables [empty]) ms))
        | some (tables items) => some (table style (put key (tables (items ++ [empty])) ms))
        | some _ => none
      | _ => none)
    path t

end Toml
end LogQuery
