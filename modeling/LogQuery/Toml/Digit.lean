import LogQuery.Text

/-! Digits, and the numbers that they write. -/
namespace LogQuery.Toml

/-- The value of a digit of a base up to sixteen. -/
def digit? (base : Nat) (c : Char) : Option Nat :=
  let value :=
    if '0' ≤ c && c ≤ '9' then c.toNat - '0'.toNat
    else if 'a' ≤ c && c ≤ 'f' then c.toNat - 'a'.toNat + 10
    else if 'A' ≤ c && c ≤ 'F' then c.toNat - 'A'.toNat + 10
    else base
  if value < base then some value else none

def ofDigits? (base : Nat) (digits : Text) : Option Nat :=
  digits.foldlM (fun n c => (digit? base c).map (base * n + ·)) 0

/-- Does each underscore stand alone between other characters? -/
def isSpaced : Text → Bool
  | [] => false
  | '_' :: _ => false
  | [_] => true
  | _ :: '_' :: t => isSpaced t
  | _ :: t => isSpaced t

/-- Digits that single underscores may divide. -/
def run? (base : Nat) (t : Text) : Option Nat :=
  if isSpaced t then ofDigits? base (t.filter (· ≠ '_')) else none

def signed? (read : Text → Option Nat) : Text → Option Int
  | '-' :: t => (read t).map fun n => -Int.ofNat n
  | '+' :: t => (read t).map Int.ofNat
  | t => (read t).map Int.ofNat

end LogQuery.Toml
