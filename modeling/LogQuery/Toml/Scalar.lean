import LogQuery.Toml
import LogQuery.Toml.Digit

/-! Numbers, truth values and moments of TOML. -/
namespace LogQuery.Toml

/-- Decimal digits without a leading zero. -/
def whole? (t : Text) : Option Nat :=
  if t.head? = some '0' && t.length ≠ 1 then none else run? 10 t

def integer? : Text → Option Int
  | '0' :: 'x' :: t => (run? 16 t).map Int.ofNat
  | '0' :: 'o' :: t => (run? 8 t).map Int.ofNat
  | '0' :: 'b' :: t => (run? 2 t).map Int.ofNat
  | t => signed? whole? t

/-- The integers that 128 bits hold, with a sign or without. -/
def isHeld (n : Int) : Bool := -Nat.pow 2 127 ≤ n && n < Nat.pow 2 128

/-- The text before the first character of a class and, if there is one, the text after it. -/
def cutAt (p : Char → Bool) (t : Text) : Text × Option Text :=
  match t.dropWhile fun c => !p c with
  | [] => (t, none)
  | _ :: after => (t.takeWhile fun c => !p c, some after)

/-- A number with places or a power of ten, without its sign: a whole number and the power of ten
by which it is multiplied. -/
def decimal? (t : Text) : Option (Nat × Int) := do
  let (number, power) := cutAt (fun c => c = 'e' || c = 'E') t
  let (whole, places) := cutAt (· = '.') number
  if places.isNone && power.isNone then none
  else
    let fraction := places.getD ['0']
    let length := (fraction.filter (· ≠ '_')).length
    let w ← whole? whole
    let f ← run? 10 fraction
    let e ← signed? (run? 10) (power.getD ['0'])
    some (w * Nat.pow 10 length + f, e - length)

/-- Does a number round to a double that is not infinite? The first that does not lies half a unit
above the greatest double. Powers beyond those that can matter are not worked out. -/
def isFinite (number : Nat × Int) : Bool :=
  let (m, e) := number
  m * Nat.pow 10 (min e.toNat 400) <
    (Nat.pow 2 1024 - Nat.pow 2 970) * Nat.pow 10 (min (-e).toNat (m.log2 + 1))

def unsigned : Text → Text
  | '+' :: t => t
  | '-' :: t => t
  | t => t

def isFloat (t : Text) : Bool :=
  unsigned t = "inf".toList || unsigned t = "nan".toList || (decimal? (unsigned t)).any isFinite

def isWithin (low high : Nat) (digits : Text) : Bool :=
  (ofDigits? 10 digits).any fun n => low ≤ n && n ≤ high

def daysIn (year month : Nat) : Nat :=
  if month = 2 then
    if year % 4 = 0 && (year % 100 ≠ 0 || year % 400 = 0) then 29 else 28
  else if [4, 6, 9, 11].contains month then 30
  else 31

def isDate : Text → Bool
  | [a, b, c, d, '-', e, f, '-', g, h] =>
    match ofDigits? 10 [a, b, c, d], ofDigits? 10 [e, f] with
    | some year, some month =>
      1 ≤ month && month ≤ 12 && isWithin 1 (daysIn year month) [g, h]
    | _, _ => false
  | _ => false

/-- Seconds may be left out, and so may their places. -/
def isSeconds : Text → Bool
  | [] => true
  | [':', a, b] => isWithin 0 60 [a, b]
  | ':' :: a :: b :: '.' :: places =>
    isWithin 0 60 [a, b] && !places.isEmpty && places.all Char.isDigit
  | _ => false

def isClock : Text → Bool
  | a :: b :: ':' :: c :: d :: t => isWithin 0 23 [a, b] && isWithin 0 59 [c, d] && isSeconds t
  | _ => false

/-- At most a day away. -/
def isOffset : Text → Bool
  | [s, a, b, ':', c, d] =>
    (s = '+' || s = '-') &&
      match ofDigits? 10 [a, b], ofDigits? 10 [c, d] with
      | some hours, some minutes => hours * 60 + minutes ≤ 24 * 60
      | _, _ => false
  | [z] => z = 'Z' || z = 'z'
  | _ => false

/-- A date, a time of day, or both, then with an offset if it is given. -/
def isMoment (t : Text) : Bool :=
  let clock := t.drop 11
  let length := (clock.takeWhile fun c => c.isDigit || c = ':' || c = '.').length
  isDate t || isClock t ||
    (isDate (t.take 10) && (t.drop 10).head?.any (fun c => c = 'T' || c = 't' || c = ' ')
      && isClock (clock.take length)
      && (length = clock.length || isOffset (clock.drop length)))

def ofScalar? (t : Text) : Option Toml :=
  if t = "true".toList then some (boolean true)
  else if t = "false".toList then some (boolean false)
  else if isFloat t then some (float t)
  else if isMoment t then some (moment t)
  else ((integer? t).filter isHeld).map integer

end LogQuery.Toml
