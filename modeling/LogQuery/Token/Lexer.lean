import LogQuery.Token

/-! Cutting a query into tokens that together hold every character of it. -/
namespace LogQuery.Token

def isBlank : Char → Bool
  | ' ' | '\t' | '\r' | '\n' => true
  | _ => false

def isNameStart (c : Char) : Bool := c.isAlpha || c = '_'

def isNamePart (c : Char) : Bool := c.isAlphanum || c = '_'

def isFlagPart (c : Char) : Bool := c.isAlpha || c = '-'

/-- The length of the run of characters of a class that a text begins with. -/
def run (p : Char → Bool) (cs : Text) : Nat := (cs.takeWhile p).length

/-- The length of digits, with a point and more digits after them where these follow. -/
def decimal (cs : Text) : Nat :=
  match run Char.isDigit cs, cs.drop (run Char.isDigit cs) with
  | 0, _ => 0
  | whole, '.' :: more =>
    match run Char.isDigit more with
    | 0 => whole
    | places => whole + 1 + places
  | whole, _ => whole

/-- The length of a unit of time, zero for none. -/
def timeUnit : Text → Nat
  | 'n' :: 's' :: _ | 'u' :: 's' :: _ | 'µ' :: 's' :: _ | 'm' :: 's' :: _ => 2
  | 's' :: _ | 'm' :: _ | 'h' :: _ | 'd' :: _ | 'w' :: _ | 'y' :: _ => 1
  | _ => 0

def isMultiple : Char → Bool
  | 'k' | 'K' | 'm' | 'M' | 'g' | 'G' | 't' | 'T' | 'p' | 'P' | 'e' | 'E' => true
  | _ => false

def isByteSign : Char → Bool
  | 'b' | 'B' => true
  | _ => false

/-- The length of a unit of size, zero for none. -/
def sizeUnit : Text → Nat
  | a :: 'i' :: c :: _ => if isMultiple a && isByteSign c then 3 else if isByteSign a then 1 else 0
  | a :: b :: _ => if isMultiple a && isByteSign b then 2 else if isByteSign a then 1 else 0
  | [a] => if isByteSign a then 1 else 0
  | [] => 0

/-- What a scan found: a kind, and how many characters it takes after those already read. -/
structure Scan where
  kind : Kind
  more : Nat
  deriving DecidableEq, Repr

namespace Scan

def after (n : Nat) (s : Scan) : Scan := ⟨s.kind, n + s.more⟩

end Scan

/-- The further amounts of a duration. An amount without a unit spoils the whole. -/
def amounts : Nat → Text → Scan
  | 0, _ => ⟨.duration, 0⟩
  | fuel + 1, cs =>
    match decimal cs with
    | 0 => ⟨.duration, 0⟩
    | d =>
      match timeUnit (cs.drop d) with
      | 0 => ⟨.unknown, d⟩
      | u => (amounts fuel (cs.drop (d + u))).after (d + u)

/-- A number, a duration or a size, by what follows the first digits. A lone minute sign before an
`i` stays with the number. -/
def scanNumber (cs : Text) : Scan :=
  let d := decimal cs
  match sizeUnit (cs.drop d), timeUnit (cs.drop d), cs.drop d with
  | 0, 0, _ => ⟨.number, d⟩
  | 0, 1, 'm' :: 'i' :: _ => ⟨.number, d + 1⟩
  | 0, u, _ => (amounts cs.length (cs.drop (d + u))).after (d + u)
  | b, _, _ => ⟨.bytes, d + b⟩

/-- The rest of a string after its opening double quote. A backslash takes any character but a line
feed; before that, or before nothing, the string is given up. -/
def scanQuoted : Text → Scan
  | [] => ⟨.unknown, 0⟩
  | '"' :: _ => ⟨.string, 1⟩
  | ['\\'] => ⟨.unknown, 0⟩
  | '\\' :: '\n' :: _ => ⟨.unknown, 0⟩
  | '\\' :: _ :: cs => (scanQuoted cs).after 2
  | _ :: cs => (scanQuoted cs).after 1

/-- The rest of a string after its opening backtick. -/
def scanRaw : Text → Scan
  | [] => ⟨.unknown, 0⟩
  | '\x60' :: _ => ⟨.string, 1⟩
  | _ :: cs => (scanRaw cs).after 1

/-- The token that begins with a character, by the text that follows it. -/
def scan (c : Char) (cs : Text) : Scan :=
  if isBlank c then ⟨.whitespace, run isBlank cs⟩
  else if isNameStart c then ⟨.identifier, run isNamePart cs⟩
  else if c.isDigit then
    let s := scanNumber (c :: cs)
    ⟨s.kind, s.more - 1⟩
  else match c, cs with
    | '#', _ => ⟨.comment, run (· ≠ '\n') cs⟩
    | '"', _ => scanQuoted cs
    | '\x60', _ => scanRaw cs
    | '-', '-' :: d :: ds => if d.isAlpha then ⟨.parserFlag, 2 + run isFlagPart ds⟩ else ⟨.sub, 0⟩
    | '!', '=' :: _ => ⟨.neq, 1⟩
    | '=', '~' :: _ => ⟨.re, 1⟩
    | '!', '~' :: _ => ⟨.nre, 1⟩
    | '!', '>' :: _ => ⟨.npa, 1⟩
    | '=', '=' :: _ => ⟨.eql, 1⟩
    | '>', '=' :: _ => ⟨.gte, 1⟩
    | '<', '=' :: _ => ⟨.lte, 1⟩
    | '|', '=' :: _ => ⟨.pipeExact, 1⟩
    | '|', '~' :: _ => ⟨.pipeMatch, 1⟩
    | '|', '>' :: _ => ⟨.pipePattern, 1⟩
    | '{', _ => ⟨.lBrace, 0⟩
    | '}', _ => ⟨.rBrace, 0⟩
    | '(', _ => ⟨.lParen, 0⟩
    | ')', _ => ⟨.rParen, 0⟩
    | '[', _ => ⟨.lBracket, 0⟩
    | ']', _ => ⟨.rBracket, 0⟩
    | ',', _ => ⟨.comma, 0⟩
    | '=', _ => ⟨.eq, 0⟩
    | '>', _ => ⟨.gtr, 0⟩
    | '<', _ => ⟨.lss, 0⟩
    | '|', _ => ⟨.pipe, 0⟩
    | '+', _ => ⟨.add, 0⟩
    | '-', _ => ⟨.sub, 0⟩
    | '*', _ => ⟨.mul, 0⟩
    | '/', _ => ⟨.div, 0⟩
    | '%', _ => ⟨.mod, 0⟩
    | '^', _ => ⟨.pow, 0⟩
    | _, _ => ⟨.unknown, 0⟩

/-- The tokens of a text whose first `n` characters a token already holds. -/
def lexAfter : Nat → Text → List Token
  | _, [] => []
  | n + 1, _ :: cs => lexAfter n cs
  | 0, c :: cs =>
    ⟨(scan c cs).kind, c :: cs.take (scan c cs).more⟩ :: lexAfter (scan c cs).more cs

def lex (cs : Text) : List Token := lexAfter 0 cs

example : (lex "5mi 1h30 5m5mb 10KiB".toList).map Token.kind =
    [.number, .identifier, .whitespace, .unknown, .whitespace, .duration, .identifier, .whitespace,
      .bytes] := by decide +kernel

end LogQuery.Token
