import LogQuery.Toml
import LogQuery.Toml.Digit

/-! Strings, keys and blanks of TOML. Each reader gives what it read and the text after it. -/
namespace LogQuery.Toml

def isBlank (c : Char) : Bool := c = ' ' || c = '\t'

def skipBlanks (t : Text) : Text := t.dropWhile isBlank

/-- Characters that a comment or a string on one line may hold. -/
def isPlain (c : Char) : Bool := c = '\t' || (0x20 ≤ c.toNat && c.toNat ≠ 0x7F)

/-- Passes over blanks, line breaks and comments; the flag tells whether a comment has begun. -/
def skipSpace : Bool → Text → Option Text
  | _, [] => some []
  | _, '\n' :: t => skipSpace false t
  | _, '\r' :: '\n' :: t => skipSpace false t
  | true, c :: t => if isPlain c then skipSpace true t else none
  | false, '#' :: t => skipSpace true t
  | false, c :: t => if isBlank c then skipSpace false t else some (c :: t)

/-- Only a comment may stand before the end of the line. -/
def endLine (t : Text) : Option Text :=
  match skipBlanks t with
  | [] => some []
  | '\n' :: t => skipSpace false t
  | '\r' :: '\n' :: t => skipSpace false t
  | '#' :: t => skipSpace true t
  | _ => none

/-- The character with a number written in hexadecimal digits. -/
def charOfHex? (digits : Text) : Option Char :=
  (ofDigits? 16 digits).bind fun n => if n.isValidChar then some (Char.ofNat n) else none

def named? : Char → Option Char
  | 'b' => some '\x08'
  | 'e' => some '\x1b'
  | 't' => some '\t'
  | 'n' => some '\n'
  | 'f' => some '\x0c'
  | 'r' => some '\r'
  | '"' => some '"'
  | '\\' => some '\\'
  | _ => none

def prepend (c : Char) : Text × Text → Text × Text
  | (read, rest) => (c :: read, rest)

/-- After the opening quote of a string with escapes on one line. -/
def basic? : Text → Option (Text × Text)
  | [] => none
  | '"' :: t => some ([], t)
  | '\\' :: 'x' :: a :: b :: t =>
    (charOfHex? [a, b]).bind fun x => (basic? t).map (prepend x)
  | '\\' :: 'u' :: a :: b :: c :: d :: t =>
    (charOfHex? [a, b, c, d]).bind fun x => (basic? t).map (prepend x)
  | '\\' :: 'U' :: a :: b :: c :: d :: e :: f :: g :: h :: t =>
    (charOfHex? [a, b, c, d, e, f, g, h]).bind fun x => (basic? t).map (prepend x)
  | '\\' :: c :: t => (named? c).bind fun x => (basic? t).map (prepend x)
  | c :: t => if isPlain c && c ≠ '\\' then (basic? t).map (prepend c) else none

/-- After the opening quote of a string without escapes on one line. -/
def raw? : Text → Option (Text × Text)
  | [] => none
  | '\'' :: t => some ([], t)
  | c :: t => if isPlain c then (raw? t).map (prepend c) else none

def startsLine : Text → Bool
  | '\n' :: _ => true
  | '\r' :: '\n' :: _ => true
  | _ => false

/-- After the opening quotes of a string with escapes on many lines. A backslash at the end of a
line takes the blanks and breaks that follow; the flag tells that this goes on. -/
def basicLines? : Bool → Text → Option (Text × Text)
  | _, [] => none
  | true, ' ' :: t => basicLines? true t
  | true, '\t' :: t => basicLines? true t
  | true, '\n' :: t => basicLines? true t
  | true, '\r' :: '\n' :: t => basicLines? true t
  | _, '"' :: '"' :: '"' :: '"' :: '"' :: t => some (['"', '"'], t)
  | _, '"' :: '"' :: '"' :: '"' :: t => some (['"'], t)
  | _, '"' :: '"' :: '"' :: t => some ([], t)
  | _, '\n' :: t => (basicLines? false t).map (prepend '\n')
  | _, '\r' :: '\n' :: t => (basicLines? false t).map fun r => prepend '\r' (prepend '\n' r)
  | _, '\\' :: 'x' :: a :: b :: t =>
    (charOfHex? [a, b]).bind fun x => (basicLines? false t).map (prepend x)
  | _, '\\' :: 'u' :: a :: b :: c :: d :: t =>
    (charOfHex? [a, b, c, d]).bind fun x => (basicLines? false t).map (prepend x)
  | _, '\\' :: 'U' :: a :: b :: c :: d :: e :: f :: g :: h :: t =>
    (charOfHex? [a, b, c, d, e, f, g, h]).bind fun x => (basicLines? false t).map (prepend x)
  | _, '\\' :: c :: t =>
    match named? c with
    | some x => (basicLines? false t).map (prepend x)
    | none => if startsLine (skipBlanks (c :: t)) then basicLines? true (c :: t) else none
  | _, c :: t => if isPlain c then (basicLines? false t).map (prepend c) else none

/-- After the opening quotes of a string without escapes on many lines. -/
def rawLines? : Text → Option (Text × Text)
  | [] => none
  | '\'' :: '\'' :: '\'' :: '\'' :: '\'' :: t => some (['\'', '\''], t)
  | '\'' :: '\'' :: '\'' :: '\'' :: t => some (['\''], t)
  | '\'' :: '\'' :: '\'' :: t => some ([], t)
  | '\n' :: t => (rawLines? t).map (prepend '\n')
  | '\r' :: '\n' :: t => (rawLines? t).map fun r => prepend '\r' (prepend '\n' r)
  | c :: t => if isPlain c then (rawLines? t).map (prepend c) else none

/-- A line break right after the opening quotes does not count. -/
def skipBreak : Text → Text
  | '\n' :: t => t
  | '\r' :: '\n' :: t => t
  | t => t

def isBareKey (c : Char) : Bool := c.isAlphanum || c = '_' || c = '-'

def key? : Text → Option (Text × Text)
  | '"' :: t => basic? t
  | '\'' :: t => raw? t
  | t => if (t.takeWhile isBareKey).isEmpty then none
    else some (t.takeWhile isBareKey, t.dropWhile isBareKey)

/-- The names that a key may join by dots. -/
def maxNames : Nat := 80

/-- Names with dots between them, so many at most: those before the last, and the last. -/
def names? : Nat → Text → Option (List Text × Text × Text)
  | 0, _ => none
  | left + 1, t =>
    (key? (skipBlanks t)).bind fun (key, t) =>
      match skipBlanks t with
      | '.' :: t => (names? left t).map fun (path, last, t) => (key :: path, last, t)
      | t => some ([], key, t)

def keys? : Text → Option (List Text × Text × Text) := names? maxNames

end LogQuery.Toml
