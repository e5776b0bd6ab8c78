/-! Text as a list of characters, measured and cut in the bytes of its UTF-8 form. -/
namespace LogQuery

abbrev Text := List Char

namespace Text

/-- How many bytes a text takes. -/
def bytes : Text → Nat
  | [] => 0
  | c :: t => c.utf8Size + bytes t

theorem bytes_append (s t : Text) : bytes (s ++ t) = bytes s + bytes t := by
  induction s with
  | nil => simp [bytes]
  | cons c s ih => simp [bytes, ih, Nat.add_assoc]

/-- The text after its first `n` bytes, unless the cut falls inside a character or past the end. -/
def dropBytes? : Text → Nat → Option Text
  | t, 0 => some t
  | [], _ + 1 => none
  | c :: t, n + 1 => if n + 1 < c.utf8Size then none else dropBytes? t (n + 1 - c.utf8Size)

def takeBytes? : Text → Nat → Option Text
  | _, 0 => some []
  | [], _ + 1 => none
  | c :: t, n + 1 =>
    if n + 1 < c.utf8Size then none else (takeBytes? t (n + 1 - c.utf8Size)).map (c :: ·)

/-- The text between two byte offsets that both stand between characters. -/
def slice? (t : Text) (start stop : Nat) : Option Text :=
  if start ≤ stop then (t.dropBytes? start).bind (takeBytes? · (stop - start)) else none

/-- Replaces each occurrence of a text, from the left, once `skip` characters are passed over. -/
def replaceAfter (old new : Text) : Nat → Text → Text
  | _, [] => []
  | skip + 1, _ :: t => replaceAfter old new skip t
  | 0, c :: t =>
    if old.isPrefixOf (c :: t) then new ++ replaceAfter old new (old.length - 1) t
    else c :: replaceAfter old new 0 t

def replace (t old new : Text) : Text := replaceAfter old new 0 t

/-- Removes the first occurrence of a text. -/
def removeFirst : Text → Text → Text
  | [], _ => []
  | c :: t, old =>
    if old.isPrefixOf (c :: t) then (c :: t).drop old.length else c :: removeFirst t old

def hasInfix (part : Text) : Text → Bool
  | [] => part.isEmpty
  | c :: t => part.isPrefixOf (c :: t) || hasInfix part t

def ofNat (n : Nat) : Text := Nat.toDigits 10 n

def join (separator : Text) : List Text → Text
  | [] => []
  | [t] => t
  | t :: ts => t ++ separator ++ join separator ts

/-- The parts between the places of a character, always at least one. -/
def splitAt (separator : Char) : Text → List Text
  | [] => [[]]
  | c :: t =>
    match splitAt separator t with
    | part :: parts => if c = separator then [] :: part :: parts else (c :: part) :: parts
    | [] => [[c]]

/-- A line ends with a line feed, or with a carriage return and a line feed. A carriage return
alone ends none. -/
def lines : Text → List Text
  | [] => []
  | '\n' :: t => [] :: lines t
  | '\r' :: '\n' :: t => [] :: lines t
  | c :: t =>
    match lines t with
    | [] => [[c]]
    | line :: more => (c :: line) :: more

/-- The characters of the Unicode property White_Space. -/
def isBlank (c : Char) : Bool :=
  let n := c.toNat
  (9 ≤ n && n ≤ 13) || n = 0x20 || n = 0x85 || n = 0xA0 || n = 0x1680
    || (0x2000 ≤ n && n ≤ 0x200A) || n = 0x2028 || n = 0x2029 || n = 0x202F || n = 0x205F
    || n = 0x3000

def trimStart (t : Text) : Text := t.dropWhile isBlank

def trimEnd (t : Text) : Text := (t.reverse.dropWhile isBlank).reverse

def trim (t : Text) : Text := trimEnd (trimStart t)

end Text
end LogQuery
