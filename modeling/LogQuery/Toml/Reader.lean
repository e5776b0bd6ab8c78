import LogQuery.Toml.Lexeme
import LogQuery.Toml.Scalar

/-! Reading TOML. A document that breaks a rule anywhere is not read at all. -/
namespace LogQuery.Toml

def endsScalar : Char → Bool
  | ' ' | '\t' | '\n' | '\r' | '#' | ',' | ']' | '}' | '=' => true
  | _ => false

/-- A blank may stand between a date and a time of day. -/
def scalar? (t : Text) : Option (Toml × Text) :=
  let word := t.takeWhile fun c => !endsScalar c
  let rest := t.dropWhile fun c => !endsScalar c
  match rest with
  | ' ' :: c :: more =>
    if isDate word && c.isDigit then
      let clock := (c :: more).takeWhile fun c => !endsScalar c
      (ofScalar? (word ++ ' ' :: clock)).map (·, (c :: more).drop clock.length)
    else (ofScalar? word).map (·, rest)
  | _ => (ofScalar? word).map (·, rest)

/-- The items of an array up to its closing bracket, where a comma may stand after the last. -/
def items? (item? : Text → Option (Toml × Text)) : Nat → Text → Option (List Toml × Text)
  | 0, _ => none
  | fuel + 1, t =>
    match skipSpace false t with
    | some (']' :: t) => some ([], t)
    | some t =>
      (item? t).bind fun (x, t) =>
        match skipSpace false t with
        | some (',' :: t) => (items? item? fuel t).map fun (xs, t) => (x :: xs, t)
        | some (']' :: t) => some ([x], t)
        | _ => none
    | none => none

/-- The pairs of a table up to its closing brace, where a comma may stand after the last. -/
def pairs? (item? : Text → Option (Toml × Text)) : Nat → Toml → Text → Option (Toml × Text)
  | 0, _, _ => none
  | fuel + 1, whole, t =>
    match skipSpace false t with
    | some ('}' :: t) => some (whole, t)
    | some t =>
      (keys? t).bind fun (path, key, t) =>
        match t with
        | '=' :: t =>
          (item? (skipBlanks t)).bind fun (x, t) =>
            (insert? path key x whole).bind fun whole =>
              match skipSpace false t with
              | some (',' :: t) => pairs? item? fuel whole t
              | some ('}' :: t) => some (whole, t)
              | _ => none
        | _ => none
    | none => none

/-- The arrays and tables between brackets and braces that may stand in one another. -/
def maxDepth : Nat := 80

/-- A value in which arrays and tables stand at most so deep. -/
def value? : Nat → Text → Option (Toml × Text)
  | _, '"' :: '"' :: '"' :: t => (basicLines? false (skipBreak t)).map fun (s, t) => (string s, t)
  | _, '"' :: t => (basic? t).map fun (s, t) => (string s, t)
  | _, '\'' :: '\'' :: '\'' :: t => (rawLines? (skipBreak t)).map fun (s, t) => (string s, t)
  | _, '\'' :: t => (raw? t).map fun (s, t) => (string s, t)
  | 0, '[' :: _ => none
  | depth + 1, '[' :: t =>
    (items? (value? depth) (t.length + 1) t).map fun (xs, t) => (array xs, t)
  | 0, '{' :: _ => none
  | depth + 1, '{' :: t => pairs? (value? depth) (t.length + 1) (table .closed []) t
  | _, t => scalar? t

/-- A document so far, and the header under which its next pairs stand. -/
structure Document where
  root : Toml
  header : List Text

/-- One pair or header, and the text of the lines after it. -/
def line? (d : Document) (t : Text) : Option (Document × Text) :=
  match t with
  | '[' :: '[' :: t =>
    (keys? t).bind fun (path, key, t) =>
      match t with
      | ']' :: ']' :: t =>
        (d.root.repeated? path key).bind fun root =>
          (endLine t).map fun t => (⟨root, path ++ [key]⟩, t)
      | _ => none
  | '[' :: t =>
    (keys? t).bind fun (path, key, t) =>
      match t with
      | ']' :: t =>
        (d.root.header? path key).bind fun root =>
          (endLine t).map fun t => (⟨root, path ++ [key]⟩, t)
      | _ => none
  | t =>
    (keys? t).bind fun (path, key, t) =>
      match t with
      | '=' :: t =>
        (value? maxDepth (skipBlanks t)).bind fun (x, t) =>
          (d.root.change? false (insert? path key x) d.header).bind fun root =>
            (endLine t).map fun t => ({ d with root }, t)
      | _ => none

def lines? : Nat → Document → Text → Option Document
  | 0, _, _ => none
  | fuel + 1, d, t =>
    match skipSpace false t with
    | none => none
    | some [] => some d
    | some t => (line? d t).bind fun (d, t) => lines? fuel d t

def withoutMark : Text → Text
  | '\uFEFF' :: t => t
  | t => t

def read? (t : Text) : Option Toml :=
  (lines? (t.length + 1) ⟨empty, []⟩ (withoutMark t)).map Document.root

end LogQuery.Toml
