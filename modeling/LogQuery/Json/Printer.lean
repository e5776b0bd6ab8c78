import LogQuery.Json

/-! JSON on indented lines. -/
namespace LogQuery.Json

def hexDigits (n : Nat) : Text := [Nat.digitChar (n / 16), Nat.digitChar (n % 16)]

def escape (c : Char) : Text :=
  match c with
  | '"' => ['\\', '"']
  | '\\' => ['\\', '\\']
  | '\x08' => ['\\', 'b']
  | '\x0c' => ['\\', 'f']
  | '\n' => ['\\', 'n']
  | '\r' => ['\\', 'r']
  | '\t' => ['\\', 't']
  | c => if c.toNat < 0x20 then "\\u00".toList ++ hexDigits c.toNat else [c]

def quote (t : Text) : Text := '"' :: t.flatMap escape ++ ['"']

/-- A line break and two blanks for each level. -/
def newline (depth : Nat) : Text := '\n' :: List.replicate (2 * depth) ' '

mutual

def pretty (depth : Nat) : Json → Text
  | null => "null".toList
  | bool true => "true".toList
  | bool false => "false".toList
  | number t => t
  | string t => quote t
  | array [] => ['[', ']']
  | array (x :: xs) =>
    '[' :: newline (depth + 1) ++ x.pretty (depth + 1) ++ prettyItems (depth + 1) xs
      ++ newline depth ++ [']']
  | object [] => ['{', '}']
  | object ((n, x) :: ms) =>
    '{' :: newline (depth + 1) ++ quote n ++ [':', ' '] ++ x.pretty (depth + 1)
      ++ prettyMembers (depth + 1) ms ++ newline depth ++ ['}']

def prettyItems (depth : Nat) : List Json → Text
  | [] => []
  | x :: xs => ',' :: newline depth ++ x.pretty depth ++ prettyItems depth xs

def prettyMembers (depth : Nat) : List (Text × Json) → Text
  | [] => []
  | (n, x) :: ms =>
    ',' :: newline depth ++ quote n ++ [':', ' '] ++ x.pretty depth ++ prettyMembers depth ms

end

def render (j : Json) : Text := j.pretty 0

end LogQuery.Json
