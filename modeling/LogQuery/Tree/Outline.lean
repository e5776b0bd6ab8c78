import LogQuery.Tree
import LogQuery.Span

/-! The outline of a tree: one row for each node and leaf, with its depth and place. -/
namespace LogQuery.Tree

structure Row where
  depth : Nat
  kind : Kind
  span : Span
  /-- Leaves show their text. -/
  text : Option Text

mutual

def outlineAt (depth start : Nat) : Tree → List Row
  | leaf k t => [⟨depth, k, ⟨start, start + t.bytes⟩, some t⟩]
  | node k cs =>
    ⟨depth, k, ⟨start, start + bytesAll cs⟩, none⟩ :: outlineAtAll (depth + 1) start cs

def outlineAtAll (depth start : Nat) : List Tree → List Row
  | [] => []
  | t :: ts => t.outlineAt depth start ++ outlineAtAll depth (start + t.bytes) ts

end

def outline (t : Tree) : List Row := t.outlineAt 0 0

end LogQuery.Tree
