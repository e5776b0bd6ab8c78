import Mathlib.Data.List.Forall2
import LogQuery.Element.Walk
import LogQuery.Proofs.Text.Slice
import LogQuery.Proofs.Tree.Trivia

/-! Where the elements of a query stand, and which trees they stand for. -/
namespace LogQuery

variable {query before after : Text} {t u : Tree} {cs ds : List Tree} {e f : Element} {k : Kind}
  {keep : Kind → Bool}

namespace Tree

theorem elementsAt_append (start : Nat) (cs ds : List Tree) :
    elementsAt start (cs ++ ds) = elementsAt start cs ++ elementsAt (start + bytesAll cs) ds := by
  induction cs generalizing start with
  | nil => rfl
  | cons c cs ih =>
    simp only [List.cons_append, elementsAt, ih, bytesAll, Nat.add_assoc]
    split
    · rfl
    · rfl

mutual

/-- The parts of a tree that are listed as elements and pass a test, a part before what it holds. -/
def parts (keep : Kind → Bool) : Tree → List Tree
  | leaf k x => if keep k then [leaf k x] else []
  | node k cs => (if keep k then [node k cs] else []) ++ partsAll keep cs

def partsAll (keep : Kind → Bool) : List Tree → List Tree
  | [] => []
  | t :: ts => (if t.kind.isNamed then t.parts keep else []) ++ partsAll keep ts

end

theorem partsAll_append (cs ds : List Tree) :
    partsAll keep (cs ++ ds) = partsAll keep cs ++ partsAll keep ds := by
  induction cs with
  | nil => rfl
  | cons c cs ih => simp [partsAll, ih]

mutual

/-- Kinds that are not in a tree are not found in it. -/
theorem parts_none : (t : Tree) → (∀ k ∈ t.kinds, keep k = false) → t.parts keep = []
  | leaf k x, h => by
    have hk := h k (.head _)
    simp [parts, hk]
  | node k cs, h => by
    have hk := h k (.head _)
    have hcs := partsAll_none cs fun l hl => h l (.tail _ hl)
    simp [parts, hk, hcs]

theorem partsAll_none : (cs : List Tree) → (∀ k ∈ kindsAll cs, keep k = false) →
    partsAll keep cs = []
  | [], _ => rfl
  | c :: cs, h => by
    have hc := parts_none c fun l hl => h l (List.mem_append_left _ hl)
    have hcs := partsAll_none cs fun l hl => h l (List.mem_append_right _ hl)
    simp [partsAll, hc, hcs]

end

mutual

/-- The outermost parts of a kind that are listed as elements. -/
def outermost (kind : Kind) : Tree → List Tree
  | leaf k x => if k = kind then [leaf k x] else []
  | node k cs => if k = kind then [node k cs] else outermostAll kind cs

def outermostAll (kind : Kind) : List Tree → List Tree
  | [] => []
  | t :: ts => (if t.kind.isNamed then t.outermost kind else []) ++ outermostAll kind ts

end

end Tree

namespace Element

/-- The element of a tree that stands at some place in a query. -/
structure At (query before : Text) (t : Tree) (e : Element) : Prop where
  element : e = t.elementAt before.bytes
  fits : ∃ after, query = before ++ t.text ++ after

/-- The element of a tree that stands somewhere in a query. -/
def Located (query : Text) (e : Element) (t : Tree) : Prop := ∃ before, At query before t e

theorem at_of_eq (h : query = before ++ t.text ++ after) :
    At query before t (t.elementAt before.bytes) := ⟨rfl, after, h⟩

theorem at_start (h : At query before t e) : e.span.start = before.bytes := by
  rw [h.element]
  cases t with
  | leaf k x => rfl
  | node k cs => rfl

theorem at_stop (h : At query before t e) : e.span.stop = (before ++ t.text).bytes := by
  rw [h.element, Text.bytes_append, Tree.bytes_text]
  cases t with
  | leaf k x => rfl
  | node k cs => rfl

theorem at_text (h : At query before t e) : e.span.text query = t.text := by
  obtain ⟨after, ha⟩ := h.fits
  rw [Span.text, at_start h, at_stop h, Text.bytes_append, ha, Text.slice_append]
  rfl

/-- What stands between two elements of a query. -/
theorem at_between {middle : Text} (he : At query before t e)
    (hf : At query (before ++ t.text ++ middle) u f) :
    query.slice? e.span.stop f.span.start = some middle := by
  obtain ⟨after, ha⟩ := hf.fits
  rw [at_stop he, at_start hf, Text.bytes_append (before ++ t.text), ha,
    List.append_assoc (before ++ t.text ++ middle), Text.slice_append]

/-- All of a query up to the end of an element. -/
theorem at_before (h : At query before t e) :
    query.slice? 0 e.span.stop = some (before ++ t.text) := by
  obtain ⟨after, ha⟩ := h.fits
  have hs := Text.slice_append [] (before ++ t.text) after
  rw [at_stop h, ha]
  simpa [Text.bytes] using hs

/-- A text in quotes, each of them one byte. -/
theorem at_unquoted {l r : Char} {value : Text} (h : At query before t e)
    (ht : t.text = l :: (value ++ [r])) (hl : l.utf8Size = 1) (hr : r.utf8Size = 1) :
    e.span.unquoted query = value := by
  obtain ⟨after, ha⟩ := h.fits
  have hq : query = (before ++ [l]) ++ value ++ (r :: after) := by
    rw [ha, ht]
    simp
  have hb : (before ++ t.text).bytes = before.bytes + 1 + value.bytes + 1 := by
    rw [ht]
    simp only [Text.bytes_append, Text.bytes, hl, hr]
    omega
  have hs := Text.slice_append (before ++ [l]) value (r :: after)
  have hstart : (before ++ [l]).bytes = before.bytes + 1 := by
    simp [Text.bytes_append, Text.bytes, hl]
  rw [Span.unquoted, at_start h, at_stop h, hb, if_neg (by omega), hq,
    show before.bytes + 1 + value.bytes + 1 - 1 = before.bytes + 1 + value.bytes by omega,
    ← hstart, hs]
  rfl

/-- The first character of an element, where that takes one byte. -/
theorem at_first {c : Char} {text : Text} (h : At query before t e) (ht : t.text = c :: text)
    (hc : c.utf8Size = 1) : query.slice? e.span.start (e.span.start + 1) = some [c] := by
  obtain ⟨after, ha⟩ := h.fits
  have hs := Text.slice_append before [c] (text ++ after)
  have hb : Text.bytes [c] = 1 := by simp [Text.bytes, hc]
  rw [hb] at hs
  rw [at_start h, ha, ht]
  simpa using hs

/-- The text of some trees, split behind the first of them. -/
theorem textAll_split {c : Tree} {cs : List Tree}
    (h : query = before ++ Tree.textAll (c :: cs) ++ after) :
    query = before ++ c.text ++ (Tree.textAll cs ++ after) ∧
      query = (before ++ c.text) ++ Tree.textAll cs ++ after := by
  rw [h, Tree.textAll]
  constructor <;> simp only [List.append_assoc]

mutual

/-- A walk finds the elements of the parts that are kept, in their order. -/
theorem walk_located : (t : Tree) → {before after : Text} → query = before ++ t.text ++ after →
    List.Forall₂ (Located query) ((t.elementAt before.bytes).walk keep) (t.parts keep)
  | .leaf k x, before, after, h => by
    have ha : At query before (.leaf k x) ((Tree.leaf k x).elementAt before.bytes) := at_of_eq h
    cases hk : keep k with
    | false => simp [Tree.elementAt, walk, walkAll, Tree.parts, hk]
    | true => simpa [Tree.elementAt, walk, walkAll, Tree.parts, hk] using ⟨before, ha⟩
  | .node k cs, before, after, h => by
    have ha : At query before (.node k cs) ((Tree.node k cs).elementAt before.bytes) := at_of_eq h
    have hcs := @walkAll_located cs before after h
    cases hk : keep k with
    | false => simpa [Tree.elementAt, walk, Tree.parts, hk] using hcs
    | true =>
      rw [Tree.elementAt, walk, Tree.parts, if_pos hk, if_pos hk]
      exact .cons ⟨before, ha⟩ hcs

theorem walkAll_located : (cs : List Tree) → {before after : Text} →
    query = before ++ Tree.textAll cs ++ after →
    List.Forall₂ (Located query) (walkAll keep (Tree.elementsAt before.bytes cs))
      (Tree.partsAll keep cs)
  | [], _, _, _ => .nil
  | c :: cs, before, after, h => by
    obtain ⟨hq, hq'⟩ := textAll_split h
    have hc := walk_located c hq
    have hcs := walkAll_located cs hq'
    rw [Text.bytes_append, Tree.bytes_text] at hcs
    rw [Tree.elementsAt, Tree.partsAll]
    split
    · exact List.rel_append hc hcs
    · exact hcs

end

mutual

theorem outermost_located : (t : Tree) → {before after : Text} →
    query = before ++ t.text ++ after →
    List.Forall₂ (Located query) ((t.elementAt before.bytes).outermost k) (t.outermost k)
  | .leaf l x, before, after, h => by
    have ha : At query before (.leaf l x) ((Tree.leaf l x).elementAt before.bytes) := at_of_eq h
    rw [Tree.elementAt, outermost, Tree.outermost]
    split
    · exact .cons ⟨before, ha⟩ .nil
    · exact .nil
  | .node l cs, before, after, h => by
    have ha : At query before (.node l cs) ((Tree.node l cs).elementAt before.bytes) := at_of_eq h
    rw [Tree.elementAt, outermost, Tree.outermost]
    split
    · exact .cons ⟨before, ha⟩ .nil
    · exact @outermostAll_located cs before after h

theorem outermostAll_located : (cs : List Tree) → {before after : Text} →
    query = before ++ Tree.textAll cs ++ after →
    List.Forall₂ (Located query) (outermostAll k (Tree.elementsAt before.bytes cs))
      (Tree.outermostAll k cs)
  | [], _, _, _ => .nil
  | c :: cs, before, after, h => by
    obtain ⟨hq, hq'⟩ := textAll_split h
    have hc := outermost_located c hq
    have hcs := outermostAll_located cs hq'
    rw [Text.bytes_append, Tree.bytes_text] at hcs
    rw [Tree.elementsAt, Tree.outermostAll]
    split
    · exact List.rel_append hc hcs
    · exact hcs

end

theorem first_located (h : At query before t e) :
    Option.Rel (Located query) (e.first? k) (t.outermost k).head? := by
  obtain ⟨after, ha⟩ := h.fits
  have hs := outermost_located (k := k) t ha
  rw [← h.element] at hs
  rw [first?]
  generalize e.outermost k = es at hs
  generalize t.outermost k = us at hs
  cases hs with
  | nil => exact .none
  | cons hu _ => exact .some hu

/-- Of some kinds, the first that there is a part of. -/
theorem firstOf_located (ks : List Kind) (h : At query before t e) :
    Option.Rel (Located query) (ks.findSome? e.first?)
      (ks.findSome? fun k => (t.outermost k).head?) := by
  induction ks with
  | nil => exact .none
  | cons k ks ih =>
    have hr := first_located (k := k) h
    rw [List.findSome?_cons, List.findSome?_cons]
    generalize e.first? k = f at hr
    generalize (t.outermost k).head? = u at hr
    cases hr with
    | none => exact ih
    | some hl => exact .some hl

theorem located_some {f : Option Element} {u : Option Tree} (h : Option.Rel (Located query) f u)
    (hu : u = some t) : ∃ e, f = some e ∧ Located query e t := by
  subst hu
  cases h with
  | some hl => exact ⟨_, rfl, hl⟩

/-- The first part of a kind, where there is one. -/
theorem first_some (h : At query before t e) (hu : (t.outermost k).head? = some u) :
    ∃ f, e.first? k = some f ∧ Located query f u := located_some (first_located h) hu

theorem first_isSome (h : At query before t e) :
    (e.first? k).isSome = (t.outermost k).head?.isSome := by
  have hr := first_located (k := k) h
  generalize e.first? k = f at hr
  generalize (t.outermost k).head? = u at hr
  cases hr with
  | none => rfl
  | some _ => rfl

theorem leftLeavesAll_append (kinds : List Kind) (es fs : List Element) :
    leftLeavesAll kinds (es ++ fs) = leftLeavesAll kinds es ++ leftLeavesAll kinds fs := by
  induction es with
  | nil => rfl
  | cons e es ih => simp [leftLeavesAll, ih]

mutual

/-- A tree without the kinds that are looked for has no left-most leaves. -/
theorem leftLeaves_none {kinds : List Kind} : (t : Tree) → (start : Nat) →
    (∀ k ∈ t.kinds, k ∉ kinds) → (t.elementAt start).leftLeaves kinds = []
  | .leaf k x, start, h => by
    have hk := h k (.head _)
    simp [Tree.elementAt, leftLeaves, leftLeavesAll, hk]
  | .node k cs, start, h => by
    have hk := h k (.head _)
    have hcs := leftLeavesAll_none cs start fun l hl => h l (.tail _ hl)
    simp [Tree.elementAt, leftLeaves, hk, hcs]

theorem leftLeavesAll_none {kinds : List Kind} : (cs : List Tree) → (start : Nat) →
    (∀ k ∈ Tree.kindsAll cs, k ∉ kinds) → leftLeavesAll kinds (Tree.elementsAt start cs) = []
  | [], _, _ => rfl
  | c :: cs, start, h => by
    have hc := leftLeaves_none c start fun l hl => h l (List.mem_append_left _ hl)
    have hcs := leftLeavesAll_none cs (start + c.bytes) fun l hl => h l (List.mem_append_right _ hl)
    rw [Tree.elementsAt]
    split
    · rw [leftLeavesAll, hc, hcs]
      rfl
    · exact hcs

end

/-- What is looked for in an element by kinds is found by the kinds in its tree. -/
theorem find_located {α : Type} (choices : List (Kind × α)) (h : At query before t e) :
    (choices.find? fun (k, _) => (e.first? k).isSome) =
      choices.find? fun (k, _) => (t.outermost k).head?.isSome := by
  congr 1
  funext p
  exact first_isSome h

/-- Where each located element gives the result for its tree, all of them give all results. -/
theorem filterMap_located {α β : Type} {es : List Element} {xs : List α} {tree : α → Tree}
    {give : Element → Option β} {result : α → β}
    (h : List.Forall₂ (Located query) es (xs.map tree))
    (hgive : ∀ x before e, At query before (tree x) e → give e = some (result x)) :
    es.filterMap give = xs.map result := by
  induction xs generalizing es with
  | nil =>
    cases h
    rfl
  | cons x xs ih =>
    cases h with
    | cons he h =>
      obtain ⟨before, he⟩ := he
      rw [List.filterMap_cons_some (hgive x before _ he), ih h]
      rfl

end Element

end LogQuery
