import LogQuery.Drilldown.Label
import LogQuery.Proofs.Element.Located

/-! Elements moved to another place. What is read off an element depends on its own tree only, and
not on where in a query it stands. -/
namespace LogQuery

variable {query before : Text} {t : Tree} {e f : Element} {k : Kind}

def Span.moved (n : Nat) (s : Span) : Span := ⟨n + s.start, n + s.stop⟩

namespace Element

mutual

/-- An element and all below it, by some bytes further on. -/
def moved (n : Nat) : Element → Element
  | mk k s cs => mk k (s.moved n) (movedAll n cs)

def movedAll (n : Nat) : List Element → List Element
  | [] => []
  | e :: es => e.moved n :: movedAll n es

end

@[simp] theorem moved_span (n : Nat) (e : Element) : (e.moved n).span = e.span.moved n := by
  cases e
  rfl

mutual

theorem outermost_moved (n : Nat) : (e : Element) →
    (e.moved n).outermost k = (e.outermost k).map (moved n)
  | mk l s cs => by
    rw [moved, outermost, outermost]
    split
    · rfl
    · exact outermostAll_moved n cs

theorem outermostAll_moved (n : Nat) : (es : List Element) →
    outermostAll k (movedAll n es) = (outermostAll k es).map (moved n)
  | [] => rfl
  | e :: es => by
    rw [movedAll, outermostAll, outermostAll, List.map_append, outermost_moved n e,
      outermostAll_moved n es]

end

theorem first_moved (n : Nat) (e : Element) :
    (e.moved n).first? k = (e.first? k).map (moved n) := by
  rw [first?, outermost_moved, List.head?_map]
  rfl

mutual

theorem elementAt_moved (n start : Nat) : (t : Tree) →
    t.elementAt (n + start) = (t.elementAt start).moved n
  | .leaf k x => by
    simp [Tree.elementAt, moved, movedAll, Span.moved, Nat.add_assoc]
  | .node k cs => by
    have hcs := elementsAt_moved n start cs
    simp [Tree.elementAt, moved, Span.moved, Nat.add_assoc, hcs]

theorem elementsAt_moved (n start : Nat) : (cs : List Tree) →
    Tree.elementsAt (n + start) cs = movedAll n (Tree.elementsAt start cs)
  | [] => rfl
  | c :: cs => by
    have hc := elementAt_moved n start c
    have hcs := elementsAt_moved n (start + c.bytes) cs
    rw [← Nat.add_assoc] at hcs
    simp only [Tree.elementsAt, hc, hcs]
    split
    · rfl
    · rfl

end

/-- Where an element stands, it is the element of its tree alone, moved. -/
theorem at_moved (h : At query before t e) : e = t.element.moved before.bytes := by
  rw [h.element, Tree.element, ← elementAt_moved, Nat.add_zero]

theorem at_self (t : Tree) : At t.text [] t t.element := ⟨rfl, [], by simp⟩

/-- The bounds of an element that stands in a query. -/
theorem located_bounds (h : Located query f t) :
    f.span.start ≤ f.span.stop ∧ f.span.stop ≤ query.bytes := by
  obtain ⟨before, h⟩ := h
  obtain ⟨after, ha⟩ := h.fits
  rw [at_start h, at_stop h, ha]
  simp only [Text.bytes_append]
  omega

theorem first_bounds (h : At query before t e) (hf : e.first? k = some f) :
    f.span.start ≤ f.span.stop ∧ f.span.stop ≤ query.bytes := by
  have hl := first_located (k := k) h
  rw [hf] at hl
  generalize (t.outermost k).head? = u at hl
  cases hl with
  | some hl => exact located_bounds hl

section Moved

variable {n : Nat} {part after : Text} {s : Span}

theorem text_moved (h : s.stop ≤ part.bytes) :
    (s.moved before.bytes).text (before ++ part ++ after) = s.text part := by
  rw [Span.text, Span.moved, Text.slice_inside _ _ _ h]
  rfl

theorem unquoted_moved (h : s.stop ≤ part.bytes) :
    (s.moved before.bytes).unquoted (before ++ part ++ after) = s.unquoted part := by
  unfold Span.unquoted
  by_cases hs : s.stop < s.start + 2
  · rw [if_pos hs, if_pos (by simp only [Span.moved]; omega)]
  · rw [if_neg hs, if_neg (by simp only [Span.moved]; omega)]
    have hstart : (s.moved before.bytes).start + 1 = before.bytes + (s.start + 1) := by
      simp only [Span.moved]
      omega
    have hstop : (s.moved before.bytes).stop - 1 = before.bytes + (s.stop - 1) := by
      simp only [Span.moved]
      omega
    rw [hstart, hstop, Text.slice_inside _ _ _ (by omega)]

end Moved

/-- What a matcher says, it says wherever it stands. -/
theorem ofMatcher_at (h : At query before t e) :
    LabelFilter.ofMatcher? query e = LabelFilter.ofMatcher? t.text t.element := by
  have hs := at_self t
  obtain ⟨after, rfl⟩ := h.fits
  rw [at_moved h]
  simp only [LabelFilter.ofMatcher?, first_moved]
  cases hname : t.element.first? .identifier with
  | none => rfl
  | some name =>
    cases hstring : t.element.first? .string with
    | none => rfl
    | some string =>
      have hn := first_bounds hs hname
      have hv := first_bounds hs hstring
      have hslice : (before ++ t.text ++ after).slice? (before.bytes + name.span.stop)
          (before.bytes + string.span.start) = t.text.slice? name.span.stop string.span.start :=
        Text.slice_inside _ _ _ (hv.1.trans hv.2)
      simp only [Option.map_some, moved_span, text_moved hn.2, unquoted_moved hv.2]
      rw [← hslice]
      rfl

end Element

end LogQuery
