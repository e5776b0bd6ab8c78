import LogQuery.Proofs.Grammar.Progress
import LogQuery.Proofs.Sentence

/-! Rules read back what is meant: selectors and other lists with commas. -/
namespace LogQuery.Grammar

open Kind (mark)

variable {k : Kind} {ts us vs : List Token} {cs ds : List Tree} {d e : Nat} {p : Look}
  {a b r : Rule} {rs : List Rule}

theorem andThen_takes (ha : a ts = ⟨cs, us, d, none⟩) (hb : b us = ⟨ds, vs, e, none⟩) :
    andThen a b ts = ⟨cs ++ ds, vs, max d e, none⟩ := by
  simp [andThen, ha, hb, Found.followed]

theorem seq_takes (hr : r ts = ⟨cs, us, d, none⟩) (hs : seq rs us = ⟨ds, vs, e, none⟩) :
    seq (r :: rs) ts = ⟨cs ++ ds, vs, max d e, none⟩ := andThen_takes hr hs

theorem seq_takes_nil (ts : List Token) : seq [] ts = ⟨[], ts, 0, none⟩ := rfl

theorem node_takes (h : r ts = ⟨cs, us, d, none⟩) :
    node k r ts = ⟨[.node k cs], us, d, none⟩ := by
  simp [node, nodeBy, h]

theorem when_takes (hp : p ts = true) : when p r ts = r ts := if_pos hp

theorem when_skips (hp : p ts = false) : when p r ts = ⟨[], ts, 0, none⟩ := by
  rw [when, if_neg (by simp [hp])]
  rfl

theorem either_takes (hp : p ts = true) : either p a b ts = a ts := if_pos hp

theorem either_skips (hp : p ts = false) : either p a b ts = b ts := if_neg (by simp [hp])

theorem many_skips (hp : p ts = false) : many p r ts = ⟨[], ts, 0, none⟩ := many_of_not hp

/-- What may follow a stage: the end, a bracket, or another stage. -/
def stageEnds : List Kind :=
  [.eof, .rParen, .lBracket, .pipe, .pipeExact, .pipeMatch, .pipePattern, .neq, .nre, .npa]

def AtStageEnd (us : List Token) : Prop := kindAt 0 us ∈ stageEnds

theorem atKind_of_kindAt (h : kindAt 0 us ≠ k) : atKind k us = false := by
  cases us with
  | nil => rfl
  | cons t us => simpa [atKind] using h

theorem wordAt_of_kindAt (h : kindAt 0 us ≠ .identifier) (w : Keyword) :
    wordAt 0 w us = false := by
  cases us with
  | nil => rfl
  | cons t us =>
    have ht : t.kind ≠ .identifier := h
    simp [Token.spells, ht]

theorem stageEnd_ne (h : AtStageEnd us) (hk : k ∉ stageEnds) : kindAt 0 us ≠ k :=
  fun he => hk (he ▸ h)

theorem stageEnd_atNextName (h : AtStageEnd us) : atNextName us = false := by
  have := stageEnd_ne h (k := .comma) (by decide)
  simp [atNextName, this]

theorem matcher_takes (m : Matching) (us : List Token) :
    matcher (m.tokens ++ us) = ⟨[m.tree], us, 0, none⟩ := by
  obtain ⟨x, ⟨k, hk⟩, y⟩ := m
  simp only [matcherOps, List.mem_cons, List.not_mem_nil, or_false] at hk
  rcases hk with rfl | rfl | rfl | rfl <;> rfl

section List

variable {α : Type} {item : Rule} {f : α → List Token} {g : α → Tree} {Q : α → List Token → Prop}

/-- What is behind an element is a comma, or for the last one what is behind the list. -/
theorem elements_ahead (hc : ∀ x us, Q x (mark .comma :: us)) (x : α) (xs : List α)
    (hu : ∀ y ∈ (x :: xs).getLast?, Q y us) :
    Q x ((xs.flatMap fun y => mark .comma :: f y) ++ us) := by
  cases xs with
  | nil => exact hu x rfl
  | cons y ys => exact hc x _

theorem getLast_tail {P : α → Prop} {x : α} {xs : List α} (h : ∀ y ∈ (x :: xs).getLast?, P y) :
    ∀ y ∈ xs.getLast?, P y := by
  cases xs with
  | nil => simp
  | cons y ys => exact h

/-- The elements of a list after the first, each with the comma before it. -/
theorem elements_take [NoLonger item]
    (hi : ∀ x us, Q x us → item (f x ++ us) = ⟨[g x], us, 0, none⟩)
    (hc : ∀ x us, Q x (mark .comma :: us)) (hn : ∀ x us, kindAt 0 (f x ++ us) = .identifier)
    (xs : List α) (hu : ∀ y ∈ xs.getLast?, Q y us) (he : atNextName us = false) :
    many atNextName (andThen bump item) ((xs.flatMap fun y => mark .comma :: f y) ++ us) =
      ⟨xs.flatMap fun y => [.ofToken (mark .comma), g y], us, 0, none⟩ := by
  induction xs with
  | nil => exact many_skips he
  | cons x xs ih =>
    have hq : Q x ((xs.flatMap fun y => mark .comma :: f y) ++ us) := elements_ahead hc x xs hu
    have hmore := ih (getLast_tail hu)
    set more := (xs.flatMap fun y => mark .comma :: f y) ++ us with hm
    have hp : atNextName (mark .comma :: (f x ++ more)) = true := by
      simp [atNextName, hn, mark]
    have hb : bump (mark .comma :: (f x ++ more)) =
        ⟨[.ofToken (mark .comma)], f x ++ more, 0, none⟩ := rfl
    have h := andThen_takes (andThen_takes hb (hi x more hq)) hmore
    have ht : ((x :: xs).flatMap fun y => mark .comma :: f y) ++ us =
        mark .comma :: (f x ++ more) := by simp [hm]
    rw [ht, elements_eq item, when_takes hp, h]
    simp

theorem commaList_takes [NoLonger item]
    (hi : ∀ x us, Q x us → item (f x ++ us) = ⟨[g x], us, 0, none⟩)
    (hc : ∀ x us, Q x (mark .comma :: us)) (hn : ∀ x us, kindAt 0 (f x ++ us) = .identifier)
    (x : α) (xs : List α) (hu : ∀ y ∈ (x :: xs).getLast?, Q y us) (he : atNextName us = false) :
    commaList item (commaTokens f (x :: xs) ++ us) = ⟨commaTrees g (x :: xs), us, 0, none⟩ := by
  rw [commaTokens, List.append_assoc, commaList,
    andThen_takes (hi x _ (elements_ahead hc x xs hu))
      (elements_take hi hc hn xs (getLast_tail hu) he)]
  rfl

end List

theorem matchers_take (m : Matching) (ms : List Matching) (he : atNextName us = false) :
    commaList matcher (commaTokens Matching.tokens (m :: ms) ++ us) =
      ⟨commaTrees Matching.tree (m :: ms), us, 0, none⟩ :=
  commaList_takes (Q := fun _ _ => True) (fun m us _ => matcher_takes m us) (fun _ _ => trivial)
    (fun _ _ => rfl) m ms (fun _ _ => trivial) he

theorem selector_takes (s : Sentence) (us : List Token) :
    selector (s.selectorTokens ++ us) = ⟨[s.selectorTree], us, 0, none⟩ := by
  have hend : seq [optional .comma, skipUntil selectorStops, expect .rBrace]
      (s.commas ++ mark .rBrace :: us) =
        ⟨(s.commas ++ [mark .rBrace]).map .ofToken, us, 0, none⟩ := by
    rw [Sentence.commas]
    cases s.comma <;> rfl
  have hcomma : atNextName (s.commas ++ mark .rBrace :: us) = false := by
    rw [Sentence.commas]
    cases s.comma <;> rfl
  have hname : atKind .identifier (s.commas ++ mark .rBrace :: us) = false := by
    rw [Sentence.commas]
    cases s.comma <;> rfl
  have hm : when (atKind .identifier) (node .matchers (commaList matcher))
      (commaTokens Matching.tokens s.matchers ++ (s.commas ++ mark .rBrace :: us)) =
        ⟨Sentence.matchersTrees s.matchers, s.commas ++ mark .rBrace :: us, 0, none⟩ := by
    cases s.matchers with
    | nil => exact when_skips hname
    | cons m ms => exact (when_takes rfl).trans (node_takes (matchers_take m ms hcomma))
  have hb : bump (mark .lBrace :: (commaTokens Matching.tokens s.matchers ++
      (s.commas ++ mark .rBrace :: us))) = ⟨[.ofToken (mark .lBrace)], _, 0, none⟩ := rfl
  have h := node_takes (k := .selector) (seq_takes hb (seq_takes hm hend))
  simpa [Sentence.selectorTokens, Sentence.selectorTree, selector] using h

end LogQuery.Grammar
