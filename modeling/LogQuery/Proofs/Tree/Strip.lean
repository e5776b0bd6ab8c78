import LogQuery.Proofs.Tree.Trivia

/-! Trees without their blanks and comments. Taking these away undoes putting them back. -/
namespace LogQuery.Tree

variable {ts : List Token} {k : Kind} {cs ds : List Tree}

def isTrivia : Tree → Bool
  | leaf k _ => k.isTrivia
  | node _ _ => false

mutual

/-- The tree without its blanks and comments. -/
def strip : Tree → Tree
  | leaf k x => leaf k x
  | node k cs => node k (stripAll cs)

def stripAll : List Tree → List Tree
  | [] => []
  | t :: ts => if t.isTrivia then stripAll ts else t.strip :: stripAll ts

end

theorem stripAll_append (cs ds : List Tree) : stripAll (cs ++ ds) = stripAll cs ++ stripAll ds := by
  induction cs with
  | nil => rfl
  | cons c cs ih =>
    simp only [List.cons_append, stripAll, ih]
    split <;> rfl

theorem stripAll_tokens (ts : List Token) :
    stripAll (ts.map ofToken) = (Token.significant ts).map ofToken := by
  induction ts with
  | nil => rfl
  | cons t ts ih =>
    simp only [List.map_cons, stripAll, ih, Token.significant, List.filter_cons]
    change (if t.isTrivia then _ else _) = _
    cases t.isTrivia <;> rfl

theorem stripAll_trivia (h : ∀ t ∈ ts, t.isTrivia = true) : stripAll (ts.map ofToken) = [] := by
  rw [stripAll_tokens, significant_trivia h]
  rfl

theorem isTrivia_fill (t : Tree) (ts : List Token) : (t.fill ts).1.isTrivia = t.isTrivia := by
  cases t <;> rfl

mutual

theorem strip_fill : (t : Tree) → (ts : List Token) → (t.fill ts).1.strip = t.strip
  | leaf _ _, _ => rfl
  | node k cs, ts => by
    have h := stripAll_fillAll cs ts
    simp only [fill, strip, h]

theorem stripAll_fillAll : (cs : List Tree) → (ts : List Token) →
    stripAll (fillAll cs ts).1 = stripAll cs
  | [], _ => rfl
  | c :: cs, ts => by
    have ht : stripAll ((ts.takeWhile Token.isTrivia).map ofToken) = [] :=
      stripAll_trivia fun t ht => List.mem_takeWhile_imp ht
    have hc := strip_fill c (ts.dropWhile Token.isTrivia)
    have hcs := stripAll_fillAll cs (c.fill (ts.dropWhile Token.isTrivia)).2
    simp only [fillAll, stripAll_append, ht, List.nil_append, stripAll, isTrivia_fill, hc, hcs]

end

mutual

/-- Nothing is taken from a tree without blanks and comments. -/
theorem strip_eq_self : (t : Tree) → (∀ l ∈ t.leaves, l.isTrivia = false) → t.strip = t
  | leaf _ _, _ => rfl
  | node k cs, h => by
    rw [strip, stripAll_eq_self cs h]

theorem stripAll_eq_self : (cs : List Tree) → (∀ l ∈ leavesAll cs, l.isTrivia = false) →
    stripAll cs = cs
  | [], _ => rfl
  | c :: cs, h => by
    have hl : (∀ l ∈ c.leaves, l.isTrivia = false) ∧ ∀ l ∈ leavesAll cs, l.isTrivia = false := by
      simpa [leavesAll, or_imp, forall_and] using h
    have hc : c.isTrivia = false := by
      cases c with
      | leaf k x => exact hl.1 ⟨k, x⟩ (.head _)
      | node k ds => rfl
    rw [stripAll, hc, strip_eq_self c hl.1, stripAll_eq_self cs hl.2]
    rfl

end

mutual

/-- Blanks and comments are the leaves that are taken away, and no others. -/
theorem leaves_strip : (t : Tree) → t.isTrivia = false →
    t.strip.leaves = Token.significant t.leaves
  | leaf k x, h => by
    have hk : (⟨k, x⟩ : Token).isTrivia = false := h
    simp [strip, leaves, Token.significant, hk]
  | node k cs, _ => by
    rw [strip, leaves, leaves]
    exact leavesAll_strip cs

theorem leavesAll_strip : (cs : List Tree) →
    leavesAll (stripAll cs) = Token.significant (leavesAll cs)
  | [] => rfl
  | c :: cs => by
    have hcs := leavesAll_strip cs
    rw [leavesAll, significant_append, stripAll]
    split
    · next hc =>
      cases c with
      | leaf k x =>
        have hk : Token.significant (leaf k x).leaves = [] :=
          significant_trivia fun l hl => by
            obtain rfl := List.mem_singleton.mp hl
            exact hc
        rw [hk, List.nil_append, hcs]
      | node k ds => cases hc
    · next hc => rw [leavesAll, leaves_strip c (by simpa using hc), hcs]

end

/-- A leaf is one of the blanks and comments just if the token is that it stands for. -/
theorem readAs_trivia {t l : Token} (h : t.ReadAs l) : l.isTrivia = t.isTrivia := by
  obtain ⟨-, hk | ⟨v, hv, hk⟩⟩ := h
  · rw [Token.isTrivia, hk, Token.isTrivia]
  · simp only [Token.spells, Bool.and_eq_true, decide_eq_true_eq] at hv
    rw [Token.isTrivia, hk, Token.isTrivia, hv.1]
    rfl

/-- Blanks and comments stay as they are. -/
theorem reads_trivia {ls : List Token} (h : List.Forall₂ Token.ReadAs ts ls)
    (hls : ∀ l ∈ ls, l.isTrivia = true) :
    ts = ls := by
  induction h with
  | nil => rfl
  | @cons t l ts ls hr _ ih =>
    have ht := hls l (.head _)
    obtain ⟨htext, hk | ⟨w, -, hk⟩⟩ := hr
    · have hl : t = l := by
        cases t
        cases l
        simp_all
      rw [hl, ih fun m hm => hls m (.tail l hm)]
    · rw [Token.isTrivia, hk] at ht
      cases ht

theorem trivia_trees (h : ∀ c ∈ cs, c.isTrivia = true) :
    ∃ trivia : List Token, (∀ t ∈ trivia, t.isTrivia = true) ∧ cs = trivia.map ofToken := by
  induction cs with
  | nil => exact ⟨[], by simp, rfl⟩
  | cons c cs ih =>
    obtain ⟨trivia, htrivia, rfl⟩ := ih fun d hd => h d (.tail c hd)
    have hc := h c (.head _)
    cases c with
    | leaf k x => exact ⟨⟨k, x⟩ :: trivia, List.forall_mem_cons.mpr ⟨hc, htrivia⟩, rfl⟩
    | node k ds => cases hc

theorem reads_significant {ls : List Token} (h : List.Forall₂ Token.ReadAs ts ls) :
    List.Forall₂ Token.ReadAs (Token.significant ts) (Token.significant ls) := by
  induction h with
  | nil => exact .nil
  | @cons t l ts ls hr _ ih =>
    rw [Token.significant, Token.significant, List.filter_cons, List.filter_cons, readAs_trivia hr]
    split
    · exact .cons hr ih
    · exact ih

theorem reads_last {l : Token} {ls : List Token} (h : List.Forall₂ Token.ReadAs ts ls)
    (hl : ls.getLast? = some l) : ∃ front c, ts = front ++ [c] ∧ c.ReadAs l := by
  obtain ⟨more, rfl⟩ := List.getLast?_eq_some_iff.mp hl
  have hr := List.rel_reverse h
  rw [List.reverse_concat] at hr
  generalize hts : ts.reverse = us at hr
  cases hr with
  | @cons c _ front _ hc _ =>
    refine ⟨front.reverse, c, ?_, hc⟩
    rw [← List.reverse_cons, ← hts, List.reverse_reverse]

theorem leaves_significant {ls : List Token}
    (h : List.Forall₂ Token.ReadAs (Token.significant ts) ls) : ∀ l ∈ ls, l.isTrivia = false := by
  intro l hl
  obtain ⟨i, hi, rfl⟩ := List.getElem_of_mem hl
  have hi' : i < (Token.significant ts).length := h.length_eq ▸ hi
  have ht : (Token.significant ts)[i].isTrivia = false := by
    have := (List.mem_filter.mp (List.getElem_mem hi')).2
    simpa using this
  exact (readAs_trivia ((List.forall₂_iff_get.mp h).2 i hi' hi)).trans ht

/-- Stripping undoes putting the trivia back into a tree over all significant tokens. -/
theorem strip_withTrivia
    (h : List.Forall₂ Token.ReadAs (Token.significant ts) (leavesAll cs)) :
    ((node k cs).withTrivia ts).strip = node k cs := by
  simp only [withTrivia, strip, stripAll_append, stripAll_fillAll,
    stripAll_trivia (fillAll_rest_trivia h), List.append_nil,
    stripAll_eq_self cs (leaves_significant h)]

mutual

/-- Only kinds of blanks and comments are lost. -/
theorem kinds_strip : (t : Tree) → {l : Kind} → l.isTrivia = false → l ∈ t.kinds →
    l ∈ t.strip.kinds
  | leaf _ _, _, _, hl => hl
  | node k cs, l, ht, hl => by
    simp only [kinds, strip, List.mem_cons] at hl ⊢
    exact hl.imp_right (kindsAll_stripAll cs ht)

theorem kindsAll_stripAll : (cs : List Tree) → {l : Kind} → l.isTrivia = false →
    l ∈ kindsAll cs → l ∈ kindsAll (stripAll cs)
  | [], _, _, hl => hl
  | c :: cs, l, ht, hl => by
    rw [kindsAll, List.mem_append] at hl
    rw [stripAll]
    split
    · next hc =>
      rcases hl with hl | hl
      · cases c with
        | leaf k x =>
          obtain rfl : l = k := by simpa [kinds] using hl
          exact (Bool.eq_false_iff.mp ht hc).elim
        | node k ds => cases hc
      · exact kindsAll_stripAll cs ht hl
    · rw [kindsAll, List.mem_append]
      exact hl.imp (kinds_strip c ht) (kindsAll_stripAll cs ht)

end

end LogQuery.Tree
