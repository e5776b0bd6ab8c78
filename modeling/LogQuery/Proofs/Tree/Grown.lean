import LogQuery.Proofs.Sentence.Flawless
import LogQuery.Proofs.Tree.Airy
import LogQuery.Proofs.Tree.Spine

/-! Trees that another one comes to at the end, beside the last of them or inside of it. Everything
else is filled and walked as before. -/
namespace LogQuery.Tree

/-- The kinds of the nodes that a tree may come to the end of, and that may open around it. -/
def growingKinds : List Kind := [.expr, .logExpr, .pipelineExpr, .pipelineStage, .lineFilters]

/-- Some trees, and the same with a tree at their end. Tokens may stand between. -/
inductive Grown (u : Tree) : List Token → List Tree → List Tree → Prop
  | here (gap : List Token) (cs : List Tree) : Grown u gap cs (cs ++ (gap.map ofToken ++ [u]))
  | fresh {k : Kind} (hk : k ∈ growingKinds) (gap : List Token) (cs : List Tree) {ds : List Tree}
    (h : Grown u [] [] ds) : Grown u gap cs (cs ++ (gap.map ofToken ++ [node k ds]))
  | last {k : Kind} (hk : k ∈ growingKinds) {gap : List Token} (cs : List Tree) {ds es : List Tree}
    (h : Grown u gap ds es) : Grown u gap (cs ++ [node k ds]) (cs ++ [node k es])

variable {u c : Tree} {gap ts us : List Token} {cs ds : List Tree} {k : Kind} {keep : Kind → Bool}

theorem grown_ne_nil (h : Grown u gap cs ds) : ds ≠ [] := by
  cases h <;> simp

theorem grown_append (front : List Tree) (h : Grown u gap cs ds) :
    Grown u gap (front ++ cs) (front ++ ds) := by
  cases h with
  | here =>
    rw [← List.append_assoc]
    exact .here gap _
  | fresh hk _ _ h =>
    rw [← List.append_assoc]
    exact .fresh hk gap _ h
  | last hk cs h =>
    rw [← List.append_assoc, ← List.append_assoc]
    exact .last hk _ h

theorem grown_flawless (h : Grown u gap cs ds) (hu : u.Flawless) (hcs : AllFlawless cs)
    (hgap : AllFlawless (gap.map ofToken)) : AllFlawless ds := by
  have hne : ∀ k ∈ growingKinds, k ≠ .error := by decide
  induction h with
  | here => simp [hcs, hgap, hu]
  | fresh hk _ _ _ ih => simp [hcs, hgap, hne _ hk, ih allFlawless_nil allFlawless_nil]
  | last hk cs _ ih =>
    simp only [allFlawless_append, allFlawless_cons, flawless_node, allFlawless_nil] at hcs ⊢
    exact ⟨hcs.1, ⟨hne _ hk, ih hcs.2.1.2 hgap⟩, trivial⟩

theorem grown_flawed (h : Grown u gap cs ds) (hu : ¬ u.Flawless) : ¬ AllFlawless ds := by
  induction h with
  | here => simp [hu]
  | fresh _ _ _ _ ih => simp [ih]
  | last _ _ _ ih => simp [ih]

theorem fillAll_single (c : Tree) (ts : List Token) :
    fillAll [c] ts = ((ts.takeWhile Token.isTrivia).map ofToken ++
      [(c.fill (ts.dropWhile Token.isTrivia)).1], (c.fill (ts.dropWhile Token.isTrivia)).2) := rfl

/-- Grown trees are filled as the trees that they have grown from, and then from what these left. -/
theorem grown_fill (h : Grown u gap cs ds) (hgap : gap = []) {left : List Token}
    (hleft : ∀ t ∈ left, t.isTrivia = true) (hd : us.dropWhile Token.isTrivia = us)
    (ts : List Token) (hts : (fillAll cs ts).2 = left ++ us) :
    Grown (u.fill us).1 left (fillAll cs ts).1 (fillAll ds ts).1 ∧
      (fillAll ds ts).2 = (u.fill us).2 := by
  induction h generalizing ts left with
  | here gap cs =>
    subst hgap
    rw [List.map_nil, List.nil_append, fillAll_append, hts, fillAll_behind hleft hd]
    exact ⟨.here left _, rfl⟩
  | @fresh k hk gap cs ds _ ih =>
    subst hgap
    obtain ⟨hin, hrest⟩ := @ih rfl [] (by simp) us rfl
    rw [List.map_nil, List.nil_append, fillAll_append, hts, fillAll_behind hleft hd]
    exact ⟨.fresh hk left _ hin, hrest⟩
  | @last k hk gap cs ds es _ ih =>
    rw [fillAll_append, fillAll_single] at hts
    obtain ⟨hin, hrest⟩ := ih hgap hleft _ hts
    rw [fillAll_append, fillAll_append, fillAll_single, fillAll_single, ← List.append_assoc,
      ← List.append_assoc]
    exact ⟨.last hk _ hin, hrest⟩

theorem walkAll_append (es fs : List Element) :
    Element.walkAll keep (es ++ fs) = Element.walkAll keep es ++ Element.walkAll keep fs := by
  induction es with
  | nil => rfl
  | cons e es ih => rw [List.cons_append, Element.walkAll, Element.walkAll, ih, List.append_assoc]

theorem bytesAll_append (cs ds : List Tree) : bytesAll (cs ++ ds) = bytesAll cs + bytesAll ds := by
  induction cs with
  | nil => exact (Nat.zero_add _).symm
  | cons c cs ih => rw [List.cons_append, bytesAll, bytesAll, ih, Nat.add_assoc]

theorem walk_single (hk : k ∈ growingKinds) (hkeep : ∀ k ∈ growingKinds, keep k = false)
    (start : Nat) (ds : List Tree) : Element.walkAll keep (elementsAt start [node k ds]) =
      Element.walkAll keep (elementsAt start ds) := by
  have hn : ∀ k ∈ growingKinds, k.isNamed = true := by decide
  simp [elementsAt, elementAt, kind, hn k hk, Element.walkAll, Element.walk, hkeep k hk]

/-- A walk that passes over what grows finds what it found, and what it finds in the new tree. -/
theorem grown_walk (hkeep : ∀ k ∈ growingKinds, keep k = false) (hu : u.kind.isNamed = true)
    (h : Grown u gap cs ds) (hgap : ∀ t ∈ gap, t.isTrivia = true) (start : Nat) :
    Element.walkAll keep (elementsAt start ds) = Element.walkAll keep (elementsAt start cs) ++
      (u.elementAt (start + bytesAll cs + (Token.spelled gap).bytes)).walk keep := by
  have hnew : ∀ n, Element.walkAll keep (elementsAt n [u]) = (u.elementAt n).walk keep := by
    intro n
    simp [elementsAt, hu, Element.walkAll]
  induction h generalizing start with
  | here gap cs =>
    rw [elementsAt_append, elementsAt_append, elementsAt_trivia hgap, List.nil_append,
      walkAll_append, hnew, bytesAll_ofToken]
  | fresh hk gap cs _ ih =>
    rw [elementsAt_append, elementsAt_append, elementsAt_trivia hgap, List.nil_append,
      walkAll_append, walk_single hk hkeep, ih (by simp), bytesAll_ofToken]
    rfl
  | last hk cs _ ih =>
    rw [elementsAt_append, elementsAt_append, walkAll_append, walkAll_append,
      walk_single hk hkeep, walk_single hk hkeep, ih hgap, List.append_assoc, bytesAll_append]
    simp only [bytesAll, bytes, Nat.add_zero, Nat.add_assoc]

end LogQuery.Tree
