import LogQuery.Proofs.Token.Spaced
import LogQuery.Proofs.Tree.Trivia

/-! Trees with single blanks between their parts, filled from tokens with single blanks between
them. -/
namespace LogQuery.Tree

variable {c : Tree} {ts us : List Token} {cs ds fs gs : List Tree} {k : Kind}

def blank : Tree := ofToken .blank

/-- A blank before every tree. -/
def airy (cs : List Tree) : List Tree := cs.flatMap fun c => [blank, c]

@[simp] theorem airy_nil : airy [] = [] := rfl

@[simp] theorem airy_cons (c : Tree) (cs : List Tree) :
    airy (c :: cs) = blank :: c :: airy cs := rfl

@[simp] theorem airy_append (cs ds : List Tree) : airy (cs ++ ds) = airy cs ++ airy ds :=
  List.flatMap_append ..

/-- The first token is no trivia. -/
def Opens (ts : List Token) : Prop := ∃ l ls, ts = l :: ls ∧ l.isTrivia = false

/-- Filled from some tokens, whatever tokens follow, trees become other ones. -/
def Fills (cs : List Tree) (ts : List Token) (fs : List Tree) : Prop :=
  ∀ rest, fillAll cs (ts ++ rest) = (fs, rest)

theorem fillAll_append (cs ds : List Tree) (ts : List Token) :
    fillAll (cs ++ ds) ts =
      ((fillAll cs ts).1 ++ (fillAll ds (fillAll cs ts).2).1,
        (fillAll ds (fillAll cs ts).2).2) := by
  induction cs generalizing ts with
  | nil => rfl
  | cons c cs ih => simp [fillAll, ih]

theorem nil_fills : Fills [] [] [] := fun _ => rfl

theorem append_fills (hc : Fills cs ts fs) (hd : Fills ds us gs) :
    Fills (cs ++ ds) (ts ++ us) (fs ++ gs) := by
  intro rest
  rw [fillAll_append, List.append_assoc, hc, hd]

theorem leaf_fills {x : Text} {l : Token} (h : l.isTrivia = false) :
    Fills [leaf k x] [l] [leaf k x] := by
  intro rest
  simp [fillAll, fill, h]

theorem node_fills (h : Fills cs ts fs) (ho : Opens ts) : Fills [node k cs] ts [node k fs] := by
  intro rest
  obtain ⟨l, ls, rfl, hl⟩ := ho
  have hf := h rest
  rw [List.cons_append] at hf
  simp [fillAll, fill, hl, hf]

/-- A blank stays outside of the tree behind it. -/
theorem fillAll_blank (ho : Opens ts) (rest : List Token) :
    fillAll (c :: cs) (.blank :: ts ++ rest) =
      (blank :: (fillAll (c :: cs) (ts ++ rest)).1, (fillAll (c :: cs) (ts ++ rest)).2) := by
  obtain ⟨l, ls, rfl, hl⟩ := ho
  have hb : Token.blank.isTrivia = true := rfl
  simp only [List.cons_append, fillAll, List.takeWhile_cons, List.dropWhile_cons, hl, hb,
    Bool.false_eq_true, if_false, if_true, List.map_cons, List.map_nil, List.nil_append]
  rfl

theorem blank_fills (h : Fills (c :: cs) ts fs) (ho : Opens ts) :
    Fills (c :: cs) (.blank :: ts) (blank :: fs) := by
  intro rest
  rw [fillAll_blank ho, h rest]

/-- Without the blank in front, what is filled has none in front either. -/
theorem fills_of_blank (h : Fills (c :: cs) (.blank :: ts) (blank :: fs)) (ho : Opens ts) :
    Fills (c :: cs) ts fs := by
  intro rest
  have hf := h rest
  rw [fillAll_blank ho, Prod.mk.injEq] at hf
  exact Prod.ext (List.cons.inj hf.1).2 hf.2

/-- A blank before each of some groups of tokens. -/
def airyTokens (gs : List (List Token)) : List Token := gs.flatMap fun g => .blank :: g

@[simp] theorem airyTokens_append (gs hs : List (List Token)) :
    airyTokens (gs ++ hs) = airyTokens gs ++ airyTokens hs := List.flatMap_append ..

/-- A list of trees, each with a blank in front. -/
theorem airy_fills {α : Type} {f h : α → Tree} {g : α → List Token} {xs : List α}
    (hf : ∀ x ∈ xs, Fills [f x] (g x) [h x]) (ho : ∀ x ∈ xs, Opens (g x)) :
    Fills (xs.map f) (airyTokens (xs.map g)) (airy (xs.map h)) := by
  induction xs with
  | nil => exact nil_fills
  | cons x xs ih =>
    exact append_fills (blank_fills (hf x (.head _)) (ho x (.head _)))
      (ih (fun y hy => hf y (.tail _ hy)) fun y hy => ho y (.tail _ hy))

/-- Significant tokens as the leaves of a node. -/
theorem tokens_fills (h : ∀ t ∈ ts, t.isTrivia = false) :
    Fills (ts.map ofToken) ts (ts.map ofToken) := by
  induction ts with
  | nil => exact nil_fills
  | cons t ts ih =>
    exact append_fills (leaf_fills (h t (.head _))) (ih fun u hu => h u (.tail _ hu))

/-- The same with blanks between them. -/
theorem spread_fills {t : Token} (ht : t.isTrivia = false) (h : ∀ u ∈ us, u.isTrivia = false) :
    Fills ((t :: us).map ofToken) (t :: airyTokens (us.map fun u => [u]))
      (ofToken t :: airy (us.map ofToken)) :=
  append_fills (leaf_fills ht)
    (airy_fills (fun u hu => leaf_fills (h u hu)) fun u hu => ⟨u, [], rfl, h u hu⟩)

/-- The blank in front of the first part stands in front of the node. -/
theorem airy_node_fills {gs : List (List Token)} (h : Fills cs (airyTokens gs) (airy fs))
    (ho : ∀ g ∈ gs, Opens g) (hc : cs ≠ []) (hg : gs ≠ []) (hf : fs ≠ []) :
    Fills [node k cs] (airyTokens gs) (airy [node k (airy fs).tail]) := by
  obtain ⟨c, cs, rfl⟩ := List.exists_cons_of_ne_nil hc
  obtain ⟨g, gs, rfl⟩ := List.exists_cons_of_ne_nil hg
  obtain ⟨f, fs, rfl⟩ := List.exists_cons_of_ne_nil hf
  have hopens : Opens (g ++ airyTokens gs) := by
    obtain ⟨l, ls, rfl, hl⟩ := ho g (.head _)
    exact ⟨l, _, rfl, hl⟩
  exact blank_fills (node_fills (fills_of_blank h hopens) hopens) hopens

theorem withTrivia_of_fills (h : Fills cs ts fs) : (node k cs).withTrivia ts = node k fs := by
  have hf := h []
  rw [List.append_nil] at hf
  simp [withTrivia, hf]

end LogQuery.Tree
