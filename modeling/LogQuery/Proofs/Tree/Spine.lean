import LogQuery.Proofs.Element.Located
import LogQuery.Proofs.Structure
import LogQuery.Proofs.Tight

/-! What a tree begins with, going down first children through expressions. It is filled first and
walked first. -/
namespace LogQuery

namespace Tree

/-- The kinds of the expressions that one can stand at the beginning of. -/
def spineKinds : List Kind := [.expr, .logExpr, .metricExpr, .binOpExpr]

/-- A tree that another begins with. -/
inductive Spine (u : Tree) : Tree → Prop
  | here : Spine u u
  | node {k : Kind} {c : Tree} (hk : k ∈ spineKinds) (cs : List Tree) (h : Spine u c) :
    Spine u (node k (c :: cs))

variable {t u : Tree} {ts us trivia : List Token} {cs ds : List Tree} {keep : Kind → Bool}

theorem spine_fill (hd : ts.dropWhile Token.isTrivia = ts) (h : Spine u t) :
    Spine (u.fill ts).1 (t.fill ts).1 := by
  induction h with
  | here => exact .here
  | node hk cs _ ih =>
    rw [fill_node, fillAll_head hd]
    exact .node hk _ ih

/-- Trivia ahead of the first tree stays ahead of it. -/
theorem fillAll_behind (htrivia : ∀ t ∈ trivia, t.isTrivia = true)
    (hd : ts.dropWhile Token.isTrivia = ts) (c : Tree) (cs : List Tree) :
    fillAll (c :: cs) (trivia ++ ts) =
      (trivia.map ofToken ++ (c.fill ts).1 :: (fillAll cs (c.fill ts).2).1,
        (fillAll cs (c.fill ts).2).2) := by
  have ht : ts.takeWhile Token.isTrivia = [] :=
    List.takeWhile_eq_nil_iff.mpr (List.dropWhile_eq_self_iff.mp hd)
  simp only [fillAll, List.takeWhile_append_of_pos htrivia, List.dropWhile_append_of_pos htrivia,
    hd, ht, List.append_nil]

/-- Tokens that begin with a significant one still do with others behind them. -/
theorem opens_append (hne : ts ≠ []) (hd : ts.dropWhile Token.isTrivia = ts) (us : List Token) :
    (ts ++ us).dropWhile Token.isTrivia = ts ++ us := by
  cases ts with
  | nil => exact (hne rfl).elim
  | cons t ts =>
    rw [List.dropWhile_eq_self_iff] at hd ⊢
    exact fun _ => hd (by simp)

theorem spine_named (hu : u.kind.isNamed = true) (h : Spine u t) : t.kind.isNamed = true := by
  cases h with
  | here => exact hu
  | node hk cs _ => exact (by decide : ∀ k ∈ spineKinds, k.isNamed = true) _ hk

/-- A walk that passes over expressions begins with what it finds in the tree at the beginning. -/
theorem spine_walk (hkeep : ∀ k ∈ spineKinds, keep k = false) (hu : u.kind.isNamed = true)
    (h : Spine u t) (start : Nat) :
    ∃ back, (t.elementAt start).walk keep = (u.elementAt start).walk keep ++ back := by
  induction h with
  | here => exact ⟨[], (List.append_nil _).symm⟩
  | @node k c hk cs h ih =>
    obtain ⟨back, hback⟩ := ih
    have hc := spine_named hu h
    refine ⟨back ++ Element.walkAll keep (elementsAt (start + c.bytes) cs), ?_⟩
    simp [elementAt, elementsAt, Element.walk, Element.walkAll, hkeep k hk, hc, hback]

theorem elementsAt_trivia (h : ∀ t ∈ ts, t.isTrivia = true) (start : Nat) :
    elementsAt start (ts.map ofToken) = [] := by
  induction ts generalizing start with
  | nil => rfl
  | cons t ts ih =>
    have ht : (ofToken t).kind.isNamed = false := Kind.isNamed_of_trivia (h t (.head _))
    rw [List.map_cons, elementsAt, ht, ih fun u hu => h u (.tail t hu)]
    rfl

theorem bytesAll_ofToken (ts : List Token) :
    bytesAll (ts.map ofToken) = (Token.spelled ts).bytes := by
  rw [← bytes_textAll, textAll_leaves, leavesAll_ofToken, Token.spelled]

theorem elementsAt_behind (htrivia : ∀ t ∈ trivia, t.isTrivia = true) (cs : List Tree) :
    elementsAt 0 (trivia.map ofToken ++ cs) = elementsAt (Token.spelled trivia).bytes cs := by
  rw [elementsAt_append, elementsAt_trivia htrivia, List.nil_append, Nat.zero_add,
    bytesAll_ofToken]

section Alone

variable {front left used : List Token} {l m : Token}

/-- Nothing but trivia behind a significant token that is the last is nothing. -/
theorem trivia_behind (hts : Token.significant ts = []) (hl : (front ++ ts).getLast? = some l)
    (ht : l.isTrivia = false) : ts = [] := by
  by_contra hne
  obtain ⟨more, m, rfl⟩ := List.eq_nil_or_concat ts |>.resolve_left hne
  have hm : l = m := by
    rw [List.concat_eq_append, ← List.append_assoc, List.getLast?_concat] at hl
    exact (Option.some.inj hl).symm
  have hmem : l ∈ Token.significant (more.concat m) := by
    refine List.mem_filter.mpr ⟨?_, by rw [ht]; rfl⟩
    simp [hm]
  rw [hts] at hmem
  cases hmem

/-- Of two beginnings of some tokens that both end in significant ones, and leave as many of these,
both are the same. -/
theorem beginning_unique (h : ts ++ us = used ++ left)
    (hsame : Token.significant left = Token.significant us) (hl : ts.getLast? = some l)
    (hlt : l.isTrivia = false) (hm : used.getLast? = some m) (hmt : m.isTrivia = false) :
    left = us := by
  rcases List.append_eq_append_iff.mp h with ⟨mid, rfl, rfl⟩ | ⟨mid, rfl, rfl⟩
  · rw [significant_append, List.self_eq_append_left] at hsame
    rw [trivia_behind hsame hm hmt, List.nil_append]
  · rw [significant_append, List.append_left_eq_self] at hsame
    rw [trivia_behind hsame hl hlt, List.nil_append]

/-- Trees over all of some tokens leave what comes behind these. -/
theorem fillAll_left (hr : List.Forall₂ Token.ReadAs (Token.significant ts) (leavesAll ds))
    (hb : endsBareAll ds = false) (hl : ts.getLast? = some l) (hlt : l.isTrivia = false)
    (us : List Token) : (fillAll ds (ts ++ us)).2 = us := by
  obtain ⟨used, hused, hreads, hleft⟩ := fillAll_reads ds (significant_append ts us) hr
  obtain ⟨m, hm, hmt⟩ := fillAll_closes ds (ts ++ us) (leaves_significant hr) hb
  obtain ⟨front, c, rfl, hc⟩ := reads_last hreads hm
  have hct : c.isTrivia = false := (readAs_trivia hc).symm.trans hmt
  exact beginning_unique hused hleft hl hlt List.getLast?_concat hct

/-- They are filled from these tokens, whatever comes behind them. -/
theorem fillAll_alone (hr : List.Forall₂ Token.ReadAs (Token.significant ts) (leavesAll ds))
    (hb : endsBareAll ds = false) (hl : ts.getLast? = some l) (hlt : l.isTrivia = false)
    (us : List Token) : (fillAll ds (ts ++ us)).1 = (fillAll ds ts).1 := by
  have hrest : (fillAll ds (ts ++ us)).2 = [] ++ us := fillAll_left hr hb hl hlt us
  rw [fillAll_cut ds hrest]

end Alone

end Tree

end LogQuery
