import Mathlib.Data.List.DropRight
import Mathlib.Data.List.Forall2
import LogQuery.Tree.Parse

/-! What putting blanks and comments back does: the leaves become all tokens of the query. -/
namespace LogQuery

theorem exists_of_forall₂ {α β : Type} {R : α → β → Prop} {x : α} {xs : List α} {ys : List β}
    (h : List.Forall₂ R xs ys) (hx : x ∈ xs) : ∃ y ∈ ys, R x y := by
  induction h with
  | nil => cases hx
  | cons hr _ ih =>
    rcases List.mem_cons.mp hx with rfl | hx
    · exact ⟨_, .head _, hr⟩
    · obtain ⟨y, hy, hr⟩ := ih hx
      exact ⟨y, .tail _ hy, hr⟩

/-- A leaf stands for a token under the kind of the token, or under the keyword it spells. -/
def Token.ReadAs (t l : Token) : Prop :=
  l.text = t.text ∧ (l.kind = t.kind ∨ ∃ w : Keyword, t.spells w = true ∧ l.kind = .keyword w)

namespace Tree

variable {t : Tree} {cs ds : List Tree} {ts taken after : List Token}

theorem readAs_refl (t : Token) : t.ReadAs t := ⟨rfl, Or.inl rfl⟩

theorem readAs_all (ts : List Token) : List.Forall₂ Token.ReadAs ts ts := by
  induction ts with
  | nil => exact .nil
  | cons t ts ih => exact .cons (readAs_refl t) ih

theorem leavesAll_append (cs ds : List Tree) :
    leavesAll (cs ++ ds) = leavesAll cs ++ leavesAll ds := by
  induction cs with
  | nil => rfl
  | cons c cs ih => simp [leavesAll, ih]

theorem leavesAll_ofToken (ts : List Token) : leavesAll (ts.map ofToken) = ts := by
  induction ts with
  | nil => rfl
  | cons t ts ih => simp [leavesAll, ofToken, leaves, ih]

theorem mem_kindsAll {k : Kind} : k ∈ kindsAll cs ↔ ∃ c ∈ cs, k ∈ c.kinds := by
  induction cs with
  | nil => simp [kindsAll]
  | cons c cs ih => simp [kindsAll, ih]

theorem mem_leavesAll {l : Token} : l ∈ leavesAll cs ↔ ∃ c ∈ cs, l ∈ c.leaves := by
  induction cs with
  | nil => simp [leavesAll]
  | cons c cs ih => simp [leavesAll, ih]

mutual

theorem text_leaves : (t : Tree) → t.text = t.leaves.flatMap Token.text
  | leaf k t => by simp [text, leaves]
  | node k cs => by rw [text, leaves, textAll_leaves cs]

theorem textAll_leaves : (cs : List Tree) → textAll cs = (leavesAll cs).flatMap Token.text
  | [] => rfl
  | c :: cs => by
    rw [textAll, leavesAll, List.flatMap_append, text_leaves c, textAll_leaves cs]

end

theorem text_of_reads {ls : List Token} (h : List.Forall₂ Token.ReadAs ts ls) :
    ls.flatMap Token.text = ts.flatMap Token.text := by
  induction h with
  | nil => rfl
  | cons h _ ih => simp [h.1, ih]

theorem significant_append (ts us : List Token) :
    Token.significant (ts ++ us) = Token.significant ts ++ Token.significant us :=
  List.filter_append ..

theorem significant_trivia (h : ∀ t ∈ ts, t.isTrivia = true) : Token.significant ts = [] := by
  simpa [Token.significant] using h

theorem significant_dropWhile (ts : List Token) :
    Token.significant (ts.dropWhile Token.isTrivia) = Token.significant ts := by
  conv_rhs => rw [← List.takeWhile_append_dropWhile (p := Token.isTrivia) (l := ts)]
  rw [significant_append, significant_trivia fun t ht => List.mem_takeWhile_imp ht,
    List.nil_append]

/-- Without trivia in front, the first significant token is the first token. -/
theorem eq_cons_of_significant {t : Token} (hd : ts.dropWhile Token.isTrivia = ts)
    (hs : Token.significant ts = t :: after) :
    ∃ us, ts = t :: us ∧ Token.significant us = after := by
  cases ts with
  | nil => simp [Token.significant] at hs
  | cons u us =>
    have hu : u.isTrivia = false := by
      have h := List.dropWhile_eq_self_iff.mp hd (by simp)
      simpa using h
    rw [Token.significant, List.filter_cons_of_pos (by simp [hu])] at hs
    obtain ⟨rfl, rfl⟩ := List.cons.inj hs
    exact ⟨us, rfl, rfl⟩

mutual

/-- A tree that stands for the next significant tokens takes exactly these, and the trivia between
them, from the tokens of the query. -/
theorem fill_reads : (t : Tree) → {ts taken after : List Token} →
    ts.dropWhile Token.isTrivia = ts → Token.significant ts = taken ++ after →
    List.Forall₂ Token.ReadAs taken t.leaves →
    ∃ used, ts = used ++ (t.fill ts).2 ∧
      List.Forall₂ Token.ReadAs used (t.fill ts).1.leaves ∧
      Token.significant (t.fill ts).2 = after
  | leaf k x, ts, taken, after, hd, hs, hr => by
    cases hr with
    | cons h hr =>
      cases hr
      obtain ⟨us, rfl, hus⟩ := eq_cons_of_significant hd hs
      exact ⟨[_], rfl, .cons h .nil, hus⟩
  | node k cs, ts, taken, after, _, hs, hr => by
    obtain ⟨used, he, hu, ha⟩ := fillAll_reads cs hs hr
    exact ⟨used, by simpa [fill] using he, by simpa [fill, leaves] using hu,
      by simpa [fill] using ha⟩

theorem fillAll_reads : (cs : List Tree) → {ts taken after : List Token} →
    Token.significant ts = taken ++ after →
    List.Forall₂ Token.ReadAs taken (leavesAll cs) →
    ∃ used, ts = used ++ (fillAll cs ts).2 ∧
      List.Forall₂ Token.ReadAs used (leavesAll (fillAll cs ts).1) ∧
      Token.significant (fillAll cs ts).2 = after
  | [], ts, taken, after, hs, hr => by
    cases hr
    exact ⟨[], by simp [fillAll], by simp [fillAll, leavesAll], by simpa [fillAll] using hs⟩
  | c :: cs, ts, taken, after, hs, hr => by
    have h₁ := List.forall₂_take_append taken c.leaves (leavesAll cs) hr
    have h₂ := List.forall₂_drop_append taken c.leaves (leavesAll cs) hr
    have hs₁ : Token.significant (ts.dropWhile Token.isTrivia) =
        taken.take c.leaves.length ++ (taken.drop c.leaves.length ++ after) := by
      rw [significant_dropWhile, hs, ← List.append_assoc, List.take_append_drop]
    obtain ⟨used₁, he₁, hu₁, ha₁⟩ :=
      fill_reads c (List.dropWhile_idempotent Token.isTrivia _) hs₁ h₁
    obtain ⟨used₂, he₂, hu₂, ha₂⟩ := fillAll_reads cs ha₁ h₂
    refine ⟨ts.takeWhile Token.isTrivia ++ (used₁ ++ used₂), ?_, ?_, ?_⟩
    · calc
        ts = ts.takeWhile Token.isTrivia ++ ts.dropWhile Token.isTrivia :=
          List.takeWhile_append_dropWhile.symm
        _ = _ := by
          rw [he₁, he₂]
          simp [fillAll]
    · simp only [fillAll, leavesAll_append, leavesAll_ofToken, leavesAll]
      exact List.rel_append (readAs_all _) (List.rel_append hu₁ hu₂)
    · simpa [fillAll] using ha₂

end

/-- The tokens after the last significant one are trivia. -/
theorem fillAll_rest_trivia
    (h : List.Forall₂ Token.ReadAs (Token.significant ts) (leavesAll cs)) :
    ∀ t ∈ (fillAll cs ts).2, t.isTrivia = true := by
  obtain ⟨_, _, _, ha⟩ := fillAll_reads cs (List.append_nil _).symm h
  simpa [Token.significant] using ha

/-- With the trivia put back, the leaves of a tree over all significant tokens are all tokens. -/
theorem withTrivia_reads {k : Kind}
    (h : List.Forall₂ Token.ReadAs (Token.significant ts) (leavesAll cs)) :
    List.Forall₂ Token.ReadAs ts ((node k cs).withTrivia ts).leaves := by
  obtain ⟨used, he, hu, _⟩ := fillAll_reads cs (List.append_nil _).symm h
  simp only [withTrivia, leaves, leavesAll_append, leavesAll_ofToken]
  conv_lhs => rw [he]
  exact List.rel_append hu (readAs_all _)

end Tree
end LogQuery
