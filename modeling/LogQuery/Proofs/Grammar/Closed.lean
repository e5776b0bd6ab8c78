import LogQuery.Proofs.Grammar.Enclosed
import LogQuery.Proofs.Tree.Spine

/-! A selector that closes is read the same whatever follows it, and whatever expression it comes to
stand in begins with it. -/
namespace LogQuery.Grammar

open LogQuery.Tree (Spine spineKinds)

variable {ts us : List Token} {u lhs : Tree} {ds : List Tree} {levels least : Nat} {inner : Rule}
  {right : Nat → Rule}

/-- A selector that takes all tokens, and of which no part is missing at the end, ends with its
closing brace. It takes the same ahead of any others. -/
theorem selector_closed (h : atKind .lBrace ts = true)
    (ht : (selector ts).trees = [.node .selector ds]) (hr : (selector ts).rest = [])
    (hb : Tree.endsBareAll ds = false) :
    (∃ front b, ts = front ++ [b] ∧ b.kind = .rBrace) ∧
      ∀ us, (selector (ts ++ us)).trees = [.node .selector ds] ∧
        (selector (ts ++ us)).rest = us := by
  obtain ⟨t, inner, left, rfl, -, hin, hstop⟩ := selector_inner h
  obtain ⟨htrees, hrest⟩ := selector_stopped t hin hstop
  by_cases hclose : atKind .rBrace left = true
  · obtain ⟨b, more, rfl, hk⟩ := atKind_cons hclose
    rw [hrest, expect_brace hk] at hr
    obtain rfl : more = [] := hr
    refine ⟨⟨t :: inner, b, rfl, hk⟩, fun us => ?_⟩
    have hone : Stopped (b :: us) := by
      intro v hv
      obtain rfl := Option.some.inj hv
      simp [hk, selectorStops]
    obtain ⟨hat, har⟩ := selector_stopped t hin hone
    rw [expect_brace hk] at hat har htrees
    rw [htrees] at ht
    have hts : t :: (inner ++ [b]) ++ us = t :: (inner ++ b :: us) := by simp
    rw [hts, hat, har]
    exact ⟨ht, rfl⟩
  · -- Without the brace there is an empty error node at the end.
    have hmissing : expect .rBrace left = missing left := by
      simp [expect, either, hclose]
    rw [htrees, hmissing] at ht
    obtain ⟨-, rfl⟩ := Tree.node.inj (List.cons.inj ht).1
    have hbare : Tree.endsBareAll (missing left).trees = true := rfl
    have hne : (missing left).trees = [.node .error []] := rfl
    rw [hne, ← List.cons_append, Tree.endsBareAll_append, ← hne, hbare] at hb
    cases hb

/-- What is joined to an expression on its right leaves it at the beginning. -/
theorem climb_spine (limit : List Token) (h : Spine u lhs) (ts : List Token) :
    ∃ t, (climb binaryJoin binary right least limit lhs ts).trees = [t] ∧ Spine u t := by
  induction limit generalizing lhs ts with
  | nil => exact ⟨lhs, rfl, h⟩
  | cons l limit ih =>
    rw [climb]
    split
    · exact ⟨lhs, rfl, h⟩
    · next j _ =>
      split
      · exact ⟨lhs, rfl, h⟩
      · have hbinary : Spine u (binary (lhs :: (andThen j.mark (right j.right) ts).trees)) :=
          .node (by decide) _ (.node (by decide) _ (.node (by decide) _ h))
        exact ih hbinary _

variable (hb : atKind .lBrace ts = true) (ht : (selector ts).trees = [u])

include hb ht

theorem operand_spine (levels : Nat) (inner : Rule) :
    ∃ t, (operand levels inner ts).trees = [t] ∧ Spine u t := by
  obtain ⟨b, more, rfl, hk⟩ := atKind_cons hb
  have hlog : (logExpr levels (b :: more)).trees = [.node .logExpr
      (u :: (when atStage (pipeline levels) (selector (b :: more)).rest).trees)] := by
    simp [logExpr, node, nodeBy, seq, andThen, Found.followed, ht, nothing]
  have hoperand : (operand levels inner (b :: more)).trees =
      [.node .expr (logExpr levels (b :: more)).trees] := by
    simp [operand, hk, node, nodeBy]
  rw [hoperand, hlog]
  exact ⟨_, rfl, .node (by decide) _ (.node (by decide) _ .here)⟩

theorem expr_spine (levels least : Nat) :
    ∃ t, (expr (levels + 1) least ts).trees = [t] ∧ Spine u t := by
  obtain ⟨t, hoperand, hspine⟩ := operand_spine hb ht levels (expr levels 0)
  rw [expr, deepen, chain]
  simp only [hoperand]
  exact climb_spine _ hspine _

/-- Tokens that begin with a selector are an expression that begins with it. -/
theorem contents_spine (levels : Nat) :
    ∃ t more, (contents (levels + 1) ts).trees = t :: more ∧ Spine u t := by
  obtain ⟨t, hexpr, hspine⟩ := expr_spine hb ht levels 0
  rw [contents, andThen, Found.followed]
  simp only
  split
  · rw [Found.orMissing]
    split
    · rw [hexpr]
      exact ⟨t, _, rfl, hspine⟩
    · rw [Found.followed, hexpr]
      exact ⟨t, _, rfl, hspine⟩
  · rw [hexpr]
    exact ⟨t, _, rfl, hspine⟩

end LogQuery.Grammar
