import LogQuery.Proofs.Element.Sight
import LogQuery.Proofs.Tree.Spot

/-! Places in a tree and blanks: what the grammar sees at the places of a kind is the same with and
without the blanks and comments of the tree. -/
namespace LogQuery.Tree

variable {k : Kind} {q r : Text}

/-- Blanks and comments are taken away at once. -/
theorem significant_twice (ts : List Token) :
    Token.significant (Token.significant ts) = Token.significant ts := by
  rw [Token.significant, Token.significant, List.filter_filter]
  simp only [Bool.and_self]

theorem strip_twice (t : Tree) : t.strip.strip = t.strip := by
  cases t with
  | leaf k x => rfl
  | node k cs =>
    refine strip_eq_self _ fun l hl => ?_
    rw [leaves_strip (node k cs) rfl] at hl
    simpa using (List.mem_filter.mp hl).2

/-- What the grammar sees at a place. -/
def Spot.sight (s : Spot) : Sight := ⟨Token.significant s.ahead, s.tree.strip⟩

theorem sight_under (place : Nat) (ahead : List Token) (s : Spot) :
    (s.under place ahead).sight =
      ⟨Token.significant ahead ++ s.sight.ahead, s.sight.tree⟩ := by
  simp only [Spot.sight, Spot.under, significant_append]

theorem map_sight_under {ss rs : List Spot} (h : ss.map Spot.sight = rs.map Spot.sight)
    {n m : Nat} {ahead front : List Token}
    (ha : Token.significant ahead = Token.significant front) :
    (ss.map (Spot.under n ahead)).map Spot.sight =
      (rs.map (Spot.under m front)).map Spot.sight := by
  have hunder : ∀ (xs : List Spot) (n : Nat) (ahead : List Token),
      (xs.map (Spot.under n ahead)).map Spot.sight = (xs.map Spot.sight).map
        fun s => ⟨Token.significant ahead ++ s.ahead, s.tree⟩ := by
    intro xs n ahead
    rw [List.map_map, List.map_map]
    exact List.map_congr_left fun s _ => sight_under n ahead s
  rw [hunder, hunder, h, ha]

theorem spots_trivia {c : Tree} (hk : k.isTrivia = false) (hc : c.isTrivia = true) :
    c.spots k = [] := by
  cases c with
  | leaf l x =>
    have hl : l ≠ k := by
      rintro rfl
      exact Bool.eq_false_iff.mp hk hc
    rw [spots, if_neg hl]
  | node l ds => cases hc

mutual

theorem spots_strip (hk : k.isTrivia = false) : (t : Tree) →
    (t.strip.spots k).map Spot.sight = (t.spots k).map Spot.sight
  | leaf _ _ => rfl
  | node l cs => by
    have hcs := spotsAll_strip hk cs 0 0 (rfl : Token.significant [] = Token.significant [])
    have hstrip : (node l (stripAll cs)).strip = (node l cs).strip := strip_twice (node l cs)
    rw [strip, spots, spots, List.map_append, List.map_append, hcs]
    congr 1
    split
    · simp only [List.map_cons, List.map_nil, Spot.sight, hstrip]
    · rfl

theorem spotsAll_strip (hk : k.isTrivia = false) : (cs : List Tree) → (n m : Nat) →
    {ahead front : List Token} → Token.significant ahead = Token.significant front →
    (spotsAll k n ahead (stripAll cs)).map Spot.sight = (spotsAll k m front cs).map Spot.sight
  | [], _, _, _, _, _ => rfl
  | c :: cs, n, m, ahead, front, h => by
    rw [stripAll]
    split
    · next hc =>
      have hsig : Token.significant ahead = Token.significant (front ++ c.leaves) := by
        rw [significant_append, (trivia_unseen hc).2, List.append_nil, h]
      rw [spotsAll_strip hk cs n (m + 1) hsig, spotsAll, spots_trivia hk hc]
      rfl
    · next hc =>
      have hc : c.isTrivia = false := by simpa using hc
      have hsig : Token.significant (ahead ++ c.strip.leaves) =
          Token.significant (front ++ c.leaves) := by
        rw [significant_append, significant_append, h, leaves_strip c hc, significant_twice]
      rw [spotsAll, spotsAll, List.map_append, List.map_append,
        map_sight_under (spots_strip hk c) h, spotsAll_strip hk cs (n + 1) (m + 1) hsig]

end

/-- What the grammar sees at a place is at one of the places of the tree. -/
theorem spot_strip (hk : k.isTrivia = false) {t : Tree} {r : Spot} (hr : r ∈ t.strip.spots k) :
    ∃ s ∈ t.spots k, s.sight = r.sight := by
  have hm : r.sight ∈ (t.strip.spots k).map Spot.sight := List.mem_map_of_mem hr
  rw [spots_strip hk] at hm
  exact List.mem_map.mp hm

/-- The grammar sees the same at the places of two trees of which it sees the same. -/
theorem spots_same {t u : Tree} (hk : k.isTrivia = false) (h : t.strip = u.strip) :
    (t.spots k).map Spot.sight = (u.spots k).map Spot.sight := by
  rw [← spots_strip hk t, ← spots_strip hk u, h]

end LogQuery.Tree
