import LogQuery.Proofs.Precedence.Ranked

/-! Label filters are found with their signs in order, and what is not joined by signs is found with
its parts in order. -/
namespace LogQuery.Grammar

open LogQuery.Tree (kindsAll)

variable {k : Kind} {ts us : List Token} {a r : Rule} {cs : List Tree} {c : Tree}

/-! Label filters. -/

instance : Ranks matcher := by
  unfold matcher
  infer_instance

instance [Ranks r] : Ranks (commaList r) := by
  unfold commaList
  infer_instance

instance : Ranks selector := by
  unfold selector
  infer_instance

instance : Ranks lineValue := by
  unfold lineValue
  infer_instance

instance (levels : Nat) : Ranks (orFilter levels) := by
  induction levels with
  | zero => exact inferInstanceAs (Ranks refuse)
  | succ levels ih =>
    unfold orFilter
    infer_instance

instance (levels : Nat) : Ranks (lineFilter levels) := by
  unfold lineFilter
  infer_instance

instance (levels : Nat) : Ranks (lineFilters levels) := by
  unfold lineFilters
  infer_instance

instance (v k : Kind) [Holds k.isPlain] : Ranks (comparison v k) := by
  unfold comparison
  infer_instance

instance : Ranks ipLabelFilter := by
  unfold ipLabelFilter
  infer_instance

instance : Ranks labelComparison where
  ranked ts := by
    simp only [labelComparison]
    split_ifs
    · exact Ranks.ranked ts
    · exact Ranks.ranked ts
    · split <;> exact Ranks.ranked ts

/-- A comparison is one node, and no label filter by itself. -/
theorem labelComparison_single (ts : List Token) :
    ∃ k cs, (labelComparison ts).trees = [.node k cs] ∧ k ≠ .labelFilter := by
  simp only [labelComparison]
  split_ifs
  · exact ⟨.ipLabelFilter, _, rfl, by decide⟩
  · exact ⟨.matcher, _, rfl, by decide⟩
  · split
    · exact ⟨.unitFilter, _, rfl, by decide⟩
    · exact ⟨.unitFilter, _, rfl, by decide⟩
    · exact ⟨.numberFilter, _, rfl, by decide⟩

/-- How strongly the sign at the top of a label filter binds on its left and right. -/
def jointPowers? (t : Tree) : Option (Nat × Nat) :=
  t.joint?.map fun j => (2 * Tree.jointLevel j - 1, 2 * Tree.jointLevel j)

/-- Without a label filter at the front of its parts, a node joins none. -/
theorem alone_ordered (h : c.kind ≠ .labelFilter) : Tree.Ordered .labelFilter (c :: cs) := by
  intro l more he hl
  obtain ⟨rfl, -⟩ := List.cons.inj he
  exact (h hl).elim

theorem alone_powers (h : c.kind ≠ .labelFilter) :
    jointPowers? (.node .labelFilter (c :: cs)) = none := by
  rw [jointPowers?, Tree.joint?, if_neg h]
  rfl

theorem labelOperand_first {inner : Rule} [hi : Ranks inner] (ts : List Token) :
    (labelOperand inner ts).trees = [] ∨ ∃ t, (labelOperand inner ts).trees = [t] ∧
      (.error ∉ t.kinds → t.kind = .labelFilter ∧ t.Ranked ∧ jointPowers? t = none) := by
  unfold labelOperand either
  split
  · next hp =>
    right
    refine ⟨_, rfl, fun he => ?_⟩
    obtain ⟨t, us, rfl, ht⟩ := atKind_cons hp
    have hc : (Tree.ofToken t).kind ≠ .labelFilter := by
      show t.kind ≠ .labelFilter
      rw [ht]
      decide
    have hr := Ranks.ranked (r := seq [bump, orMissing .labelFilter inner, expect .rParen])
      (t :: us) (fun h => he (by simp [Tree.kinds, h]))
    refine ⟨rfl, .node _ _ (alone_ordered hc) hr, alone_powers hc⟩
  · unfold when
    split
    · right
      refine ⟨_, rfl, fun he => ?_⟩
      obtain ⟨k, cs, hs, hk⟩ := labelComparison_single ts
      have hr := Ranks.ranked (r := labelComparison) ts (fun h => he (by simp [Tree.kinds, h]))
      rw [hs] at hr ⊢
      exact ⟨rfl, .node _ _ (alone_ordered hk) hr, alone_powers hk⟩
    · exact Or.inl rfl

/-- What a sign between label filters leaves in the tree, and how strongly it binds. -/
theorem labelJoin_mark {j : Join} (h : labelJoin ts = some j) :
    Ranks j.mark ∧
      (j.mark ts).trees.map Tree.kind ∈ [[], [.keyword .or], [.keyword .and], [.comma]] ∧
      j.left = 2 * Tree.jointLevel ((j.mark ts).trees.map Tree.kind) - 1 ∧
      j.right = 2 * Tree.jointLevel ((j.mark ts).trees.map Tree.kind) := by
  unfold labelJoin at h
  split_ifs at h with ho ha hc hb
  · cases h
    rw [Bool.and_eq_true] at ho
    obtain ⟨t, us, rfl, _⟩ := wordAt_cons ho.1
    exact ⟨inferInstance, by simp [bumpWord, bumpAs, Tree.kind], rfl, rfl⟩
  · cases h
    rw [Bool.and_eq_true] at ha
    obtain ⟨t, us, rfl, _⟩ := wordAt_cons ha.1
    exact ⟨inferInstance, by simp [bumpWord, bumpAs, Tree.kind], rfl, rfl⟩
  · cases h
    rw [Bool.and_eq_true, decide_eq_true_eq] at hc
    obtain ⟨t, us, rfl, ht⟩ := kindAt_cons hc.1 (by decide)
    have hm : (bump (t :: us)).trees.map Tree.kind = [.comma] := by
      simp [bump, Tree.ofToken, Tree.kind, ht]
    rw [hm]
    exact ⟨inferInstance, by simp, rfl, rfl⟩
  · cases h
    exact ⟨inferInstance, by simp [nothing], rfl, rfl⟩

theorem jointLevel_cases (j : List Kind) : Tree.jointLevel j = 1 ∨ Tree.jointLevel j = 2 := by
  unfold Tree.jointLevel
  split
  · exact Or.inl rfl
  · exact Or.inr rfl

/-- A label filter between the parts on its two sides. -/
theorem joint_label {l r : Tree} {signs : List Tree} (h : l.kind = .labelFilter) :
    (Tree.node .labelFilter (l :: (signs ++ [r]))).joint? = some (signs.map Tree.kind) := by
  rw [Tree.joint?, if_pos h, List.dropLast_concat]

theorem label_wraps : Wraps labelJoin (.node .labelFilter) .labelFilter jointPowers? := by
  intro ts j lhs rhs hj hlhs hrhs t he
  obtain ⟨hmark, hkinds, hleft, hright⟩ := labelJoin_mark hj
  have hsigns : .error ∉ kindsAll (j.mark ts).trees := by
    intro h
    apply he
    simp [t, Tree.kinds, kindsAll, kindsAll_append, h]
  have hlevel : ∀ {u : Tree} {i : List Kind}, u.joint? = some i →
      jointPowers? u = some (2 * Tree.jointLevel i - 1, 2 * Tree.jointLevel i) := by
    intro u i h
    rw [jointPowers?, h]
    rfl
  refine ⟨rfl, .node _ _ ?_ ?_, ?_⟩
  · intro l more hl _
    obtain ⟨rfl, rfl⟩ := List.cons.inj hl
    refine ⟨_, rhs, rfl, hrhs.kind, hkinds, ?_, ?_⟩
    · intro i hi
      have h := hlhs.stops _ _ (hlevel hi) j hj
      omega
    · intro i hi
      have h := hrhs.strong _ _ (hlevel hi)
      have hpos := jointLevel_cases i
      omega
  · intro c hc
    simp only [List.mem_cons, List.mem_append, List.not_mem_nil, or_false] at hc
    rcases hc with rfl | hc | rfl
    · exact hlhs.holds.ranked
    · exact hmark.ranked ts hsigns c hc
    · exact hrhs.ranked
  · rw [hlevel (joint_label hlhs.holds.kind), hleft, hright]

/-- A label filter is found in order, and after it only signs that bind more weakly. -/
theorem labelFilter_climbs (levels least : Nat) (ts : List Token)
    (he : .error ∉ kindsAll (labelFilter levels least ts).trees) :
    (labelFilter levels least ts).trees = [] ∨
      ∃ t, (labelFilter levels least ts).Climbs labelJoin .labelFilter jointPowers? least t :=
  levels_climb (fun _ => labelOperand) (fun _ => rfl) (fun _ _ => rfl)
    (fun levels _ _ h => labelJoin_shorter levels h) (fun cs h => by simp [Tree.kinds, h])
    label_wraps (fun _ _ _ => labelOperand_first) levels least ts he

instance (levels least : Nat) : Ranks (labelFilter levels least) :=
  ⟨fun ts => climbs_ranked (labelFilter_climbs levels least ts)⟩

/-! Stages. -/

instance : Ranks labelExtraction := by
  unfold labelExtraction
  infer_instance

instance : Ranks labelExtractions := by
  unfold labelExtractions
  infer_instance

instance : Ranks labelFormat := by
  unfold labelFormat
  infer_instance

instance [Holds k.isPlain] : Ranks (labelChoice k) := by
  unfold labelChoice
  infer_instance

instance : Ranks jsonParser where
  ranked ts := by
    refine nodeBy_ranked (Ranks.ranked ts) fun _ => Tree.ordered_plain ?_ _
    split <;> rfl

instance : Ranks logfmtParser where
  ranked ts := by
    refine nodeBy_ranked (Ranks.ranked ts) fun _ => Tree.ordered_plain ?_ _
    unfold logfmtKind
    split_ifs <;> rfl

instance (w : Keyword) : Ranks (namedStage w) := by
  unfold namedStage stringStage bareStage labelFormats labelChoices
  split <;> infer_instance

instance : Ranks wordStage where
  ranked ts := by
    unfold wordStage
    split
    · split <;> exact Ranks.ranked _
    · exact nothing_ranked []

instance (levels : Nat) : Ranks (stage levels) := by
  unfold stage
  infer_instance

instance (levels : Nat) : Ranks (pipeline levels) := by
  unfold pipeline
  infer_instance

instance (levels : Nat) : Ranks (logExpr levels) := by
  unfold logExpr
  infer_instance

/-! Calls. -/

instance : Ranks range := by
  unfold range
  infer_instance

instance : Ranks offset := by
  unfold offset
  infer_instance

instance : Ranks unwrapped where
  ranked ts := by
    unfold unwrapped
    dsimp only
    split <;> exact Ranks.ranked ts

instance (levels : Nat) : Ranks (unwrap levels) := by
  unfold unwrap
  infer_instance

instance (levels : Nat) : Ranks (logRange levels) := by
  unfold logRange
  infer_instance

instance : Ranks grouping := by
  unfold grouping
  infer_instance

instance [Ranks r] : Ranks (arguments r) := by
  unfold arguments
  infer_instance

instance : Ranks parameter := by
  unfold parameter
  infer_instance

theorem call_ranks (levels : Nat) [Ranks a] {name : Text} (h : call? levels a name = some r) :
    Ranks r := by
  unfold call? at h
  split at h
  · cases h
    unfold rangeAggregation
    infer_instance
  · split at h
    · cases h
      unfold vectorAggregation
      infer_instance
    · split at h
      · cases h
        unfold vectorLiteral
        infer_instance
      · cases h

end LogQuery.Grammar
