import LogQuery.Proofs.Node.Place

/-! Left-most leaves. A node leads to one if the way along first children of the kinds does not end
at a node without children. -/
namespace LogQuery.Node

universe u

variable {α : Type u} [Node α] {kinds : List Kind} {node leaf : α} {stops leads : α → Bool}

/-- The node that is reached by following first children as long as they are of the kinds. -/
def lowest (kinds : List Kind) (node : α) : α :=
  match _h : children node with
  | [] => node
  | first :: _ => if isOf kinds first then lowest kinds first else node
termination_by ends.wrap node
decreasing_by
  show first ∈ children node
  rw [_h]
  exact .head _

/-- A node of the kinds from which the way ends at a node with children. -/
def leadsOn (kinds : List Kind) (node : α) : Bool :=
  isOf kinds node && !(children (lowest kinds node)).isEmpty

theorem lowest_nil (h : children node = []) : lowest kinds node = node := by
  rw [lowest]
  split <;> simp_all

theorem lowest_cons {first : α} {more : List α} (h : children node = first :: more) :
    lowest kinds node = if isOf kinds first then lowest kinds first else node := by
  rw [lowest]
  split <;> simp_all

theorem leftLeaf_nil (h : children node = []) : leftLeaf? kinds node = none := by
  rw [leftLeaf?]
  split <;> simp_all

theorem leftLeaf_cons {first : α} {more : List α} (h : children node = first :: more) :
    leftLeaf? kinds node = if isOf kinds first then leftLeaf? kinds first else some node := by
  rw [leftLeaf?]
  split <;> simp_all

/-- The way down gives the node at its end, or nothing if that has no children. -/
theorem leftLeaf_lowest (kinds : List Kind) (node : α) :
    leftLeaf? kinds node =
      if (children (lowest kinds node)).isEmpty then none else some (lowest kinds node) := by
  induction node using node_induction with
  | step node ih =>
    cases hc : children node with
    | nil => simp [leftLeaf_nil hc, lowest_nil hc, hc]
    | cons first more =>
      have hfirst := ih first (by rw [hc]; exact .head _)
      rw [leftLeaf_cons hc, lowest_cons hc]
      split
      · exact hfirst
      · simp [hc]

theorem leftLook_leads (kinds : List Kind) (node : α) :
    leftLook kinds node =
      if leadsOn kinds node then ⟨some (lowest kinds node), false⟩ else ⟨none, true⟩ := by
  rw [leftLook, leftLeaf_lowest, leadsOn]
  cases isOf kinds node
  · rfl
  · cases (children (lowest kinds node)).isEmpty <;> rfl

/-- The leaves are what the outermost nodes that lead on lead to. -/
theorem leftLeaves_outermost (kinds : List Kind) (root : α) :
    leftLeaves kinds root = (outermost (leadsOn kinds) root).map (lowest kinds) := by
  rw [leftLeaves, search_trail]
  induction root using node_induction with
  | step node ih =>
    rw [trail, outermost, leftLook_leads]
    cases leadsOn kinds node with
    | true => rfl
    | false =>
      simp only [Bool.false_eq_true, if_false, if_true, Option.toList_none, List.nil_append]
      rw [List.flatMap_congr ih, List.map_flatMap]

/-- Where all outermost nodes pass a stricter test too, they are the outermost ones for it. -/
theorem outermost_stricter (hle : ∀ node, leads node = true → stops node = true) (root : α)
    (h : ∀ node ∈ outermost stops root, leads node = true) :
    outermost leads root = outermost stops root := by
  induction root using node_induction with
  | step node ih =>
    rw [outermost] at h
    rw [outermost, outermost]
    cases hn : stops node with
    | true =>
      rw [hn] at h
      rw [h node (.head _)]
      rfl
    | false =>
      have hleads : leads node = false := by
        by_contra hl
        simp [hle node (by simpa using hl)] at hn
      rw [hn] at h
      rw [hleads]
      refine List.flatMap_congr fun child hc => ih child hc fun below hb => ?_
      exact h below (List.mem_flatMap.mpr ⟨child, hc, hb⟩)

theorem mem_outermost (h : leaf ∈ outermost stops node) : stops leaf = true := by
  rw [← outermost_places] at h
  obtain ⟨p, hp, rfl⟩ := List.mem_map.mp h
  exact (mem_outermostPlaces.mp hp).2.1

/-- There is one leaf for each outermost node of the kinds just if all of these lead on. -/
theorem leftLeaves_each (kinds : List Kind) (root : α) :
    leftLeaves kinds root = (outermost (isOf kinds) root).map (lowest kinds) ↔
      ∀ node ∈ outermost (isOf kinds) root, children (lowest kinds node) ≠ [] := by
  rw [leftLeaves_outermost]
  constructor
  · intro h node hn hc
    have hmem : lowest kinds node ∈ (outermost (leadsOn kinds) root).map (lowest kinds) := by
      rw [h]
      exact List.mem_map_of_mem hn
    obtain ⟨other, ho, he⟩ := List.mem_map.mp hmem
    have hleads := mem_outermost ho
    rw [leadsOn, he, hc] at hleads
    simp at hleads
  · intro h
    rw [outermost_stricter]
    · intro node hn
      exact (Bool.and_eq_true_iff.mp hn).1
    · intro node hn
      simp [leadsOn, mem_outermost hn, h node hn]

end LogQuery.Node
