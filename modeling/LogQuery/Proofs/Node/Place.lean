import LogQuery.Proofs.Node.Search

/-! Places in a tree of any sort. One node may stand at several places, so that it is places and not
nodes of which one is above another. -/
namespace LogQuery.Node

universe u

/-- A node, and the way down to it by the numbers of the children. -/
structure Place (α : Type u) where
  path : List Nat
  node : α

namespace Place

variable {α : Type u} {p q : Place α} {i j : Nat}

/-- A place in a child, as a place in its parent. -/
def under (i : Nat) (p : Place α) : Place α := ⟨i :: p.path, p.node⟩

/-- The way down to the second place goes on below the first. -/
def Above (q p : Place α) : Prop := q.path <+: p.path ∧ q.path ≠ p.path

instance : Decidable (q.Above p) := inferInstanceAs (Decidable (_ ∧ _))

theorem above_under : (q.under i).Above (p.under j) ↔ i = j ∧ q.Above p := by
  simp only [Above, under, List.cons_prefix_cons, ne_eq, List.cons.injEq]
  tauto

theorem root_above (node : α) : (⟨[], node⟩ : Place α).Above (p.under i) :=
  ⟨List.nil_prefix, (List.cons_ne_nil _ _).symm⟩

theorem not_above_root (node : α) : ¬ q.Above ⟨[], node⟩ :=
  fun h => h.2 (List.prefix_nil.mp h.1)

end Place

variable {α : Type u} [Node α] {stops : α → Bool} {node root child : α} {p q : Place α} {i : Nat}

/-- The places in a tree, each before those below it and those to the right. -/
def places (node : α) : List (Place α) :=
  ⟨[], node⟩ :: ((children node).map places).zipIdx.flatMap fun below =>
    below.1.map (Place.under below.2)
termination_by ends.wrap node

/-- A place that passes a test while no place above it does. -/
def IsOutermost (stops : α → Bool) (root : α) (p : Place α) : Prop :=
  stops p.node = true ∧ ∀ q ∈ places root, q.Above p → stops q.node = false

instance : Decidable (IsOutermost stops root p) := inferInstanceAs (Decidable (_ ∧ _))

def outermostPlaces (stops : α → Bool) (root : α) : List (Place α) :=
  (places root).filter fun p => IsOutermost stops root p

theorem places_cons (node : α) :
    places node = ⟨[], node⟩ ::
      (children node).zipIdx.flatMap fun c => (places c.1).map (Place.under c.2) := by
  rw [places, List.zipIdx_map, List.flatMap_map]
  rfl

theorem mem_places : p ∈ places node ↔
    p = ⟨[], node⟩ ∨ ∃ child i q, (children node)[i]? = some child ∧ q ∈ places child ∧
      p = q.under i := by
  rw [places_cons, List.mem_cons, List.mem_flatMap]
  refine or_congr_right ?_
  constructor
  · rintro ⟨⟨child, i⟩, hc, hp⟩
    obtain ⟨q, hq, rfl⟩ := List.mem_map.mp hp
    exact ⟨child, i, q, List.mem_zipIdx_iff_getElem?.mp hc, hq, rfl⟩
  · rintro ⟨child, i, q, hc, hq, rfl⟩
    exact ⟨(child, i), List.mem_zipIdx_iff_getElem?.mpr hc, List.mem_map_of_mem hq⟩

/-- Below a node that fails the test, a place is outermost just if it is so in its child. -/
theorem isOutermost_under (hn : stops node = false) (hc : (children node)[i]? = some child) :
    IsOutermost stops node (p.under i) ↔ IsOutermost stops child p := by
  refine and_congr_right fun _ => ⟨fun h q hq ha => ?_, fun h q hq ha => ?_⟩
  · exact h (q.under i) (mem_places.mpr (.inr ⟨child, i, q, hc, hq, rfl⟩))
      (Place.above_under.mpr ⟨rfl, ha⟩)
  · obtain rfl | ⟨other, j, r, hj, hr, rfl⟩ := mem_places.mp hq
    · exact hn
    · obtain ⟨rfl, habove⟩ := Place.above_under.mp ha
      obtain rfl : other = child := Option.some.inj (hj.symm.trans hc)
      exact h r hr habove

theorem not_isOutermost_under (hn : stops node = true) : ¬ IsOutermost stops node (p.under i) := by
  intro h
  have hroot := h.2 ⟨[], node⟩ (mem_places.mpr (.inl rfl)) (Place.root_above node)
  exact absurd hn (by simpa using hroot)

theorem isOutermost_root : IsOutermost stops node ⟨[], node⟩ ↔ stops node = true :=
  and_iff_left fun _ _ ha => (Place.not_above_root node ha).elim

/-- The outermost nodes are those at the outermost places, in the same order. -/
theorem outermost_places (stops : α → Bool) (root : α) :
    (outermostPlaces stops root).map Place.node = outermost stops root := by
  induction root using node_induction with
  | step node ih =>
    rw [outermostPlaces, places_cons, outermost]
    cases hn : stops node with
    | true =>
      have hbelow : ∀ p ∈ (children node).zipIdx.flatMap fun c =>
          (places c.1).map (Place.under c.2), ¬ decide (IsOutermost stops node p) = true := by
        intro p hp
        obtain ⟨c, -, hp⟩ := List.mem_flatMap.mp hp
        obtain ⟨q, -, rfl⟩ := List.mem_map.mp hp
        simpa using not_isOutermost_under hn
      rw [List.filter_cons_of_pos (by simpa using isOutermost_root.mpr hn),
        List.filter_eq_nil_iff.mpr hbelow]
      rfl
    | false =>
      have hroot : ¬ IsOutermost stops node ⟨[], node⟩ := by
        rw [isOutermost_root, hn]
        exact Bool.false_ne_true
      have hbelow : ∀ c ∈ (children node).zipIdx,
          (((places c.1).map (Place.under c.2)).filter fun p =>
            IsOutermost stops node p).map Place.node = outermost stops c.1 := by
        intro c hc
        have hsame : ((fun p => decide (IsOutermost stops node p)) ∘ Place.under c.2) =
            fun p => decide (IsOutermost stops c.1 p) := by
          funext p
          exact decide_eq_decide.mpr (isOutermost_under hn (List.mem_zipIdx_iff_getElem?.mp hc))
        rw [List.filter_map, hsame, List.map_map, ← ih c.1 (List.fst_mem_of_mem_zipIdx hc)]
        rfl
      rw [List.filter_cons_of_neg (by simpa using hroot), List.filter_flatMap, List.map_flatMap,
        List.flatMap_congr hbelow, ← List.flatMap_map Prod.fst (outermost stops),
        List.zipIdx_map_fst]
      rfl

theorem mem_outermostPlaces :
    p ∈ outermostPlaces stops root ↔ p ∈ places root ∧ IsOutermost stops root p := by
  rw [outermostPlaces, List.mem_filter, decide_eq_true_iff]

end LogQuery.Node
