import LogQuery.Proofs.Lines.Chain

/-! Trees without what stands in their error nodes. -/
namespace LogQuery

namespace Tree

variable {t c : Tree} {cs ds : List Tree} {k l : Kind} {keep : Kind → Bool}
  {before after : List Token}

mutual

/-- The tree with all error nodes empty. -/
def prune : Tree → Tree
  | leaf k x => leaf k x
  | node k cs => node k (if k = .error then [] else pruneAll cs)

def pruneAll : List Tree → List Tree
  | [] => []
  | c :: cs => c.prune :: pruneAll cs

end

theorem prune_node (h : k ≠ .error) : (node k cs).prune = node k (pruneAll cs) := by
  rw [prune, if_neg h]

theorem prune_error : (node .error cs).prune = node .error [] := rfl

@[simp] theorem prune_kind (t : Tree) : t.prune.kind = t.kind := by
  cases t <;> rfl

theorem pruneAll_append (cs ds : List Tree) : pruneAll (cs ++ ds) = pruneAll cs ++ pruneAll ds := by
  induction cs with
  | nil => rfl
  | cons c cs ih => simp [pruneAll, ih]

mutual

/-- Nothing is taken from a tree without an error node. -/
theorem prune_eq_self : (t : Tree) → .error ∉ t.kinds → t.prune = t
  | leaf _ _, _ => rfl
  | node k cs, h => by
    have hk : k ≠ .error := fun he => h (he ▸ .head _)
    rw [prune_node hk, pruneAll_eq_self cs fun he => h (.tail k he)]

theorem pruneAll_eq_self : (cs : List Tree) → .error ∉ kindsAll cs → pruneAll cs = cs
  | [], _ => rfl
  | c :: cs, h => by
    rw [kindsAll, List.mem_append, not_or] at h
    rw [pruneAll, prune_eq_self c h.1, pruneAll_eq_self cs h.2]

end

mutual

/-- Error nodes themselves are left. -/
theorem error_prune : (t : Tree) → .error ∈ t.kinds → .error ∈ t.prune.kinds
  | leaf _ _, h => h
  | node k cs, h => by
    by_cases hk : k = .error
    · subst hk
      exact .head _
    · rw [prune_node hk]
      rcases List.mem_cons.mp h with he | h
      · exact (hk he.symm).elim
      · exact .tail k (error_pruneAll cs h)

theorem error_pruneAll : (cs : List Tree) → .error ∈ kindsAll cs → .error ∈ kindsAll (pruneAll cs)
  | [], h => h
  | c :: cs, h => by
    rcases List.mem_append.mp h with h | h
    · exact List.mem_append_left _ (error_prune c h)
    · exact List.mem_append_right _ (error_pruneAll cs h)

end

/-- No error node holds anything of a kind. -/
def Shuts (k : Kind) (cs : List Tree) : Prop :=
  ∀ before ds after, Within cs before (node .error ds) after → k ∉ kindsAll ds

theorem shuts_head (h : Shuts k (node .error ds :: cs)) : k ∉ kindsAll ds :=
  h _ _ _ (.head _ cs)

theorem shuts_inside (h : Shuts k (node l ds :: cs)) : Shuts k ds :=
  fun _ _ _ hw => h _ _ _ (.inside l cs hw)

theorem shuts_tail (h : Shuts k (c :: cs)) : Shuts k cs := fun _ _ _ hw => h _ _ _ (.tail c hw)

theorem shuts_alone (h : Shuts k (c :: cs)) : Shuts k [c] :=
  fun _ _ _ hw => h _ _ _ (within_append_left hw cs)

mutual

/-- The outermost parts of a kind that is in no error node are found all the same. -/
theorem outermost_prune (hk : k ≠ .error) : (t : Tree) → Shuts k [t] →
    t.prune.outermost k = (t.outermost k).map prune
  | leaf l x, _ => by
    rw [prune, outermost]
    split <;> rfl
  | node l cs, h => by
    by_cases hl : l = .error
    · subst hl
      rw [prune_error, outermost, outermost, if_neg hk.symm, if_neg hk.symm,
        outermostAll_none cs (shuts_head h)]
      rfl
    · rw [prune_node hl, outermost, outermost, outermostAll_prune hk cs (shuts_inside h)]
      split
      · rw [List.map_cons, prune_node hl]
        rfl
      · rfl

theorem outermostAll_prune (hk : k ≠ .error) : (cs : List Tree) → Shuts k cs →
    outermostAll k (pruneAll cs) = (outermostAll k cs).map prune
  | [], _ => rfl
  | c :: cs, h => by
    rw [pruneAll, outermostAll, outermostAll, List.map_append, prune_kind,
      outermost_prune hk c (shuts_alone h), outermostAll_prune hk cs (shuts_tail h)]
    split <;> rfl

end

mutual

theorem parts_prune (hk : k ≠ .error) : (t : Tree) → Shuts k [t] →
    t.prune.parts (fun l => l = k) = (t.parts fun l => l = k).map prune
  | leaf l x, _ => by
    rw [prune, parts]
    split <;> rfl
  | node l cs, h => by
    by_cases hl : l = .error
    · subst hl
      have hnone : partsAll (fun l => l = k) cs = [] := partsAll_none cs fun l hl => by
        have hne : l ≠ k := fun he => shuts_head h (he ▸ hl)
        simpa using hne
      simp [prune_error, parts, partsAll, hk.symm, hnone]
    · rw [prune_node hl, parts, parts, partsAll_prune hk cs (shuts_inside h), List.map_append]
      split
      · rw [List.map_cons, prune_node hl]
        rfl
      · rfl

theorem partsAll_prune (hk : k ≠ .error) : (cs : List Tree) → Shuts k cs →
    partsAll (fun l => l = k) (pruneAll cs) = (partsAll (fun l => l = k) cs).map prune
  | [], _ => rfl
  | c :: cs, h => by
    rw [pruneAll, partsAll, partsAll, List.map_append, prune_kind,
      parts_prune hk c (shuts_alone h), partsAll_prune hk cs (shuts_tail h)]
    split <;> rfl

end

end Tree

end LogQuery
