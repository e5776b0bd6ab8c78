import Mathlib.Data.List.Forall2
import LogQuery.Drilldown.Line
import LogQuery.Element.Walk

/-! Elements of two queries that go together. Where the kinds are the same and the children go
together as well, so do all elements that are found on a walk. -/
namespace LogQuery.Element

/-- Elements that go together are of one kind, and their children go together one by one. -/
structure Descends (R : Element → Element → Prop) : Prop where
  kind : ∀ {e f}, R e f → e.kind = f.kind
  children : ∀ {e f}, R e f → List.Forall₂ R e.children f.children

variable {R : Element → Element → Prop} {e f : Element} {es fs : List Element} {k : Kind}
  {ks : List Kind} {keep : Kind → Bool}

mutual

theorem walk_related (hR : Descends R) : (e : Element) → {f : Element} → R e f →
    List.Forall₂ R (e.walk keep) (f.walk keep)
  | mk k s cs, mk l t ds, h => by
    obtain rfl : k = l := hR.kind h
    have hcs := walkAll_related hR cs (hR.children h)
    rw [walk, walk]
    split
    · exact .cons h hcs
    · exact hcs

theorem walkAll_related (hR : Descends R) : (es : List Element) → {fs : List Element} →
    List.Forall₂ R es fs → List.Forall₂ R (walkAll keep es) (walkAll keep fs)
  | [], _, h => by
    cases h
    exact .nil
  | e :: es, _, h => by
    cases h with
    | cons he h => exact List.rel_append (walk_related hR e he) (walkAll_related hR es h)

end

mutual

theorem outermost_related (hR : Descends R) : (e : Element) → {f : Element} → R e f →
    List.Forall₂ R (e.outermost k) (f.outermost k)
  | mk l s cs, mk m t ds, h => by
    obtain rfl : l = m := hR.kind h
    rw [outermost, outermost]
    split
    · exact .cons h .nil
    · exact outermostAll_related hR cs (hR.children h)

theorem outermostAll_related (hR : Descends R) : (es : List Element) → {fs : List Element} →
    List.Forall₂ R es fs → List.Forall₂ R (outermostAll k es) (outermostAll k fs)
  | [], _, h => by
    cases h
    exact .nil
  | e :: es, _, h => by
    cases h with
    | cons he h => exact List.rel_append (outermost_related hR e he) (outermostAll_related hR es h)

end

theorem head_related (h : List.Forall₂ R es fs) : Option.Rel R es.head? fs.head? := by
  cases h with
  | nil => exact .none
  | cons he _ => exact .some he

theorem first_related (hR : Descends R) (h : R e f) (k : Kind) :
    Option.Rel R (e.first? k) (f.first? k) := head_related (outermost_related hR e h)

/-- Of some kinds, the first that there is an element of. -/
theorem firstOf_related (hR : Descends R) (h : R e f) (ks : List Kind) :
    Option.Rel R (ks.findSome? e.first?) (ks.findSome? f.first?) := by
  induction ks with
  | nil => exact .none
  | cons k ks ih =>
    have hk := first_related hR h k
    rw [List.findSome?_cons, List.findSome?_cons]
    generalize e.first? k = a at hk
    generalize f.first? k = b at hk
    cases hk with
    | none => exact ih
    | some hs => exact .some hs

theorem find_related (hR : Descends R) (h : List.Forall₂ R es fs) (k : Kind) :
    Option.Rel R (es.find? fun e => e.kind = k) (fs.find? fun f => f.kind = k) := by
  induction h with
  | nil => exact .none
  | cons he _ ih =>
    rw [List.find?_cons, List.find?_cons, hR.kind he]
    split
    · exact .some he
    · exact ih

theorem any_related (hR : Descends R) (h : List.Forall₂ R es fs) :
    es.any (fun e => e.kind = k) = fs.any fun f => f.kind = k := by
  induction h with
  | nil => rfl
  | cons he _ ih => rw [List.any_cons, List.any_cons, hR.kind he, ih]

theorem child_related (hR : Descends R) (h : R e f) (k : Kind) :
    Option.Rel R (e.child? k) (f.child? k) := find_related hR (hR.children h) k

theorem leftLeaf_related (hR : Descends R) (e : Element) {f : Element} (h : R e f) :
    Option.Rel R (e.leftLeaf? ks) (f.leftLeaf? ks) := by
  fun_induction leftLeaf? ks e generalizing f with
  | case1 k s =>
    obtain ⟨l, t, ds⟩ := f
    have hcs : List.Forall₂ R [] ds := hR.children h
    cases hcs
    exact .none
  | case2 k s c cs hc ih =>
    obtain ⟨l, t, ds⟩ := f
    have hcs : List.Forall₂ R (c :: cs) ds := hR.children h
    cases hcs with
    | cons hcd hcs =>
      rw [leftLeaf?, ← hR.kind hcd, if_pos hc]
      exact ih hcd
  | case3 k s c cs hc =>
    obtain ⟨l, t, ds⟩ := f
    have hcs : List.Forall₂ R (c :: cs) ds := hR.children h
    cases hcs with
    | cons hcd hcs =>
      rw [leftLeaf?, ← hR.kind hcd, if_neg hc]
      exact .some h

mutual

theorem leftLeaves_related (hR : Descends R) : (e : Element) → {f : Element} → R e f →
    List.Forall₂ R (e.leftLeaves ks) (f.leftLeaves ks)
  | mk k s cs, mk l t ds, h => by
    obtain rfl : k = l := hR.kind h
    have hleaf : Option.Rel R (if ks.contains k then (mk k s cs).leftLeaf? ks else none)
        (if ks.contains k then (mk k t ds).leftLeaf? ks else none) := by
      split
      · exact leftLeaf_related hR _ h
      · exact .none
    rw [leftLeaves, leftLeaves]
    generalize (if ks.contains k then (mk k s cs).leftLeaf? ks else none) = a at hleaf
    generalize (if ks.contains k then (mk k t ds).leftLeaf? ks else none) = b at hleaf
    cases hleaf with
    | none => exact leftLeavesAll_related hR cs (hR.children h)
    | some hl => exact .cons hl .nil

theorem leftLeavesAll_related (hR : Descends R) : (es : List Element) → {fs : List Element} →
    List.Forall₂ R es fs → List.Forall₂ R (leftLeavesAll ks es) (leftLeavesAll ks fs)
  | [], _, h => by
    cases h
    exact .nil
  | e :: es, _, h => by
    cases h with
    | cons he h =>
      exact List.rel_append (leftLeaves_related hR e he) (leftLeavesAll_related hR es h)

end

mutual

theorem strings_related (hR : Descends R) : (e : Element) → {f : Element} → R e f →
    List.Forall₂ R (LineEntry.strings e) (LineEntry.strings f)
  | mk k s cs, mk l t ds, h => by
    have hcs : List.Forall₂ R cs ds := hR.children h
    rw [LineEntry.strings, LineEntry.strings, ← any_related hR hcs]
    refine List.rel_append ?_ (joined_related hR cs hcs)
    split
    · exact .nil
    · have hfind := find_related hR hcs .string
      generalize (cs.find? fun c => c.kind = .string) = a at hfind
      generalize (ds.find? fun c => c.kind = .string) = b at hfind
      cases hfind with
      | none => exact .nil
      | some hs => exact .cons hs .nil

theorem joined_related (hR : Descends R) : (es : List Element) → {fs : List Element} →
    List.Forall₂ R es fs → List.Forall₂ R (LineEntry.joined es) (LineEntry.joined fs)
  | [], _, h => by
    cases h
    exact .nil
  | e :: es, _, h => by
    cases h with
    | cons he h =>
      rw [LineEntry.joined, LineEntry.joined, ← hR.kind he]
      split
      · exact strings_related hR e he
      · exact joined_related hR es h

end

section Results

variable {α : Type} {give give' : Element → Option α} {read read' : Element → α}
  {a b : Option Element}

theorem isSome_related (h : Option.Rel R a b) : a.isSome = b.isSome := by
  cases h <;> rfl

theorem map_related (h : Option.Rel R a b)
    (hread : ∀ x, a = some x → ∀ y, R x y → read x = read' y) : a.map read = b.map read' := by
  cases h with
  | none => rfl
  | some hs => exact congrArg some (hread _ rfl _ hs)

/-- What is read off elements that go together is the same, if it is for each of them. -/
theorem filterMap_related (h : List.Forall₂ R es fs)
    (hgive : ∀ e ∈ es, ∀ f ∈ fs, R e f → give e = give' f) :
    es.filterMap give = fs.filterMap give' := by
  induction h with
  | nil => rfl
  | @cons e f es fs he _ ih =>
    have hmore := ih fun a ha b hb => hgive a (.tail e ha) b (.tail f hb)
    rw [List.filterMap_cons, List.filterMap_cons, hgive e (.head _) f (.head _) he, hmore]

theorem findSome_related (h : List.Forall₂ R es fs) (hgive : ∀ e f, R e f → give e = give' f) :
    es.findSome? give = fs.findSome? give' := by
  induction h with
  | nil => rfl
  | cons he _ ih => rw [List.findSome?_cons, List.findSome?_cons, hgive _ _ he, ih]

/-- What is read off numbered elements that go together. -/
theorem zipIdx_related {list list' : Element → Nat → List α} (h : List.Forall₂ R es fs)
    (hlist : ∀ e f, R e f → ∀ i, list e i = list' f i) (n : Nat) :
    ((es.zipIdx n).flatMap fun (e, i) => list e i) =
      (fs.zipIdx n).flatMap fun (f, i) => list' f i := by
  induction h generalizing n with
  | nil => rfl
  | cons he _ ih =>
    rw [List.zipIdx_cons, List.zipIdx_cons, List.flatMap_cons, List.flatMap_cons, ih (n + 1)]
    exact congrArg (· ++ _) (hlist _ _ he n)

end Results

end LogQuery.Element
