import LogQuery.Proofs.Fields.Reading

/-! The filters on fields of a valid query are its left-most comparisons, one for each outermost
label filter. -/
namespace LogQuery

open LogQuery.Tree (leavesAll kindsAll Within)

variable {query : Text} {types : LabelTypes} {f : Element} {c u : Tree} {name : Text} {sign : Token}
  {rest : List Tree} {v : Option Token} {k : Kind} {cs : List Tree}

namespace FieldSource

variable (t : FieldSource)

/-- The left-most comparison of a label filter. -/
def ofFilter? (filter : Tree) : Option FieldSource := filter.leftmost?.bind ofTree?

/-- The warning is about a label filter in the tree of the query that holds the comparison and
nothing else but blanks and comments, as it stands there. -/
def Warns (query : Text) (w : Drilldown.Warning) : Prop :=
  ∃ before u after, Within (parse query).children before u after ∧ u.kind = .labelFilter ∧
    u.strip.leaves = [t.name, t.sign, t.value] ∧ w = .numericOperator u.text

/-- A name is compared with a quoted string by a sign for strings, or with an amount. -/
structure Formed : Prop where
  name : t.name.kind = .identifier
  sign : t.sign.kind ∈ Grammar.comparisonOps ++ Grammar.matcherOps
  value : t.value.kind ∈ Grammar.valueKinds
  string : t.value.kind = .string → t.sign.kind ∈ Grammar.matcherOps ∧ t.value.IsQuoted

/-- An element gives what the comparison says: a filter, or else a warning. -/
structure Read (query : Text) (types : LabelTypes) (t : FieldSource) (f : Element) : Prop where
  formed : t.Formed
  check : FieldEntry.isErrorCheck query f = t.isCheck
  field : t.isField = true → ∃ x, FieldEntry.ofFilter? query types f = some (.field x) ∧ t.Gives x
  warning : t.isField = false → ∃ text,
    FieldEntry.ofFilter? query types f = some (.unknown text) ∧
      t.Warns query (.numericOperator text)

end FieldSource

/-- The left-most comparisons of the outermost label filters, from left to right. -/
def fieldSources (query : Text) : List FieldSource :=
  (labelFilters query).filterMap FieldSource.ofFilter?

theorem shows_formed {x : Token} (h : Shows query f c name sign rest (some x)) :
    FieldSource.Formed ⟨⟨.identifier, name⟩, sign, x⟩ :=
  ⟨rfl, h.test.signed, h.value.kind x rfl, fun hx => ⟨h.value.string x rfl hx, shows_quoted h hx⟩⟩

theorem shows_warns {x : Token} (h : Shows query f c name sign rest (some x))
    (hx : x.kind ≠ .string) :
    FieldSource.Warns ⟨⟨.identifier, name⟩, sign, x⟩ query
      (.numericOperator (f.span.text query)) := by
  obtain ⟨before, w, after, hw, -, hstrip, ha⟩ := seen_within h.seen
  have hkind : w.strip.kind = .labelFilter := congrArg Tree.kind hstrip
  refine ⟨before, w, after, hw, (Tree.strip_kind w).symm.trans hkind, ?_,
    congrArg _ (Element.at_text ha)⟩
  rw [hstrip, shows_leaves h, h.value.amount x rfl hx]

theorem shows_read (types : LabelTypes) {x : Token} (h : Shows query f c name sign rest (some x)) :
    FieldSource.Read query types ⟨⟨.identifier, name⟩, sign, x⟩ f := by
  by_cases hx : x.kind = .string
  · refine ⟨shows_formed h, shows_check h, fun _ => shows_string h hx, fun hn => ?_⟩
    simp [FieldSource.isField, hx] at hn
  · have hfield : FieldSource.isField ⟨⟨.identifier, name⟩, sign, x⟩ =
        FieldSource.orders.contains sign.kind := by
      simp [FieldSource.isField, hx]
    rcases shows_amount types h hx with ⟨ho, hentry⟩ | ⟨ho, hentry⟩
    · refine ⟨shows_formed h, shows_check h, fun _ => hentry, fun hn => ?_⟩
      rw [hfield] at hn
      simp [ho] at hn
    · refine ⟨shows_formed h, shows_check h, fun hy => ?_, fun _ => ⟨_, hentry, shows_warns h hx⟩⟩
      rw [hfield] at hy
      exact (ho (by simpa using hy)).elim

mutual

/-- The left-most comparison of a tree is in it. -/
theorem leftmost_kinds : (t : Tree) → t.leftmost? = some c → ∀ k ∈ c.kinds, k ∈ t.kinds
  | .leaf _ _, h => by cases h
  | .node k cs, h => by
    rw [Tree.leftmost?] at h
    split at h
    · exact fun l hl => .tail k (leftmostAll_kinds cs h l hl)
    · split at h
      · obtain rfl := Option.some.inj h
        exact fun _ hl => hl
      · cases h

theorem leftmostAll_kinds : (cs : List Tree) → Tree.leftmostAll? cs = some c →
    ∀ k ∈ c.kinds, k ∈ kindsAll cs
  | [], h => by cases h
  | .leaf _ _ :: cs, h => fun l hl => .tail _ (leftmostAll_kinds cs h l hl)
  | .node k ds :: cs, h => fun l hl =>
    List.mem_append_left _ (leftmost_kinds (.node k ds) h l hl)

end

/-- Where there is no error node, a label filter has a left-most comparison, and its leaf gives what
that says. -/
theorem leaf_read (h : Leaf query (refused query) f u) (he : .error ∉ u.kinds) :
    ∃ t, FieldSource.ofFilter? u = some t ∧ FieldSource.Read query types t f := by
  cases h with
  | empty _ herror => exact (he herror).elim
  | refused _ _ herror => exact (he herror).elim
  | test name sign rest c hleft hseen htest =>
    have htokens := test_tokens htest
    obtain ⟨v, hv⟩ := value_tokens htokens.value
    have hc : .error ∉ c.kinds := fun hm => he (leftmost_kinds u hleft _ hm)
    have hsome := hv.complete fun hm => hc (htokens.kinds _ hm)
    obtain ⟨x, rfl⟩ := Option.isSome_iff_exists.mp hsome
    have htest := ofTree_pruned htokens hv
    rw [Tree.prune_eq_self c hc] at htest
    refine ⟨_, ?_, shows_read types ⟨hseen, htokens, hv⟩⟩
    rw [FieldSource.ofFilter?, hleft, Option.bind_some, htest]
    rfl

theorem map_filterMap {α β : Type} {give : α → Option β} {as : List α}
    (h : ∀ a ∈ as, ∃ b, give a = some b) : as.map give = (as.filterMap give).map some := by
  induction as with
  | nil => rfl
  | cons a as ih =>
    obtain ⟨b, hb⟩ := h a (.head _)
    rw [List.map_cons, List.filterMap_cons_some hb, List.map_cons, hb,
      ih fun c hc => h c (.tail a hc)]

/-- Every outermost label filter of a valid query is read by its left-most comparison. -/
theorem fieldSources_read (types : LabelTypes) (hv : isValid query = true) :
    (labelFilters query).map FieldSource.ofFilter? = (fieldSources query).map some ∧
      List.Forall₂ (FieldSource.Read query types) (fieldSources query)
        (leftLeaves query [.labelFilter]) := by
  have hread : List.Forall₂ (fun u f => ∃ t, FieldSource.ofFilter? u = some t ∧
      FieldSource.Read query types t f) (labelFilters query) (leftLeaves query [.labelFilter]) := by
    refine (leftLeaves_leaf query).imp ?_
    rintro u f ⟨hu, hleaf⟩
    obtain ⟨-, before, after, hw⟩ := labelFilters_within hu
    exact leaf_read hleaf fun he => stripped_flawless hv (Tree.within_kinds_mem hw he)
  have hmap : (labelFilters query).map FieldSource.ofFilter? = (fieldSources query).map some := by
    refine map_filterMap fun u hu => ?_
    obtain ⟨i, hi, rfl⟩ := List.getElem_of_mem hu
    obtain ⟨t, ht, -⟩ := (List.forall₂_iff_get.mp hread).2 i hi (hread.length_eq ▸ hi)
    exact ⟨t, ht⟩
  refine ⟨hmap, ((forall_some hread hmap).imp ?_).flip⟩
  rintro f t ⟨u, ⟨t', ht', hr⟩, ht⟩
  rw [ht'] at ht
  exact Option.some.inj ht ▸ hr

/-- Checks for errors are left out. -/
theorem checked_read {ts : List FieldSource} {fs : List Element}
    (h : List.Forall₂ (FieldSource.Read query types) ts fs) :
    List.Forall₂ (FieldSource.Read query types) (ts.filter fun t => !t.isCheck)
      (fs.filter fun f => !FieldEntry.isErrorCheck query f) := by
  refine List.rel_filter ?_ h
  intro t f ht
  show (!t.isCheck) = true ↔ (!FieldEntry.isErrorCheck query f) = true
  rw [ht.check]

theorem entries_field {ts : List FieldSource} {fs : List Element}
    (h : List.Forall₂ (FieldSource.Read query types) ts fs) :
    List.Forall₂ FieldSource.Gives (ts.filter FieldSource.isField)
      ((fs.filterMap (FieldEntry.ofFilter? query types)).filterMap FieldEntry.field?) := by
  rw [← List.filterMap_eq_filter, List.filterMap_filterMap]
  refine List.rel_filterMap ?_ h
  intro t f ht
  cases hfield : t.isField with
  | true =>
    obtain ⟨x, hx, hgives⟩ := ht.field hfield
    simpa [Option.guard, hfield, hx, FieldEntry.field?] using hgives
  | false =>
    obtain ⟨text, htext, -⟩ := ht.warning hfield
    simp [Option.guard, hfield, htext, FieldEntry.field?]

theorem entries_unknown {ts : List FieldSource} {fs : List Element}
    (h : List.Forall₂ (FieldSource.Read query types) ts fs) :
    List.Forall₂ (FieldSource.Warns · query) (ts.filter fun t => !t.isField)
      (((fs.filterMap (FieldEntry.ofFilter? query types)).filterMap FieldEntry.unknown?).map
        .numericOperator) := by
  rw [← List.filterMap_eq_filter, List.filterMap_filterMap, List.map_filterMap]
  refine List.rel_filterMap ?_ h
  intro t f ht
  cases hfield : t.isField with
  | true =>
    obtain ⟨x, hx, -⟩ := ht.field hfield
    simp [Option.guard, hfield, hx, FieldEntry.unknown?]
  | false =>
    obtain ⟨text, htext, hwarns⟩ := ht.warning hfield
    simpa [Option.guard, hfield, htext, FieldEntry.unknown?] using hwarns

/-- In a valid query with a selector, every outermost label filter is read by its left-most
comparison. Of the comparisons that are no checks for errors, those of a string, or of an amount by
its size, give all filters on fields there are; each of the others gives one warning. Both keep the
order of the query. -/
theorem drilldown_fields (query : Text) (types : LabelTypes) (hv : isValid query = true)
    (hs : (parse query).spots .selector ≠ []) :
    (labelFilters query).map FieldSource.ofFilter? = (fieldSources query).map some ∧
      (∀ t ∈ fieldSources query, t.Formed) ∧
      List.Forall₂ FieldSource.Gives
        ((fieldSources query).filter fun t => t.isField && !t.isCheck)
        (drilldown query types).fields ∧
      List.Forall₂ (FieldSource.Warns · query)
        ((fieldSources query).filter fun t => !t.isField && !t.isCheck)
        (drilldownWarnings query types) := by
  obtain ⟨first, more, hspots⟩ := List.exists_cons_of_ne_nil hs
  have hfirst := first_element hspots
  obtain ⟨hmap, hread⟩ := fieldSources_read types hv
  have hchecked := checked_read hread
  rw [← List.filter_filter, ← List.filter_filter]
  refine ⟨hmap, ?_, ?_, ?_⟩
  · intro t ht
    obtain ⟨i, hi, rfl⟩ := List.getElem_of_mem ht
    exact ((List.forall₂_iff_get.mp hread).2 i hi (hread.length_eq ▸ hi)).formed
  · simpa only [drilldown, hfirst, FieldEntry.ofQuery] using entries_field hchecked
  · have hlines := lineFilter_known query
    simpa only [drilldownWarnings, hfirst, hlines, List.map_nil, List.nil_append,
      FieldEntry.ofQuery] using entries_unknown hchecked

/-- Comparisons in parentheses and on the right, an address, an amount that is not compared by its
size, and a check for errors. -/
def fieldText : Text :=
  ("\x7ba=\"b\"\x7d | json | ((size >= 5KB or path = \"/\") and n == 2) " ++
    "| from = ip(\"10.0.0.0/8\") | n != 3 | __error__ = \"\" | wait > 2s, n < 1").toList

theorem drilldown_fields_sample :
    isValid fieldText = true ∧
      List.Forall₂ FieldSource.Gives
        ((fieldSources fieldText).filter fun t => t.isField && !t.isCheck)
        (drilldown fieldText []).fields ∧
      List.Forall₂ (FieldSource.Warns · fieldText)
        ((fieldSources fieldText).filter fun t => !t.isField && !t.isCheck)
        (drilldownWarnings fieldText []) := by
  have hv : isValid fieldText = true := by decide +kernel
  have hs : (parse fieldText).spots .selector ≠ [] := by
    have hsome : (firstSelector? fieldText).isSome = true := by decide +kernel
    rw [firstSelector_spots, Option.isSome_map, List.isSome_head?] at hsome
    simpa using hsome
  obtain ⟨-, -, hfields, hwarnings⟩ := drilldown_fields fieldText [] hv hs
  exact ⟨hv, hfields, hwarnings⟩

example : ((fieldSources fieldText).map fun t => (t.name.text, t.operand, t.isField)) =
    [("size".toList, "5KB".toList, true), ("from".toList, "10.0.0.0/8".toList, true),
      ("n".toList, "3".toList, false), ("__error__".toList, [], true),
      ("wait".toList, "2s".toList, true)] := by
  decide +kernel

end LogQuery
