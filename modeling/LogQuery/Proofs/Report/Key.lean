import LogQuery.Drilldown
import LogQuery.Proofs.Text.Trim
import LogQuery.Proofs.Token.Adjacent
import LogQuery.Proofs.Word

/-! Names that are read off a query have no blanks in them. -/
namespace LogQuery

variable {query : Text} {types : LabelTypes} {c : Char} {t u : Text} {e name : Element}
  {keep : Kind → Bool}

namespace Text

theorem namePart_code (h : Token.isNamePart c = true) : 48 ≤ c.toNat ∧ c.toNat ≤ 122 := by
  rcases Bool.or_eq_true_iff.mp h with h | h
  · rcases Bool.or_eq_true_iff.mp h with h | h
    · rcases Bool.or_eq_true_iff.mp h with h | h
      · obtain ⟨hlow, hhigh⟩ := of_decide_eq_true h
        have hlow : 65 ≤ c.toNat := UInt32.le_iff_toNat_le.mp hlow
        have hhigh : c.toNat ≤ 90 := UInt32.le_iff_toNat_le.mp hhigh
        omega
      · obtain ⟨hlow, hhigh⟩ := Bool.and_eq_true_iff.mp h
        have hlow : 97 ≤ c.toNat := UInt32.le_iff_toNat_le.mp (of_decide_eq_true hlow)
        have hhigh : c.toNat ≤ 122 := UInt32.le_iff_toNat_le.mp (of_decide_eq_true hhigh)
        omega
    · obtain ⟨hlow, hhigh⟩ := Bool.and_eq_true_iff.mp h
      have hlow : 48 ≤ c.toNat := UInt32.le_iff_toNat_le.mp (of_decide_eq_true hlow)
      have hhigh : c.toNat ≤ 57 := UInt32.le_iff_toNat_le.mp (of_decide_eq_true hhigh)
      omega
  · obtain rfl := of_decide_eq_true h
    decide

/-- No white space of any script is a part of a name. -/
theorem namePart_solid (h : Token.isNamePart c = true) : isBlank c = false := by
  have hcode := namePart_code h
  simp only [isBlank, Bool.or_eq_false_iff, Bool.and_eq_false_iff, decide_eq_false_iff_not]
  omega

theorem digits_solid (n : Nat) : Solid (ofNat n) := by
  intro c hc
  have hd : c.isDigit = true := Nat.isDigit_of_mem_toDigits (by decide) (by decide) hc
  exact namePart_solid (by simp [Token.isNamePart, Char.isAlphanum, hd])

end Text

theorem Token.name_solid {l : Token} (h : l ∈ Token.lex t) (hk : l.kind = .identifier) :
    Text.Solid l.text := by
  obtain ⟨c, ds, rfl⟩ := Token.mem_lexAfter h
  obtain ⟨hb, hs⟩ := Token.scan_name hk
  have hscan : Token.scan c ds = ⟨.identifier, Token.run Token.isNamePart ds⟩ := by
    simp [Token.scan, hb, hs]
  have htake : ds.take (Token.scan c ds).more = ds.takeWhile Token.isNamePart := by
    rw [hscan]
    exact (List.prefix_iff_eq_take.mp (List.takeWhile_prefix _)).symm
  intro d hd
  rw [htake] at hd
  refine Text.namePart_solid ?_
  rcases List.mem_cons.mp hd with rfl | hd
  · simp only [Token.isNameStart, Bool.or_eq_true] at hs
    simp only [Token.isNamePart, Char.isAlphanum, Bool.or_eq_true]
    tauto
  · exact List.mem_takeWhile_imp hd

/-- An element that is found in one of a query is an element of the query. -/
theorem first_listed {k : Kind} (he : e ∈ (rootElement query).walk keep)
    (hn : e.first? k = some name) : name ∈ elements query (some [k]) := by
  obtain ⟨front, back, hw, -⟩ := Element.walk_split (fun l => l = k) (parse query) 0 he
  rw [elements_walk]
  show name ∈ ((parse query).elementAt 0).walk fun l => l = k
  rw [hw]
  simp [Element.first_walk hn]

theorem identifier_solid (h : name ∈ elements query (some [.identifier])) :
    Text.Solid (name.span.text query) := by
  rw [elements_walk] at h
  obtain ⟨before, u, after, hw, hk, rfl⟩ := walk_parse rfl h
  have hu : u.kind = .identifier := of_decide_eq_true hk
  rw [Element.at_text (within_at hw)]
  cases u with
  | node k cs =>
    obtain rfl : k = .identifier := hu
    exact absurd (within_node hw) (by decide)
  | leaf k x =>
    obtain rfl : k = .identifier := hu
    have hl := leaf_within_root hw (List.mem_singleton_self _)
    obtain ⟨t, ht, htext, hr⟩ := reads_token (parse_reads query) hl
    have hkind : t.kind = .identifier := by
      rcases hr with hr | ⟨w, -, hword⟩
      · exact hr.symm
      · cases hword
    have hsolid := Token.name_solid ht hkind
    rwa [← htext] at hsolid

theorem matchers_solid : ∀ m ∈ matchers query, Text.Solid m.key := by
  intro m hm
  unfold matchers at hm
  split at hm
  · cases hm
  · obtain ⟨e, he, hmatch⟩ := List.mem_filterMap.mp hm
    obtain ⟨name, hn, rfl⟩ := Option.map_eq_some_iff.mp hmatch
    exact identifier_solid (first_listed he hn)

theorem LabelFilter.ofSelector_solid (selector : Text) :
    ∀ f ∈ ofSelector selector, Text.Solid f.key := by
  intro f hf
  obtain ⟨e, he, hmatch⟩ := List.mem_filterMap.mp hf
  unfold ofMatcher? at hmatch
  split at hmatch
  · next name string hn hs =>
    split at hmatch
    · dsimp only at hmatch
      split at hmatch
      · cases hmatch
        exact identifier_solid (first_listed he hn)
      · cases hmatch
    · cases hmatch
  · cases hmatch

theorem FieldEntry.ofFilter_solid {filter : Element} {f : FieldFilter}
    (he : filter ∈ (rootElement query).walk keep)
    (h : ofFilter? query types filter = some (.field f)) : Text.Solid f.key := by
  unfold ofFilter? at h
  split at h
  · cases h
  · next name string hn hs =>
    obtain ⟨op, -, hmake⟩ := Option.map_eq_some_iff.mp h
    cases hmake
    exact identifier_solid (first_listed he hn)
  · next name hn hs =>
    obtain ⟨number, -, hmake⟩ := Option.map_eq_some_iff.mp h
    split at hmake
    · cases hmake
      exact identifier_solid (first_listed he hn)
    · cases hmake

namespace LineEntry

/-- A line filter is named by its sort or by its number. -/
theorem lineFilter_solid (value quote : Text) (index : Nat) (op : LineOp) :
    Text.Solid (lineFilter value quote index op).key := by
  unfold lineFilter
  dsimp only
  split
  · exact of_decide_eq_true rfl
  · exact Text.solid_append (of_decide_eq_true rfl) (Text.digits_solid index)

theorem ofString_solid {filter string : Element} {index : Nat} {f : LineFilter}
    (h : ofString? query filter index string = some (.line f)) : Text.Solid f.key := by
  unfold ofString? at h
  dsimp only at h
  split at h
  · cases h
  · split at h
    · cases h
      exact lineFilter_solid _ _ _ _
    · cases h
    · cases h

end LineEntry

/-- The names of all filters of a query. -/
theorem drilldown_solid (query : Text) (types : LabelTypes) :
    (∀ f ∈ (drilldown query types).labels, Text.Solid f.key) ∧
      (∀ f ∈ (drilldown query types).lines, Text.Solid f.key) ∧
      ∀ f ∈ (drilldown query types).fields, Text.Solid f.key := by
  unfold drilldown
  split
  · simp
  · refine ⟨LabelFilter.ofSelector_solid _, fun f hf => ?_, fun f hf => ?_⟩
    · obtain ⟨entry, hentry, hline⟩ := List.mem_filterMap.mp hf
      obtain ⟨⟨filter, index⟩, -, hm⟩ := List.mem_flatMap.mp hentry
      obtain ⟨string, -, hs⟩ := List.mem_filterMap.mp hm
      cases entry with
      | line g =>
        cases hline
        exact LineEntry.ofString_solid hs
      | pattern g => cases hline
      | unknown t => cases hline
    · obtain ⟨entry, hentry, hfield⟩ := List.mem_filterMap.mp hf
      obtain ⟨filter, hfilter, hs⟩ := List.mem_filterMap.mp hentry
      have hleaf : filter ∈ (rootElement query).leftLeaves [.labelFilter] :=
        List.mem_of_mem_filter hfilter
      cases entry with
      | field g =>
        cases hfield
        exact FieldEntry.ofFilter_solid (Element.leftLeaves_walk _ hleaf).1 hs
      | unknown t => cases hfield

end LogQuery
