import Mathlib.Data.List.Nodup
import LogQuery.Proofs.Json.Reader
import LogQuery.Report

/-! JSON that is written for matchers and filters is decoded to them again, also if members change
places or are joined by others. What the commands print in JSON is decoded to what they found. -/
namespace LogQuery

namespace Json

variable {names : List String} {members others ms : List (Text × Json)} {t : Text} {j : Json}

/-- An object with the members of another, in any order and beside any others that have none of the
names. -/
def Spreads (names : List String) (j written : Json) : Prop :=
  ∃ members others ms, written = object members ∧ j = object ms ∧ ms.Perm (members ++ others) ∧
    ∀ o ∈ others, ∀ n ∈ names, o.1 ≠ n.toList

/-- An array that holds a value for each item. -/
def Lists {α : Type} (writes : α → Json → Prop) (xs : List α) (j : Json) : Prop :=
  ∃ js, j = array js ∧ List.Forall₂ writes xs js

theorem spreads_refl (names : List String) (members : List (Text × Json)) :
    Spreads names (object members) (object members) :=
  ⟨members, [], members, rfl, rfl, by rw [List.append_nil], fun _ h => (List.not_mem_nil h).elim⟩

theorem lookup_filter (t : Text) (ms : List (Text × Json)) :
    ms.lookup t = ((ms.filter fun m => t == m.1).head?).map Prod.snd := by
  induction ms with
  | nil => rfl
  | cons m ms ih =>
    rw [List.lookup_cons, List.filter_cons]
    cases t == m.1 with
    | true => rfl
    | false => simpa using ih

/-- Of members that differ in their names, at most one has a given name. -/
theorem filter_length (t : Text) (hn : (members.map Prod.fst).Nodup) :
    (members.filter fun m => t == m.1).length ≤ 1 := by
  have hnames : (members.filter fun m => t == m.1).map Prod.fst =
      List.replicate (members.filter fun m => t == m.1).length t := by
    rw [List.eq_replicate_iff, List.length_map]
    refine ⟨rfl, fun n h => ?_⟩
    obtain ⟨m, hm, rfl⟩ := List.mem_map.mp h
    have ht : (t == m.1) = true := (List.mem_filter.mp hm).2
    exact (eq_of_beq ht).symm
  have hsub : ((members.filter fun m => t == m.1).map Prod.fst).Nodup :=
    hn.sublist (List.filter_sublist.map Prod.fst)
  rw [hnames] at hsub
  exact List.nodup_replicate.mp hsub

/-- Members that differ in their names are found wherever they stand. -/
theorem lookup_perm (hp : ms.Perm (members ++ others)) (hn : (members.map Prod.fst).Nodup)
    (ho : ∀ o ∈ others, o.1 ≠ t) : ms.lookup t = members.lookup t := by
  have hothers : (others.filter fun m => t == m.1) = [] := by
    simpa using fun k v h he => ho (k, v) h he.symm
  have hfilter := hp.filter fun m => t == m.1
  rw [List.filter_append, hothers, List.append_nil] at hfilter
  have hone := filter_length t hn
  rw [lookup_filter, lookup_filter]
  generalize members.filter (fun m => t == m.1) = found at hfilter hone
  match found, hone with
  | [], _ => rw [hfilter.eq_nil]
  | [m], _ => rw [List.perm_singleton.mp hfilter]

theorem members_spreads {pairs : List (String × Json)} (h : Spreads names j (record pairs))
    (hn : (pairs.map fun p => p.1.toList).Nodup) :
    j.members? names = (record pairs).members? names := by
  obtain ⟨members, others, ms, hm, rfl, hp, ho⟩ := h
  obtain rfl : pairs.map (fun p => (p.1.toList, p.2)) = members := object.inj hm
  rw [members?, record, members?]
  congr 1
  apply List.map_congr_left
  intro n hmem
  refine lookup_perm hp ?_ fun o h => ho o h n hmem
  rw [List.map_map]
  exact hn

section Lists

variable {α : Type} {writes : α → Json → Prop} {xs : List α} {read? : Json → Option α}

theorem list_lists (h : Lists writes xs j) (hread : ∀ x j, writes x j → read? j = some x) :
    j.list? read? = some xs := by
  obtain ⟨js, rfl, h⟩ := h
  rw [list?]
  induction h with
  | nil => rfl
  | cons hx _ ih => simp [hread _ _ hx, ih]

theorem lists_list {write : α → Json} (h : ∀ x, writes x (write x)) (xs : List α) :
    Lists writes xs (list write xs) := by
  refine ⟨xs.map write, rfl, ?_⟩
  induction xs with
  | nil => exact .nil
  | cons x xs ih => exact .cons (h x) ih

theorem list_map {write : α → Json} (h : ∀ x, read? (write x) = some x) (xs : List α) :
    (list write xs).list? read? = some xs := by
  have hxs : Lists (fun x j => j = write x) xs (list write xs) :=
    @lists_list α (fun x j => j = write x) write (fun _ => rfl) xs
  exact list_lists hxs fun x _ hj => hj ▸ h x

end Lists

end Json

open Json (Spreads Lists)

theorem Comparison.ofJson_toJson (op : Comparison) : ofJson? op.toJson = some op := by
  cases op <;> decide

theorem LabelType.ofJson_toJson (t : LabelType) : ofJson? t.toJson = some t := by
  cases t <;> decide

theorem FieldParser.ofJson_toJson (p : FieldParser) : ofJson? p.toJson = some p := by
  cases p <;> decide

theorem LineOp.ofJson_symbol (op : LineOp) :
    (Json.ofString op.symbol).choice? LineOp.all LineOp.symbol = some op := by
  cases op <;> decide

theorem PatternOp.ofJson_symbol (op : PatternOp) :
    (Json.ofString op.symbol).choice? PatternOp.all PatternOp.symbol = some op := by
  cases op <;> decide

namespace Matcher

/-- JSON that says what a matcher is, in any order and with anything beside it. -/
def WrittenAs (m : Matcher) (j : Json) : Prop := Spreads names j m.toJson

theorem place_symbol (p : Place) :
    (Json.ofString p.name).choice? Place.all Place.name = some p := by
  cases p <;> decide

theorem op_symbol (op : Op) : (Json.ofString op.symbol).choice? Op.all Op.symbol = some op := by
  cases op <;> decide

theorem toJson_written (m : Matcher) : m.WrittenAs m.toJson := Json.spreads_refl _ _

theorem ofJson_written {m : Matcher} {j : Json} (h : m.WrittenAs j) : ofJson? j = some m := by
  have hn : (names.map String.toList).Nodup := by decide
  have hm : j.members? names = some [some (.string m.key), some (.ofString m.op.symbol),
      some (.list .string m.values), some (.ofString m.place.name)] := Json.members_spreads h hn
  have hvalue : ∀ t, (Json.string t).string? = some t := fun _ => rfl
  have hvalues := Json.list_map hvalue m.values
  rw [ofJson?, hm]
  simp [Json.string?, op_symbol, place_symbol, hvalues]

end Matcher

namespace LabelFilter

def WrittenAs (f : LabelFilter) (j : Json) : Prop := Spreads names j f.toJson

theorem toJson_written (f : LabelFilter) : f.WrittenAs f.toJson := Json.spreads_refl _ _

theorem ofJson_written {f : LabelFilter} {j : Json} (h : f.WrittenAs j) : ofJson? j = some f := by
  have hn : (names.map String.toList).Nodup := by decide
  have hm : j.members? names = some [some (.string f.key), some f.operator.toJson,
      some (.string f.value), some f.labelType.toJson] := Json.members_spreads h hn
  rw [ofJson?, hm]
  simp [Json.string?, Comparison.ofJson_toJson, LabelType.ofJson_toJson]

end LabelFilter

namespace LineFilter

def WrittenAs (f : LineFilter) (j : Json) : Prop := Spreads names j f.toJson

theorem toJson_written (f : LineFilter) : f.WrittenAs f.toJson := Json.spreads_refl _ _

theorem ofJson_written {f : LineFilter} {j : Json} (h : f.WrittenAs j) : ofJson? j = some f := by
  have hn : (names.map String.toList).Nodup := by decide
  have hm : j.members? names = some [some (.string f.key), some (.ofString f.operator.symbol),
      some (.string f.value)] := Json.members_spreads h hn
  rw [ofJson?, hm]
  simp [Json.string?, LineOp.ofJson_symbol]

end LineFilter

namespace FieldFilter

/-- Where there is no parser, no member under its name may say that there is one. -/
def WrittenAs (f : FieldFilter) (j : Json) : Prop := Spreads names j f.toJson

theorem toJson_written (f : FieldFilter) : f.WrittenAs f.toJson := Json.spreads_refl _ _

theorem ofJson_written {f : FieldFilter} {j : Json} (h : f.WrittenAs j) : ofJson? j = some f := by
  obtain ⟨key, op, value, type, parser⟩ := f
  have hm : j.members? names = some [some (.string key), some op.toJson, some (.string value),
      some type.toJson, parser.map FieldParser.toJson] := by
    cases parser with
    | none =>
      have hn : ((names.take 4).map String.toList).Nodup := by decide
      exact Json.members_spreads h hn
    | some p =>
      have hn : (names.map String.toList).Nodup := by decide
      exact Json.members_spreads h hn
  have hparser : Json.optional? FieldParser.ofJson? (parser.map FieldParser.toJson) =
      some parser := by
    cases parser with
    | none => rfl
    | some p => cases p <;> decide
  rw [ofJson?, hm]
  simp [Json.string?, Comparison.ofJson_toJson, LabelType.ofJson_toJson, hparser]

end FieldFilter

namespace PatternFilter

def WrittenAs (f : PatternFilter) (j : Json) : Prop := Spreads names j f.toJson

theorem toJson_written (f : PatternFilter) : f.WrittenAs f.toJson := Json.spreads_refl _ _

theorem ofJson_written {f : PatternFilter} {j : Json} (h : f.WrittenAs j) :
    ofJson? j = some f := by
  have hn : (names.map String.toList).Nodup := by decide
  have hm : j.members? names = some [some (.ofString f.operator.symbol), some (.string f.value)] :=
    Json.members_spreads h hn
  rw [ofJson?, hm]
  simp [Json.string?, PatternOp.ofJson_symbol]

end PatternFilter

namespace Drilldown

/-- The filters of a drilldown may each be written with more than they say. -/
def WrittenAs (d : Drilldown) (j : Json) : Prop :=
  ∃ labels lines fields patterns, Lists LabelFilter.WrittenAs d.labels labels ∧
    Lists LineFilter.WrittenAs d.lines lines ∧ Lists FieldFilter.WrittenAs d.fields fields ∧
    Lists PatternFilter.WrittenAs d.patterns patterns ∧
    Spreads names j (.record [("labelFilters", labels), ("lineFilters", lines), ("fields", fields),
      ("patternFilters", patterns)])

theorem ofJson_written {d : Drilldown} {j : Json} (h : d.WrittenAs j) : ofJson? j = some d := by
  obtain ⟨labels, lines, fields, patterns, hlabels, hlines, hfields, hpatterns, h⟩ := h
  have hn : (names.map String.toList).Nodup := by decide
  have hm : j.members? names = some [some labels, some lines, some fields, some patterns] :=
    Json.members_spreads h hn
  have hlabels := Json.list_lists hlabels fun _ _ => LabelFilter.ofJson_written
  have hlines := Json.list_lists hlines fun _ _ => LineFilter.ofJson_written
  have hfields := Json.list_lists hfields fun _ _ => FieldFilter.ofJson_written
  have hpatterns := Json.list_lists hpatterns fun _ _ => PatternFilter.ofJson_written
  rw [ofJson?, hm]
  simp [hlabels, hlines, hfields, hpatterns]

theorem toJson_written (d : Drilldown) : d.WrittenAs d.toJson :=
  ⟨_, _, _, _, Json.lists_list LabelFilter.toJson_written d.labels,
    Json.lists_list LineFilter.toJson_written d.lines,
    Json.lists_list FieldFilter.toJson_written d.fields,
    Json.lists_list PatternFilter.toJson_written d.patterns, Json.spreads_refl _ _⟩

end Drilldown

namespace Json

theorem sound_list {α : Type} {f : α → Json} (h : ∀ x, Reader.isSound (f x) = true)
    (xs : List α) : Reader.isSound (list f xs) = true := by
  show Reader.isSoundAll (xs.map f) = true
  induction xs with
  | nil => rfl
  | cons x xs ih => rw [List.map_cons, Reader.isSoundAll, h x, ih, Bool.and_self]

end Json

theorem Matcher.toJson_sound (m : Matcher) : Json.Reader.isSound m.toJson = true := by
  have hvalues : Json.Reader.isSound (.list .string m.values) = true :=
    Json.sound_list (fun _ => rfl) m.values
  show (true && (true && (Json.Reader.isSound (.list .string m.values) && (true && true)))) = true
  rw [hvalues]
  rfl

theorem FieldFilter.toJson_sound (f : FieldFilter) : Json.Reader.isSound f.toJson = true := by
  obtain ⟨key, op, value, type, parser⟩ := f
  cases parser <;> rfl

theorem Drilldown.toJson_sound (d : Drilldown) : Json.Reader.isSound d.toJson = true := by
  have hlabels : Json.Reader.isSound (.list LabelFilter.toJson d.labels) = true :=
    Json.sound_list (fun _ => rfl) d.labels
  have hlines : Json.Reader.isSound (.list LineFilter.toJson d.lines) = true :=
    Json.sound_list (fun _ => rfl) d.lines
  have hfields : Json.Reader.isSound (.list FieldFilter.toJson d.fields) = true :=
    Json.sound_list FieldFilter.toJson_sound d.fields
  have hpatterns : Json.Reader.isSound (.list PatternFilter.toJson d.patterns) = true :=
    Json.sound_list (fun _ => rfl) d.patterns
  simp [toJson, Json.record, Json.Reader.isSound, Json.Reader.isSoundMembers, hlabels, hlines,
    hfields, hpatterns]

theorem matchers_read (query : Text) :
    (Json.read? (Report.matchers query .json)).bind (Json.list? Matcher.ofJson?) =
      some (matchers query) := by
  have hread := Json.read_render (.list Matcher.toJson (matchers query))
    (Json.sound_list Matcher.toJson_sound _)
  rw [Report.matchers, hread]
  exact Json.list_map (fun m => Matcher.ofJson_written m.toJson_written) (matchers query)

theorem filters_read (query : Text) (types : LabelTypes) :
    (Json.read? (Report.filters query types .json)).bind Drilldown.ofJson? =
      some (drilldown query types) := by
  have hread := Json.read_render (drilldown query types).toJson (Drilldown.toJson_sound _)
  rw [Report.filters, hread]
  exact Drilldown.ofJson_written (drilldown query types).toJson_written

/-- Matchers and drilldowns are decoded from the JSON that is written for them, also where members
stand in another order and others are beside them. What the commands print in JSON for a query is
JSON, and it is decoded to the matchers and to the filters of the query. -/
theorem json_decodes :
    (∀ m : Matcher, Matcher.ofJson? m.toJson = some m ∧
        ∀ j, m.WrittenAs j → Matcher.ofJson? j = some m) ∧
      (∀ d : Drilldown, Drilldown.ofJson? d.toJson = some d ∧
        ∀ j, d.WrittenAs j → Drilldown.ofJson? j = some d) ∧
      (∀ query, (Json.read? (Report.matchers query .json)).bind (Json.list? Matcher.ofJson?) =
        some (matchers query)) ∧
      ∀ query types, (Json.read? (Report.filters query types .json)).bind Drilldown.ofJson? =
        some (drilldown query types) :=
  ⟨fun m => ⟨Matcher.ofJson_written m.toJson_written, fun _ => Matcher.ofJson_written⟩,
    fun d => ⟨Drilldown.ofJson_written d.toJson_written, fun _ => Drilldown.ofJson_written⟩,
    matchers_read, filters_read⟩

namespace Json

/-- The members of an object the other way round, behind one that has another name. -/
def reordered : Json → Json
  | object ms => object (("note".toList, null) :: ms.reverse)
  | j => j

theorem reordered_spreads {names : List String} (h : ∀ n ∈ names, "note".toList ≠ n.toList)
    (members : List (Text × Json)) :
    Spreads names (reordered (object members)) (object members) := by
  refine ⟨members, [("note".toList, null)], _, rfl, rfl, ?_, ?_⟩
  · simpa using List.reverse_perm (members ++ [("note".toList, null)])
  · intro o ho n hn
    rw [List.mem_singleton.mp ho]
    exact h n hn

end Json

namespace Drilldown

/-- The JSON of a drilldown with the members of every object reordered. -/
def reordered (d : Drilldown) : Json :=
  (Json.record [("labelFilters", .list (fun f => f.toJson.reordered) d.labels),
    ("lineFilters", .list (fun f => f.toJson.reordered) d.lines),
    ("fields", .list (fun f => f.toJson.reordered) d.fields),
    ("patternFilters", .list (fun f => f.toJson.reordered) d.patterns)]).reordered

theorem reordered_written (d : Drilldown) : d.WrittenAs d.reordered := by
  have hlabels : ∀ f : LabelFilter, f.WrittenAs f.toJson.reordered :=
    fun _ => Json.reordered_spreads (by decide) _
  have hlines : ∀ f : LineFilter, f.WrittenAs f.toJson.reordered :=
    fun _ => Json.reordered_spreads (by decide) _
  have hfields : ∀ f : FieldFilter, f.WrittenAs f.toJson.reordered :=
    fun _ => Json.reordered_spreads (by decide) _
  have hpatterns : ∀ f : PatternFilter, f.WrittenAs f.toJson.reordered :=
    fun _ => Json.reordered_spreads (by decide) _
  exact ⟨_, _, _, _, Json.lists_list hlabels d.labels, Json.lists_list hlines d.lines,
    Json.lists_list hfields d.fields, Json.lists_list hpatterns d.patterns,
    Json.reordered_spreads (by decide) _⟩

/-- A value with a quote, a field without a parser, and a pattern. -/
def quotedDrilldown : Drilldown :=
  ⟨[⟨"job".toList, .regexEqual, "a|b".toList, .indexed⟩], [],
    [⟨"level".toList, .equal, "\"\n".toList, .structuredMetadata, none⟩],
    [⟨.unlike, "<_>".toList⟩]⟩

end Drilldown

def quotedMatcher : Matcher := ⟨"job".toList, .notEqual, ["\"é\\".toList], .nonIndexed⟩

theorem json_decodes_reordered :
    (quotedMatcher.WrittenAs quotedMatcher.toJson.reordered ∧
        Matcher.ofJson? quotedMatcher.toJson.reordered = some quotedMatcher) ∧
      Drilldown.quotedDrilldown.WrittenAs Drilldown.quotedDrilldown.reordered ∧
        Drilldown.ofJson? Drilldown.quotedDrilldown.reordered = some Drilldown.quotedDrilldown := by
  have hm : quotedMatcher.WrittenAs quotedMatcher.toJson.reordered :=
    Json.reordered_spreads (by decide) _
  have hd := Drilldown.quotedDrilldown.reordered_written
  exact ⟨⟨hm, (json_decodes.1 quotedMatcher).2 _ hm⟩, hd,
    (json_decodes.2.1 Drilldown.quotedDrilldown).2 _ hd⟩

end LogQuery
