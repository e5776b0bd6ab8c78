import LogQuery.Proofs.Report.Key
import LogQuery.Proofs.Report.Row

/-! The matchers and the filters of a query as lines: one line for each of them, and from the lines
they are told. -/
namespace LogQuery

open Text (IsLine Solid)

variable {α : Type} {print : α → Text} {p : α → Prop} {as bs : List α} {d e : Drilldown}

namespace Text

theorem map_injective_on (hp : ∀ a b, p a → p b → print a = print b → a = b) (ha : ∀ a ∈ as, p a)
    (hb : ∀ b ∈ bs, p b) (h : as.map print = bs.map print) : as = bs := by
  induction as generalizing bs with
  | nil => exact (List.map_eq_nil_iff.mp h.symm).symm
  | cons a as ih =>
    cases bs with
    | nil => cases h
    | cons b bs =>
      obtain ⟨ha, has⟩ := List.forall_mem_cons.mp ha
      obtain ⟨hb, hbs⟩ := List.forall_mem_cons.mp hb
      obtain ⟨hab, hmore⟩ := List.cons.inj h
      rw [hp a b ha hb hab, ih has hbs hmore]

theorem lines_printed (h : ∀ a ∈ as, IsLine (print a)) :
    lines (unlines (as.map print)) = as.map print :=
  lines_unlines (List.forall_mem_map.mpr h)

theorem unlines_nil (h : ∀ a ∈ as, IsLine (print a)) : unlines (as.map print) = [] ↔ as = [] := by
  rw [← List.map_eq_nil_iff (f := print)]
  constructor
  · intro hnil
    rw [← lines_printed h, hnil]
    rfl
  · intro hnil
    rw [hnil]
    rfl

/-- What is printed as lines that tell it apart is told from them. -/
theorem unlines_injective (hline : ∀ a, p a → IsLine (print a))
    (hp : ∀ a b, p a → p b → print a = print b → a = b) (ha : ∀ a ∈ as, p a)
    (hb : ∀ b ∈ bs, p b) (h : unlines (as.map print) = unlines (bs.map print)) : as = bs := by
  refine map_injective_on hp ha hb ?_
  rw [← lines_printed fun a hm => hline a (ha a hm), h,
    lines_printed fun b hm => hline b (hb b hm)]

end Text

namespace Report

def drilldownRows (d : Drilldown) : List Row :=
  d.labels.map .label ++ d.lines.map .line ++ d.fields.map .field ++ d.patterns.map .pattern

theorem drilldownLines_rows (d : Drilldown) :
    drilldownLines d = (drilldownRows d).map Row.text := by
  simp only [drilldownLines, drilldownRows, List.map_append, List.map_map]
  rfl

theorem drilldownRows_solid (query : Text) (types : LabelTypes) :
    ∀ r ∈ drilldownRows (drilldown query types), Solid r.key := by
  obtain ⟨hlabels, hlines, hfields⟩ := drilldown_solid query types
  intro r hr
  simp only [drilldownRows, List.mem_append, List.mem_map] at hr
  rcases hr with ((⟨f, hf, rfl⟩ | ⟨f, hf, rfl⟩) | ⟨f, hf, rfl⟩) | ⟨f, hf, rfl⟩
  · exact hlabels f hf
  · exact hlines f hf
  · exact hfields f hf
  · exact List.forall_mem_nil _

/-- Each sort of filter is picked out of the rows. -/
theorem drilldownRows_picked (d : Drilldown) :
    d = ⟨(drilldownRows d).filterMap Row.label?, (drilldownRows d).filterMap Row.line?,
      (drilldownRows d).filterMap Row.field?, (drilldownRows d).filterMap Row.pattern?⟩ := by
  cases d
  simp [drilldownRows, List.filterMap_map, Function.comp_def, Row.label?, Row.line?, Row.field?,
    Row.pattern?]

theorem drilldownRows_injective (h : drilldownRows d = drilldownRows e) : d = e := by
  rw [drilldownRows_picked d, h, ← drilldownRows_picked e]

/-- The text that a command shows for a query has one line for each matcher, and one for each filter
on labels, lines, fields and patterns, in this order. It is empty if there is none, and it is the
same for two queries just if these are. -/
theorem text_unambiguous :
    (∀ query : Text,
      Text.lines (matchers query .text) = (LogQuery.matchers query).map matcher ∧
        (matchers query .text = [] ↔ LogQuery.matchers query = [])) ∧
    (∀ (query : Text) (types : LabelTypes),
      let d := drilldown query types
      Text.lines (filters query types .text) = d.labels.map labelFilter ++ d.lines.map lineFilter ++
          d.fields.map fieldFilter ++ d.patterns.map patternFilter ∧
        (filters query types .text = [] ↔ d = ⟨[], [], [], []⟩)) ∧
    (∀ q r : Text,
      matchers q .text = matchers r .text ↔ LogQuery.matchers q = LogQuery.matchers r) ∧
    ∀ (q r : Text) (types others : LabelTypes),
      filters q types .text = filters r others .text ↔ drilldown q types = drilldown r others := by
  have hmatchers (q : Text) : ∀ m ∈ LogQuery.matchers q, Solid m.key := fun _ => matchers_solid _
  have hrows (q : Text) (types : LabelTypes) : filters q types .text =
      Text.unlines ((drilldownRows (drilldown q types)).map Row.text) := by
    rw [filters, drilldownLines_rows]
  have hsolid := drilldownRows_solid
  refine ⟨fun q => ⟨?_, ?_⟩, fun q types => ⟨?_, ?_⟩, fun q r => ⟨fun h => ?_, fun h => ?_⟩,
    fun q r types others => ⟨fun h => ?_, fun h => ?_⟩⟩
  · exact Text.lines_printed (fun m hm => matcher_line (hmatchers q m hm))
  · exact Text.unlines_nil (fun m hm => matcher_line (hmatchers q m hm))
  · rw [hrows, Text.lines_printed (fun r hr => Row.text_line (hsolid q types r hr)),
      ← drilldownLines_rows]
    rfl
  · rw [hrows, Text.unlines_nil (fun r hr => Row.text_line (hsolid q types r hr))]
    exact ⟨fun h => drilldownRows_injective h, fun h => h ▸ rfl⟩
  · exact Text.unlines_injective (fun _ => matcher_line) (fun _ _ => matcher_injective)
      (hmatchers q) (hmatchers r) h
  · rw [matchers, matchers, h]
  · rw [hrows, hrows] at h
    exact drilldownRows_injective (Text.unlines_injective (fun _ => Row.text_line)
      (fun _ _ => Row.text_injective) (hsolid q types) (hsolid r others) h)
  · rw [filters, filters, h]

example : matchers "\x7ba=\"b\nc\", d\x7d".toList .text =
    "IndexedLabel a = \"b\\nc\"\nIndexedLabel d !=".toList := by decide +kernel

end Report
end LogQuery
