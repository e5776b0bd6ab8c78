import LogQuery.Proofs.Decoding
import LogQuery.Proofs.Text.Line
import LogQuery.Proofs.Text.Quoted
import LogQuery.Proofs.Text.Trim

/-! The line of a matcher and the line of a filter: each is a line, and it tells what it shows. -/
namespace LogQuery

namespace Text

variable {c : Char} {t u v w x y rest more : Text} {ts us : List Text}

theorem quoted_line (t : Text) : '\n' ∉ quoted t := fun h => (quoted_unbroken h).1 rfl

theorem solid_line (h : Solid t) : '\n' ∉ t := solid_not_mem h rfl

/-- What ends with a line is one. -/
theorem isLine_append (ht : '\n' ∉ t) (hu : IsLine u) : IsLine (t ++ u) where
  ne_nil := List.append_ne_nil_of_right_ne_nil t hu.ne_nil
  unbroken := by simp [ht, hu.unbroken]
  ends := by
    rw [List.getLast?_append_of_ne_nil t hu.ne_nil]
    exact hu.ends

theorem isLine_behind (ht : '\n' ∉ t) (hu : IsLine u) : IsLine (t ++ ' ' :: u) :=
  isLine_append ht (isLine_append (t := [' ']) (by decide) hu)

theorem solid_isLine (h : Solid t) (hne : t ≠ []) : IsLine t where
  ne_nil := hne
  unbroken := solid_line h
  ends := fun hr => solid_not_mem h rfl (List.mem_of_getLast? hr)

theorem quoted_isLine (t : Text) : IsLine (quoted t) where
  ne_nil := List.cons_ne_nil _ _
  unbroken := quoted_line t
  ends := fun hr => (quoted_unbroken (List.mem_of_getLast? hr)).2 rfl

/-- What is in front of the first of a character, and what is behind it. -/
theorem front_injective (ht : c ∉ t) (hu : c ∉ u) (h : t ++ c :: v = u ++ c :: w) :
    t = u ∧ v = w := by
  have hfront {t v : Text} (ht : c ∉ t) : (t ++ c :: v).takeWhile (· ≠ c) = t := by
    have hall : ∀ d ∈ t, decide (d ≠ c) = true := fun d hd => decide_eq_true fun he => ht (he ▸ hd)
    rw [List.takeWhile_append_of_pos hall]
    simp
  obtain rfl : t = u := by rw [← hfront (v := v) ht, h, hfront hu]
  exact ⟨rfl, (List.cons.inj (List.append_cancel_left h)).2⟩

/-- A name, an operator and a text in quotes, and what stands behind them. -/
def compared (key op value rest : Text) : Text :=
  key ++ ' ' :: (op ++ ' ' :: (quoted value ++ rest))

theorem compared_isLine (ht : Solid t) (hv : Solid v) (hrest : rest = [] ∨ IsLine rest) :
    IsLine (compared t v x rest) := by
  refine isLine_behind (solid_line ht) (isLine_behind (solid_line hv) ?_)
  rcases hrest with rfl | hrest
  · rw [List.append_nil]
    exact quoted_isLine x
  · exact isLine_append (quoted_line x) hrest

theorem compared_injective (ht : Solid t) (hu : Solid u) (hv : Solid v) (hw : Solid w)
    (h : compared t v x rest = compared u w y more) : t = u ∧ v = w ∧ x = y ∧ rest = more := by
  have hsplit {t : Text} (ht : Solid t) : ' ' ∉ t := solid_not_mem ht rfl
  obtain ⟨rfl, hop⟩ := front_injective (hsplit ht) (hsplit hu) h
  obtain ⟨rfl, hvalue⟩ := front_injective (hsplit hv) (hsplit hw) hop
  obtain ⟨rfl, rfl⟩ := quoted_injective hvalue
  exact ⟨rfl, rfl, rfl, rfl⟩

/-- Texts in quotes, each behind a blank. -/
def listed (ts : List Text) : Text := ts.flatMap fun t => ' ' :: quoted t

theorem listed_isLine (ht : IsLine t) (ts : List Text) : IsLine (t ++ listed ts) := by
  induction ts generalizing t with
  | nil =>
    rw [listed, List.flatMap_nil, List.append_nil]
    exact ht
  | cons u ts ih =>
    have h := ih (isLine_behind ht.unbroken (quoted_isLine u))
    rwa [List.append_assoc] at h

theorem listed_injective (h : listed ts = listed us) : ts = us := by
  induction ts generalizing us with
  | nil =>
    cases us with
    | nil => rfl
    | cons u us => cases h
  | cons t ts ih =>
    cases us with
    | nil => cases h
    | cons u us =>
      simp only [listed, List.flatMap_cons, List.cons_append, List.cons.injEq, true_and] at h
      obtain ⟨rfl, hrest⟩ := quoted_injective h
      rw [ih hrest]

theorem words_listed (h : ts ≠ []) : ' ' :: words (ts.map quoted) = listed ts := by
  rw [words, join_behind ' ' (List.map_eq_nil_iff.not.mpr h), List.flatMap_map, listed]

/-- Where nothing is listed, the blank behind the last word is left out. -/
theorem trimEnd_listed (t : Text) (hc : isBlank c = false) (ts : List Text) :
    trimEnd (t ++ [c] ++ ' ' :: words (ts.map quoted)) = t ++ [c] ++ listed ts := by
  rcases List.eq_nil_or_concat' ts with rfl | ⟨front, last, rfl⟩
  · show trimEnd (t ++ [c] ++ [' ']) = t ++ [c] ++ []
    rw [trimEnd_blank rfl, trimEnd_last hc, List.append_nil]
  · have hquote : listed (front ++ [last]) =
        listed front ++ ' ' :: '"' :: last.flatMap escape ++ ['"'] := by
      simp [listed, quoted]
    rw [words_listed (List.append_ne_nil_of_right_ne_nil front (List.cons_ne_nil last [])), hquote,
      ← List.append_assoc, trimEnd_last rfl]

end Text

open Text (IsLine Solid quoted compared listed)

namespace Matcher

theorem Op.symbol_solid (op : Op) : Solid op.symbol.toList := by cases op <;> decide

theorem Place.name_solid (p : Place) : Solid p.name.toList := by cases p <;> decide

end Matcher

theorem Comparison.symbol_solid (op : Comparison) : Solid op.symbol.toList := by
  cases op <;> decide

theorem LineOp.symbol_solid (op : LineOp) : Solid op.symbol.toList := by cases op <;> decide

theorem PatternOp.symbol_solid (op : PatternOp) : Solid op.symbol.toList := by cases op <;> decide

theorem LabelType.name_solid (t : LabelType) : Solid t.name.toList := by cases t <;> decide

/-- Names that are told apart as they are read are told apart. -/
theorem Json.choice_injective {α : Type} {all : List α} {name : α → String} {a b : α}
    (h : ∀ a, (Json.ofString (name a)).choice? all name = some a)
    (hab : (name a).toList = (name b).toList) : a = b := by
  have ha := h a
  rw [String.toList_injective hab, h b] at ha
  exact (Option.some.inj ha).symm

namespace Report

variable {m n : Matcher}

/-- A matcher without values ends with its operator. -/
theorem matcher_eq (m : Matcher) :
    matcher m = m.place.name.toList ++ ' ' :: (m.key ++ ' ' :: (m.op.symbol.toList ++
      listed m.values)) := by
  -- the operator does not end with a blank, so that nothing of it is trimmed
  obtain ⟨front, c, hop, hc⟩ : ∃ front c, m.op.symbol.toList = front ++ [c] ∧
      Text.isBlank c = false := by
    cases m.op
    · exact ⟨[], '=', rfl, rfl⟩
    · exact ⟨['!'], '=', rfl, rfl⟩
  have htrim := Text.trimEnd_listed
    (m.place.name.toList ++ ' ' :: (m.key ++ ' ' :: front)) hc m.values
  rw [matcher, hop]
  simpa [Text.words, Text.join] using htrim

theorem matcher_line (h : Solid m.key) : IsLine (matcher m) := by
  have hop : IsLine m.op.symbol.toList :=
    Text.solid_isLine m.op.symbol_solid (by cases m.op <;> exact List.cons_ne_nil _ _)
  rw [matcher_eq]
  exact Text.isLine_behind (Text.solid_line m.place.name_solid)
    (Text.isLine_behind (Text.solid_line h) (Text.listed_isLine hop m.values))

theorem op_injective {o p : Matcher.Op} {ts us : List Text}
    (h : o.symbol.toList ++ listed ts = p.symbol.toList ++ listed us) : o = p ∧ ts = us := by
  have hop : o = p := by
    cases o <;> cases p <;> first | rfl | cases h
  subst hop
  exact ⟨rfl, Text.listed_injective (List.append_cancel_left h)⟩

theorem matcher_injective (hm : Solid m.key) (hn : Solid n.key) (h : matcher m = matcher n) :
    m = n := by
  have hsplit {t : Text} (ht : Solid t) : ' ' ∉ t := Text.solid_not_mem ht rfl
  rw [matcher_eq, matcher_eq] at h
  obtain ⟨hplace, hrest⟩ := Text.front_injective (hsplit m.place.name_solid)
    (hsplit n.place.name_solid) h
  obtain ⟨hkey, hrest⟩ := Text.front_injective (hsplit hm) (hsplit hn) hrest
  obtain ⟨hop, hvalues⟩ := op_injective hrest
  have hplace := Json.choice_injective Matcher.place_symbol hplace
  cases m
  cases n
  simp_all

/-- A filter of any sort. -/
inductive Row where
  | label (f : LabelFilter)
  | line (f : LineFilter)
  | field (f : FieldFilter)
  | pattern (f : PatternFilter)

namespace Row

variable {r s : Row}

def text : Row → Text
  | label f => labelFilter f
  | line f => lineFilter f
  | field f => fieldFilter f
  | pattern f => patternFilter f

def label? : Row → Option LabelFilter
  | label f => some f
  | _ => none

def line? : Row → Option LineFilter
  | line f => some f
  | _ => none

def field? : Row → Option FieldFilter
  | field f => some f
  | _ => none

def pattern? : Row → Option PatternFilter
  | pattern f => some f
  | _ => none

/-- The name of a filter, if it has one. -/
def key : Row → Text
  | label f => f.key
  | line f => f.key
  | field f => f.key
  | pattern _ => []

def tag : Row → String
  | label _ => "label   "
  | line _ => "line    "
  | field _ => "field   "
  | pattern _ => "pattern "

/-- What stands behind the tag. -/
def body : Row → Text
  | label f => compared f.key f.operator.symbol.toList f.value
      (' ' :: '(' :: (f.labelType.name.toList ++ [')']))
  | line f => compared f.key f.operator.symbol.toList f.value []
  | field f => compared f.key f.operator.symbol.toList f.value
      (' ' :: '(' :: (f.labelType.name.toList ++ ',' :: ' ' :: (parserName f.parser ++ [')'])))
  | pattern f => f.operator.symbol.toList ++ ' ' :: quoted f.value

theorem text_eq (r : Row) : r.text = r.tag.toList ++ r.body := by
  cases r with
  | label f =>
    show "label   ".toList ++ _ ++ _ ++ _ ++ _ = "label   ".toList ++ _
    simp [body, compared, Text.words, Text.join]
  | line f =>
    show "line    ".toList ++ _ = "line    ".toList ++ _
    simp [body, compared, Text.words, Text.join]
  | field f =>
    show "field   ".toList ++ _ ++ _ ++ _ ++ _ ++ _ ++ _ = "field   ".toList ++ _
    simp [body, compared, Text.words, Text.join]
  | pattern f =>
    show "pattern ".toList ++ _ = "pattern ".toList ++ _
    simp [body, Text.words, Text.join]

theorem tag_length (r : Row) : r.tag.toList.length = 8 := by cases r <;> simp [tag]

theorem closed_isLine (h : '\n' ∉ t) : IsLine ([' ', '('] ++ t ++ [')']) := by
  refine Text.isLine_append ?_ (Text.solid_isLine (by decide) (by decide))
  simp [h]

theorem parserName_line (p : Option FieldParser) : '\n' ∉ parserName p := by
  rcases p with _ | p
  · decide
  · cases p <;> decide

theorem text_line (h : Solid r.key) : IsLine r.text := by
  have htag : '\n' ∉ r.tag.toList := by cases r <;> simp [tag]
  rw [text_eq]
  refine Text.isLine_append htag ?_
  cases r with
  | label f =>
    exact Text.compared_isLine h f.operator.symbol_solid
      (.inr (closed_isLine (Text.solid_line f.labelType.name_solid)))
  | line f => exact Text.compared_isLine h f.operator.symbol_solid (.inl rfl)
  | field f =>
    have hclosed : IsLine ([' ', '('] ++ (f.labelType.name.toList ++ ([',', ' '] ++
        parserName f.parser)) ++ [')']) := by
      refine closed_isLine ?_
      simp [Text.solid_line f.labelType.name_solid, parserName_line]
    exact Text.compared_isLine h f.operator.symbol_solid (.inr (by simpa using hclosed))
  | pattern f =>
    exact Text.isLine_behind (Text.solid_line f.operator.symbol_solid) (Text.quoted_isLine f.value)

theorem parserName_injective : Function.Injective parserName := by
  intro p q h
  rcases p with _ | p <;> rcases q with _ | q
  · rfl
  · cases q <;> exact absurd h (by decide)
  · cases p <;> exact absurd h (by decide)
  · cases p <;> cases q <;> first | rfl | exact absurd h (by decide)

theorem label_injective {f g : LabelFilter} (hf : Solid f.key) (hg : Solid g.key)
    (h : (label f).body = (label g).body) : f = g := by
  obtain ⟨hkey, hop, hvalue, hrest⟩ := Text.compared_injective hf hg f.operator.symbol_solid
    g.operator.symbol_solid h
  have hop := Json.choice_injective Comparison.ofJson_toJson hop
  have htype := Json.choice_injective LabelType.ofJson_toJson
    (List.append_cancel_right (List.cons.inj (List.cons.inj hrest).2).2)
  cases f
  cases g
  simp_all

theorem line_injective {f g : LineFilter} (hf : Solid f.key) (hg : Solid g.key)
    (h : (line f).body = (line g).body) : f = g := by
  obtain ⟨hkey, hop, hvalue, -⟩ := Text.compared_injective hf hg f.operator.symbol_solid
    g.operator.symbol_solid h
  have hop := Json.choice_injective LineOp.ofJson_symbol hop
  cases f
  cases g
  simp_all

theorem field_injective {f g : FieldFilter} (hf : Solid f.key) (hg : Solid g.key)
    (h : (field f).body = (field g).body) : f = g := by
  obtain ⟨hkey, hop, hvalue, hrest⟩ := Text.compared_injective hf hg f.operator.symbol_solid
    g.operator.symbol_solid h
  have hop := Json.choice_injective Comparison.ofJson_toJson hop
  have hcomma (t : LabelType) : ',' ∉ t.name.toList := by cases t <;> decide
  obtain ⟨htype, hparser⟩ := Text.front_injective (hcomma f.labelType) (hcomma g.labelType)
    (List.cons.inj (List.cons.inj hrest).2).2
  have htype := Json.choice_injective LabelType.ofJson_toJson htype
  have hparser := parserName_injective (List.append_cancel_right (List.cons.inj hparser).2)
  cases f
  cases g
  simp_all

theorem pattern_injective {f g : PatternFilter} (h : (pattern f).body = (pattern g).body) :
    f = g := by
  have hsplit (op : PatternOp) : ' ' ∉ op.symbol.toList :=
    Text.solid_not_mem op.symbol_solid rfl
  obtain ⟨hop, hvalue⟩ := Text.front_injective (hsplit f.operator) (hsplit g.operator) h
  have hop := Json.choice_injective PatternOp.ofJson_symbol hop
  have hvalue := Text.quoted_injective (u := []) (v := []) (by simpa using hvalue)
  cases f
  cases g
  simp_all

/-- The tag tells the sort of a filter, and what stands behind it the filter. -/
theorem text_injective (hr : Solid r.key) (hs : Solid s.key) (h : r.text = s.text) : r = s := by
  rw [text_eq, text_eq] at h
  obtain ⟨htag, hbody⟩ := List.append_inj h (r.tag_length.trans s.tag_length.symm)
  replace htag := String.toList_injective htag
  cases r <;> cases s
  case label.label => exact congrArg label (label_injective hr hs hbody)
  case line.line => exact congrArg line (line_injective hr hs hbody)
  case field.field => exact congrArg field (field_injective hr hs hbody)
  case pattern.pattern => exact congrArg pattern (pattern_injective hbody)
  all_goals exact absurd htag (by simp [tag])

end Row

end Report

end LogQuery
