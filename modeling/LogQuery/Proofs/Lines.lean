import Mathlib.Data.List.Find
import LogQuery.Proofs.Lines.Chain
import LogQuery.Proofs.Text.Escape
import LogQuery.Proofs.Token.Sign
import LogQuery.Proofs.Tree.Spot

/-! The filters on lines of a valid query are the strings of its line filters, with the sign and the
number of the filter that each of them stands in. -/
namespace LogQuery

open LogQuery.Tree (Within Spot)

namespace LineEntry

def Op.symbol : Op → Text
  | line op => op.symbol.toList
  | pattern op => op.symbol.toList

/-- Each sign of a line filter is an operator of its own. -/
theorem operators_sign {k : Kind} (h : k ∈ Grammar.lineOps) :
    ∃ o, operators.find? (fun p => p.1 = k) = some (k, o) ∧ o.symbol = k.symbol.toList := by
  simp only [Grammar.lineOps, List.mem_cons, List.not_mem_nil, or_false] at h
  rcases h with rfl | rfl | rfl | rfl | rfl | rfl
  · exact ⟨.line .contains, rfl, rfl⟩
  · exact ⟨.line .regexMatches, rfl, rfl⟩
  · exact ⟨.pattern .fits, rfl, rfl⟩
  · exact ⟨.line .lacks, rfl, rfl⟩
  · exact ⟨.line .regexLacks, rfl, rfl⟩
  · exact ⟨.pattern .unlike, rfl, rfl⟩

end LineEntry

/-- The operator of a line filter, as it is written. -/
def Tree.sign (t : Tree) : Text :=
  ((t.children.find? fun c => c.kind = .filter).map Tree.text).getD []

section Sign

variable {query : Text} {before after : List Token} {gs : List Tree} {e : Element}

/-- A line filter begins with its sign. -/
theorem lineFilter_opens (hw : Within (parse query).children before (.node .lineFilter gs) after) :
    ∃ k ∈ Grammar.lineOps, ∃ more, gs = .node .filter [.leaf k k.symbol.toList] :: more := by
  obtain ⟨k, hk, x, more, rfl⟩ := (parse_sturdy hw).lineFilter rfl
  have hl : (⟨k, x⟩ : Token) ∈ (parse query).leaves := leaf_within_root hw (.head _)
  obtain ⟨t, ht, htext, hkind⟩ := reads_token (parse_reads query) hl
  have hkind : t.kind = k := by
    rcases hkind with h | ⟨w, -, h⟩
    · exact h.symm
    · rw [show k = .keyword w from h] at hk
      simp [Grammar.lineOps] at hk
  have hx : x = k.symbol.toList := by
    have hsigns : Grammar.lineOps ⊆ Token.signKinds := by decide
    rw [← hkind, ← Token.sign_text ht (hsigns (hkind ▸ hk))]
    exact htext
  exact ⟨k, hk, more, by rw [hx]⟩

/-- The operator that is found in a line filter of a valid query is that of its sign. -/
theorem operator_sign (hv : isValid query = true)
    (hw : Within (parse query).children before (.node .lineFilter gs) after)
    (ha : Element.Located query e (.node .lineFilter gs)) :
    ∃ o, LineEntry.operator? e = some o ∧ o.symbol = (Tree.node .lineFilter gs).sign := by
  obtain ⟨k, hk, more, rfl⟩ := lineFilter_opens hw
  obtain ⟨o, hfind, ho⟩ := LineEntry.operators_sign hk
  obtain ⟨before, ha⟩ := ha
  have hkinds := Tree.chain_kinds (within_conforms hv hw) rfl
  have hchain : ∀ k ∈ Tree.chainKinds, k ∉ Grammar.lineOps := by decide
  have hfound : ∀ l ∈ Grammar.lineOps, ((Tree.node .lineFilter
      (.node .filter [.leaf k k.symbol.toList] :: more)).outermost l).head?.isSome =
        decide (l = k) := by
    intro l hl
    have hnone := Tree.outermostAll_none more fun h => hchain _ (hkinds _ h) hl
    have hops : ∀ l ∈ Grammar.lineOps, .lineFilter ≠ l ∧ .filter ≠ l ∧ l.isNamed = true := by
      decide
    obtain ⟨hfilter, hsign, -⟩ := hops l hl
    have hnamed := (hops k hk).2.2
    have hfilterNamed : Kind.isNamed .filter = true := rfl
    by_cases he : k = l
    · subst he
      simp [Tree.outermost, Tree.outermostAll, Tree.kind, hfilter, hsign, hnamed, hfilterNamed]
    · have he' : l ≠ k := fun h => he h.symm
      simp [Tree.outermost, Tree.outermostAll, Tree.kind, hfilter, hsign, hnamed, hfilterNamed, he,
        he', hnone]
  have hops : LineEntry.operators.find? (fun p => ((Tree.node .lineFilter
      (.node .filter [.leaf k k.symbol.toList] :: more)).outermost p.1).head?.isSome) =
        LineEntry.operators.find? fun p => p.1 = k := by
    have hkeys : ∀ p ∈ LineEntry.operators, p.1 ∈ Grammar.lineOps := by
      simp [LineEntry.operators, Grammar.lineOps]
    exact List.find?_congr fun p hp => hfound p.1 (hkeys p hp)
  refine ⟨o, ?_, ?_⟩
  · rw [LineEntry.operator?, Element.find_located _ ha, hops, hfind]
    rfl
  · rw [ho]
    simp [Tree.sign, Tree.children, Tree.kind, Tree.text, Tree.textAll]

end Sign

/-- A string of a line filter, with the sign of that filter and its number in the query. -/
structure LineLiteral where
  number : Nat
  sign : Text
  string : Token

namespace LineLiteral

variable (l : LineLiteral)

def value : Text := l.string.value

def quote : Text := l.string.text.take 1

def isLine : Bool := LineOp.all.any fun op => op.symbol.toList = l.sign

def isPattern : Bool := PatternOp.all.any fun op => op.symbol.toList = l.sign

/-- A regex that says so anywhere in its value ignores case. -/
def Insensitive (op : LineOp) : Prop := op.isRegex = true ∧ LineEntry.caseMark <:+: l.value

/-- The value that lines are matched with. Between backticks each character stands for itself.
Between double quotes, of two backslashes in a row one is left, and if the operator is no regex,
none of two in front of a quote. -/
inductive Plain (op : LineOp) : Text → Prop
  | raw (h : l.quote ≠ ['"']) : Plain op l.value
  | regex (t : Text) (h : l.quote = ['"']) (hop : op.isRegex = true)
    (ht : Text.Replaced ['\\', '\\'] ['\\'] l.value t) : Plain op t
  | exact (t u : Text) (h : l.quote = ['"']) (hop : op.isRegex = false)
    (ht : Text.Replaced ['\\', '\\', '"'] ['"'] l.value t)
    (hu : Text.Replaced ['\\', '\\'] ['\\'] t u) : Plain op u

/-- The filter on lines that has the operator of the sign. A regex that ignores case loses the first
mark that says so, and other filters are numbered. -/
inductive Gives : LineFilter → Prop
  | insensitive (op : LineOp) (before after : Text) (hop : op.symbol.toList = l.sign)
    (h : l.Insensitive op) (hplain : l.Plain op (before ++ LineEntry.caseMark ++ after))
    (hfirst : ∀ t u, before ++ LineEntry.caseMark ++ after = t ++ LineEntry.caseMark ++ u →
      before.length ≤ t.length) :
    Gives ⟨"caseInsensitive".toList, op, before ++ after⟩
  | sensitive (op : LineOp) (value : Text) (hop : op.symbol.toList = l.sign)
    (h : ¬ l.Insensitive op) (hplain : l.Plain op value) :
    Gives ⟨"caseSensitive,".toList ++ Text.ofNat l.number, op, value⟩

/-- The filter on patterns, whose quotes each lose a backslash in front of them. -/
inductive GivesPattern : PatternFilter → Prop
  | pattern (op : PatternOp) (value : Text) (hop : op.symbol.toList = l.sign)
    (h : Text.Replaced ['\\', '"'] ['"'] l.value value) : GivesPattern ⟨op, value⟩

/-- A filter of either sort. -/
inductive GivesEntry : LineEntry → Prop
  | line (f : LineFilter) (h : l.Gives f) : GivesEntry (.line f)
  | pattern (f : PatternFilter) (h : l.GivesPattern f) : GivesEntry (.pattern f)

end LineLiteral

/-- The strings of all line filters of a query, in the order of the text. The filters are numbered
from zero on. -/
def lineLiterals (query : Text) : List LineLiteral :=
  ((parse query).spots .lineFilter).zipIdx.flatMap fun (s, number) =>
    s.tree.literals.map fun string => ⟨number, s.tree.sign, string⟩

section Entries

variable {query : Text} {l : LineLiteral}

theorem plain_iff {op : LineOp} {t : Text} :
    l.Plain op t ↔ LineEntry.unescape l.quote op l.value = t := by
  have htwo : ['\\', '\\'] ≠ [] := by simp
  have hthree : ['\\', '\\', '"'] ≠ [] := by simp
  rw [LineEntry.unescape]
  constructor
  · intro h
    cases h with
    | raw h => rw [if_pos h]
    | regex t h hop ht => rw [if_neg (not_not.mpr h), if_pos hop, (Text.replaced_iff htwo).mp ht]
    | exact t u h hop ht hu =>
      rw [if_neg (not_not.mpr h), if_neg (by simp [hop]), (Text.replaced_iff hthree).mp ht,
        (Text.replaced_iff htwo).mp hu]
  · rintro rfl
    split
    · next h => exact .raw h
    · next h =>
      split
      · next hop => exact .regex _ (not_not.mp h) hop (Text.replace_replaced htwo _ _)
      · next hop =>
        exact .exact _ _ (not_not.mp h) (by simpa using hop) (Text.replace_replaced hthree _ _)
          (Text.replace_replaced htwo _ _)

/-- The mark that says to ignore case is in the value of a regex just as it is in the string. -/
theorem plain_mark {op : LineOp} {t : Text} (h : l.Plain op t) (hi : l.Insensitive op) :
    LineEntry.caseMark <:+: t := by
  cases h with
  | raw h => exact hi.2
  | regex t h hop ht =>
    refine Text.infix_replaced ht (by simp) ?_ ?_ hi.2
    · simp [LineEntry.caseMark]
    · simp [LineEntry.caseMark]
  | exact t u h hop ht hu =>
    rw [hi.1] at hop
    cases hop

theorem lineFilter_given (op : LineOp) (h : op.symbol.toList = l.sign) :
    l.Gives (LineEntry.lineFilter l.value l.quote l.number op) := by
  rw [LineEntry.lineFilter]
  have hplain : l.Plain op _ := plain_iff.mpr rfl
  by_cases hi : l.Insensitive op
  · have hin := (Text.hasInfix_iff LineEntry.caseMark l.value).mpr hi.2
    obtain ⟨before, after, ht, hremoved, hfirst⟩ := Text.removeFirst_spec (plain_mark hplain hi)
    rw [ht] at hplain hfirst
    simp only [hi.1, hin, hremoved]
    exact .insensitive op before after h hi hplain hfirst
  · have hn : ¬ (op.isRegex && LineEntry.caseMark.hasInfix l.value) = true := by
      rwa [Bool.and_eq_true, Text.hasInfix_iff]
    rw [if_neg hn]
    exact .sensitive op _ h hi hplain

/-- A string of a line filter gives an entry, unless it is empty. -/
theorem ofString_given {filter string : Element} {o : LineEntry.Op}
    (ho : LineEntry.operator? filter = some o) (hsign : o.symbol = l.sign)
    (hs : Element.Located query string (.ofToken l.string)) (hq : l.string.IsQuoted) :
    (l.value = [] ∧ LineEntry.ofString? query filter l.number string = none) ∨
      l.value ≠ [] ∧ ∃ entry, LineEntry.ofString? query filter l.number string = some entry ∧
        l.GivesEntry entry := by
  obtain ⟨before, hs⟩ := hs
  have hvalue : string.span.unquoted query = l.value := at_value hs hq
  obtain ⟨q, hmem, htext⟩ := hq
  have hquote : (query.slice? string.span.start (string.span.start + 1)).getD [] = l.quote := by
    rw [Element.at_first hs htext (Token.quote_size hmem), LineLiteral.quote, htext]
    rfl
  rw [LineEntry.ofString?]
  simp only [hvalue, ho, hquote]
  by_cases hempty : l.value = []
  · exact Or.inl ⟨hempty, by simp [hempty]⟩
  · refine Or.inr ⟨hempty, ?_⟩
    rw [if_neg (by simpa using hempty)]
    cases o with
    | line op => exact ⟨_, rfl, .line _ (lineFilter_given op hsign)⟩
    | pattern op =>
      exact ⟨_, rfl, .pattern _ (.pattern op _ hsign (Text.replace_replaced (by simp) _ _))⟩

/-- The entries of one line filter. -/
theorem strings_given {filter : Element} {o : LineEntry.Op} {sign : Text} {number : Nat}
    (ho : LineEntry.operator? filter = some o) (hsign : o.symbol = sign) {ts : List Token}
    (hq : ∀ t ∈ ts, t.IsQuoted) {es : List Element}
    (hes : List.Forall₂ (Element.Located query) es (ts.map .ofToken)) :
    List.Forall₂ LineLiteral.GivesEntry
      ((ts.map fun t => LineLiteral.mk number sign t).filter fun l => l.value ≠ [])
      (es.filterMap (LineEntry.ofString? query filter number)) := by
  induction ts generalizing es with
  | nil =>
    cases hes
    exact .nil
  | cons t ts ih =>
    cases hes with
    | cons he hes =>
      have hmore := ih (fun u hu => hq u (.tail t hu)) hes
      rw [List.map_cons]
      rcases ofString_given (l := ⟨number, sign, t⟩) ho hsign he (hq t (.head _)) with
        ⟨hempty, hnone⟩ | ⟨hne, entry, hsome, hgives⟩
      · rw [List.filter_cons_of_neg (by simp [hempty]), List.filterMap_cons_none hnone]
        exact hmore
      · rw [List.filter_cons_of_pos (by simp [hne]), List.filterMap_cons_some hsome]
        exact .cons hgives hmore

/-- Every string of a line filter is in quotes. -/
theorem literals_quoted {before after : List Token} {u : Tree}
    (hw : Within (parse query).children before u after) : ∀ t ∈ u.literals, t.IsQuoted := by
  intro t ht
  obtain ⟨hl, hk⟩ := Tree.literals_strings u t ht
  exact leaf_quoted (leaf_within_root hw hl) hk

theorem ofFilter_given (hv : isValid query = true) {s : Spot}
    (h : s ∈ (parse query).spots .lineFilter) (number : Nat) :
    List.Forall₂ LineLiteral.GivesEntry
      ((s.tree.literals.map fun t => LineLiteral.mk number s.tree.sign t).filter
        fun l => l.value ≠ [])
      (LineEntry.ofFilter query s.element number) := by
  obtain ⟨gs, after, ht, hw⟩ := spot_node rfl (by decide) h
  have ha : Element.Located query s.element (.node .lineFilter gs) := by
    rw [Spot.element, ht]
    exact ⟨_, within_at hw⟩
  rw [ht]
  obtain ⟨o, ho, hsign⟩ := operator_sign hv hw ha
  have hstrings := Element.strings_located (within_conforms hv hw) (Or.inl rfl) ha
  exact strings_given ho hsign (literals_quoted hw) hstrings

theorem forall_flatMap {α β γ : Type} {R : β → γ → Prop} {f : α → List β} {g : α → List γ} :
    (xs : List α) → (∀ x ∈ xs, List.Forall₂ R (f x) (g x)) →
    List.Forall₂ R (xs.flatMap f) (xs.flatMap g)
  | [], _ => .nil
  | x :: xs, h => by
    rw [List.flatMap_cons, List.flatMap_cons]
    exact List.rel_append (h x (.head _)) (forall_flatMap xs fun y hy => h y (.tail x hy))

/-- The entries of all line filters. -/
theorem ofQuery_given (hv : isValid query = true) :
    List.Forall₂ LineLiteral.GivesEntry
      ((lineLiterals query).filter fun l => l.value ≠ []) (LineEntry.ofQuery query) := by
  have hentries : LineEntry.ofQuery query = ((parse query).spots .lineFilter).zipIdx.flatMap
      fun (s, number) => LineEntry.ofFilter query s.element number := by
    rw [LineEntry.ofQuery, elements_spots query rfl, List.zipIdx_map, List.flatMap_map]
    rfl
  rw [hentries, lineLiterals, List.filter_flatMap]
  refine forall_flatMap _ fun p hp => ?_
  have hs : p.1 ∈ (parse query).spots .lineFilter := by
    have hm := List.mem_map_of_mem (f := Prod.fst) hp
    rwa [List.zipIdx_map_fst] at hm
  exact ofFilter_given hv hs p.2

theorem gives_isLine {f : LineFilter} (h : l.Gives f) : l.isLine = true := by
  have hop : ∀ op : LineOp, op.symbol.toList = l.sign → l.isLine = true := by
    intro op hop
    rw [LineLiteral.isLine, ← hop]
    cases op <;> decide
  cases h with
  | insensitive op _ _ h => exact hop op h
  | sensitive op _ h => exact hop op h

theorem gives_isPattern {f : PatternFilter} (h : l.GivesPattern f) : l.isPattern = true := by
  cases h with
  | pattern op _ hop =>
    rw [LineLiteral.isPattern, ← hop]
    cases op <;> decide

/-- No sign is of both sorts. -/
theorem not_isLine (h : l.isPattern = true) : l.isLine = false := by
  obtain ⟨op, -, hop⟩ := List.any_eq_true.mp h
  rw [LineLiteral.isLine, ← of_decide_eq_true hop]
  cases op <;> decide

theorem not_isPattern (h : l.isLine = true) : l.isPattern = false := by
  by_contra hn
  rw [not_isLine (by simpa using hn)] at h
  cases h

/-- Entries in the order of their strings, sorted out. -/
theorem entries_sorted {ls : List LineLiteral} {entries : List LineEntry}
    (h : List.Forall₂ LineLiteral.GivesEntry ls entries) :
    List.Forall₂ LineLiteral.Gives (ls.filter LineLiteral.isLine)
        (entries.filterMap LineEntry.line?) ∧
      List.Forall₂ LineLiteral.GivesPattern (ls.filter LineLiteral.isPattern)
        (entries.filterMap LineEntry.pattern?) := by
  induction h with
  | nil => exact ⟨.nil, .nil⟩
  | cons hg _ ih =>
    cases hg with
    | line f hf =>
      have hl := gives_isLine hf
      rw [List.filter_cons_of_pos hl, List.filter_cons_of_neg (by simp [not_isPattern hl])]
      exact ⟨.cons hf ih.1, ih.2⟩
    | pattern f hf =>
      have hp := gives_isPattern hf
      rw [List.filter_cons_of_neg (by simp [not_isLine hp]), List.filter_cons_of_pos hp]
      exact ⟨ih.1, .cons hf ih.2⟩

/-- Every string of a valid query's line filters is in quotes, and the sign of its filter is that of
a filter on lines or on patterns. -/
theorem mem_lineLiterals (h : l ∈ lineLiterals query) :
    l.string.IsQuoted ∧ l.isLine = !l.isPattern := by
  obtain ⟨⟨s, number⟩, hs, hl⟩ := List.mem_flatMap.mp h
  obtain ⟨t, ht, rfl⟩ := List.mem_map.mp hl
  have hspot : s ∈ (parse query).spots .lineFilter := by
    have hm := List.mem_map_of_mem (f := Prod.fst) hs
    rwa [List.zipIdx_map_fst] at hm
  obtain ⟨gs, after, hnode, hw⟩ := spot_node rfl (by decide) hspot
  refine ⟨literals_quoted hw t (hnode ▸ ht), ?_⟩
  obtain ⟨k, hk, more, rfl⟩ := lineFilter_opens hw
  have hsign : s.tree.sign = k.symbol.toList := by
    rw [hnode]
    simp [Tree.sign, Tree.children, Tree.kind, Tree.text, Tree.textAll]
  have hsorts : ∀ k ∈ Grammar.lineOps,
      (LineOp.all.any fun op => op.symbol.toList = k.symbol.toList) =
        !PatternOp.all.any fun op => op.symbol.toList = k.symbol.toList := by decide
  rw [LineLiteral.isLine, LineLiteral.isPattern, hsign]
  exact hsorts k hk

end Entries

/-- In a valid query with a selector, the strings of the line filters that are not empty and not in
an address range give all filters on lines and on patterns there are, each list in the order of the
strings, with the sign and the number of the line filter that a string stands in. No line filter is
left out with a warning. -/
theorem drilldown_lines (query : Text) (types : LabelTypes) (hv : isValid query = true)
    (hs : (parse query).spots .selector ≠ []) :
    List.Forall₂ LineLiteral.Gives
        ((lineLiterals query).filter fun l => l.isLine ∧ l.value ≠ [])
        (drilldown query types).lines ∧
      List.Forall₂ LineLiteral.GivesPattern
        ((lineLiterals query).filter fun l => l.isPattern ∧ l.value ≠ [])
        (drilldown query types).patterns ∧
      (∀ l ∈ lineLiterals query, l.string.IsQuoted ∧ l.isLine = !l.isPattern) ∧
      ∀ text, .lineFilter text ∉ drilldownWarnings query types := by
  obtain ⟨first, rest, hspots⟩ := List.exists_cons_of_ne_nil hs
  have hfirst := first_element hspots
  obtain ⟨hlines, hpatterns⟩ := entries_sorted (ofQuery_given hv)
  rw [List.filter_filter] at hlines hpatterns
  simp only [Bool.decide_and, Bool.decide_eq_true, drilldown, hfirst]
  refine ⟨hlines, hpatterns, fun l hl => mem_lineLiterals hl, ?_⟩
  intro text htext
  rw [drilldownWarnings, hfirst, lineFilter_known] at htext
  obtain ⟨_, -, hnumeric⟩ := List.mem_map.mp htext
  cases hnumeric

/-- A chain with an address range and an empty string in it, a regex that ignores case, and a
pattern. -/
def chainText : Text :=
  ("\x7ba=\"b\"\x7d |= \"x\" or ip(\"10.0.0.0/8\") or \x60\x60 or \"y\" " ++
    "!~ \x60(?i)Z\x60 | json !> \"<_>\"").toList

theorem drilldown_lines_chain :
    isValid chainText = true ∧
      List.Forall₂ LineLiteral.Gives
        ((lineLiterals chainText).filter fun l => l.isLine ∧ l.value ≠ [])
        (drilldown chainText []).lines ∧
      ∀ text, .lineFilter text ∉ drilldownWarnings chainText [] := by
  have hv : isValid chainText = true := by decide +kernel
  have hs : (parse chainText).spots .selector ≠ [] := by
    have hsome : (firstSelector? chainText).isSome = true := by decide +kernel
    rw [firstSelector_spots, Option.isSome_map, List.isSome_head?] at hsome
    simpa using hsome
  obtain ⟨hlines, -, -, hwarnings⟩ := drilldown_lines chainText [] hv hs
  exact ⟨hv, hlines, hwarnings⟩

example : (lineLiterals chainText).map (fun l => (l.number, l.value)) =
    [(0, ['x']), (0, []), (0, ['y']), (1, "(?i)Z".toList), (2, "<_>".toList)] := by
  decide +kernel

end LogQuery
