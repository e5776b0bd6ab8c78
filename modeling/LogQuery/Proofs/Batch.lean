import LogQuery.Proofs.Report.Key
import LogQuery.Proofs.Report.Row

/-! What is printed for files of queries: every line that holds a query, and nothing else. -/
namespace LogQuery

open Text (IsLine Lined Trimmed)

variable {file content t q : Text} {n : Nat} {e : SavedQuery} {saved : List SavedQuery}
  {files : List (Text × Text)} {fs gs : List (Text × Option Text)}

/-- A line holds what is left of it between the white space at its ends, if that is no comment. -/
structure HoldsQuery (t q : Text) : Prop where
  trimmed : Trimmed t q
  ne_nil : q ≠ []
  plain : q.head? ≠ some '#'

theorem holdsQuery_line (h : HoldsQuery t q) (ht : '\n' ∉ t) : IsLine q where
  ne_nil := h.ne_nil
  unbroken := fun hq => ht (Text.trimmed_mem h.trimmed hq)
  ends := fun hr => Bool.false_ne_true (h.trimmed.last '\r' hr).symm

/-- The queries of a file, in the order of its lines, each with the number of its line, counted from
one, and with its matchers. -/
structure Entries (file content : Text) (saved : List SavedQuery) : Prop where
  increasing : saved.Pairwise fun a b => a.line < b.line
  listed : ∃ ls, Lined content ls ∧ ∀ e, e ∈ saved ↔ ∃ n t q, ls[n]? = some t ∧ HoldsQuery t q ∧
    e = ⟨file, n + 1, q, matchers q⟩

/-- The queries of files, file by file. -/
def Saved (files : List (Text × Text)) (saved : List SavedQuery) : Prop :=
  ∃ parts, List.Forall₂ (fun f part => Entries f.1 f.2 part) files parts ∧ saved = parts.flatten

/-- Files that can all be read. -/
def readable (files : List (Text × Text)) : List (Text × Option Text) :=
  files.map fun (file, content) => (file, some content)

namespace SavedQuery

theorem ofLine_iff : ofLine? file n t = some e ↔
    ∃ q, HoldsQuery t q ∧ e = ⟨file, n, q, LogQuery.matchers q⟩ := by
  unfold ofLine?
  dsimp only
  constructor
  · intro h
    split at h
    · cases h
    · next hq =>
      simp only [Bool.or_eq_true, List.isEmpty_iff, decide_eq_true_eq, not_or] at hq
      exact ⟨t.trim, ⟨Text.trim_trimmed t, hq.1, hq.2⟩, (Option.some.inj h).symm⟩
  · rintro ⟨q, hq, rfl⟩
    rw [Text.trim_eq hq.trimmed hq.ne_nil, if_neg]
    simp [hq.ne_nil, hq.plain]

theorem ofContent_entries (file content : Text) :
    Entries file content (ofContent file content) where
  increasing := by
    have hnumbers : ((Text.lines content).zipIdx 1).Pairwise fun a b => a.2 < b.2 := by
      rw [← List.pairwise_map, List.zipIdx_map_snd]
      exact List.pairwise_lt_range'
    refine List.pairwise_filterMap.mpr (hnumbers.imp ?_)
    rintro ⟨t, n⟩ ⟨u, m⟩ hnm a ha b hb
    obtain ⟨q, -, rfl⟩ := ofLine_iff.mp ha
    obtain ⟨r, -, rfl⟩ := ofLine_iff.mp hb
    exact hnm
  listed := by
    refine ⟨Text.lines content, Text.lined_lines content, fun e => ?_⟩
    rw [ofContent, List.mem_filterMap]
    constructor
    · rintro ⟨⟨t, line⟩, ht, he⟩
      obtain ⟨q, hq, rfl⟩ := ofLine_iff.mp he
      obtain ⟨hle, hget⟩ := List.mk_mem_zipIdx_iff_le_and_getElem?_sub.mp ht
      obtain ⟨n, rfl⟩ := Nat.exists_eq_add_of_le' hle
      exact ⟨n, t, q, hget, hq, rfl⟩
    · rintro ⟨n, t, q, hget, hq, rfl⟩
      exact ⟨(t, n + 1), List.mk_mem_zipIdx_iff_le_and_getElem?_sub.mpr ⟨by omega, hget⟩,
        ofLine_iff.mpr ⟨q, hq, rfl⟩⟩

end SavedQuery

theorem batch_readable (files : List (Text × Text)) :
    batch? (readable files) = some (files.flatMap fun f => SavedQuery.ofContent f.1 f.2) := by
  induction files with
  | nil => rfl
  | cons f files ih =>
    show (batch? (readable files)).map (SavedQuery.ofContent f.1 f.2 ++ ·) = _
    rw [ih]
    rfl

/-- One file that cannot be read spoils the whole. -/
theorem batch_none : batch? fs = none ↔ ∃ f ∈ fs, f.2 = none := by
  induction fs with
  | nil => simp [batch?]
  | cons f fs ih =>
    obtain ⟨file, content⟩ := f
    cases content with
    | none => simp [batch?]
    | some content => simp [batch?, ih]

theorem batch_append : batch? (fs ++ gs) =
    (batch? fs).bind fun saved => (batch? gs).map (saved ++ ·) := by
  induction fs with
  | nil => simp [batch?]
  | cons f fs ih =>
    obtain ⟨file, content⟩ := f
    cases content with
    | none => rfl
    | some content =>
      rw [List.cons_append, batch?, batch?, ih, Option.map_bind, Option.bind_map]
      simp [Function.comp_def]

/-- What is known of each query of some files. -/
theorem saved_mem (h : Saved files saved) (he : e ∈ saved) : (∃ f ∈ files, f.1 = e.file) ∧
    IsLine e.query ∧ e.matchers = matchers e.query := by
  obtain ⟨parts, hparts, rfl⟩ := h
  obtain ⟨part, hpart, he⟩ := List.mem_flatten.mp he
  obtain ⟨i, hi, rfl⟩ := List.getElem_of_mem hpart
  obtain ⟨ls, hls, hmem⟩ := ((List.forall₂_iff_get.mp hparts).2 i (hparts.length_eq ▸ hi) hi).listed
  obtain ⟨n, t, q, hget, hq, rfl⟩ := (hmem e).mp he
  have ht := Text.lined_unbroken hls t (List.mem_of_getElem? hget)
  exact ⟨⟨_, List.getElem_mem _, rfl⟩, holdsQuery_line hq ht, rfl⟩

namespace Json

/-- The items of an array. -/
def items? : Json → Option (List Json)
  | array xs => some xs
  | _ => none

/-- A whole number, from the digits that it is written with. -/
def nat? : Json → Option Nat
  | number digits => Toml.ofDigits? 10 digits
  | _ => none

theorem nat_ofNat (n : Nat) : (ofNat n).nat? = some n :=
  Text.digits_toDigits (by decide) (by decide) n

/-- A number that is not zero begins with another digit. -/
theorem ofNat_first (hn : 0 < n) :
    ∃ c u, Text.ofNat n = c :: u ∧ c ≠ '0' ∧ ∀ d ∈ c :: u, d.isDigit = true := by
  have hdigits : ∀ d ∈ Text.ofNat n, d.isDigit = true := fun d hd =>
    Nat.isDigit_of_mem_toDigits (by decide) (by decide) hd
  induction n using Nat.strongRecOn with
  | ind n ih =>
    rcases Text.toDigits_cases (by decide : 1 < 10) n with ⟨hlt, hx⟩ | ⟨hge, hx⟩
    · have hfirst : ∀ n < 10, 0 < n → n.digitChar ≠ '0' := by decide
      exact ⟨_, _, hx, hfirst n hlt hn, hx ▸ hdigits⟩
    · change Text.ofNat n = Text.ofNat (n / 10) ++ [(n % 10).digitChar] at hx
      obtain ⟨c, u, hc, hfirst, -⟩ := ih (n / 10) (by omega) (by omega) fun d hd =>
        hdigits d (by simp [hx, hd])
      rw [hc, List.cons_append] at hx
      exact ⟨c, _, hx, hfirst, hx ▸ hdigits⟩

theorem ofNat_sound (n : Nat) : Reader.isSound (.ofNat n) = true := by
  rcases Nat.eq_zero_or_pos n with rfl | hn
  · rfl
  · obtain ⟨c, u, hx, hfirst, hdigits⟩ := ofNat_first hn
    have hsign : c ≠ '-' := by
      rintro rfl
      exact absurd (hdigits '-' (.head u)) (by decide)
    have hrest : u.dropWhile Char.isDigit = [] :=
      List.dropWhile_eq_nil_iff.mpr fun d hd => hdigits d (.tail c hd)
    show Reader.isNumber (Text.ofNat n) = true
    rw [hx, Reader.isNumber, Reader.number?, Reader.unsigned, if_neg (by simpa using hsign),
      Reader.whole?.eq_2 _ (fun t h => hfirst (List.cons.inj h).1), Reader.digits?,
      if_pos (hdigits c (.head u)), hrest]
    rfl

end Json

namespace SavedQuery

/-- What an entry says: the file and the number of the line of a query, the query, and its
matchers. -/
def ofJson? : Json → Option SavedQuery
  | .object members => do
    let file ← members.lookup "file".toList
    let line ← members.lookup "line".toList
    let query ← members.lookup "query".toList
    let matchers ← members.lookup "matchers".toList
    return ⟨← file.string?, ← line.nat?, ← query.string?, ← matchers.list? Matcher.ofJson?⟩
  | _ => none

theorem ofJson_json (e : SavedQuery) : ofJson? (Report.savedQueryJson e) = some e := by
  have hmatchers := Json.list_map (fun m => Matcher.ofJson_written m.toJson_written) e.matchers
  simp [ofJson?, Report.savedQueryJson, Json.record, List.lookup_cons, Json.string?, Json.nat_ofNat,
    hmatchers]

theorem json_sound (e : SavedQuery) : Json.Reader.isSound (Report.savedQueryJson e) = true := by
  have hmatchers : Json.Reader.isSound (.list Matcher.toJson e.matchers) = true :=
    Json.sound_list Matcher.toJson_sound e.matchers
  simp [Report.savedQueryJson, Json.record, Json.Reader.isSound, Json.Reader.isSoundMembers,
    Json.ofNat_sound, hmatchers]

end SavedQuery

namespace Report

/-- The line of a query, behind its file and the number of its line there, and below it the lines
of its matchers, each behind two spaces. -/
def entryLines (e : SavedQuery) : List Text :=
  (e.file ++ ":".toList ++ Nat.toDigits 10 e.line ++ ": ".toList ++ e.query) ::
    e.matchers.map fun m => "  ".toList ++ matcher m

theorem entryLines_eq (e : SavedQuery) :
    entryLines e = savedPlace e :: e.matchers.map fun m => indented (matcher m) := by
  simp [entryLines, savedPlace, indented, Text.ofNat]

theorem savedQuery_behind (h : e.matchers = LogQuery.matchers e.query) :
    '\n' :: savedQuery e = (entryLines e).flatMap ('\n' :: ·) := by
  have hlines : Text.lines (matcherLines e.matchers) = e.matchers.map matcher :=
    Text.lines_unlines (List.forall_mem_map.mpr fun m hm =>
      matcher_line (matchers_solid m (h ▸ hm)))
  rw [savedQuery, hlines, entryLines_eq, List.flatMap_cons, List.flatMap_map, List.flatMap_map]
  rfl

theorem entryLines_line (hfile : '\n' ∉ e.file) (hquery : IsLine e.query)
    (h : e.matchers = LogQuery.matchers e.query) : ∀ l ∈ entryLines e, IsLine l := by
  rw [entryLines_eq]
  refine List.forall_mem_cons.mpr ⟨?_, List.forall_mem_map.mpr fun m hm => ?_⟩
  · refine Text.isLine_append ?_ hquery
    simp [hfile, Text.solid_line (Text.digits_solid e.line)]
  · exact Text.isLine_append (t := [' ', ' ']) (by decide)
      (matcher_line (matchers_solid m (h ▸ hm)))

/-- The lines of all queries, one below the other. -/
theorem savedQueries_unlines (h : ∀ e ∈ saved, e.matchers = LogQuery.matchers e.query) :
    Text.unlines (saved.map savedQuery) = Text.unlines (saved.flatMap entryLines) := by
  cases saved with
  | nil => rfl
  | cons e saved =>
    -- behind a line feed the first block is like the others
    have hblocks := Text.join_behind '\n' (List.cons_ne_nil (savedQuery e) (saved.map savedQuery))
    have hne : (e :: saved).flatMap entryLines ≠ [] := by simp [entryLines]
    have hrows := Text.join_behind '\n' hne
    refine (List.cons.inj (?_ : '\n' :: _ = '\n' :: _)).2
    show '\n' :: Text.join ['\n'] (savedQuery e :: saved.map savedQuery) =
      '\n' :: Text.join ['\n'] ((e :: saved).flatMap entryLines)
    rw [hblocks, hrows, List.flatMap_assoc, ← List.map_cons, List.flatMap_map]
    exact List.flatMap_congr fun e he => savedQuery_behind (h e he)

theorem savedQueries_lined (h : Saved files saved) (hnames : ∀ f ∈ files, '\n' ∉ f.1) :
    Lined (Text.unlines (saved.map savedQuery)) (saved.flatMap entryLines) := by
  have hlines : ∀ l ∈ saved.flatMap entryLines, IsLine l := by
    intro l hl
    obtain ⟨e, he, hl⟩ := List.mem_flatMap.mp hl
    obtain ⟨⟨f, hf, hfile⟩, hquery, hmatchers⟩ := saved_mem h he
    exact entryLines_line (hfile ▸ hnames f hf) hquery hmatchers l hl
  rw [savedQueries_unlines fun e he => (saved_mem h he).2.2]
  exact Text.lined_unlines hlines

/-- The entries that are printed as JSON. -/
def printed? (files : List (Text × Option Text)) : Option (List Json) :=
  ((batch? files .json).bind Json.read?).bind Json.items?

theorem printed_eq (files : List (Text × Option Text)) :
    printed? files = (LogQuery.batch? files).map (·.map savedQueryJson) := by
  rw [printed?, batch?]
  cases LogQuery.batch? files with
  | none => rfl
  | some saved =>
    have hread := Json.read_render (.list savedQueryJson saved)
      (Json.sound_list SavedQuery.json_sound saved)
    simp only [Option.map_some, Option.bind_some, hread]
    rfl

/-- The entries tell of the queries that are found. -/
theorem printed_saved (files : List (Text × Option Text)) :
    (printed? files).bind (·.mapM SavedQuery.ofJson?) = LogQuery.batch? files := by
  rw [printed_eq]
  cases LogQuery.batch? files with
  | none => rfl
  | some saved => exact Json.list_map SavedQuery.ofJson_json saved

theorem readable_saved (files : List (Text × Text)) :
    Saved files (files.flatMap fun f => SavedQuery.ofContent f.1 f.2) := by
  refine ⟨files.map fun f => SavedQuery.ofContent f.1 f.2, ?_, List.flatMap_def⟩
  rw [List.forall₂_map_right_iff, List.forall₂_same]
  exact fun f _ => SavedQuery.ofContent_entries f.1 f.2

/-- Nothing is printed just if a file cannot be read. For files that can be read, the queries of all
files are printed, one JSON entry for each, which tells its file, line, query and matchers, and in a
text one line for each with a line below it for each of its matchers. What is printed for files and
other files behind them is what is printed for the first and then for the others. -/
theorem batch_lossless :
    (∀ (files : List (Text × Option Text)) (format : Format),
      batch? files format = none ↔ ∃ f ∈ files, f.2 = none) ∧
    (∀ files : List (Text × Text), ∃ saved, Saved files saved ∧
      (printed? (readable files)).bind (·.mapM SavedQuery.ofJson?) = some saved ∧
      ((∀ f ∈ files, '\n' ∉ f.1) → ∃ text, batch? (readable files) .text = some text ∧
        Lined text (saved.flatMap entryLines))) ∧
    ∀ fs gs : List (Text × Option Text), printed? (fs ++ gs) =
      (printed? fs).bind fun entries => (printed? gs).map (entries ++ ·) := by
  refine ⟨fun files format => ?_, fun files => ?_, fun fs gs => ?_⟩
  · rw [batch?, Option.map_eq_none_iff, batch_none]
  · have hbatch := batch_readable files
    have hsaved := readable_saved files
    generalize (files.flatMap fun f => SavedQuery.ofContent f.1 f.2) = saved at hbatch hsaved
    refine ⟨saved, hsaved, ?_, fun hnames => ⟨_, ?_, savedQueries_lined hsaved hnames⟩⟩
    · exact (printed_saved _).trans hbatch
    · rw [batch?, hbatch, Option.map_some]
  · rw [printed_eq, printed_eq, printed_eq, batch_append]
    cases LogQuery.batch? fs with
    | none => rfl
    | some saved =>
      cases LogQuery.batch? gs with
      | none => rfl
      | some more => simp

/-- A comment, a blank line, a query, and behind it one that holds a carriage return and ends with
the file. -/
def mixedContent : Text :=
  "# note\r\n \n\t\x7ba=\"b\"\x7d \r\n\x7bc=\"d\\n\"\x7d\r| json".toList

def mixedSaved : List SavedQuery :=
  [⟨['q'], 3, "\x7ba=\"b\"\x7d".toList, [⟨['a'], .equal, [['b']], .indexed⟩]⟩,
    ⟨['q'], 4, "\x7bc=\"d\\n\"\x7d\r| json".toList, [⟨['c'], .equal, ["d\\n".toList], .indexed⟩]⟩]

theorem batch_lossless_mixed :
    Saved [(['q'], mixedContent)] mixedSaved ∧
      (printed? (readable [(['q'], mixedContent)])).bind (·.mapM SavedQuery.ofJson?) =
        some mixedSaved ∧
      ∃ text, batch? (readable [(['q'], mixedContent)]) .text = some text ∧
        Lined text ["q:3: \x7ba=\"b\"\x7d".toList, "  IndexedLabel a = \"b\"".toList,
          "q:4: \x7bc=\"d\\n\"\x7d\r| json".toList,
          "  IndexedLabel c = \"d\\\\n\"".toList] := by
  obtain ⟨saved, hsaved, hjson, htext⟩ := batch_lossless.2.1 [(['q'], mixedContent)]
  have hmixed : LogQuery.batch? (readable [(['q'], mixedContent)]) = some mixedSaved := by
    decide +kernel
  obtain rfl : saved = mixedSaved :=
    Option.some.inj (hjson.symm.trans ((printed_saved _).trans hmixed))
  exact ⟨hsaved, hjson, htext (by decide)⟩

end Report

end LogQuery
