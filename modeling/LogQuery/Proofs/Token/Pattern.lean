import Mathlib.Computability.Language
import LogQuery.Proofs.Token.Adjacent
import LogQuery.Proofs.Token.Cut

/-! The patterns of the kinds of tokens. A text of a pattern is one token of that kind, whatever
blanks stand around it. -/
namespace LogQuery.Token

open scoped Computability

/-- The texts of one character of a class. -/
def one (p : Char → Bool) : Language Char := {w | ∃ c, p c = true ∧ w = [c]}

def among (letters : String) : Language Char := one fun c => letters.toList.contains c

def words (ws : List String) : Language Char := {w | ∃ s ∈ ws, w = s.toList}

def word (s : String) : Language Char := words [s]

def many (l : Language Char) : Language Char := l * l∗

def optional (l : Language Char) : Language Char := 1 + l

def decimals : Language Char :=
  many (one Char.isDigit) * optional (word "." * many (one Char.isDigit))

def timeUnits : Language Char := words ["ns", "us", "µs", "ms", "s", "m", "h", "d", "w", "y"]

def sizeUnits : Language Char :=
  optional (among "kKmMgGtTpPeE" * optional (word "i")) * among "bB"

/-- A backslash takes one character with it, but no line feed. -/
def quotedPart : Language Char :=
  one (fun c => c ≠ '"' && c ≠ '\\') + word "\\" * one (· ≠ '\n')

/-- The kinds of tokens that are always spelled the same. -/
def spellings : List (Kind × String) :=
  [(.lBrace, "\x7b"), (.rBrace, "\x7d"), (.lParen, "("), (.rParen, ")"), (.lBracket, "["),
    (.rBracket, "]"), (.comma, ","), (.eq, "="), (.neq, "!="), (.re, "=~"), (.nre, "!~"),
    (.npa, "!>"), (.eql, "=="), (.gtr, ">"), (.gte, ">="), (.lss, "<"), (.lte, "<="), (.pipe, "|"),
    (.pipeExact, "|="), (.pipeMatch, "|~"), (.pipePattern, "|>"), (.add, "+"), (.sub, "-"),
    (.mul, "*"), (.div, "/"), (.mod, "%"), (.pow, "^"), (.unknown, "!")]

/-- The texts that a token of a kind may have. -/
def pattern : Kind → Language Char
  | .whitespace => many (among " \t\r\n")
  | .comment => word "#" * (one (· ≠ '\n'))∗
  | .identifier => one (fun c => c.isAlpha || c = '_') * (one fun c => c.isAlphanum || c = '_')∗
  | .string => word "\"" * quotedPart∗ * word "\"" + word "\x60" * (one (· ≠ '\x60'))∗ * word "\x60"
  | .number => decimals
  | .duration => many (decimals * timeUnits)
  | .bytes => decimals * sizeUnits
  | .parserFlag => word "--" * one Char.isAlpha * (one fun c => c.isAlpha || c = '-')∗
  | k => {w | ∃ s, (k, s) ∈ spellings ∧ w = s.toList}

variable {c : Char} {cs rest w : Text} {p : Char → Bool} {k : Kind}

theorem mem_one (h : p c = true) : [c] ∈ one p := ⟨c, h, rfl⟩

theorem mem_one_star : w ∈ (one p)∗ ↔ ∀ c ∈ w, p c = true := by
  rw [Language.mem_kstar]
  constructor
  · rintro ⟨ws, rfl, hw⟩ c hc
    obtain ⟨u, hu, hc⟩ := List.mem_flatten.mp hc
    obtain ⟨d, hd, rfl⟩ := hw u hu
    rwa [List.mem_singleton.mp hc]
  · intro h
    refine ⟨w.map fun c => [c], (List.flatMap_singleton' w).symm, fun u hu => ?_⟩
    obtain ⟨c, hc, rfl⟩ := List.mem_map.mp hu
    exact mem_one (h c hc)

theorem mem_many_one : w ∈ many (one p) ↔ w ≠ [] ∧ ∀ c ∈ w, p c = true := by
  rw [many, Language.mem_mul]
  constructor
  · rintro ⟨_, ⟨c, hc, rfl⟩, v, hv, rfl⟩
    exact ⟨by simp, by simpa [hc] using mem_one_star.mp hv⟩
  · rintro ⟨hne, h⟩
    obtain ⟨c, cs, rfl⟩ := List.exists_cons_of_ne_nil hne
    exact ⟨[c], mem_one (h c (.head _)), cs, mem_one_star.mpr fun d hd => h d (.tail c hd), rfl⟩

theorem mem_optional {l : Language Char} : w ∈ optional l ↔ w = [] ∨ w ∈ l := Iff.rfl

theorem mem_words {ws : List String} : w ∈ words ws ↔ ∃ s ∈ ws, w = s.toList := Iff.rfl

theorem mem_word {s : String} : w ∈ word s ↔ w = s.toList := by
  rw [word, mem_words]
  simp

theorem run_front (h : ∀ c ∈ cs, p c = true) (hr : ∀ c ∈ rest.head?, p c = false) :
    run p (cs ++ rest) = cs.length := by
  cases rest with
  | nil => rw [List.append_nil, run_all h]
  | cons c rest => rw [run_append (hr c rfl), run_all h]

section Number

/-- Where an amount ends: neither a digit nor a point follows. -/
def EndsAmount (rest : Text) : Prop := ∀ c ∈ rest.head?, c.isDigit = false ∧ c ≠ '.'

instance : Decidable (EndsAmount rest) :=
  show Decidable (∀ c ∈ rest.head?, c.isDigit = false ∧ c ≠ '.') from Option.decidableForallMem _

theorem decimal_matched (h : w ∈ decimals) (hr : EndsAmount rest) :
    decimal (w ++ rest) = w.length := by
  obtain ⟨ds, hds, v, hv, rfl⟩ := Language.mem_mul.mp h
  obtain ⟨hne, hds⟩ := mem_many_one.mp hds
  obtain ⟨n, hn⟩ := Nat.exists_eq_succ_of_ne_zero (List.length_pos_iff.mpr hne).ne'
  rcases mem_optional.mp hv with rfl | hv
  · have hrun : run Char.isDigit (ds ++ rest) = ds.length := run_front hds fun c hc => (hr c hc).1
    rw [List.append_nil, decimal, hrun, List.drop_left, hn]
    cases rest with
    | nil => rfl
    | cons c rest => simp [(hr c rfl).2]
  · obtain ⟨point, hpoint, es, hes, rfl⟩ := Language.mem_mul.mp hv
    obtain rfl := mem_word.mp hpoint
    obtain ⟨hne', hes⟩ := mem_many_one.mp hes
    obtain ⟨m, hm⟩ := Nat.exists_eq_succ_of_ne_zero (List.length_pos_iff.mpr hne').ne'
    have hcut : ds ++ (".".toList ++ es) ++ rest = ds ++ '.' :: (es ++ rest) := by simp
    have hwhole : run Char.isDigit (ds ++ '.' :: (es ++ rest)) = ds.length := by
      refine run_front hds fun c hc => ?_
      obtain rfl : '.' = c := Option.some.inj hc
      rfl
    have hplaces : run Char.isDigit (es ++ rest) = es.length :=
      run_front hes fun c hc => (hr c hc).1
    rw [hcut, decimal, hwhole, List.drop_left, hn]
    simp only [hplaces, hm]
    simp [hn, hm]
    omega

theorem decimals_head (h : w ∈ decimals) : ∃ c cs, w = c :: cs ∧ c.isDigit = true := by
  obtain ⟨ds, hds, v, -, rfl⟩ := Language.mem_mul.mp h
  obtain ⟨hne, hds⟩ := mem_many_one.mp hds
  obtain ⟨c, cs, rfl⟩ := List.exists_cons_of_ne_nil hne
  exact ⟨c, cs ++ v, rfl, hds c (.head _)⟩

/-- What the scanner makes of a unit of time that an amount or nothing follows. -/
structure IsTimeUnit (u rest : Text) : Prop where
  ends : EndsAmount (u ++ rest)
  time : timeUnit (u ++ rest) = u.length
  size : sizeUnit (u ++ rest) = 0
  pos : 0 < u.length
  plain : ∀ xs, u ++ rest ≠ 'm' :: 'i' :: xs

theorem timeUnit_matched (h : w ∈ timeUnits) (hr : ∀ c ∈ rest.head?, c.isDigit = true) :
    IsTimeUnit w rest := by
  obtain ⟨unit, hunit, rfl⟩ := mem_words.mp h
  simp only [List.mem_cons, List.not_mem_nil, or_false] at hunit
  cases rest with
  | nil =>
    rcases hunit with rfl | rfl | rfl | rfl | rfl | rfl | rfl | rfl | rfl | rfl
    all_goals exact ⟨by decide, rfl, rfl, by decide, by simp⟩
  | cons d rest =>
    have hd : d.isDigit = true := hr d rfl
    have hs : d ≠ 's' := by
      rintro rfl
      cases hd
    have hi : d ≠ 'i' := by
      rintro rfl
      cases hd
    have hsign : isByteSign d = false := by
      unfold isByteSign
      split
      · cases hd
      · cases hd
      · rfl
    have hb : isByteSign 's' = false ∧ isByteSign 'm' = false := ⟨rfl, rfl⟩
    rcases hunit with rfl | rfl | rfl | rfl | rfl | rfl | rfl | rfl | rfl | rfl
    all_goals
      constructor
      · intro c hc
        obtain rfl := Option.some.inj hc
        decide
      · simp [timeUnit, hs]
      · simp [sizeUnit, hsign, hb, hi] <;> rfl
      · decide
      · simp [hi]

theorem amounts_unit {fuel : Nat} (hd : 0 < decimal cs)
    (hu : 0 < timeUnit (cs.drop (decimal cs))) :
    amounts (fuel + 1) cs =
      (amounts fuel (cs.drop (decimal cs + timeUnit (cs.drop (decimal cs))))).after
        (decimal cs + timeUnit (cs.drop (decimal cs))) := by
  rw [amounts]
  split
  · omega
  · split
    · omega
    · rfl

theorem after_after (n m : Nat) (s : Scan) : (s.after m).after n = s.after (n + m) := by
  simp only [Scan.after, Nat.add_assoc]

theorem amounts_spoilt {fuel : Nat} (hd : 0 < decimal cs)
    (hu : timeUnit (cs.drop (decimal cs)) = 0) :
    amounts (fuel + 1) cs = ⟨.unknown, decimal cs⟩ := by
  obtain ⟨n, hn⟩ := Nat.exists_eq_succ_of_ne_zero hd.ne'
  rw [hn] at hu
  simp [amounts, hn, hu]

/-- A row of amounts with their units is passed over as a whole. -/
theorem amounts_row {xs : List Text} (h : ∀ x ∈ xs, x ∈ decimals * timeUnits)
    (hr : ∀ c ∈ rest.head?, c.isDigit = true) {fuel : Nat}
    (hf : (xs.flatten ++ rest).length ≤ fuel) :
    (∀ c ∈ (xs.flatten ++ rest).head?, c.isDigit = true) ∧
      amounts fuel (xs.flatten ++ rest) = (amounts rest.length rest).after xs.flatten.length := by
  induction xs generalizing fuel with
  | nil =>
    refine ⟨hr, ?_⟩
    rw [List.flatten_nil, List.nil_append] at hf ⊢
    rw [amounts_fuel hf le_rfl, List.length_nil, Scan.after, Nat.zero_add]
  | cons x xs ih =>
    obtain ⟨a, ha, u, hu, rfl⟩ := Language.mem_mul.mp (h x (.head _))
    have hmore : ∀ x ∈ xs, x ∈ decimals * timeUnits := fun x hx => h x (.tail _ hx)
    have hunit : IsTimeUnit u (xs.flatten ++ rest) := timeUnit_matched hu (ih hmore le_rfl).1
    have hcut : ((a ++ u) :: xs).flatten ++ rest = a ++ (u ++ (xs.flatten ++ rest)) := by simp
    have hamount : decimal (a ++ (u ++ (xs.flatten ++ rest))) = a.length :=
      decimal_matched ha hunit.ends
    obtain ⟨c, cs, hc, hdigit⟩ := decimals_head ha
    have hpos : 0 < a.length := by simp [hc]
    have hlen : (a ++ (u ++ (xs.flatten ++ rest))).length =
        a.length + u.length + (xs.flatten ++ rest).length := by
      simp [Nat.add_assoc]
    have hwhole : ((a ++ u) :: xs).flatten.length = a.length + u.length + xs.flatten.length := by
      rw [List.flatten_cons, List.length_append, List.length_append]
    rw [hcut] at hf ⊢
    refine ⟨by simpa [hc] using hdigit, ?_⟩
    obtain ⟨n, rfl⟩ : ∃ n, fuel = n + 1 := Nat.exists_eq_succ_of_ne_zero (by omega)
    obtain ⟨-, hfound⟩ : _ ∧ amounts n (xs.flatten ++ rest) = _ := ih hmore (by omega)
    have hdrop : (a ++ (u ++ (xs.flatten ++ rest))).drop (a.length + u.length) =
        xs.flatten ++ rest := by
      rw [← List.append_assoc, ← List.length_append, List.drop_left]
    have htime : timeUnit ((a ++ (u ++ (xs.flatten ++ rest))).drop a.length) = u.length := by
      rw [List.drop_left, hunit.time]
    have hstep := @amounts_unit (a ++ (u ++ (xs.flatten ++ rest))) n
    rw [hamount, htime, hdrop, hfound] at hstep
    rw [hstep hpos hunit.pos, after_after, hwhole]

theorem number_matched (h : w ∈ decimals) : scanNumber w = ⟨.number, w.length⟩ := by
  have hd : decimal w = w.length := by
    have h : decimal (w ++ []) = w.length := decimal_matched h (by decide)
    rwa [List.append_nil] at h
  have hdrop : w.drop (decimal w) = [] := by rw [hd, List.drop_length]
  rw [scanNumber_plain (by rw [hdrop]; rfl) (by rw [hdrop]; rfl), hd]

/-- A duration is read to its end, and on into the digits behind it. -/
theorem scanNumber_row (h : w ∈ many (decimals * timeUnits))
    (hr : ∀ c ∈ rest.head?, c.isDigit = true) :
    scanNumber (w ++ rest) = (amounts rest.length rest).after w.length := by
  obtain ⟨x, hx, v, hv, rfl⟩ := Language.mem_mul.mp h
  obtain ⟨a, ha, u, hu, rfl⟩ := Language.mem_mul.mp hx
  obtain ⟨xs, rfl, hxs⟩ := Language.mem_kstar.mp hv
  obtain ⟨hhead, -⟩ := amounts_row hxs hr le_rfl
  have hunit : IsTimeUnit u (xs.flatten ++ rest) := timeUnit_matched hu hhead
  have hcut : a ++ u ++ xs.flatten ++ rest = a ++ (u ++ (xs.flatten ++ rest)) := by simp
  have hamount : decimal (a ++ (u ++ (xs.flatten ++ rest))) = a.length :=
    decimal_matched ha hunit.ends
  have hdrop : (a ++ (u ++ (xs.flatten ++ rest))).drop (a.length + u.length) =
      xs.flatten ++ rest := by
    rw [← List.append_assoc, ← List.length_append, List.drop_left]
  have hwhole : (a ++ u ++ xs.flatten).length = a.length + u.length + xs.flatten.length := by
    rw [List.length_append, List.length_append]
  obtain ⟨-, hfound⟩ : _ ∧ amounts (a ++ (u ++ (xs.flatten ++ rest))).length
      (xs.flatten ++ rest) = _ := amounts_row hxs hr (by simp only [List.length_append]; omega)
  obtain ⟨n, hn⟩ := Nat.exists_eq_succ_of_ne_zero hunit.pos.ne'
  rw [hcut, scanNumber_time (u := n)] <;> rw [hamount]
  · rw [← Nat.succ_eq_add_one, ← hn, hdrop, hfound, after_after, hwhole]
  · rw [List.drop_left, hunit.size]
  · rw [List.drop_left, hunit.time, hn]
  · rw [List.drop_left]
    exact hunit.plain

theorem duration_matched (h : w ∈ many (decimals * timeUnits)) :
    scanNumber w = ⟨.duration, w.length⟩ := by
  have hrow : scanNumber (w ++ []) = _ := scanNumber_row h (by rintro c ⟨⟩)
  rwa [List.append_nil] at hrow

/-- Every unit of size is taken whole, and it ends the digits before it. -/
theorem sizeUnit_matched (h : w ∈ sizeUnits) :
    EndsAmount w ∧ sizeUnit w = w.length ∧ 0 < w.length := by
  obtain ⟨v, hv, _, ⟨b, hb, rfl⟩, rfl⟩ := Language.mem_mul.mp h
  have hsign : b = 'b' ∨ b = 'B' := by simpa using hb
  rcases mem_optional.mp hv with rfl | hv
  · rcases hsign with rfl | rfl <;> decide
  · obtain ⟨_, ⟨m, hm, rfl⟩, i, hi, rfl⟩ := Language.mem_mul.mp hv
    have hmult : m ∈ "kKmMgGtTpPeE".toList := by simpa using hm
    have hall : ∀ w ∈ "kKmMgGtTpPeE".toList.flatMap fun m =>
        [[m, 'b'], [m, 'B'], [m, 'i', 'b'], [m, 'i', 'B']],
        EndsAmount w ∧ sizeUnit w = w.length ∧ 0 < w.length := by decide
    refine hall _ (List.mem_flatMap.mpr ⟨m, hmult, ?_⟩)
    rcases mem_optional.mp hi with rfl | hi
    · rcases hsign with rfl | rfl <;> simp
    · obtain rfl := mem_word.mp hi
      rcases hsign with rfl | rfl <;> simp

theorem bytes_matched (h : w ∈ decimals * sizeUnits) : scanNumber w = ⟨.bytes, w.length⟩ := by
  obtain ⟨a, ha, u, hu, rfl⟩ := Language.mem_mul.mp h
  obtain ⟨hends, hsize, hpos⟩ := sizeUnit_matched hu
  have hamount : decimal (a ++ u) = a.length := decimal_matched ha hends
  obtain ⟨n, hn⟩ := Nat.exists_eq_succ_of_ne_zero hpos.ne'
  rw [scanNumber_size (b := n)] <;> rw [hamount]
  · rw [List.length_append, hn]
  · rw [List.drop_left, hsize, hn]

end Number

theorem digit_code (h : c.isDigit = true) : c.toNat ≤ 57 :=
  UInt32.le_iff_toNat_le.mp (of_decide_eq_true (Bool.and_eq_true_iff.mp h).2)

theorem name_code (h : isNameStart c = true) : 65 ≤ c.toNat := by
  rcases Bool.or_eq_true_iff.mp h with h | h
  · rcases Bool.or_eq_true_iff.mp h with h | h
    · exact UInt32.le_iff_toNat_le.mp (of_decide_eq_true h).1
    · have hlow : 97 ≤ c.toNat :=
        UInt32.le_iff_toNat_le.mp (of_decide_eq_true (Bool.and_eq_true_iff.mp h).1)
      omega
  · obtain rfl := of_decide_eq_true h
    decide

theorem digit_plain (h : c.isDigit = true) : isBlank c = false ∧ isNameStart c = false := by
  constructor
  · by_contra hb
    rcases isBlank_cases (by simpa using hb) with rfl | rfl | rfl | rfl <;> cases h
  · by_contra hn
    have hdigit : c.toNat ≤ 57 := digit_code h
    have hname : 65 ≤ c.toNat := name_code (by simpa using hn)
    omega

/-- A scan that takes a text whole. -/
def Takes (k : Kind) (w : Text) : Prop := ∃ c cs, w = c :: cs ∧ scan c cs = ⟨k, cs.length⟩

theorem scan_digit (hd : c.isDigit = true) (cs : Text) :
    scan c cs = ⟨(scanNumber (c :: cs)).kind, (scanNumber (c :: cs)).more - 1⟩ := by
  obtain ⟨hb, hn⟩ := digit_plain hd
  simp [scan, hb, hn, hd]

theorem takes_number (h : ∃ c cs, w = c :: cs ∧ c.isDigit = true)
    (hs : scanNumber w = ⟨k, w.length⟩) : Takes k w := by
  obtain ⟨c, cs, rfl, hd⟩ := h
  refine ⟨c, cs, rfl, ?_⟩
  rw [scan_digit hd, hs]
  rfl

theorem amount_head {l : Language Char} (h : w ∈ decimals * l) :
    ∃ c cs, w = c :: cs ∧ c.isDigit = true := by
  obtain ⟨a, ha, v, -, rfl⟩ := Language.mem_mul.mp h
  obtain ⟨c, cs, rfl, hd⟩ := decimals_head ha
  exact ⟨c, cs ++ v, rfl, hd⟩

theorem many_head {l : Language Char} (h : w ∈ many (decimals * l)) :
    ∃ c cs, w = c :: cs ∧ c.isDigit = true := by
  rw [many, mul_assoc] at h
  exact amount_head h

theorem takes_blanks (h : w ∈ pattern .whitespace) : Takes .whitespace w := by
  obtain ⟨hne, hall⟩ := mem_many_one.mp h
  have hblank : ∀ c ∈ w, isBlank c = true := by
    intro c hc
    have hcases : c = ' ' ∨ c = '\t' ∨ c = '\r' ∨ c = '\n' := by simpa using hall c hc
    rcases hcases with rfl | rfl | rfl | rfl <;> rfl
  obtain ⟨c, cs, rfl⟩ := List.exists_cons_of_ne_nil hne
  refine ⟨c, cs, rfl, ?_⟩
  rw [scan_blank (hblank c (.head _)), run_all fun d hd => hblank d (.tail c hd)]

theorem takes_comment (h : w ∈ pattern .comment) : Takes .comment w := by
  obtain ⟨v, hv, cs, hcs, rfl⟩ := Language.mem_mul.mp h
  obtain rfl := mem_word.mp hv
  refine ⟨'#', cs, rfl, ?_⟩
  show (⟨.comment, run (· ≠ '\n') cs⟩ : Scan) = _
  rw [run_all (mem_one_star.mp hcs)]

theorem takes_name (h : w ∈ pattern .identifier) : Takes .identifier w := by
  obtain ⟨_, ⟨c, hc, rfl⟩, cs, hcs, rfl⟩ := Language.mem_mul.mp h
  have hn : isNameStart c = true := hc
  have hall : ∀ d ∈ cs, isNamePart d = true := mem_one_star.mp hcs
  refine ⟨c, cs, rfl, ?_⟩
  simp [scan, name_plain hn, hn, run_all hall]

theorem takes_flag (h : w ∈ pattern .parserFlag) : Takes .parserFlag w := by
  obtain ⟨v, hv, cs, hcs, rfl⟩ := Language.mem_mul.mp h
  obtain ⟨dashes, hdashes, _, ⟨c, hc, rfl⟩, rfl⟩ := Language.mem_mul.mp hv
  obtain rfl := mem_word.mp hdashes
  have hall : ∀ d ∈ cs, isFlagPart d = true := mem_one_star.mp hcs
  refine ⟨'-', '-' :: c :: cs, rfl, ?_⟩
  rw [scan_dash]
  simp [hc, run_all hall, Nat.add_comm 2]

/-- A part of a quoted string is passed over as one. -/
theorem scanQuoted_part (h : w ∈ quotedPart) (rest : Text) :
    scanQuoted (w ++ rest) = (scanQuoted rest).after w.length := by
  rcases (Language.mem_add _ _ _).mp h with ⟨c, hc, rfl⟩ | h
  · have hc : c ≠ '"' ∧ c ≠ '\\' := by simpa using hc
    exact scanQuoted.eq_6 _ _ hc.1 (fun h _ => hc.2 h) (fun _ h _ => hc.2 h) fun _ _ h _ => hc.2 h
  · obtain ⟨v, hv, _, ⟨c, hc, rfl⟩, rfl⟩ := Language.mem_mul.mp h
    obtain rfl := mem_word.mp hv
    exact scanQuoted.eq_5 _ _ (by simpa using hc)

theorem scanQuoted_parts {ws : List Text} (h : ∀ w ∈ ws, w ∈ quotedPart) :
    scanQuoted (ws.flatten ++ ['"']) = ⟨.string, ws.flatten.length + 1⟩ := by
  induction ws with
  | nil => rfl
  | cons w ws ih =>
    rw [List.flatten_cons, List.append_assoc, scanQuoted_part (h w (.head _)),
      ih fun u hu => h u (.tail w hu), Scan.after, List.length_append, Nat.add_assoc]

theorem takes_quoted (h : w ∈ word "\"" * quotedPart∗ * word "\"") : Takes .string w := by
  obtain ⟨v, hv, last, hlast, rfl⟩ := Language.mem_mul.mp h
  obtain ⟨first, hfirst, body, hbody, rfl⟩ := Language.mem_mul.mp hv
  obtain ⟨ws, rfl, hws⟩ := Language.mem_kstar.mp hbody
  obtain rfl := mem_word.mp hfirst
  obtain rfl := mem_word.mp hlast
  refine ⟨'"', ws.flatten ++ ['"'], rfl, ?_⟩
  show scanQuoted _ = _
  rw [scanQuoted_parts hws, List.length_append, List.length_singleton]

theorem takes_raw (h : w ∈ word "\x60" * (one (· ≠ '\x60'))∗ * word "\x60") :
    Takes .string w := by
  obtain ⟨v, hv, last, hlast, rfl⟩ := Language.mem_mul.mp h
  obtain ⟨first, hfirst, body, hbody, rfl⟩ := Language.mem_mul.mp hv
  obtain rfl := mem_word.mp hfirst
  obtain rfl := mem_word.mp hlast
  have hclosed : '\x60' ∉ body := fun hm => by simpa using mem_one_star.mp hbody _ hm
  refine ⟨'\x60', body ++ ['\x60'], rfl, ?_⟩
  show scanRaw _ = _
  rw [scanRaw_closed hclosed, List.length_append, List.length_singleton]

theorem takes_spelling {s : String} (h : (k, s) ∈ spellings) : Takes k s.toList := by
  have hall : ∀ p ∈ spellings, (p.2.toList.head?.any fun c =>
      scan c p.2.toList.tail = ⟨p.1, p.2.toList.tail.length⟩) = true := by decide +kernel
  obtain ⟨c, hc, hs⟩ := Option.any_eq_true _ _ |>.mp (hall _ h)
  exact ⟨c, _, (List.cons_head?_tail hc).symm, of_decide_eq_true hs⟩

/-- A text of the pattern of a kind is taken whole, as a token of that kind. -/
theorem takes_pattern (h : w ∈ pattern k) : Takes k w := by
  revert h
  fun_cases pattern k with
  | case1 => exact takes_blanks
  | case2 => exact takes_comment
  | case3 => exact takes_name
  | case4 =>
    intro h
    exact ((Language.mem_add _ _ _).mp h).elim takes_quoted takes_raw
  | case5 => exact fun h => takes_number (decimals_head h) (number_matched h)
  | case6 => exact fun h => takes_number (many_head h) (duration_matched h)
  | case7 => exact fun h => takes_number (amount_head h) (bytes_matched h)
  | case8 => exact takes_flag
  | case9 =>
    rintro ⟨s, hs, rfl⟩
    exact takes_spelling hs

end LogQuery.Token
