import Mathlib.Data.List.TakeWhile
import LogQuery.Proofs.Token.Lossless

/-! A blank ends every token but a comment: what is read before a blank does not depend on what
follows it. -/
namespace LogQuery.Token

variable {b c : Char} {cs : Text} {p : Char → Bool}

theorem isBlank_cases (h : isBlank b = true) : b = ' ' ∨ b = '\t' ∨ b = '\r' ∨ b = '\n' := by
  unfold isBlank at h
  split at h <;> simp_all

theorem name_plain (h : isNameStart b = true) : isBlank b = false := by
  by_contra hb
  rcases isBlank_cases (by simpa using hb) with rfl | rfl | rfl | rfl <;> cases h

theorem isNamePart_blank (h : isBlank b = true) : isNamePart b = false := by
  rcases isBlank_cases h with rfl | rfl | rfl | rfl <;> decide

theorem isFlagPart_blank (h : isBlank b = true) : isFlagPart b = false := by
  rcases isBlank_cases h with rfl | rfl | rfl | rfl <;> decide

/-- Characters that are in no number: blanks and closing braces. -/
def isApart (b : Char) : Bool := isBlank b || b = '}'

theorem isApart_blank (h : isBlank b = true) : isApart b = true := by
  rw [isApart, h, Bool.true_or]

theorem isApart_cases (h : isApart b = true) :
    b = ' ' ∨ b = '\t' ∨ b = '\r' ∨ b = '\n' ∨ b = '}' := by
  rcases Bool.or_eq_true_iff.mp h with h | h
  · rcases isBlank_cases h with rfl | rfl | rfl | rfl <;> simp
  · obtain rfl := of_decide_eq_true h
    simp

theorem isDigit_apart (h : isApart b = true) : b.isDigit = false := by
  rcases isApart_cases h with rfl | rfl | rfl | rfl | rfl <;> decide

theorem isByteSign_apart (h : isApart b = true) : isByteSign b = false := by
  rcases isApart_cases h with rfl | rfl | rfl | rfl | rfl <;> decide

theorem isMultiple_apart (h : isApart b = true) : isMultiple b = false := by
  rcases isApart_cases h with rfl | rfl | rfl | rfl | rfl <;> decide

theorem run_le (p : Char → Bool) (cs : Text) : run p cs ≤ cs.length :=
  (List.takeWhile_sublist p).length_le

theorem run_append (hb : p b = false) (cs rest : Text) : run p (cs ++ b :: rest) = run p cs := by
  induction cs with
  | nil => simp [run, hb]
  | cons c cs ih =>
    simp only [run, List.cons_append, List.takeWhile_cons] at ih ⊢
    split
    · simp [ih]
    · rfl

theorem decimal_le (cs : Text) : decimal cs ≤ cs.length := by
  have hr := run_le Char.isDigit cs
  unfold decimal
  split
  · omega
  · next more hd _ =>
    have hl : (cs.drop (run Char.isDigit cs)).length = more.length + 1 := by rw [hd]; rfl
    rw [List.length_drop] at hl
    have hm := run_le Char.isDigit more
    split
    · exact hr
    · omega
  · exact hr

theorem decimal_append (hb : isApart b = true) (cs rest : Text) :
    decimal (cs ++ b :: rest) = decimal cs := by
  have hd := isDigit_apart hb
  have hr := run_append (p := Char.isDigit) hd
  have hl : (cs ++ b :: rest).drop (run Char.isDigit cs) =
      cs.drop (run Char.isDigit cs) ++ b :: rest :=
    List.drop_append_of_le_length (run_le _ _)
  have hdot : b ≠ '.' := by
    rintro rfl
    cases hb
  unfold decimal
  rw [hr, hl]
  generalize run Char.isDigit cs = whole
  cases whole with
  | zero => rfl
  | succ whole =>
    cases cs.drop (whole + 1) with
    | nil => simp [hdot]
    | cons c more =>
      by_cases hc : c = '.'
      · subst hc
        simp only [List.cons_append, hr]
      · simp [hc]

/-- Two characters tell a unit of time. -/
theorem timeUnit_cons (a c : Char) (xs ys : Text) :
    timeUnit (a :: c :: xs) = timeUnit (a :: c :: ys) := by
  unfold timeUnit
  split <;> injections <;> subst_vars <;> simp_all

/-- Three characters tell a unit of size. -/
theorem sizeUnit_cons (a c d : Char) (xs ys : Text) :
    sizeUnit (a :: c :: d :: xs) = sizeUnit (a :: c :: d :: ys) := by
  unfold sizeUnit
  split <;> injections <;> subst_vars <;> simp_all

theorem timeUnit_le (cs : Text) : timeUnit cs ≤ cs.length := by
  unfold timeUnit
  split <;> simp

theorem timeUnit_append (hb : isApart b = true) (cs rest : Text) :
    timeUnit (cs ++ b :: rest) = timeUnit cs := by
  rcases cs with _ | ⟨a, _ | ⟨c, cs⟩⟩
  · rcases isApart_cases hb with rfl | rfl | rfl | rfl | rfl <;> rfl
  · have hs : b ≠ 's' := by
      rintro rfl
      cases hb
    unfold timeUnit
    split <;> simp_all
  · exact timeUnit_cons a c _ cs

theorem sizeUnit_append (hb : isApart b = true) (cs rest : Text) :
    sizeUnit (cs ++ b :: rest) = sizeUnit cs := by
  have hm := isMultiple_apart hb
  have hs := isByteSign_apart hb
  have hi : b ≠ 'i' := by
    rintro rfl
    cases hb
  rcases cs with _ | ⟨a, _ | ⟨c, _ | ⟨d, cs⟩⟩⟩
  · cases rest with
    | nil => simp [sizeUnit, hs]
    | cons c rest =>
      unfold sizeUnit
      split <;> simp_all
  · unfold sizeUnit
    split <;> simp_all
  · have hsign : isByteSign 'i' = false := rfl
    unfold sizeUnit
    split <;> simp_all
  · exact sizeUnit_cons a c d _ cs

theorem amounts_append (hb : isApart b = true) (fuel : Nat) (cs rest : Text) :
    amounts fuel (cs ++ b :: rest) = amounts fuel cs := by
  induction fuel generalizing cs with
  | zero => rfl
  | succ fuel ih =>
    have hd := decimal_le cs
    rw [amounts, amounts, decimal_append hb]
    generalize decimal cs = d at hd
    cases d with
    | zero => rfl
    | succ d =>
      have hu := timeUnit_le (cs.drop (d + 1))
      rw [List.length_drop] at hu
      simp only [List.drop_append_of_le_length hd, timeUnit_append hb]
      generalize timeUnit (cs.drop (d + 1)) = u at hu
      cases u with
      | zero => rfl
      | succ u =>
        have hl : d + 1 + (u + 1) ≤ cs.length := by omega
        simp only [List.drop_append_of_le_length hl, ih]

/-- More fuel than characters changes nothing. -/
theorem amounts_fuel {n m : Nat} (hn : cs.length ≤ n) (hm : cs.length ≤ m) :
    amounts n cs = amounts m cs := by
  induction n generalizing m cs with
  | zero =>
    obtain rfl : cs = [] := List.length_eq_zero_iff.mp (by omega)
    cases m <;> rfl
  | succ n ih =>
    cases m with
    | zero =>
      obtain rfl : cs = [] := List.length_eq_zero_iff.mp (by omega)
      rfl
    | succ m =>
      rw [amounts, amounts]
      split
      · rfl
      · next hd =>
        split
        · rfl
        · have hpos : 0 < decimal cs := Nat.pos_of_ne_zero hd
          rw [ih] <;> (rw [List.length_drop]; omega)

theorem scanNumber_append (hb : isApart b = true) (cs rest : Text) :
    scanNumber (cs ++ b :: rest) = scanNumber cs := by
  have hi : b ≠ 'i' := by
    rintro rfl
    cases hb
  have hd := decimal_le cs
  have hu := timeUnit_le (cs.drop (decimal cs))
  rw [List.length_drop] at hu
  simp only [scanNumber, decimal_append hb, List.drop_append_of_le_length hd, sizeUnit_append hb,
    timeUnit_append hb]
  have hmore : ∀ n, n ≤ cs.length → amounts (cs ++ b :: rest).length
      ((cs ++ b :: rest).drop n) = amounts cs.length (cs.drop n) := by
    intro n hn
    rw [List.drop_append_of_le_length hn, amounts_append hb]
    exact amounts_fuel (by simp; omega) (by simp)
  generalize decimal cs = d at hd hu
  generalize sizeUnit (cs.drop d) = s
  generalize hv : timeUnit (cs.drop d) = u at hu
  cases s with
  | succ s => rfl
  | zero =>
    rcases u with _ | _ | u
    · rfl
    · have h := hmore (d + 1) (by omega)
      rcases hx : cs.drop d with _ | ⟨a, _ | ⟨c, xs⟩⟩
      · rw [hx] at hv
        cases hv
      · simp [hi, h, -List.length_append]
      · by_cases hc : a = 'm' ∧ c = 'i'
        · obtain ⟨rfl, rfl⟩ := hc
          rfl
        · simp_all
    · simp only [hmore (d + (u + 1 + 1)) (by omega)]

theorem sizeUnit_le (cs : Text) : sizeUnit cs ≤ cs.length := by
  unfold sizeUnit
  split
  · split_ifs <;> simp
  · split_ifs <;> simp
  · split_ifs <;> simp
  · simp

theorem amounts_le (fuel : Nat) (cs : Text) : (amounts fuel cs).more ≤ cs.length := by
  induction fuel generalizing cs with
  | zero => simp [amounts]
  | succ fuel ih =>
    have hd := decimal_le cs
    have hu := timeUnit_le (cs.drop (decimal cs))
    rw [List.length_drop] at hu
    unfold amounts
    split
    · simp
    · split
      · exact hd
      · have := ih (cs.drop (decimal cs + timeUnit (cs.drop (decimal cs))))
        rw [List.length_drop] at this
        simp only [Scan.after]
        omega

theorem scanNumber_le (cs : Text) : (scanNumber cs).more ≤ cs.length := by
  have hd := decimal_le cs
  have hs := sizeUnit_le (cs.drop (decimal cs))
  have hu := timeUnit_le (cs.drop (decimal cs))
  rw [List.length_drop] at hs hu
  unfold scanNumber
  dsimp only
  split
  · exact hd
  · next hv _ =>
    simp only
    omega
  · have := amounts_le cs.length (cs.drop (decimal cs + timeUnit (cs.drop (decimal cs))))
    rw [List.length_drop] at this
    simp only [Scan.after]
    omega
  · simp only
    omega

theorem scanQuoted_le (cs : Text) : (scanQuoted cs).more ≤ cs.length := by
  fun_induction scanQuoted cs <;> simp_all [Scan.after] <;> omega

theorem scanRaw_le (cs : Text) : (scanRaw cs).more ≤ cs.length := by
  fun_induction scanRaw cs <;> simp_all [Scan.after]
  omega

theorem scan_le (c : Char) (cs : Text) : (scan c cs).more ≤ cs.length := by
  unfold scan
  split_ifs
  · exact run_le _ _
  · exact run_le _ _
  · have := scanNumber_le (c :: cs)
    simp only [List.length_cons] at this ⊢
    omega
  · split
    · exact run_le _ _
    · exact scanQuoted_le cs
    · exact scanRaw_le cs
    · next d ds _ _ _ =>
      split
      · have := run_le isFlagPart ds
        simp only [List.length_cons]
        omega
      · simp
    all_goals simp

/-- A string that is closed is not read any further. -/
theorem scanQuoted_append (h : (scanQuoted cs).kind ≠ .unknown) (rest : Text) :
    scanQuoted (cs ++ rest) = scanQuoted cs := by
  fun_induction scanQuoted cs with
  | case6 c cs hq he hn hp ih =>
    have hc : c ≠ '\\' := by
      rintro rfl
      cases cs with
      | nil => exact he rfl rfl
      | cons d ds => exact hp _ _ rfl rfl
    simp_all [scanQuoted, Scan.after]
  | _ => simp_all [scanQuoted, Scan.after]

theorem scanRaw_append (h : (scanRaw cs).kind ≠ .unknown) (rest : Text) :
    scanRaw (cs ++ rest) = scanRaw cs := by
  fun_induction scanRaw cs <;> simp_all [scanRaw, Scan.after]

/-- The kinds of blanks, and of what goes on or may change when more text follows. -/
def openKinds : List Kind := [.whitespace, .comment, .unknown]

theorem scan_dash (cs : Text) : scan '-' cs =
    match cs with
    | '-' :: d :: ds => if d.isAlpha then ⟨.parserFlag, 2 + run isFlagPart ds⟩ else ⟨.sub, 0⟩
    | _ => ⟨.sub, 0⟩ := by
  unfold scan
  have hb : isBlank '-' = false := rfl
  have hn : isNameStart '-' = false := rfl
  have hd : '-'.isDigit = false := rfl
  simp only [hb, hn, hd, Bool.false_eq_true, if_false]
  split <;> simp_all

theorem scan_dash_append (hb : isBlank b = true) (cs rest : Text) :
    scan '-' (cs ++ b :: rest) = scan '-' cs := by
  have halpha : b.isAlpha = false := by
    rcases isBlank_cases hb with rfl | rfl | rfl | rfl <;> decide
  have hdash : b ≠ '-' := by
    rintro rfl
    cases hb
  have hf := run_append (isFlagPart_blank hb)
  rw [scan_dash, scan_dash]
  rcases cs with _ | ⟨d, _ | ⟨e, ds⟩⟩
  · simp [hdash]
  · by_cases hd : d = '-' <;> simp [hd, halpha]
  · by_cases hd : d = '-' <;> simp [hd, hf]

theorem scan_append (hb : isBlank b = true) (hk : (scan c cs).kind ∉ openKinds) (rest : Text) :
    scan c (cs ++ b :: rest) = scan c cs := by
  by_cases hdash : c = '-'
  · subst hdash
    exact scan_dash_append hb cs rest
  unfold scan at hk ⊢
  split_ifs at hk ⊢
  · simp [openKinds] at hk
  · rw [run_append (isNamePart_blank hb)]
  · rw [← List.cons_append, scanNumber_append (isApart_blank hb)]
  · rcases cs with _ | ⟨d, ds⟩
    · have h : b ≠ '=' ∧ b ≠ '~' ∧ b ≠ '>' := by
        rcases isBlank_cases hb with rfl | rfl | rfl | rfl <;> decide
      split at hk <;> simp_all [openKinds, scanQuoted, scanRaw]
    · have hq (h : (scanQuoted (d :: ds)).kind ≠ .unknown) :
          scanQuoted (d :: (ds ++ b :: rest)) = scanQuoted (d :: ds) := scanQuoted_append h _
      have hr (h : (scanRaw (d :: ds)).kind ≠ .unknown) :
          scanRaw (d :: (ds ++ b :: rest)) = scanRaw (d :: ds) := scanRaw_append h _
      split at hk <;> simp_all [openKinds]

variable {t : Token} {bs rest : Text}

/-- Where a text ends, or has a blank. -/
def AtBlank (cs : Text) : Prop := ∀ b ∈ cs.head?, isBlank b = true

/-- A token that is read from its own text, whatever blank comes after it. -/
structure Whole (t : Token) : Prop where
  lexes : lex t.text = [t]
  closed : t.kind ∉ openKinds

theorem whole_text (h : t.Whole) : ∃ c cs, t.text = c :: cs :=
  List.exists_cons_of_ne_nil (lex_text_ne_nil (by rw [h.lexes]; exact .head _))

theorem lex_append (h : t.Whole) (hr : AtBlank rest) :
    lex (t.text ++ rest) = t :: lex rest := by
  cases rest with
  | nil =>
    rw [List.append_nil, h.lexes]
    rfl
  | cons b rest =>
    obtain ⟨c, cs, hx⟩ := whole_text h
    obtain ⟨ht, hn⟩ : ⟨(scan c cs).kind, c :: cs.take (scan c cs).more⟩ = t ∧
        lex (cs.drop (scan c cs).more) = [] := by
      have hl := h.lexes
      rwa [hx, lex_cons, List.cons.injEq] at hl
    have hk : (scan c cs).kind ∉ openKinds := by
      have hc := h.closed
      rwa [← ht] at hc
    have hl : (scan c cs).more = cs.length := by
      have hd := lex_text (cs.drop (scan c cs).more)
      rw [hn] at hd
      have hle := scan_le c cs
      have := List.drop_eq_nil_iff.mp hd.symm
      omega
    have hs := scan_append (hr b rfl) hk rest
    rw [hx, List.cons_append, lex_cons, hs, hl, List.drop_left, List.take_left]
    rw [hl, List.take_length] at ht
    rw [ht]

theorem run_all (h : ∀ b ∈ cs, p b = true) : run p cs = cs.length := by
  rw [run, List.takeWhile_eq_self_iff.mpr h]

theorem scan_blank (hb : isBlank b = true) (cs : Text) :
    scan b cs = ⟨.whitespace, run isBlank cs⟩ := by
  unfold scan
  rw [if_pos hb]

/-- Blanks up to something else are one token. -/
theorem lex_blanks (hb : isBlank b = true) (hbs : ∀ b ∈ bs, isBlank b = true)
    (hr : ∀ c ∈ rest.head?, isBlank c = false) :
    lex (b :: bs ++ rest) = ⟨.whitespace, b :: bs⟩ :: lex rest := by
  have hrun : run isBlank (bs ++ rest) = bs.length := by
    cases rest with
    | nil => rw [List.append_nil, run_all hbs]
    | cons c rest => rw [run_append (hr c rfl), run_all hbs]
  rw [List.cons_append, lex_cons, scan_blank hb, hrun, List.drop_left, List.take_left]

theorem whole_not_blank (h : t.Whole) (rest : Text) :
    ∀ c ∈ (t.text ++ rest).head?, isBlank c = false := by
  obtain ⟨c, cs, hx⟩ := whole_text h
  intro d hd
  obtain rfl : c = d := by simpa [hx] using hd
  by_contra hb
  have hl := h.lexes
  rw [hx, lex_cons, scan_blank (by simpa using hb), List.cons.injEq] at hl
  exact h.closed (by rw [← hl.1]; exact .head _)

theorem whole_significant (h : t.Whole) : t.isTrivia = false := by
  have hc := h.closed
  cases hk : t.kind <;> simp_all [openKinds, isTrivia, Kind.isTrivia]

/-- A single blank. -/
def blank : Token := ⟨.whitespace, [' ']⟩

/-- Tokens printed with a blank between them. -/
def spaced (ts : List Token) : Text := Text.join [' '] (ts.map text)

theorem join_cons (separator t : Text) (ts : List Text) :
    Text.join separator (t :: ts) = t ++ ts.flatMap fun u => separator ++ u := by
  induction ts generalizing t with
  | nil => simp [Text.join]
  | cons u us ih => simp [Text.join, ih u]

theorem spaced_cons (t : Token) (ts : List Token) :
    spaced (t :: ts) = t.text ++ ts.flatMap fun u => ' ' :: u.text := by
  rw [spaced, List.map_cons, join_cons, List.flatMap_map]
  rfl

theorem significant_cons (h : t.isTrivia = false) (ts : List Token) :
    significant (t :: ts) = t :: significant ts := by
  simp [significant, h]

theorem significant_blank (x : Text) (ts : List Token) :
    significant (⟨.whitespace, x⟩ :: ts) = significant ts := by
  simp [significant, isTrivia, Kind.isTrivia]

theorem atBlank_trail (ts : List Token) : AtBlank (ts.flatMap fun u => ' ' :: u.text) := by
  cases ts <;> simp [AtBlank, isBlank]

/-- Each token with a blank in front is read back with its blank. -/
theorem lex_trail {ts : List Token} (h : ∀ t ∈ ts, t.Whole) :
    lex (ts.flatMap fun u => ' ' :: u.text) = ts.flatMap fun u => [blank, u] := by
  induction ts with
  | nil => rfl
  | cons t ts ih =>
    have ht : t.Whole := h t (.head _)
    have hb : lex ([' '] ++ (t.text ++ ts.flatMap fun u => ' ' :: u.text)) = _ :=
      lex_blanks rfl (by simp) (whole_not_blank ht _)
    rw [List.flatMap_cons, List.cons_append, ← List.singleton_append, hb,
      lex_append ht (atBlank_trail ts), ih fun u hu => h u (.tail _ hu)]
    rfl

theorem significant_trail {ts : List Token} (h : ∀ t ∈ ts, t.Whole) :
    significant (ts.flatMap fun u => [blank, u]) = ts := by
  induction ts with
  | nil => rfl
  | cons t ts ih =>
    have ht : t.Whole := h t (.head _)
    rw [List.flatMap_cons, List.cons_append, blank, significant_blank, List.singleton_append,
      significant_cons (whole_significant ht), ← blank, ih fun u hu => h u (.tail _ hu)]

theorem lex_spaced {t : Token} {ts : List Token} (h : ∀ u ∈ t :: ts, u.Whole) :
    lex (spaced (t :: ts)) = t :: ts.flatMap fun u => [blank, u] := by
  rw [spaced_cons, lex_append (h t (.head _)) (atBlank_trail ts),
    lex_trail fun u hu => h u (.tail _ hu)]

/-- What is printed with blanks is read back, and the blanks are all that comes to it. -/
theorem significant_spaced {ts : List Token} (h : ∀ t ∈ ts, t.Whole) :
    significant (lex (spaced ts)) = ts := by
  cases ts with
  | nil => rfl
  | cons t ts =>
    rw [lex_spaced h, significant_cons (whole_significant (h t (.head _))),
      significant_trail fun u hu => h u (.tail _ hu)]

end LogQuery.Token
