import LogQuery.Proofs.Token.Spaced

/-! A text cut at the end of a token is lexed as before up to the cut. There is one exception: a
minute sign that a number kept because of the `i` behind it makes a duration once the `i` is
gone. -/
namespace LogQuery.Token

variable {c : Char} {cs rest v : Text} {p : Char → Bool} {t u : Token} {ts us : List Token}

theorem run_cut (h : run p (cs ++ rest) ≤ cs.length) : run p (cs ++ rest) = run p cs := by
  rw [run, List.takeWhile_append] at h ⊢
  split at h
  · next hall =>
    rw [if_pos hall, run, hall]
    rw [List.length_append] at h ⊢
    omega
  · next hall => rw [if_neg hall, run]

theorem run_whole (h : run p cs = cs.length) : ∀ c ∈ cs, p c = true :=
  List.takeWhile_eq_self_iff.mp ((List.takeWhile_prefix p).eq_of_length h)

theorem run_le_decimal (cs : Text) : run Char.isDigit cs ≤ decimal cs := by
  unfold decimal
  split
  · omega
  · split <;> omega
  · omega

theorem decimal_cut (h : decimal (cs ++ rest) ≤ cs.length) :
    decimal (cs ++ rest) = decimal cs := by
  have hrun : run Char.isDigit (cs ++ rest) = run Char.isDigit cs :=
    run_cut ((run_le_decimal _).trans h)
  have hle := run_le Char.isDigit cs
  have hdrop : (cs ++ rest).drop (run Char.isDigit cs) = cs.drop (run Char.isDigit cs) ++ rest :=
    List.drop_append_of_le_length hle
  have hlen : (cs.drop (run Char.isDigit cs)).length = cs.length - run Char.isDigit cs :=
    List.length_drop
  unfold decimal at h ⊢
  rw [hrun, hdrop] at h ⊢
  generalize run Char.isDigit cs = whole at h hle hlen ⊢
  cases whole with
  | zero => rfl
  | succ whole =>
    generalize cs.drop (whole + 1) = xs at h hlen ⊢
    cases xs with
    | nil =>
      -- The digits end at the cut: places behind it would be part of the number.
      rcases rest with _ | ⟨b, rest⟩
      · rfl
      · by_cases hb : b = '.'
        · subst hb
          cases hr : run Char.isDigit rest with
          | zero => simp [hr]
          | succ n =>
            simp only [List.nil_append, List.length_nil, hr] at h hlen
            omega
        · simp [hb]
    | cons x xs =>
      by_cases hx : x = '.'
      · subst hx
        have hplaces : run Char.isDigit (xs ++ rest) = run Char.isDigit xs := by
          refine run_cut ?_
          simp only [List.cons_append, List.length_cons] at h hlen
          split at h <;> omega
        simp only [List.cons_append, hplaces]
      · simp [hx]

theorem timeUnit_cut (h : timeUnit (cs ++ rest) ≤ cs.length) :
    timeUnit (cs ++ rest) = timeUnit cs := by
  rcases cs with _ | ⟨a, _ | ⟨c, cs⟩⟩
  · exact Nat.le_zero.mp h
  · rcases rest with _ | ⟨b, rest⟩
    · rfl
    · unfold timeUnit at h ⊢
      split at h <;> simp_all
  · exact timeUnit_cons a c _ cs

theorem sizeUnit_cut (h : sizeUnit (cs ++ rest) ≤ cs.length) :
    sizeUnit (cs ++ rest) = sizeUnit cs := by
  have hi : isByteSign 'i' = false := rfl
  rcases cs with _ | ⟨a, _ | ⟨c, _ | ⟨d, cs⟩⟩⟩
  · exact Nat.le_zero.mp h
  · rcases rest with _ | ⟨b, rest⟩
    · rfl
    · unfold sizeUnit at h ⊢
      split at h
      · split_ifs at h ⊢ <;> simp_all
      · split_ifs at h ⊢ <;> simp_all
      · simp_all
      · simp_all
  · rcases rest with _ | ⟨b, rest⟩
    · rfl
    · by_cases hc : c = 'i'
      · subst hc
        simp only [sizeUnit, List.cons_append, List.nil_append, hi] at h ⊢
        split_ifs at h ⊢ <;> simp_all
      · simp [sizeUnit, hc]
  · exact sizeUnit_cons a c d _ cs

theorem amounts_cut {fuel : Nat} (h : (amounts fuel (cs ++ rest)).more ≤ cs.length) :
    amounts fuel (cs ++ rest) = amounts fuel cs := by
  induction fuel generalizing cs with
  | zero => rfl
  | succ fuel ih =>
    have hd : decimal (cs ++ rest) = decimal cs := by
      refine decimal_cut ?_
      rw [amounts] at h
      split at h
      · next hz => omega
      · split at h
        · exact h
        · simp only [Scan.after] at h
          omega
    have hle := decimal_le cs
    rw [amounts, amounts, hd]
    rw [amounts, hd] at h
    generalize decimal cs = d at h hle ⊢
    cases d with
    | zero => rfl
    | succ d =>
      simp only [List.drop_append_of_le_length hle] at h ⊢
      have hu : timeUnit (cs.drop (d + 1) ++ rest) = timeUnit (cs.drop (d + 1)) := by
        refine timeUnit_cut ?_
        rw [List.length_drop]
        split at h
        · next hz => omega
        · simp only [Scan.after] at h
          omega
      have hule := timeUnit_le (cs.drop (d + 1))
      rw [List.length_drop] at hule
      rw [hu] at h ⊢
      generalize timeUnit (cs.drop (d + 1)) = u at h hule ⊢
      cases u with
      | zero => rfl
      | succ u =>
        have hl : d + 1 + (u + 1) ≤ cs.length := by omega
        simp only [List.drop_append_of_le_length hl, Scan.after] at h ⊢
        rw [ih (by rw [List.length_drop]; omega)]

/-- What becomes of a scan when the text is cut at the end of what it takes. -/
inductive Cuts (s : Scan) (n : Nat) (rest : Text) : Scan → Prop
  | same : Cuts s n rest s
  | minute (hs : s = ⟨.number, n⟩) (hr : rest.head? = some 'i') : Cuts s n rest ⟨.duration, n⟩

/-- Every number begins with its digits. -/
theorem decimal_le_scanNumber (cs : Text) : decimal cs ≤ (scanNumber cs).more := by
  unfold scanNumber
  dsimp only
  split
  · exact le_rfl
  · simp
  · simp only [Scan.after]
    omega
  · simp

section Number

variable {b u : Nat} {xs : Text}

theorem scanNumber_size (h : sizeUnit (cs.drop (decimal cs)) = b + 1) :
    scanNumber cs = ⟨.bytes, decimal cs + (b + 1)⟩ := by
  simp only [scanNumber, h]

theorem scanNumber_plain (hs : sizeUnit (cs.drop (decimal cs)) = 0)
    (hu : timeUnit (cs.drop (decimal cs)) = 0) : scanNumber cs = ⟨.number, decimal cs⟩ := by
  simp only [scanNumber, hs, hu]

theorem scanNumber_minute (hs : sizeUnit (cs.drop (decimal cs)) = 0)
    (hx : cs.drop (decimal cs) = 'm' :: 'i' :: xs) : scanNumber cs = ⟨.number, decimal cs + 1⟩ := by
  rw [hx] at hs
  simp only [scanNumber, hx, hs]
  rfl

theorem scanNumber_time (hs : sizeUnit (cs.drop (decimal cs)) = 0)
    (hu : timeUnit (cs.drop (decimal cs)) = u + 1)
    (hx : ∀ xs, cs.drop (decimal cs) ≠ 'm' :: 'i' :: xs) :
    scanNumber cs =
      (amounts cs.length (cs.drop (decimal cs + (u + 1)))).after (decimal cs + (u + 1)) := by
  simp only [scanNumber, hs, hu]
  split
  · next h => cases h
  · next h => exact (hx _ h).elim
  · rfl
  · simp_all

end Number

theorem cuts_of_eq {s u : Scan} {n : Nat} (h : s = u) : Cuts s n rest u := by
  subst h
  exact .same

/-- Where the units of a number end before the cut, they are the same after it. -/
theorem scanNumber_cut (h : (scanNumber (cs ++ rest)).more ≤ cs.length) :
    Cuts (scanNumber (cs ++ rest)) cs.length rest (scanNumber cs) := by
  have hd : decimal (cs ++ rest) = decimal cs := decimal_cut ((decimal_le_scanNumber _).trans h)
  have hle := decimal_le cs
  have hx : (cs ++ rest).drop (decimal (cs ++ rest)) = cs.drop (decimal cs) ++ rest := by
    rw [hd]
    exact List.drop_append_of_le_length hle
  have hlen : (cs.drop (decimal cs)).length = cs.length - decimal cs := List.length_drop
  cases hs : sizeUnit ((cs ++ rest).drop (decimal (cs ++ rest))) with
  | succ b =>
    rw [scanNumber_size hs, hd] at h ⊢
    simp only at h
    have hs' : sizeUnit (cs.drop (decimal cs)) = b + 1 := by
      rw [hx] at hs
      rw [← hs, sizeUnit_cut (by omega)]
    rw [scanNumber_size hs']
    exact .same
  | zero =>
    have hs' : sizeUnit (cs.drop (decimal cs)) = 0 := by
      have hz := hx ▸ hs
      rw [← hz, sizeUnit_cut (by omega)]
    cases hu : timeUnit ((cs ++ rest).drop (decimal (cs ++ rest))) with
    | zero =>
      have hu' : timeUnit (cs.drop (decimal cs)) = 0 := by
        have hz := hx ▸ hu
        rw [← hz, timeUnit_cut (by omega)]
      rw [scanNumber_plain hs hu, scanNumber_plain hs' hu', hd]
      exact .same
    | succ u =>
      by_cases hm : ∃ xs, (cs ++ rest).drop (decimal (cs ++ rest)) = 'm' :: 'i' :: xs
      · obtain ⟨xs, hm⟩ := hm
        rw [scanNumber_minute hs hm, hd] at h ⊢
        rw [hx] at hm
        simp only at h
        -- The minute sign is before the cut. What matters is on which side the `i` is.
        rcases hy : cs.drop (decimal cs) with _ | ⟨a, _ | ⟨c, ys⟩⟩
        · rw [hy] at hlen
          simp only [List.length_nil] at hlen
          omega
        · rw [hy] at hlen hm
          simp only [List.length_cons, List.length_nil, List.cons_append, List.nil_append,
            List.cons.injEq] at hlen hm
          obtain ⟨rfl, rfl⟩ := hm
          have hone : timeUnit (cs.drop (decimal cs)) = 0 + 1 := by
            rw [hy]
            rfl
          have hend : cs.drop (decimal cs + (0 + 1)) = [] := List.drop_eq_nil_iff.mpr (by omega)
          have hn : decimal cs + 1 = cs.length := by omega
          have hnone : amounts cs.length [] = ⟨.duration, 0⟩ := by cases cs.length <;> rfl
          rw [scanNumber_time hs' hone (by simp [hy]), hend, hnone, hn]
          exact .minute rfl rfl
        · rw [hy] at hm
          simp only [List.cons_append, List.cons.injEq] at hm
          obtain ⟨rfl, rfl, -⟩ := hm
          rw [scanNumber_minute hs' hy]
          exact .same
      · have hm : ∀ xs, (cs ++ rest).drop (decimal (cs ++ rest)) ≠ 'm' :: 'i' :: xs :=
          fun xs he => hm ⟨xs, he⟩
        rw [scanNumber_time hs hu hm, hd] at h ⊢
        simp only [Scan.after] at h
        have hn : decimal cs + (u + 1) ≤ cs.length := by omega
        have hu' : timeUnit (cs.drop (decimal cs)) = u + 1 := by
          have hz := hx ▸ hu
          rw [← hz, timeUnit_cut (by omega)]
        have hm' : ∀ xs, cs.drop (decimal cs) ≠ 'm' :: 'i' :: xs := by
          intro xs he
          refine hm (xs ++ rest) ?_
          rw [hx, he]
          rfl
        rw [List.drop_append_of_le_length hn] at h ⊢
        rw [amounts_cut (by rw [List.length_drop]; omega), scanNumber_time hs' hu' hm',
          amounts_fuel (n := (cs ++ rest).length) (m := cs.length) (by simp; omega) (by simp)]
        exact .same

theorem scanQuoted_zero (h : (scanQuoted cs).more = 0) : scanQuoted cs = ⟨.unknown, 0⟩ := by
  unfold scanQuoted at h ⊢
  split at h <;> simp_all [Scan.after]

theorem scanQuoted_cut (h : (scanQuoted (cs ++ rest)).more ≤ cs.length) :
    scanQuoted (cs ++ rest) = scanQuoted cs := by
  fun_induction scanQuoted cs with
  | case1 => exact scanQuoted_zero (Nat.le_zero.mp h)
  | case2 cs => rfl
  | case3 =>
    rcases rest with _ | ⟨b, rest⟩
    · rfl
    · by_cases hb : b = '\n'
      · subst hb
        rfl
      · have hs : scanQuoted (['\\'] ++ b :: rest) = (scanQuoted rest).after 2 := by
          simp [scanQuoted]
        rw [hs] at h
        simp only [Scan.after, List.length_singleton] at h
        omega
  | case4 cs => rfl
  | case5 c cs hc ih =>
    have hs : ∀ us, scanQuoted ('\\' :: c :: us) = (scanQuoted us).after 2 := by
      intro us
      rw [scanQuoted]
      exact hc
    have h : (scanQuoted ('\\' :: c :: (cs ++ rest))).more ≤ cs.length + 1 + 1 := h
    rw [hs, Scan.after] at h
    rw [List.cons_append, List.cons_append, hs, ih (by simp only at h; omega)]
  | case6 c cs hq he hn hp ih =>
    have hc : c ≠ '\\' := by
      rintro rfl
      cases cs with
      | nil => exact he rfl rfl
      | cons d ds => exact hp _ _ rfl rfl
    have hs : ∀ us, scanQuoted (c :: us) = (scanQuoted us).after 1 := by
      intro us
      rw [scanQuoted] <;> simp_all
    have h : (scanQuoted (c :: (cs ++ rest))).more ≤ cs.length + 1 := h
    rw [hs, Scan.after] at h
    rw [List.cons_append, hs, ih (by simp only at h; omega)]

theorem scanRaw_cut (h : (scanRaw (cs ++ rest)).more ≤ cs.length) :
    scanRaw (cs ++ rest) = scanRaw cs := by
  fun_induction scanRaw cs with
  | case1 =>
    have hz : (scanRaw rest).more = 0 := Nat.le_zero.mp h
    show scanRaw rest = _
    unfold scanRaw at hz ⊢
    split at hz <;> simp_all [Scan.after]
  | case2 cs => rfl
  | case3 c cs hc ih =>
    have hs : ∀ us, scanRaw (c :: us) = (scanRaw us).after 1 := by
      intro us
      rw [scanRaw]
      exact hc
    have h : (scanRaw (c :: (cs ++ rest))).more ≤ cs.length + 1 := h
    rw [hs, Scan.after] at h
    rw [List.cons_append, hs, ih (by simp only at h; omega)]

/-- A minus sign, or the flag that it begins. -/
theorem scan_dash_cut (h : (scan '-' (cs ++ rest)).more ≤ cs.length) :
    scan '-' (cs ++ rest) = scan '-' cs := by
  rw [scan_dash, scan_dash] at *
  rcases cs with _ | ⟨a, _ | ⟨d, ds⟩⟩
  · split at h
    · split_ifs at h with ha
      · simp only [List.length_nil] at h
        omega
      · simp_all
    · simp_all
  · rcases rest with _ | ⟨d, ds⟩
    · rfl
    · by_cases ha : a = '-'
      · subst ha
        simp only [List.cons_append, List.nil_append, List.length_singleton] at h ⊢
        split_ifs at h ⊢ with hd
        · simp only at h
          omega
        · rfl
      · simp [ha]
  · by_cases ha : a = '-'
    · subst ha
      simp only [List.cons_append, List.length_cons] at h ⊢
      split_ifs at h ⊢ with hd
      · rw [run_cut (by simp only at h; omega)]
      · rfl
    · simp [ha]

/-- A token is scanned the same when the text is cut where it ends, or anywhere behind. -/
theorem scan_cut (h : (scan c (cs ++ rest)).more ≤ cs.length) :
    Cuts (scan c (cs ++ rest)) cs.length rest (scan c cs) := by
  by_cases hdash : c = '-'
  · subst hdash
    exact cuts_of_eq (scan_dash_cut h)
  unfold scan at h ⊢
  split_ifs at h ⊢ with hb hn hd
  · rw [run_cut h]
    exact .same
  · rw [run_cut h]
    exact .same
  · have hle : (scanNumber (c :: cs ++ rest)).more ≤ (c :: cs).length := by
      simp only [List.length_cons, List.cons_append] at h ⊢
      omega
    have hn := scanNumber_cut hle
    simp only [List.cons_append, List.length_cons] at hn
    generalize scanNumber (c :: (cs ++ rest)) = s at hn
    generalize scanNumber (c :: cs) = u at hn
    cases hn with
    | same => exact .same
    | minute hs hr => exact .minute (by simp [hs]) hr
  · refine cuts_of_eq ?_
    split at h
    · rw [run_cut h]
    · exact scanQuoted_cut h
    · exact scanRaw_cut h
    · exact absurd rfl hdash
    -- What is left is told by the character, or by it and the next one, which must be in the cut.
    all_goals rcases cs with _ | ⟨d, ds⟩ <;> simp_all

/-- Tokens that their own text is cut into again. -/
def Lexed (ts : List Token) : Prop := lex (spelled ts) = ts

theorem lexed_lex (cs : Text) : Lexed (lex cs) := by
  rw [Lexed, spelled_lex]

theorem lexed_cons : Lexed (t :: ts) ↔ ∃ c cs, t.text = c :: cs ∧
    scan c (cs ++ spelled ts) = ⟨t.kind, cs.length⟩ ∧ Lexed ts := by
  constructor
  · intro h
    have hmem : t ∈ lex (spelled (t :: ts)) := by
      rw [h]
      exact .head _
    have hne := lex_text_ne_nil hmem
    obtain ⟨c, cs, hx⟩ := List.exists_cons_of_ne_nil hne
    have hs : spelled (t :: ts) = c :: (cs ++ spelled ts) := by
      rw [← List.cons_append, ← hx]
      rfl
    rw [Lexed, hs, lex_cons, List.cons.injEq] at h
    obtain ⟨ht, hts⟩ := h
    have hk : (scan c (cs ++ spelled ts)).kind = t.kind := congrArg Token.kind ht
    have htake : (cs ++ spelled ts).take (scan c (cs ++ spelled ts)).more = cs := by
      have hcs := congrArg Token.text ht
      rw [hx] at hcs
      exact (List.cons.inj hcs).2
    have hlen := congrArg List.length htake
    rw [List.length_take_of_le (scan_le c _)] at hlen
    refine ⟨c, cs, hx, ?_, ?_⟩
    · rw [← hk, ← hlen]
    · rwa [hlen, List.drop_left] at hts
  · rintro ⟨c, cs, hx, hs, hts⟩
    have ht : spelled (t :: ts) = c :: (cs ++ spelled ts) := by
      rw [← List.cons_append, ← hx]
      rfl
    rw [Lexed, ht, lex_cons, hs, List.drop_left, List.take_left, hts, ← hx]

theorem lexed_right (h : Lexed (ts ++ us)) : Lexed us := by
  induction ts with
  | nil => exact h
  | cons t ts ih =>
    obtain ⟨_, _, _, _, hts⟩ := lexed_cons.mp h
    exact ih hts

/-- What becomes of tokens when all tokens behind them are cut off. -/
inductive Severed : List Token → List Token → Prop
  | whole {ts us : List Token} (h : Lexed ts) : Severed ts us
  | minute {ts us : List Token} {u : Token} {v : Text} (h : Lexed (ts ++ [⟨.duration, v⟩]))
    (hu : u.kind = .identifier) : Severed (ts ++ [⟨.number, v⟩]) (u :: us)

theorem lexed_left (h : Lexed (ts ++ us)) : Severed ts us := by
  induction ts with
  | nil =>
    apply Severed.whole
    rfl
  | cons t ts ih =>
    obtain ⟨c, cs, hx, hs, hts⟩ := lexed_cons.mp (List.cons_append ▸ h)
    rw [spelled_append, ← List.append_assoc] at hs
    have hle : (scan c (cs ++ spelled ts ++ spelled us)).more ≤ (cs ++ spelled ts).length := by
      simp only [hs, List.length_append]
      omega
    have hcut := scan_cut hle
    have hwhole : ∀ ys, spelled ys = spelled ts → Lexed ys →
        scan c (cs ++ spelled ts) = ⟨t.kind, cs.length⟩ → Lexed (t :: ys) := by
      intro ys hy hys hc
      exact lexed_cons.mpr ⟨c, cs, hx, hy ▸ hc, hys⟩
    rw [hs] at hcut
    generalize hu : scan c (cs ++ spelled ts) = u at hcut
    cases hcut with
    | same =>
      cases ih hts with
      | whole hy => exact .whole (hwhole _ rfl hy hu)
      | @minute ts us u v hy hk =>
        have ht : Lexed (t :: (ts ++ [⟨.duration, v⟩])) := by
          refine hwhole _ ?_ hy hu
          rw [spelled_append, spelled_append]
          rfl
        exact @Severed.minute (t :: ts) us u v ht hk
    | minute hn hr =>
      obtain ⟨hk, hl⟩ := Scan.mk.inj hn
      rw [List.length_append] at hl
      have hspelled : spelled ts = [] := List.length_eq_zero_iff.mp (by omega)
      have hnil : ts = [] := by
        cases ts with
        | nil => rfl
        | cons x ts =>
          obtain ⟨d, ds, hd, _⟩ := lexed_cons.mp (List.cons_append ▸ hts)
          simp [spelled, hd] at hspelled
      subst hnil
      cases us with
      | nil => cases hr
      | cons u us =>
        obtain ⟨d, ds, hd, hsu, _⟩ := lexed_cons.mp hts
        have hi : d = 'i' := by simpa [spelled, hd] using hr
        have hname : u.kind = .identifier := by
          rw [hi] at hsu
          exact (congrArg Scan.kind hsu).symm
        have ht : t = ⟨.number, t.text⟩ := by rw [← hk]
        rw [ht]
        refine @Severed.minute [] us u t.text (lexed_cons.mpr ⟨c, cs, hx, ?_, rfl⟩) hname
        rw [hu, List.length_append, hspelled]
        rfl

end LogQuery.Token
