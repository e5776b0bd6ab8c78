import LogQuery.Proofs.Token.Pattern

/-! What the lexer takes is in the pattern of the kind it gives, digits apart: a number keeps the
minute sign before an `i`, and digits without a unit behind a duration spoil it. -/
namespace LogQuery.Token

open scoped Computability

variable {c : Char} {cs rest w : Text} {p : Char → Bool} {k : Kind}

section Amount

theorem run_split (p : Char → Bool) (cs : Text) :
    ∃ front more, cs = front ++ more ∧ front.length = run p cs ∧ (∀ c ∈ front, p c = true) ∧
      ∀ c ∈ more.head?, p c = false := by
  refine ⟨cs.takeWhile p, cs.dropWhile p, List.takeWhile_append_dropWhile.symm, rfl,
    fun c => List.mem_takeWhile_imp, fun c hc => ?_⟩
  have hn := List.head?_dropWhile_not p cs
  rw [Option.mem_def.mp hc] at hn
  simpa using hn

/-- What is read of digits is declared as a number. -/
theorem decimal_declared (h : 0 < decimal cs) :
    ∃ a more, cs = a ++ more ∧ a ∈ decimals ∧ a.length = decimal cs := by
  obtain ⟨ds, more, rfl, hlen, hds, -⟩ := run_split Char.isDigit cs
  rw [decimal, ← hlen, List.drop_left] at h ⊢
  rcases ds with _ | ⟨x, xs⟩
  · exact absurd h (Nat.lt_irrefl 0)
  have hwhole : x :: xs ∈ many (one Char.isDigit) :=
    mem_many_one.mpr ⟨List.cons_ne_nil _ _, hds⟩
  have halone : x :: xs ∈ decimals :=
    Language.mem_mul.mpr ⟨_, hwhole, [], mem_optional.mpr (.inl rfl), List.append_nil _⟩
  rcases more with _ | ⟨b, more⟩
  · exact ⟨x :: xs, [], rfl, halone, rfl⟩
  by_cases hb : b = '.'
  · subst hb
    obtain ⟨es, more, rfl, hplaces, hes, -⟩ := run_split Char.isDigit more
    simp only [← hplaces, List.length_cons]
    rcases es with _ | ⟨e, es⟩
    · exact ⟨x :: xs, _, rfl, halone, rfl⟩
    · have hpoint : '.' :: e :: es ∈ word "." * many (one Char.isDigit) :=
        Language.mem_mul.mpr ⟨['.'], mem_word.mpr rfl, e :: es,
          mem_many_one.mpr ⟨List.cons_ne_nil _ _, hes⟩, rfl⟩
      refine ⟨x :: xs ++ '.' :: e :: es, more, by simp, Language.mem_mul.mpr ⟨_, hwhole, _,
        mem_optional.mpr (.inr hpoint), rfl⟩, ?_⟩
      simp only [List.length_append, List.length_cons]
      omega
  · refine ⟨x :: xs, b :: more, rfl, halone, ?_⟩
    simp [hb]

theorem timeUnit_declared (h : 0 < timeUnit cs) :
    ∃ u more, cs = u ++ more ∧ u ∈ timeUnits ∧ u.length = timeUnit cs := by
  unfold timeUnit at h ⊢
  split at h
  · exact ⟨['n', 's'], _, rfl, ⟨"ns", by simp, rfl⟩, rfl⟩
  · exact ⟨['u', 's'], _, rfl, ⟨"us", by simp, rfl⟩, rfl⟩
  · exact ⟨['µ', 's'], _, rfl, ⟨"µs", by simp, rfl⟩, rfl⟩
  · exact ⟨['m', 's'], _, rfl, ⟨"ms", by simp, rfl⟩, rfl⟩
  · exact ⟨['s'], _, rfl, ⟨"s", by simp, rfl⟩, rfl⟩
  · exact ⟨['m'], _, rfl, ⟨"m", by simp, rfl⟩, by simp⟩
  · exact ⟨['h'], _, rfl, ⟨"h", by simp, rfl⟩, rfl⟩
  · exact ⟨['d'], _, rfl, ⟨"d", by simp, rfl⟩, rfl⟩
  · exact ⟨['w'], _, rfl, ⟨"w", by simp, rfl⟩, rfl⟩
  · exact ⟨['y'], _, rfl, ⟨"y", by simp, rfl⟩, rfl⟩
  · omega

theorem isMultiple_declared {a : Char} (h : isMultiple a = true) :
    [a] ∈ among "kKmMgGtTpPeE" := by
  refine ⟨a, ?_, rfl⟩
  unfold isMultiple at h
  split at h
  all_goals first | rfl | cases h

theorem isByteSign_declared {a : Char} (h : isByteSign a = true) : [a] ∈ among "bB" := by
  refine ⟨a, ?_, rfl⟩
  unfold isByteSign at h
  split at h
  all_goals first | rfl | cases h

theorem sizeUnit_declared (h : 0 < sizeUnit cs) :
    ∃ u more, cs = u ++ more ∧ u ∈ sizeUnits ∧ u.length = sizeUnit cs := by
  have hsign : ∀ {a : Char}, isByteSign a = true → [a] ∈ sizeUnits := fun ha =>
    Language.mem_mul.mpr ⟨[], mem_optional.mpr (.inl rfl), _, isByteSign_declared ha, rfl⟩
  have hmany : ∀ {a b : Char} {i : Text}, isMultiple a = true → isByteSign b = true →
      i ∈ optional (word "i") → [a] ++ i ++ [b] ∈ sizeUnits := by
    intro a b i ha hb hi
    refine Language.mem_mul.mpr ⟨[a] ++ i, mem_optional.mpr (.inr ?_), _, isByteSign_declared hb,
      rfl⟩
    exact Language.mem_mul.mpr ⟨[a], isMultiple_declared ha, i, hi, rfl⟩
  unfold sizeUnit at h ⊢
  split at h
  · next a b more =>
    split_ifs at h ⊢ with hab ha
    · obtain ⟨ha, hb⟩ := Bool.and_eq_true_iff.mp hab
      exact ⟨[a, 'i', b], more, rfl, hmany ha hb (mem_optional.mpr (.inr (mem_word.mpr rfl))), rfl⟩
    · exact ⟨[a], _, rfl, hsign ha, rfl⟩
    · omega
  · next a b more _ =>
    split_ifs at h ⊢ with hab ha
    · obtain ⟨ha, hb⟩ := Bool.and_eq_true_iff.mp hab
      exact ⟨[a, b], more, rfl, hmany ha hb (mem_optional.mpr (.inl rfl)), by simp_all⟩
    · exact ⟨[a], _, rfl, hsign ha, rfl⟩
    · omega
  · next a =>
    split_ifs at h ⊢ with ha
    · exact ⟨[a], [], rfl, hsign ha, rfl⟩
    · omega
  · omega

/-- A row of amounts with their units, and how it ends: without a further amount, or with one that
has no unit. -/
theorem amounts_declared {fuel : Nat} (hf : cs.length ≤ fuel) :
    ∃ row more, cs = row ++ more ∧ row ∈ (decimals * timeUnits)∗ ∧
      (amounts fuel cs = ⟨.duration, row.length⟩ ∨
        0 < decimal more ∧ amounts fuel cs = ⟨.unknown, row.length + decimal more⟩) := by
  have hempty : ([] : Text) ∈ (decimals * timeUnits)∗ := Language.nil_mem_kstar _
  induction fuel generalizing cs with
  | zero =>
    obtain rfl : cs = [] := List.length_eq_zero_iff.mp (by omega)
    exact ⟨[], [], rfl, hempty, .inl rfl⟩
  | succ fuel ih =>
    rcases Nat.eq_zero_or_pos (decimal cs) with hd | hd
    · exact ⟨[], cs, rfl, hempty, .inl (by simp [amounts, hd])⟩
    obtain ⟨a, bs, rfl, ha, hal⟩ := decimal_declared hd
    have hbs : (a ++ bs).drop (decimal (a ++ bs)) = bs := by rw [← hal, List.drop_left]
    rcases Nat.eq_zero_or_pos (timeUnit bs) with hu | hu
    · refine ⟨[], a ++ bs, rfl, hempty, .inr ⟨hd, ?_⟩⟩
      rw [amounts_spoilt hd (hbs.symm ▸ hu), List.length_nil, Nat.zero_add]
    obtain ⟨u, ys, rfl, hut, hul⟩ := timeUnit_declared hu
    have hpos : 0 < timeUnit ((a ++ (u ++ ys)).drop (decimal (a ++ (u ++ ys)))) := hbs.symm ▸ hu
    have hstep := @amounts_unit _ fuel hd hpos
    rw [hbs, ← hul, ← hal, ← List.length_append, ← List.append_assoc, List.drop_left] at hstep
    have hshort : ys.length ≤ fuel := by
      simp only [List.length_append] at hf
      omega
    obtain ⟨row, more, rfl, hrow, hend⟩ := ih hshort
    have hmem : a ++ u ++ row ∈ (decimals * timeUnits)∗ := by
      rw [← Language.one_add_self_mul_kstar_eq_kstar]
      exact .inr (Language.mem_mul.mpr ⟨a ++ u, Language.mem_mul.mpr ⟨a, ha, u, hut, rfl⟩, row,
        hrow, rfl⟩)
    refine ⟨a ++ u ++ row, more, by simp, hmem, ?_⟩
    rw [← List.append_assoc, hstep]
    have hlen : (a ++ u ++ row).length = (a ++ u).length + row.length := List.length_append
    rcases hend with he | ⟨hmore, he⟩
    · exact .inl (by rw [he, Scan.after, hlen])
    · exact .inr ⟨hmore, by rw [he, Scan.after, hlen, Nat.add_assoc]⟩

/-- What the lexer makes of digits and of what follows them. -/
inductive ReadsAmount (cs : Text) : Scan → Prop
  | declared {k : Kind} {w more : Text} (hc : cs = w ++ more) (hw : w ∈ pattern k) :
      ReadsAmount cs ⟨k, w.length⟩
  | minutes {w more : Text} (hc : cs = w ++ 'i' :: more) (hw : w ∈ decimals * word "m") :
      ReadsAmount cs ⟨.number, w.length⟩
  | overrun {w more : Text} (hc : cs = w ++ more) (hw : w ∈ pattern .duration)
      (hd : 0 < decimal more) : ReadsAmount cs ⟨.unknown, w.length + decimal more⟩

theorem scanNumber_declared (h : 0 < decimal cs) : ReadsAmount cs (scanNumber cs) := by
  obtain ⟨a, bs, rfl, ha, hal⟩ := decimal_declared h
  have hbs : (a ++ bs).drop (decimal (a ++ bs)) = bs := by rw [← hal, List.drop_left]
  rcases Nat.eq_zero_or_pos (sizeUnit bs) with hs | hs
  · rcases Nat.eq_zero_or_pos (timeUnit bs) with hu | hu
    · rw [scanNumber_plain (by rw [hbs, hs]) (by rw [hbs, hu]), ← hal]
      exact .declared rfl ha
    by_cases hm : ∃ xs, bs = 'm' :: 'i' :: xs
    · obtain ⟨xs, rfl⟩ := hm
      rw [scanNumber_minute (by rw [hbs, hs]) hbs, ← hal]
      have hw : a ++ ['m'] ∈ decimals * word "m" :=
        Language.mem_mul.mpr ⟨a, ha, ['m'], mem_word.mpr rfl, rfl⟩
      have hlen : a.length + 1 = (a ++ ['m']).length := by simp
      have hcut : a ++ 'm' :: 'i' :: xs = a ++ ['m'] ++ 'i' :: xs := by simp
      rw [hlen]
      exact .minutes hcut hw
    obtain ⟨u, ys, rfl, hut, hul⟩ := timeUnit_declared hu
    obtain ⟨n, hn⟩ := Nat.exists_eq_succ_of_ne_zero hu.ne'
    rw [scanNumber_time (u := n) (by rw [hbs, hs]) (by rw [hbs, hn]) fun xs hx =>
      hm ⟨xs, hbs ▸ hx⟩, ← Nat.succ_eq_add_one, ← hn, ← hul, ← hal, ← List.length_append,
      ← List.append_assoc, List.drop_left]
    have hshort : ys.length ≤ (a ++ u ++ ys).length := by
      simp only [List.length_append]
      omega
    obtain ⟨row, more, rfl, hrow, hend⟩ := amounts_declared hshort
    have hcut : a ++ u ++ (row ++ more) = a ++ u ++ row ++ more := (List.append_assoc ..).symm
    have hw : a ++ u ++ row ∈ pattern .duration :=
      Language.mem_mul.mpr ⟨a ++ u, Language.mem_mul.mpr ⟨a, ha, u, hut, rfl⟩, row, hrow, rfl⟩
    rcases hend with he | ⟨hmore, he⟩
    · rw [he, hcut, Scan.after, ← List.length_append]
      exact .declared rfl hw
    · rw [he, hcut, Scan.after, ← Nat.add_assoc, ← List.length_append]
      exact .overrun rfl hw hmore
  · obtain ⟨u, ys, rfl, hut, hul⟩ := sizeUnit_declared hs
    obtain ⟨n, hn⟩ := Nat.exists_eq_succ_of_ne_zero hs.ne'
    rw [scanNumber_size (b := n) (by rw [hbs, hn]), ← Nat.succ_eq_add_one, ← hn, ← hul, ← hal,
      ← List.length_append]
    exact .declared (List.append_assoc ..).symm (Language.mem_mul.mpr ⟨a, ha, u, hut, rfl⟩)

end Amount

theorem run_within (h : run p (cs ++ rest) = cs.length) : ∀ c ∈ cs, p c = true :=
  run_whole ((run_cut h.le).symm.trans h)

theorem scanQuoted_declared (h : scanQuoted cs = ⟨.string, cs.length⟩) :
    cs ∈ quotedPart∗ * word "\"" := by
  have hpart : ∀ {w ds : Text}, w ∈ quotedPart → ds ∈ quotedPart∗ * word "\"" →
      w ++ ds ∈ quotedPart∗ * word "\"" := by
    intro w ds hw hds
    rw [← Language.one_add_self_mul_kstar_eq_kstar, add_mul, mul_assoc]
    exact .inr (Language.mem_mul.mpr ⟨w, hw, ds, hds, rfl⟩)
  fun_induction scanQuoted cs with
  | case1 => cases h
  | case2 cs =>
    obtain rfl : cs = [] := by simpa using h
    exact Language.mem_mul.mpr ⟨[], Language.nil_mem_kstar _, ['"'], mem_word.mpr rfl, rfl⟩
  | case3 => cases h
  | case4 cs => cases h
  | case5 c cs hc ih =>
    have hmore : scanQuoted cs = ⟨.string, cs.length⟩ := by
      obtain ⟨hk, hn⟩ := Scan.mk.inj h
      rw [← hk, ← Nat.add_left_cancel (hn.trans (Nat.add_comm cs.length 2))]
    have hescape : ['\\', c] ∈ quotedPart :=
      .inr (Language.mem_mul.mpr ⟨['\\'], mem_word.mpr rfl, [c], ⟨c, by simpa using hc, rfl⟩, rfl⟩)
    exact hpart hescape (ih hmore)
  | case6 c cs hq he hn hp ih =>
    have hmore : scanQuoted cs = ⟨.string, cs.length⟩ := by
      obtain ⟨hk, hn⟩ := Scan.mk.inj h
      rw [← hk, ← Nat.add_left_cancel (hn.trans (Nat.add_comm cs.length 1))]
    have hslash : c ≠ '\\' := by
      rintro rfl
      cases cs with
      | nil => exact he rfl rfl
      | cons d ds => exact hp d ds rfl rfl
    have hplain : [c] ∈ quotedPart := .inl ⟨c, by simpa using ⟨hq, hslash⟩, rfl⟩
    exact hpart hplain (ih hmore)

theorem scanRaw_declared (h : scanRaw cs = ⟨.string, cs.length⟩) :
    cs ∈ (one (· ≠ '\x60'))∗ * word "\x60" := by
  fun_induction scanRaw cs with
  | case1 => cases h
  | case2 cs =>
    obtain rfl : cs = [] := by simpa using h
    exact Language.mem_mul.mpr ⟨[], Language.nil_mem_kstar _, ['\x60'], mem_word.mpr rfl, rfl⟩
  | case3 c cs hc ih =>
    have hmore : scanRaw cs = ⟨.string, cs.length⟩ := by
      obtain ⟨hk, hn⟩ := Scan.mk.inj h
      rw [← hk, ← Nat.add_left_cancel (hn.trans (Nat.add_comm cs.length 1))]
    obtain ⟨v, hv, last, hlast, rfl⟩ := Language.mem_mul.mp (ih hmore)
    refine Language.mem_mul.mpr ⟨c :: v, mem_one_star.mpr fun d hd => ?_, last, hlast, rfl⟩
    rcases List.mem_cons.mp hd with rfl | hd
    · simpa using hc
    · exact mem_one_star.mp hv d hd

theorem spelling_declared (h : (k, w) ∈ spellings.map fun q => (q.1, q.2.toList)) :
    w ∈ pattern k := by
  obtain ⟨⟨l, s⟩, hs, he⟩ := List.mem_map.mp h
  obtain ⟨rfl, rfl⟩ := Prod.mk.inj he
  have hkind : l ∈ spellings.map Prod.fst := List.mem_map_of_mem hs
  clear h he
  fun_cases pattern l with
  | case9 => exact ⟨s, hs, rfl⟩
  | _ => exact absurd hkind (by decide)

theorem dash_declared (h : scan '-' (cs ++ rest) = ⟨k, cs.length⟩) : '-' :: cs ∈ pattern k := by
  rw [scan_dash] at h
  split at h
  · next d ds he =>
    split_ifs at h with ha
    · obtain ⟨rfl, hn⟩ := Scan.mk.inj h
      rcases cs with _ | ⟨x, _ | ⟨y, cs⟩⟩
      · simp at hn
      · simp only [List.length_singleton] at hn
        omega
      obtain ⟨rfl, rfl, rfl⟩ : x = '-' ∧ y = d ∧ cs ++ rest = ds := by simpa using he
      have hrun : run isFlagPart (cs ++ rest) = cs.length := by
        simp only [List.length_cons] at hn
        omega
      exact Language.mem_mul.mpr ⟨['-', '-', y], Language.mem_mul.mpr ⟨['-', '-'],
        mem_word.mpr rfl, [y], mem_one ha, rfl⟩, cs, mem_one_star.mpr (run_within hrun), rfl⟩
    · obtain ⟨rfl, hn⟩ := Scan.mk.inj h
      obtain rfl := List.length_eq_zero_iff.mp hn.symm
      exact spelling_declared (by decide)
  · obtain ⟨rfl, hn⟩ := Scan.mk.inj h
    obtain rfl := List.length_eq_zero_iff.mp hn.symm
    exact spelling_declared (by decide)

theorem blanks_declared (hc : isBlank c = true) (h : run isBlank (cs ++ rest) = cs.length) :
    c :: cs ∈ pattern .whitespace := by
  have hblank : ∀ {d : Char}, isBlank d = true → " \t\r\n".toList.contains d = true := by
    intro d hd
    rcases isBlank_cases hd with rfl | rfl | rfl | rfl <;> decide
  refine mem_many_one.mpr ⟨List.cons_ne_nil _ _, fun d hd => hblank ?_⟩
  rcases List.mem_cons.mp hd with rfl | hd
  · exact hc
  · exact run_within h d hd

theorem quoted_declared (h : scanQuoted (cs ++ rest) = ⟨k, cs.length⟩) (hk : k ≠ .unknown) :
    '"' :: cs ∈ pattern k := by
  have hs : scanQuoted cs = ⟨k, cs.length⟩ := by
    rw [← h, scanQuoted_cut (by rw [h])]
  obtain rfl : k = .string := by
    have hkind := scanQuoted_kind cs
    simpa [hs, hk] using hkind
  refine .inl ?_
  rw [mul_assoc]
  exact Language.mem_mul.mpr ⟨['"'], mem_word.mpr rfl, cs, scanQuoted_declared hs, rfl⟩

theorem raw_declared (h : scanRaw (cs ++ rest) = ⟨k, cs.length⟩) (hk : k ≠ .unknown) :
    '\x60' :: cs ∈ pattern k := by
  have hs : scanRaw cs = ⟨k, cs.length⟩ := by
    rw [← h, scanRaw_cut (by rw [h])]
  obtain rfl : k = .string := by
    have hkind := scanRaw_kind cs
    simpa [hs, hk] using hkind
  refine .inr ?_
  rw [mul_assoc]
  exact Language.mem_mul.mpr ⟨['\x60'], mem_word.mpr rfl, cs, scanRaw_declared hs, rfl⟩

/-- A scan that does not begin at a digit takes a text of the pattern of its kind. -/
theorem scan_declared (hd : c.isDigit = false) (h : scan c (cs ++ rest) = ⟨k, cs.length⟩)
    (hk : k ≠ .unknown) : c :: cs ∈ pattern k := by
  by_cases hdash : c = '-'
  · subst hdash
    exact dash_declared h
  unfold scan at h
  simp only [hd, Bool.false_eq_true, if_false] at h
  split_ifs at h with hb hn
  · obtain ⟨rfl, hrun⟩ := Scan.mk.inj h
    exact blanks_declared hb hrun
  · obtain ⟨rfl, hrun⟩ := Scan.mk.inj h
    exact Language.mem_mul.mpr ⟨[c], mem_one hn, cs, mem_one_star.mpr (run_within hrun), rfl⟩
  · split at h
    · obtain ⟨rfl, hrun⟩ := Scan.mk.inj h
      exact Language.mem_mul.mpr ⟨['#'], mem_word.mpr rfl, cs,
        mem_one_star.mpr (run_within hrun), rfl⟩
    · exact quoted_declared h hk
    · exact raw_declared h hk
    · exact absurd rfl hdash
    -- What is left is the character alone, or it and the next one.
    all_goals
      obtain ⟨rfl, hn⟩ := Scan.mk.inj h
      rcases cs with _ | ⟨d, _ | ⟨e, ds⟩⟩ <;> simp_all <;> exact spelling_declared (by decide)

end LogQuery.Token
