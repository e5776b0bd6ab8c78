import LogQuery.Proofs.Token.Declared

/-! The lexer and the longest match of the patterns. What the lexer takes is the longest text of any
pattern, and what no pattern matches is unknown, but for two slips at digits: an amount without a
unit behind a duration makes both unknown, and a minute sign before an `i` makes no duration. -/
namespace LogQuery.Token

open scoped Computability

variable {c : Char} {cs more rest v w d query : Text} {k l : Kind} {t : Token} {n : Nat}
  {before after : List Token}

/-- A text of the pattern of a kind is at the front, and no text of any pattern there is longer. -/
structure Longest (k : Kind) (w rest : Text) : Prop where
  matched : w ∈ pattern k
  front : w <+: rest
  longest : ∀ l, ∀ v ∈ pattern l, v <+: rest → v.length ≤ w.length

def Unmatched (rest : Text) : Prop := ∀ l, ∀ v ∈ pattern l, ¬ v <+: rest

/-- The longest match is a duration, and a further amount follows it. -/
structure Overrun (w d rest : Text) : Prop where
  duration : Longest .duration w rest
  amount : d ∈ decimals
  front : w ++ d <+: rest
  longest : ∀ e ∈ decimals, w ++ e <+: rest → e.length ≤ d.length

/-- The longest match is a number of minutes, and an `i` follows it. -/
structure Minutes (w rest : Text) : Prop where
  duration : Longest .duration w rest
  minutes : w ∈ decimals * word "m"
  front : w ++ ['i'] <+: rest

/-- A text of a pattern at the front of what is scanned ends before the scan does, or where it does.
Then it is of the kind scanned, unless a number keeps a minute sign. -/
theorem scan_front {b : Char} {bs : Text} (h : scan b (bs ++ more) = ⟨k, n⟩)
    (hv : b :: bs ∈ pattern l) : bs.length < n ∨ bs.length = n ∧ (l = k ∨ k = .number) := by
  obtain ⟨x, xs, he, htakes⟩ := takes_pattern hv
  obtain ⟨rfl, rfl⟩ := List.cons.inj he
  rcases Nat.lt_or_ge bs.length n with hlt | hge
  · exact .inl hlt
  have hcut := scan_cut (by rwa [h])
  rw [h, htakes] at hcut
  cases hcut with
  | same => exact .inr ⟨rfl, .inl rfl⟩
  | minute hs =>
    obtain ⟨rfl, rfl⟩ := Scan.mk.inj hs
    exact .inr ⟨rfl, .inr rfl⟩

theorem pattern_cons (hv : v ∈ pattern l) (hp : v <+: c :: cs) :
    ∃ bs more, v = c :: bs ∧ cs = bs ++ more := by
  obtain ⟨b, bs, rfl, -⟩ := takes_pattern hv
  obtain ⟨more, he⟩ := hp
  obtain ⟨rfl, rfl⟩ := List.cons.inj he
  exact ⟨bs, more, rfl, rfl⟩

theorem scan_longest (h : scan c cs = ⟨k, n⟩) (hv : v ∈ pattern l) (hp : v <+: c :: cs) :
    v.length ≤ n + 1 := by
  obtain ⟨bs, more, rfl, rfl⟩ := pattern_cons hv hp
  rw [List.length_cons]
  rcases scan_front h hv with hlt | ⟨he, -⟩ <;> omega

theorem unknown_bang (h : v ∈ pattern .unknown) : v = ['!'] := by
  obtain ⟨s, hs, rfl⟩ := h
  have hall : ∀ q ∈ spellings, q.1 = .unknown → q.2.toList = ['!'] := by decide
  exact hall _ hs rfl

/-- Only a string that is not closed is unknown in more than one character. -/
theorem scan_open (hd : c.isDigit = false) (h : scan c cs = ⟨.unknown, n⟩) :
    n = 0 ∨ c = '"' ∧ scanQuoted cs = ⟨.unknown, n⟩ ∨
      c = '\x60' ∧ scanRaw cs = ⟨.unknown, n⟩ := by
  by_cases hdash : c = '-'
  · subst hdash
    rw [scan_dash] at h
    split at h
    · split_ifs at h <;> cases h
    · cases h
  unfold scan at h
  simp only [hd, Bool.false_eq_true, if_false] at h
  split_ifs at h
  · cases h
  · cases h
  split at h
  case h_2 => exact .inr (.inl ⟨rfl, h⟩)
  case h_3 => exact .inr (.inr ⟨rfl, h⟩)
  all_goals simp_all

/-- What is unknown and does not begin at a digit is in no pattern, and neither is anything cut off
of it. A lone bang is unknown by its pattern. -/
theorem scan_unmatched (hd : c.isDigit = false) (h : scan c cs = ⟨.unknown, n⟩) :
    c = '!' ∧ n = 0 ∨ Unmatched (c :: cs) := by
  refine or_iff_not_imp_left.mpr fun hbang l v hv hp => ?_
  obtain ⟨bs, more, rfl, rfl⟩ := pattern_cons hv hp
  obtain ⟨b, xs, he, htakes⟩ := takes_pattern hv
  obtain ⟨rfl, rfl⟩ := List.cons.inj he
  have hknown : n ≠ 0 → l ≠ .unknown := by
    rintro hn rfl
    obtain ⟨rfl, rfl⟩ := List.cons.inj (unknown_bang hv)
    have hs := scan_open hd h
    simp_all
  rcases scan_front h hv with hlt | ⟨rfl, rfl | hk⟩
  · have hl := hknown (by omega)
    rcases scan_open hd h with rfl | ⟨rfl, hs⟩ | ⟨rfl, hs⟩
    · omega
    · have hclosed : scanQuoted bs = ⟨l, bs.length⟩ := htakes
      rw [scanQuoted_append (by rwa [hclosed]), hclosed] at hs
      exact hl (Scan.mk.inj hs).1
    · have hclosed : scanRaw bs = ⟨l, bs.length⟩ := htakes
      rw [scanRaw_append (by rwa [hclosed]), hclosed] at hs
      exact hl (Scan.mk.inj hs).1
  · obtain ⟨rfl, rfl⟩ := List.cons.inj (unknown_bang hv)
    exact hbang ⟨rfl, rfl⟩
  · cases hk

section Amount

theorem decimal_longest {e : Text} (he : e ∈ decimals) : e.length ≤ decimal (e ++ rest) := by
  by_contra hlong
  have hcut : decimal (e ++ rest) = decimal e := decimal_cut (by omega)
  have hwhole : decimal (e ++ []) = e.length := decimal_matched he (by rintro c ⟨⟩)
  rw [List.append_nil] at hwhole
  omega

theorem decimals_plain (h : w ∈ decimals) : ∀ c ∈ w, c.isDigit = true ∨ c = '.' := by
  obtain ⟨ds, hds, v, hv, rfl⟩ := Language.mem_mul.mp h
  have hdigits := (mem_many_one.mp hds).2
  intro c hc
  rcases List.mem_append.mp hc with hc | hc
  · exact .inl (hdigits c hc)
  rcases mem_optional.mp hv with rfl | hv
  · cases hc
  obtain ⟨point, hpoint, es, hes, rfl⟩ := Language.mem_mul.mp hv
  obtain rfl := mem_word.mp hpoint
  rcases List.mem_append.mp hc with hc | hc
  · exact .inr (List.mem_singleton.mp hc)
  · exact .inl ((mem_many_one.mp hes).2 c hc)

theorem timeUnit_plain (h : ∀ c ∈ cs, c.isDigit = true ∨ c = '.') : timeUnit cs = 0 := by
  rcases Nat.eq_zero_or_pos (timeUnit cs) with hz | hu
  · exact hz
  obtain ⟨u, more, rfl, hu, -⟩ := timeUnit_declared hu
  obtain ⟨unit, hunit, rfl⟩ := mem_words.mp hu
  have hletter : ∀ s ∈ ["ns", "us", "µs", "ms", "s", "m", "h", "d", "w", "y"],
      ¬ ∀ c ∈ s.toList, c.isDigit = true ∨ c = '.' := by simp
  exact absurd (fun c hc => h c (List.mem_append_left _ hc)) (hletter unit hunit)

theorem many_append {l : Language Char} (hw : w ∈ many l) (hv : v ∈ l) : w ++ v ∈ many l := by
  obtain ⟨x, hx, ys, hys, rfl⟩ := Language.mem_mul.mp hw
  obtain ⟨xs, rfl, hxs⟩ := Language.mem_kstar.mp hys
  refine Language.mem_mul.mpr ⟨x, hx, (xs ++ [v]).flatten, Language.join_mem_kstar fun y hy => ?_,
    by simp⟩
  rcases List.mem_append.mp hy with hy | hy
  · exact hxs y hy
  · rwa [List.mem_singleton.mp hy]

theorem decimal_pos (hd : ∀ c ∈ cs.head?, c.isDigit = true) (hne : cs ≠ []) :
    0 < decimal cs := by
  obtain ⟨c, cs, rfl⟩ := List.exists_cons_of_ne_nil hne
  have hrun : 0 < run Char.isDigit (c :: cs) := by simp [run, hd c rfl]
  exact hrun.trans_le (run_le_decimal _)

theorem head_digit (h : w ∈ decimals) (rest : Text) :
    ∀ c ∈ (w ++ rest).head?, c.isDigit = true := by
  obtain ⟨x, xs, rfl, hx⟩ := decimals_head h
  rintro c ⟨⟩
  exact hx

/-- An amount without a unit spoils the duration before it. -/
theorem scanNumber_overrun (hw : w ∈ pattern .duration) (hd : ∀ c ∈ d.head?, c.isDigit = true)
    (hpos : 0 < decimal d) (hu : timeUnit (d.drop (decimal d)) = 0) :
    scanNumber (w ++ d) = ⟨.unknown, w.length + decimal d⟩ := by
  obtain ⟨n, hn⟩ := Nat.exists_eq_succ_of_ne_zero (hpos.trans_le (decimal_le d)).ne'
  rw [scanNumber_row hw hd, hn, amounts_spoilt hpos hu, Scan.after]

theorem overrun_scan (h : Overrun w d rest) :
    scanNumber rest = ⟨.unknown, (w ++ d).length⟩ := by
  obtain ⟨more, rfl⟩ := h.front
  have hdigit := head_digit h.amount more
  have hne : d ++ more ≠ [] := by
    obtain ⟨c, cs, rfl, -⟩ := decimals_head h.amount
    exact List.cons_ne_nil _ _
  have hpos : 0 < decimal (d ++ more) := decimal_pos hdigit hne
  have hdec : decimal (d ++ more) = d.length := by
    obtain ⟨a, ys, he, ha, hal⟩ := decimal_declared hpos
    have hle : a.length ≤ d.length := h.longest a ha ⟨ys, by simp [he]⟩
    have hge : d.length ≤ decimal (d ++ more) := decimal_longest h.amount
    omega
  have hunit : timeUnit ((d ++ more).drop (decimal (d ++ more))) = 0 := by
    rw [hdec, List.drop_left]
    by_contra hu
    obtain ⟨u, ys, rfl, hu, hlen⟩ := timeUnit_declared (Nat.pos_of_ne_zero hu)
    have hlonger : w ++ (d ++ u) ∈ pattern .duration :=
      many_append h.duration.matched (Language.mem_mul.mpr ⟨d, h.amount, u, hu, rfl⟩)
    have hle : (w ++ (d ++ u)).length ≤ w.length :=
      h.duration.longest .duration _ hlonger ⟨ys, by simp⟩
    simp only [List.length_append] at hle
    omega
  rw [List.append_assoc, scanNumber_overrun h.duration.matched hdigit hpos hunit, hdec,
    List.length_append]

theorem minutes_duration (h : w ∈ decimals * word "m") : w ∈ pattern .duration := by
  obtain ⟨a, ha, sign, hsign, rfl⟩ := Language.mem_mul.mp h
  have hunit : sign ∈ timeUnits := ⟨"m", by decide, mem_word.mp hsign⟩
  exact Language.mem_mul.mpr ⟨a ++ sign, Language.mem_mul.mpr ⟨a, ha, sign, hunit, rfl⟩, [],
    Language.nil_mem_kstar _, List.append_nil _⟩

theorem minutes_scan (h : Minutes w rest) : scanNumber rest = ⟨.number, w.length⟩ := by
  obtain ⟨more, rfl⟩ := h.front
  obtain ⟨a, ha, sign, hsign, rfl⟩ := Language.mem_mul.mp h.minutes
  obtain rfl := mem_word.mp hsign
  have hcut : a ++ "m".toList ++ ['i'] ++ more = a ++ 'm' :: 'i' :: more := by simp
  have hlongest := h.duration.longest
  rw [hcut] at hlongest ⊢
  have hends : EndsAmount ('m' :: 'i' :: more) := by
    rintro c ⟨⟩
    decide
  have hdec : decimal (a ++ 'm' :: 'i' :: more) = a.length := decimal_matched ha hends
  have hdrop : (a ++ 'm' :: 'i' :: more).drop (decimal (a ++ 'm' :: 'i' :: more)) =
      'm' :: 'i' :: more := by rw [hdec, List.drop_left]
  have hsize : sizeUnit ('m' :: 'i' :: more) = 0 := by
    by_contra hs
    obtain ⟨u, ys, he, hu, hlen⟩ := sizeUnit_declared (Nat.pos_of_ne_zero hs)
    have hle : (a ++ u).length ≤ (a ++ "m".toList).length :=
      hlongest .bytes _ (Language.mem_mul.mpr ⟨a, ha, u, hu, rfl⟩) ⟨ys, by simp [he]⟩
    -- The unit would be the `m` alone, which is none.
    obtain ⟨-, hwhole, hpos⟩ := sizeUnit_matched hu
    rcases u with _ | ⟨x, _ | ⟨y, u⟩⟩
    · cases hpos
    · obtain ⟨rfl, -⟩ := List.cons.inj he
      cases hwhole
    · simp at hle
  rw [scanNumber_minute (by rw [hdrop, hsize]) hdrop, hdec]
  simp

/-- A part of an amount behind a duration spoils the duration as well. -/
theorem spoilt_undeclared (hw : w ∈ pattern .duration) (hd : ∀ c ∈ d.head?, c.isDigit = true)
    (hne : d ≠ []) (hplain : ∀ c ∈ d, c.isDigit = true ∨ c = '.') : w ++ d ∉ pattern l := by
  intro hv
  have hspoilt : scanNumber (w ++ d) = ⟨.unknown, w.length + decimal d⟩ :=
    scanNumber_overrun hw hd (decimal_pos hd hne)
      (timeUnit_plain fun c hc => hplain c (List.mem_of_mem_drop hc))
  obtain ⟨c, cs, hc, hdigit⟩ := many_head hw
  obtain ⟨b, bs, hb, htakes⟩ := takes_pattern hv
  rw [hc, List.cons_append] at hb
  obtain ⟨rfl, rfl⟩ := List.cons.inj hb
  rw [scan_digit hdigit, ← List.cons_append, ← hc, hspoilt] at htakes
  obtain rfl := (Scan.mk.inj htakes).1
  have hbang := unknown_bang hv
  rw [hc, List.cons_append] at hbang
  obtain ⟨rfl, -⟩ := List.cons.inj hbang
  cases hdigit

theorem overrun_of_scan {more : Text} (hw : w ∈ pattern .duration) (hd : 0 < decimal more)
    (h : scanNumber (w ++ more) = ⟨.unknown, w.length + decimal more⟩) :
    ∃ d, d.length = decimal more ∧ Overrun w d (w ++ more) := by
  obtain ⟨d, ys, rfl, hdec, hlen⟩ := decimal_declared hd
  obtain ⟨c, cs, hc, hdigit⟩ := many_head hw
  refine ⟨d, hlen, ⟨hw, List.prefix_append .., fun l v hv hp => ?_⟩, hdec, ⟨ys, by simp⟩,
    fun e he hp => ?_⟩
  · by_contra hlong
    have hscan : scan c (cs ++ (d ++ ys)) = ⟨.unknown, w.length + d.length - 1⟩ := by
      rw [scan_digit hdigit, ← List.cons_append, ← hc, h, hlen]
    have hshort : v.length ≤ (w ++ d).length := by
      have hle := scan_longest hscan hv (by rwa [← List.cons_append, ← hc])
      simp only [hc, List.length_cons, List.length_append] at hle ⊢
      omega
    -- what goes beyond the duration is a part of the amount
    have hvd : v <+: w ++ d := List.prefix_of_prefix_length_le hp ⟨ys, by simp⟩ hshort
    obtain ⟨x, rfl⟩ : w <+: v :=
      List.prefix_of_prefix_length_le (List.prefix_append w d) hvd (by omega)
    have hxd : x <+: d := (List.prefix_append_right_inj w).mp hvd
    have hne : x ≠ [] := by
      rintro rfl
      simp at hlong
    have hxdigit : ∀ c ∈ x.head?, c.isDigit = true := by
      obtain ⟨z, zs, rfl⟩ := List.exists_cons_of_ne_nil hne
      obtain ⟨zs', rfl⟩ := hxd
      exact fun c hc => head_digit hdec [] c (by simpa using hc)
    exact spoilt_undeclared hw hxdigit hne
      (fun c hc => decimals_plain hdec c (hxd.subset hc)) hv
  · obtain ⟨zs, hz⟩ := (List.prefix_append_right_inj w).mp hp
    rw [hlen, ← hz]
    exact decimal_longest he

end Amount

/-- What may be read at the front of a text. -/
inductive Reads (rest : Text) : Token → Prop
  | longest {k : Kind} {w : Text} (h : Longest k w rest) : Reads rest ⟨k, w⟩
  | unmatched {w : Text} (h : Unmatched rest) : Reads rest ⟨.unknown, w⟩
  | minutes {w : Text} (h : Minutes w rest) : Reads rest ⟨.number, w⟩
  | overrun {w d : Text} (h : Overrun w d rest) : Reads rest ⟨.unknown, w ++ d⟩

theorem lexed_front (h : Lexed (t :: after)) :
    ∃ c cs, t.text = c :: cs ∧ spelled (t :: after) = c :: (cs ++ spelled after) ∧
      scan c (cs ++ spelled after) = ⟨t.kind, cs.length⟩ := by
  obtain ⟨c, cs, hx, hs, -⟩ := lexed_cons.mp h
  refine ⟨c, cs, hx, ?_, hs⟩
  rw [← List.cons_append, ← hx]
  rfl

theorem lexed_number (h : Lexed (t :: after))
    (hd : ∀ c ∈ (spelled (t :: after)).head?, c.isDigit = true) :
    0 < decimal (spelled (t :: after)) ∧
      scanNumber (spelled (t :: after)) = ⟨t.kind, t.text.length⟩ := by
  obtain ⟨c, cs, hx, hspelled, hs⟩ := lexed_front h
  have hdec : 0 < decimal (spelled (t :: after)) :=
    decimal_pos hd (by rw [hspelled]; exact List.cons_ne_nil _ _)
  refine ⟨hdec, ?_⟩
  have hpos : 0 < (scanNumber (spelled (t :: after))).more :=
    hdec.trans_le (decimal_le_scanNumber _)
  rw [hspelled] at hd hpos ⊢
  rw [scan_digit (hd c rfl)] at hs
  obtain ⟨hk, hn⟩ := Scan.mk.inj hs
  rw [hx, List.length_cons, ← hk, ← hn, Nat.sub_add_cancel hpos]

/-- A token read at digits, and what was read of them. -/
theorem token_eq (h : (⟨t.kind, t.text.length⟩ : Scan) = ⟨k, w.length⟩)
    (hp : w <+: spelled (t :: after)) : t = ⟨k, w⟩ := by
  obtain ⟨hk, hl⟩ := Scan.mk.inj h
  have hfront : t.text <+: spelled (t :: after) := List.prefix_append ..
  have hw : t.text = w :=
    (List.prefix_of_prefix_length_le hfront hp hl.le).eq_of_length hl
  rw [← hk, ← hw]

/-- What is read at digits. -/
theorem lexed_digits (h : Lexed (t :: after))
    (hd : ∀ c ∈ (spelled (t :: after)).head?, c.isDigit = true)
    (hlongest : ∀ l, ∀ v ∈ pattern l, v <+: spelled (t :: after) → v.length ≤ t.text.length) :
    Reads (spelled (t :: after)) t := by
  have hfront : t.text <+: spelled (t :: after) := List.prefix_append ..
  obtain ⟨hdec, hscan⟩ := lexed_number h hd
  have hreads := scanNumber_declared hdec
  rw [hscan] at hreads
  generalize hk : (⟨t.kind, t.text.length⟩ : Scan) = s at hreads
  cases hreads with
  | @declared k w more hc hw =>
    obtain rfl := token_eq hk ⟨more, hc.symm⟩
    exact .longest ⟨hw, hfront, hlongest⟩
  | @minutes w more hc hw =>
    have hp : w ++ ['i'] <+: spelled (t :: after) := ⟨more, by simp [hc]⟩
    obtain rfl := token_eq hk ((List.prefix_append ..).trans hp)
    exact .minutes ⟨⟨minutes_duration hw, hfront, hlongest⟩, hw, hp⟩
  | @overrun w more hc hw hpos =>
    obtain ⟨d, hlen, ho⟩ := overrun_of_scan hw hpos (by rw [← hc, hscan, hk])
    rw [← hc] at ho
    rw [← hlen, ← List.length_append] at hk
    obtain rfl := token_eq hk ho.front
    exact .overrun ho

/-- Whatever the lexer takes, it reads. -/
theorem lexed_reads (h : Lexed (t :: after)) : Reads (spelled (t :: after)) t := by
  obtain ⟨c, cs, hx, hspelled, hs⟩ := lexed_front h
  have hfront : t.text <+: spelled (t :: after) := List.prefix_append ..
  have hlongest : ∀ l, ∀ v ∈ pattern l, v <+: spelled (t :: after) →
      v.length ≤ t.text.length := by
    intro l v hv hp
    rw [hx, List.length_cons]
    exact scan_longest hs hv (hspelled ▸ hp)
  by_cases hd : c.isDigit = true
  · exact lexed_digits h (by rw [hspelled]; rintro x ⟨⟩; exact hd) hlongest
  · have hd : c.isDigit = false := by simpa using hd
    obtain ⟨kind, text⟩ := t
    by_cases hk : kind = .unknown
    · subst hk
      rcases scan_unmatched hd hs with ⟨rfl, hn⟩ | hnone
      · obtain rfl := List.length_eq_zero_iff.mp hn
        obtain rfl : text = ['!'] := hx
        exact .longest ⟨⟨"!", by decide, rfl⟩, hfront, hlongest⟩
      · exact .unmatched (hspelled ▸ hnone)
    · have hw : text ∈ pattern kind := by
        obtain rfl : text = c :: cs := hx
        exact scan_declared hd hs hk
      exact .longest ⟨hw, hfront, hlongest⟩

/-- The lexer takes the longest text of any pattern, as a token of a kind with that pattern, and
where no pattern matches the token is unknown. At digits there are two exceptions: a duration with a
further amount behind it is unknown together with it, and a duration of minutes with an `i` behind
it is a number. -/
theorem lex_longest (h : lex query = before ++ t :: after) :
    ((∀ w d, ¬ Overrun w d (spelled (t :: after))) → (∀ w, ¬ Minutes w (spelled (t :: after))) →
        Longest t.kind t.text (spelled (t :: after)) ∨
          Unmatched (spelled (t :: after)) ∧ t.kind = .unknown) ∧
      (∀ w d, Overrun w d (spelled (t :: after)) → t = ⟨.unknown, w ++ d⟩) ∧
      ∀ w, Minutes w (spelled (t :: after)) → t = ⟨.number, w⟩ := by
  have hlexed : Lexed (t :: after) := lexed_right (h ▸ lexed_lex query)
  have hdigit : ∀ {w}, w ∈ pattern .duration → w <+: spelled (t :: after) →
      ∀ c ∈ (spelled (t :: after)).head?, c.isDigit = true := by
    rintro w hw ⟨more, hc⟩
    obtain ⟨b, bs, rfl, hb⟩ := many_head hw
    rw [← hc]
    rintro c ⟨⟩
    exact hb
  refine ⟨fun hover hmin => ?_, fun w d ho => ?_, fun w hm => ?_⟩
  · have hreads := lexed_reads hlexed
    clear hlexed hdigit h
    generalize spelled (t :: after) = rest at hover hmin hreads ⊢
    cases hreads with
    | longest h => exact .inl h
    | unmatched h => exact .inr ⟨h, rfl⟩
    | minutes h => exact absurd h (hmin _)
    | overrun h => exact absurd h (hover _ _)
  · have hscan := (lexed_number hlexed (hdigit ho.duration.matched ho.duration.front)).2
    exact token_eq (hscan.symm.trans (overrun_scan ho)) ho.front
  · have hscan := (lexed_number hlexed (hdigit hm.duration.matched hm.duration.front)).2
    exact token_eq (hscan.symm.trans (minutes_scan hm)) hm.duration.front

theorem lex_longest_sized :
    lex "5m5mb".toList = [] ++ ⟨.duration, "5m5m".toList⟩ :: [⟨.identifier, ['b']⟩] ∧
      Longest .duration "5m5m".toList "5m5mb".toList := by
  have hlex : lex "5m5mb".toList = [] ++ ⟨.duration, "5m5m".toList⟩ :: [⟨.identifier, ['b']⟩] := by
    decide +kernel
  obtain ⟨hmatch, hover, hmin⟩ := lex_longest hlex
  refine ⟨hlex, (hmatch (fun w d h => ?_) fun w h => ?_).elim id fun h => by cases h.2⟩
  · cases hover w d h
  · cases hmin w h

theorem hour_declared : ['1', 'h'] ∈ pattern .duration := by
  have hdigit : ['1'] ∈ decimals :=
    Language.mem_mul.mpr ⟨['1'], mem_many_one.mpr ⟨by simp, by simp⟩, [],
      mem_optional.mpr (.inl rfl), rfl⟩
  have hunit : ['h'] ∈ timeUnits := ⟨"h", by simp, by simp⟩
  exact Language.mem_mul.mpr ⟨['1', 'h'], Language.mem_mul.mpr ⟨['1'], hdigit, ['h'], hunit, rfl⟩,
    [], Language.nil_mem_kstar _, rfl⟩

/-- A duration is lost for the digits behind it. -/
theorem lex_not_longest :
    ¬ ∀ (query : Text) (before after : List Token) (t : Token), lex query = before ++ t :: after →
      Longest t.kind t.text (spelled (t :: after)) ∨
        Unmatched (spelled (t :: after)) ∧ t.kind = .unknown := by
  intro hall
  have hlex : lex "1h30".toList = [] ++ ⟨.unknown, "1h30".toList⟩ :: [] := by decide +kernel
  rcases hall _ _ _ _ hlex with h | ⟨h, -⟩
  · exact absurd (unknown_bang h.matched) (by decide)
  · exact h .duration ['1', 'h'] hour_declared ⟨['3', '0'], rfl⟩

end LogQuery.Token
