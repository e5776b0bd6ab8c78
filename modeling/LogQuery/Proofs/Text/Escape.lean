import LogQuery.Text

/-! Backslashes put in front of characters, and taken away again by replacing texts. -/
namespace LogQuery.Text

variable {marks : List Char} {part old new s t : Text} {c : Char}

/-- The text with a backslash in front of each of some characters. -/
def escaped (marks : List Char) : Text → Text
  | [] => []
  | c :: t => if marks.contains c then '\\' :: c :: escaped marks t else c :: escaped marks t

theorem escaped_mark (h : c ∈ marks) (t : Text) :
    escaped marks (c :: t) = '\\' :: c :: escaped marks t := by
  rw [escaped, if_pos (List.contains_iff_mem.mpr h)]

theorem escaped_plain (h : c ∉ marks) (t : Text) :
    escaped marks (c :: t) = c :: escaped marks t := by
  rw [escaped, if_neg fun hc => h (List.contains_iff_mem.mp hc)]

theorem escaped_ne_nil (h : s ≠ []) (marks : List Char) : escaped marks s ≠ [] := by
  obtain ⟨c, t, rfl⟩ := List.exists_cons_of_ne_nil h
  rw [escaped]
  split <;> exact List.cons_ne_nil _ _

theorem replaceAfter_skip (old new skipped t : Text) :
    replaceAfter old new skipped.length (skipped ++ t) = replace t old new := by
  induction skipped with
  | nil => rfl
  | cons c skipped ih => exact ih

/-- An occurrence at the front is replaced. -/
theorem replace_front (h : old ≠ []) (new t : Text) :
    replace (old ++ t) old new = new ++ replace t old new := by
  obtain ⟨c, more, rfl⟩ := List.exists_cons_of_ne_nil h
  have hp : (c :: more).isPrefixOf (c :: (more ++ t)) = true :=
    List.isPrefixOf_iff_prefix.mpr (List.prefix_append (c :: more) t)
  rw [List.cons_append, replace, replaceAfter, if_pos hp]
  exact congrArg (new ++ ·) (replaceAfter_skip (c :: more) new more t)

/-- Without an occurrence at the front the first character stays. -/
theorem replace_cons (h : ¬ old <+: c :: t) (new : Text) :
    replace (c :: t) old new = c :: replace t old new := by
  rw [replace, replaceAfter, if_neg fun hp => h (List.isPrefixOf_iff_prefix.mp hp)]
  rfl

/-- A text, and what it is with every occurrence of a part replaced, from the left. -/
inductive Replaced (old new : Text) : Text → Text → Prop
  | nil : Replaced old new [] []
  | here (t u : Text) (h : Replaced old new t u) : Replaced old new (old ++ t) (new ++ u)
  | pass (c : Char) (t u : Text) (hc : ¬ old <+: c :: t) (h : Replaced old new t u) :
    Replaced old new (c :: t) (c :: u)

theorem replace_replaced (h : old ≠ []) (new t : Text) :
    Replaced old new t (replace t old new) := by
  induction hn : t.length using Nat.strongRecOn generalizing t with
  | ind n ih =>
    cases t with
    | nil => exact .nil
    | cons c t =>
      by_cases hp : old <+: c :: t
      · obtain ⟨u, hu⟩ := hp
        have hlength := congrArg List.length hu
        have hpos := List.length_pos_iff.mpr h
        rw [List.length_append] at hlength
        rw [← hu, replace_front h]
        exact .here u _ (ih u.length (by omega) u rfl)
      · rw [replace_cons hp]
        exact .pass c t _ hp (ih t.length (by rw [← hn]; exact Nat.lt_succ_self _) t rfl)

theorem replaced_iff (h : old ≠ []) : Replaced old new t s ↔ replace t old new = s := by
  constructor
  · intro hr
    induction hr with
    | nil => rfl
    | here t u _ ih => rw [replace_front h, ih]
    | pass c t u hc _ ih => rw [replace_cons hc, ih]
  · rintro rfl
    exact replace_replaced h new t

/-- What has nothing of the replaced part in it stays at the front. -/
theorem prefix_replaced (h : Replaced old new t s) (hold : old ≠ []) (hpart : ∀ c ∈ part, c ∉ old)
    (hp : part <+: t) : part <+: s := by
  induction h generalizing part with
  | nil => exact hp
  | here t u _ _ =>
    cases part with
    | nil => exact List.nil_prefix
    | cons d part =>
      obtain ⟨c, more, rfl⟩ := List.exists_cons_of_ne_nil hold
      obtain rfl := (List.cons_prefix_cons.mp hp).1
      exact (hpart d (.head _) (.head _)).elim
  | pass c t u _ _ ih =>
    cases part with
    | nil => exact List.nil_prefix
    | cons d part =>
      obtain ⟨rfl, hmore⟩ := List.cons_prefix_cons.mp hp
      exact List.cons_prefix_cons.mpr ⟨rfl, ih (fun e he => hpart e (.tail d he)) hmore⟩

theorem infix_behind (hne : part ≠ []) (hpart : ∀ c ∈ part, c ∉ old) (hin : part <:+: old ++ t) :
    part <:+: t := by
  induction old with
  | nil => exact hin
  | cons c old ih =>
    refine (List.infix_cons_iff.mp hin).elim (fun hp => ?_) fun hin =>
      ih (fun d hd ho => hpart d hd (.tail c ho)) hin
    obtain ⟨d, more, rfl⟩ := List.exists_cons_of_ne_nil hne
    obtain rfl := (List.cons_prefix_cons.mp hp).1
    exact (hpart d (.head _) (.head _)).elim

theorem infix_replaced (h : Replaced old new t s) (hold : old ≠ []) (hne : part ≠ [])
    (hpart : ∀ c ∈ part, c ∉ old) (hin : part <:+: t) : part <:+: s := by
  induction h with
  | nil => exact hin
  | here t u _ ih =>
    exact (ih (infix_behind hne hpart hin)).trans (List.suffix_append new u).isInfix
  | pass c t u hc h ih =>
    rcases List.infix_cons_iff.mp hin with hp | hin
    · exact (prefix_replaced (.pass c t u hc h) hold hpart hp).isInfix
    · exact List.infix_cons (ih hin)

/-- Where a text is put in the place of a longer one, the whole stays as it is or gets shorter. -/
theorem replace_cases (h : new.length < old.length) : (t : Text) →
    (¬ old <:+: t ∧ replace t old new = t) ∨
      (old <:+: t ∧ (replace t old new).length < t.length)
  | [] => by
    refine Or.inl ⟨fun hin => ?_, rfl⟩
    rw [List.infix_nil.mp hin] at h
    cases h
  | c :: t => by
    by_cases hp : old <+: c :: t
    · obtain ⟨u, hu⟩ := hp
      have hlength : (c :: t).length = old.length + u.length := by
        rw [← hu, List.length_append]
      have hold : old ≠ [] := List.ne_nil_of_length_pos (Nat.zero_lt_of_lt h)
      have hmore : (replace u old new).length ≤ u.length := by
        rcases replace_cases h u with ⟨-, he⟩ | ⟨-, hlt⟩
        · exact Nat.le_of_eq (congrArg List.length he)
        · exact Nat.le_of_lt hlt
      refine Or.inr ⟨⟨[], u, by simpa using hu⟩, ?_⟩
      rw [hlength, ← hu, replace_front hold, List.length_append]
      omega
    · rw [replace_cons hp, List.infix_cons_iff]
      rcases replace_cases h t with ⟨hnot, he⟩ | ⟨hin, hlt⟩
      · exact Or.inl ⟨fun hin => hin.elim hp hnot, by rw [he]⟩
      · exact Or.inr ⟨Or.inr hin, Nat.succ_lt_succ hlt⟩
termination_by t => t.length
decreasing_by all_goals simp only [List.length_cons] at *; omega

/-- Nothing is replaced by a shorter text just if the longer one does not occur. -/
theorem replace_eq_self (h : new.length < old.length) (t : Text) :
    replace t old new = t ↔ ¬ old <:+: t := by
  rcases replace_cases h t with ⟨hnot, he⟩ | ⟨hin, hlt⟩
  · simp [he, hnot]
  · simp only [hin, not_true_eq_false, iff_false]
    intro he
    rw [he] at hlt
    exact Nat.lt_irrefl _ hlt

/-- Doubled backslashes are halved again. -/
theorem replace_escaped (s : Text) : replace (escaped ['\\'] s) ['\\', '\\'] ['\\'] = s := by
  induction s with
  | nil => rfl
  | cons c s ih =>
    by_cases hc : c = '\\'
    · subst hc
      have hhalf : replace ('\\' :: '\\' :: escaped ['\\'] s) ['\\', '\\'] ['\\'] =
          '\\' :: replace (escaped ['\\'] s) ['\\', '\\'] ['\\'] := replace_front (by decide) _ _
      rw [escaped_mark (.head _), hhalf, ih]
    · have hp : ¬ ['\\', '\\'] <+: c :: escaped ['\\'] s := fun hp =>
        hc (List.cons_prefix_cons.mp hp).1.symm
      rw [escaped_plain (by simpa using hc), replace_cons hp, ih]

section Infix

/-- A text without escaped characters and backslashes is in front of an escaped text just if it is
in front of the text itself. -/
theorem prefix_escaped (hb : '\\' ∉ part) (hm : ∀ c ∈ part, c ∉ marks) :
    part <+: escaped marks s ↔ part <+: s := by
  induction s generalizing part with
  | nil => rfl
  | cons c s ih =>
    cases part with
    | nil => simp
    | cons d part =>
      rw [List.mem_cons, not_or] at hb
      have hd : d ∉ marks := hm d (.head _)
      by_cases hc : c ∈ marks
      · have hne : d ≠ c := fun h => hd (h ▸ hc)
        rw [escaped_mark hc, List.cons_prefix_cons, List.cons_prefix_cons]
        exact ⟨fun h => (hb.1 h.1.symm).elim, fun h => (hne h.1).elim⟩
      · rw [escaped_plain hc, List.cons_prefix_cons, List.cons_prefix_cons,
          ih hb.2 fun e he => hm e (.tail d he)]

/-- Such a text is neither made nor broken by the backslashes. -/
theorem infix_escaped (hb : '\\' ∉ part) (hm : ∀ c ∈ part, c ∉ marks) :
    part <:+: escaped marks s ↔ part <:+: s := by
  induction s with
  | nil => rfl
  | cons c s ih =>
    have hfront := prefix_escaped (s := c :: s) hb hm
    by_cases hc : c ∈ marks
    · rw [escaped_mark hc] at hfront ⊢
      have hsecond : part <+: c :: escaped marks s → part <+: c :: s := by
        cases part with
        | nil => exact fun _ => List.nil_prefix
        | cons d part =>
          intro h
          exact (hm d (.head _) ((List.cons_prefix_cons.mp h).1 ▸ hc)).elim
      rw [List.infix_cons_iff, List.infix_cons_iff, List.infix_cons_iff, hfront, ih]
      exact ⟨fun h => h.elim Or.inl fun h => h.imp_left hsecond, fun h => h.imp_right Or.inr⟩
    · rw [escaped_plain hc] at hfront ⊢
      rw [List.infix_cons_iff, List.infix_cons_iff, hfront, ih]

end Infix

/-- The text with a backslash in front of each double quote that has none. -/
def shielded : Text → Text
  | [] => []
  | '\\' :: '"' :: t => '\\' :: '"' :: shielded t
  | '"' :: t => '\\' :: '"' :: shielded t
  | c :: t => c :: shielded t

section Quotes

/-- What has to be escaped between double quotes. -/
def quoteMarks : List Char := ['\\', '"']

/-- An escaped text opens with no quote, and with an escaped quote only if it has one in front. -/
theorem escaped_opens (s : Text) :
    ¬ ['"'] <+: escaped quoteMarks s ∧
      (['\\', '"'] <+: escaped quoteMarks s → ∃ u, s = '"' :: u) := by
  cases s with
  | nil => simp [escaped]
  | cons c s =>
    by_cases hc : c ∈ quoteMarks
    · rw [escaped_mark hc]
      simp only [List.cons_prefix_cons]
      exact ⟨fun h => absurd h.1 (by decide), fun h => ⟨s, by rw [h.2.1]⟩⟩
    · rw [escaped_plain hc]
      simp only [List.cons_prefix_cons]
      exact ⟨fun h => hc (h.1 ▸ by decide), fun h => (hc (h.1 ▸ by decide)).elim⟩

/-- The text between double quotes once each escaped quote behind a backslash has lost one. -/
def unquoted (s : Text) : Text := replace (escaped quoteMarks s) ['\\', '\\', '"'] ['"']

theorem unquoted_pair (t : Text) : unquoted ('\\' :: '"' :: t) = '\\' :: '"' :: unquoted t := by
  have hquote : replace ('\\' :: '\\' :: '"' :: escaped quoteMarks t) ['\\', '\\', '"'] ['"'] =
      '"' :: unquoted t := replace_front (by decide) _ _
  rw [unquoted, escaped_mark (by decide), escaped_mark (by decide),
    replace_cons (by simp [List.cons_prefix_cons]), hquote]

theorem unquoted_quote (t : Text) : unquoted ('"' :: t) = '\\' :: '"' :: unquoted t := by
  rw [unquoted, escaped_mark (by decide), replace_cons (by simp [List.cons_prefix_cons]),
    replace_cons (by simp [List.cons_prefix_cons])]
  rfl

/-- A backslash ahead of no quote stays doubled. -/
theorem unquoted_backslash {t : Text} (h : ∀ u, t ≠ '"' :: u) :
    unquoted ('\\' :: t) = '\\' :: '\\' :: unquoted t := by
  obtain ⟨hopens, hmore⟩ := escaped_opens t
  have hsecond : ¬ ['\\', '"'] <+: escaped quoteMarks t := fun hp => by
    obtain ⟨u, hu⟩ := hmore hp
    exact h u hu
  rw [unquoted, escaped_mark (by decide),
    replace_cons (by simpa [List.cons_prefix_cons] using hopens),
    replace_cons (by simpa [List.cons_prefix_cons] using hsecond)]
  rfl

theorem unquoted_plain (h : c ∉ quoteMarks) (t : Text) : unquoted (c :: t) = c :: unquoted t := by
  have hne : '\\' ≠ c := fun hc => h (hc ▸ by decide)
  rw [unquoted, escaped_plain h, replace_cons (by simp [List.cons_prefix_cons, hne])]
  rfl

/-- Taking the backslashes away in two passes gives back what was escaped, but that a quote without
a backslash of its own keeps the one put in front of it. -/
theorem replace_unquoted (s : Text) : replace (unquoted s) ['\\', '\\'] ['\\'] = shielded s := by
  fun_induction shielded s with
  | case1 => rfl
  | case2 t ih =>
    rw [unquoted_pair, replace_cons (by simp [List.cons_prefix_cons]),
      replace_cons (by simp [List.cons_prefix_cons]), ih]
  | case3 t ih =>
    rw [unquoted_quote, replace_cons (by simp [List.cons_prefix_cons]),
      replace_cons (by simp [List.cons_prefix_cons]), ih]
  | case4 c t hpair hquote ih =>
    by_cases hc : c = '\\'
    · subst hc
      have hhalf : replace ('\\' :: '\\' :: unquoted t) ['\\', '\\'] ['\\'] =
          '\\' :: replace (unquoted t) ['\\', '\\'] ['\\'] := replace_front (by decide) _ _
      rw [unquoted_backslash fun u => hpair u rfl, hhalf, ih]
    · have hplain : c ∉ quoteMarks := by
        simpa [quoteMarks] using ⟨hc, hquote⟩
      have hne : '\\' ≠ c := fun h => hc h.symm
      rw [unquoted_plain hplain, replace_cons (by simp [List.cons_prefix_cons, hne]), ih]

end Quotes

/-- Each double quote stands right behind a backslash. -/
def Shielded (s : Text) : Prop :=
  ∀ before after, s = before ++ '"' :: after → before.getLast? = some '\\'

theorem shielded_pair : Shielded ('\\' :: '"' :: t) ↔ Shielded t := by
  constructor
  · rintro h before after rfl
    have hlast := h ('\\' :: '"' :: before) after rfl
    cases before with
    | nil => cases hlast
    | cons c before => simpa [List.getLast?_cons_cons] using hlast
  · intro h before after he
    match before, he with
    | [], he => cases he
    | [c], he =>
      obtain ⟨rfl, -⟩ := List.cons.inj he
      rfl
    | c :: d :: before, he =>
      have hlast := h before after (List.cons.inj (List.cons.inj he).2).2
      cases before with
      | nil => cases hlast
      | cons e before => simpa [List.getLast?_cons_cons] using hlast

theorem shielded_cons (h : ∀ u, c = '\\' → t = '"' :: u → False) (hc : c ≠ '"') :
    Shielded (c :: t) ↔ Shielded t := by
  constructor
  · rintro hs before after rfl
    have hlast := hs (c :: before) after rfl
    cases before with
    | nil => exact (h after (by simpa using hlast) rfl).elim
    | cons d before => simpa [List.getLast?_cons_cons] using hlast
  · intro hs before after he
    cases before with
    | nil => exact (hc (List.cons.inj he).1).elim
    | cons d before =>
      have hlast := hs before after (List.cons.inj he).2
      cases before with
      | nil => cases hlast
      | cons e before => simpa [List.getLast?_cons_cons] using hlast

/-- Nothing is put into a text that is shielded, and into no other. -/
theorem shielded_iff (s : Text) : shielded s = s ↔ Shielded s := by
  fun_induction shielded s with
  | case1 => simp [Shielded]
  | case2 t ih => rw [shielded_pair, ← ih]; simp
  | case3 t ih =>
    constructor
    · intro h
      cases (List.cons.inj h).1
    · intro h
      cases h [] t rfl
  | case4 c t hpair hquote ih =>
    rw [shielded_cons hpair hquote, ← ih]
    simp

end LogQuery.Text
