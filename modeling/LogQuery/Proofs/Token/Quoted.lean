import LogQuery.Proofs.Structure

/-! Strings as they are written: a value between two quotes of one sort. -/
namespace LogQuery

namespace Token

variable {c : Char} {cs : Text} {t : Token}

/-- The text without its first and its last character. -/
def value (t : Token) : Text := t.text.tail.dropLast

def quotes : List Char := ['"', '\x60']

/-- A value between two quotes of one sort. -/
def IsQuoted (t : Token) : Prop := ∃ q ∈ quotes, t.text = q :: (t.value ++ [q])

theorem isQuoted_of_text {q : Char} {v : Text} (hq : q ∈ quotes) (h : t.text = q :: (v ++ [q])) :
    t.IsQuoted := by
  refine ⟨q, hq, ?_⟩
  rw [value, h, List.tail_cons, List.dropLast_concat]

/-- A quote takes one byte. -/
theorem quote_size {q : Char} (h : q ∈ quotes) : q.utf8Size = 1 := by
  simp only [quotes, List.mem_cons, List.not_mem_nil, or_false] at h
  rcases h with rfl | rfl <;> rfl

theorem scanQuoted_string (h : (scanQuoted cs).kind = .string) :
    ∃ v, cs.take (scanQuoted cs).more = v ++ ['"'] := by
  fun_induction scanQuoted cs with
  | case1 => cases h
  | case2 => exact ⟨[], rfl⟩
  | case3 => cases h
  | case4 => cases h
  | case5 c cs _ ih =>
    obtain ⟨v, hv⟩ := ih h
    exact ⟨'\\' :: c :: v, by simp [Scan.after, Nat.add_comm 2, hv]⟩
  | case6 c cs _ _ _ _ ih =>
    obtain ⟨v, hv⟩ := ih h
    exact ⟨c :: v, by simp [Scan.after, Nat.add_comm 1, hv]⟩

theorem scanRaw_string (h : (scanRaw cs).kind = .string) :
    ∃ v, cs.take (scanRaw cs).more = v ++ ['\x60'] := by
  fun_induction scanRaw cs with
  | case1 => cases h
  | case2 => exact ⟨[], rfl⟩
  | case3 c cs _ ih =>
    obtain ⟨v, hv⟩ := ih h
    exact ⟨c :: v, by simp [Scan.after, Nat.add_comm 1, hv]⟩

theorem scan_string (h : (scan c cs).kind = .string) :
    ∃ v, c ∈ quotes ∧ cs.take (scan c cs).more = v ++ [c] := by
  unfold scan at h ⊢
  split_ifs at h ⊢ with hb hn hd
  · have hk := scanNumber_kind (c :: cs)
    rw [show (scanNumber (c :: cs)).kind = .string from h] at hk
    exact absurd hk (by decide)
  · split at h
    case h_2 =>
      obtain ⟨v, hv⟩ := scanQuoted_string h
      exact ⟨v, by simp [quotes], hv⟩
    case h_3 =>
      obtain ⟨v, hv⟩ := scanRaw_string h
      exact ⟨v, by simp [quotes], hv⟩
    case h_4 => split at h <;> cases h
    all_goals cases h

theorem string_quoted (h : t ∈ lex cs) (hk : t.kind = .string) : t.IsQuoted := by
  obtain ⟨c, ds, rfl⟩ := mem_lexAfter h
  obtain ⟨v, hq, hv⟩ := scan_string hk
  exact isQuoted_of_text hq (congrArg (List.cons c) hv)

end Token

variable {query before : Text} {l : Token} {e : Element} {x : Text}

/-- Every string in the tree of a query is in quotes. -/
theorem leaf_quoted (h : l ∈ (parse query).leaves) (hk : l.kind = .string) : l.IsQuoted := by
  obtain ⟨t, ht, htext, hr⟩ := reads_token (parse_reads query) h
  have hkind : t.kind = .string := by
    rcases hr with hr | ⟨w, -, hw⟩
    · rw [← hr, hk]
    · rw [hk] at hw
      cases hw
  obtain ⟨q, hq, ht⟩ := Token.string_quoted ht hkind
  exact Token.isQuoted_of_text hq (htext.trans ht)

/-- Where a string stands, its value is what is unquoted. -/
theorem at_value (h : Element.At query before (.ofToken l) e) (hl : l.IsQuoted) :
    e.span.unquoted query = l.value := by
  obtain ⟨q, hq, ht⟩ := hl
  exact Element.at_unquoted h ht (Token.quote_size hq) (Token.quote_size hq)

end LogQuery
