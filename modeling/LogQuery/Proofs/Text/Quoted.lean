import LogQuery.Text.Quoted
import LogQuery.Toml.Digit
import Mathlib.Data.List.Basic

/-! Text in quotes is read back, whatever follows it, and it breaks no line. -/
namespace LogQuery.Text

variable {c d : Char} {s t u v : Text} {n : Nat}

/-- Characters that are written as a backslash and a letter, by that letter. -/
def named? : Char → Option Char
  | '"' => some '"'
  | '\\' => some '\\'
  | 't' => some '\t'
  | 'r' => some '\r'
  | 'n' => some '\n'
  | '0' => some '\x00'
  | _ => none

/-- The character that stands first between quotes, and what is behind it. -/
def character? : Text → Option (Char × Text)
  | '\\' :: 'u' :: '{' :: t =>
    (Toml.ofDigits? 16 (t.takeWhile (· ≠ '}'))).map fun n =>
      (Char.ofNat n, (t.dropWhile (· ≠ '}')).tail)
  | '\\' :: c :: t => (named? c).map (·, t)
  | '"' :: _ => none
  | c :: t => some (c, t)
  | [] => none

/-- A number is written by the digits in front of its last one, if there are any, and that one. -/
theorem toDigits_cases {base : Nat} (hbase : 1 < base) (n : Nat) :
    n < base ∧ Nat.toDigits base n = [n.digitChar] ∨
      base ≤ n ∧ Nat.toDigits base n =
        Nat.toDigits base (n / base) ++ [(n % base).digitChar] := by
  rcases Nat.lt_or_ge n base with hn | hn
  · exact .inl ⟨hn, Nat.toDigits_of_lt_base hn⟩
  · exact .inr ⟨hn, Nat.toDigits_of_base_le hbase hn⟩

theorem hex_cases (n : Nat) :
    n < 16 ∧ hex n = [n.digitChar] ∨ 16 ≤ n ∧ hex n = hex (n / 16) ++ [(n % 16).digitChar] :=
  toDigits_cases (by decide) n

/-- A digit is read as its value in every base in which it is one. -/
theorem digit_value : ∀ base ≤ 16, ∀ d < base, Toml.digit? base d.digitChar = some d := by
  decide

/-- The digits of a number are read as that number. -/
theorem digits_toDigits {base : Nat} (hone : 1 < base) (hbase : base ≤ 16) (n : Nat) :
    Toml.ofDigits? base (Nat.toDigits base n) = some n := by
  induction n using Nat.strongRecOn with
  | ind n ih =>
    rcases toDigits_cases hone n with ⟨hn, hx⟩ | ⟨hn, hx⟩
    · rw [hx, Toml.ofDigits?]
      simp [digit_value base hbase n hn]
    · have hi := ih (n / base) (Nat.div_lt_self (by omega) hone)
      have hlast := digit_value base hbase (n % base) (Nat.mod_lt n (by omega))
      rw [Toml.ofDigits?] at hi
      rw [hx, Toml.ofDigits?, List.foldlM_append, hi]
      simp [hlast, Nat.div_add_mod]

theorem digits_hex (n : Nat) : Toml.ofDigits? 16 (hex n) = some n :=
  digits_toDigits (by decide) (by decide) n

/-- A digit ends neither the number nor the line. -/
theorem hex_digit : ∀ d < 16, d.digitChar ≠ '}' ∧ d.digitChar ≠ '\n' ∧ d.digitChar ≠ '\r' := by
  decide

theorem hex_plain (hd : d ∈ hex n) : d ≠ '}' ∧ d ≠ '\n' ∧ d ≠ '\r' := by
  induction n using Nat.strongRecOn with
  | ind n ih =>
    rcases hex_cases n with ⟨hn, hx⟩ | ⟨hn, hx⟩
    · rw [hx, List.mem_singleton] at hd
      exact hd ▸ hex_digit n hn
    · rw [hx, List.mem_append, List.mem_singleton] at hd
      rcases hd with hd | rfl
      · exact ih _ (by omega) hd
      · exact hex_digit (n % 16) (Nat.mod_lt n (by decide))

/-- What stands for a character is read as that character. -/
theorem character_escape (c : Char) (t : Text) : character? (escape c ++ t) = some (c, t) := by
  unfold escape
  split
  all_goals try rfl
  next hq hb _ _ _ _ =>
    split
    · have hhex : ∀ d ∈ hex c.toNat, decide (d ≠ '}') = true := fun d hd =>
        decide_eq_true (hex_plain hd).1
      have htake : (hex c.toNat ++ '}' :: t).takeWhile (· ≠ '}') = hex c.toNat := by
        rw [List.takeWhile_append_of_pos hhex]
        simp
      have hdrop : (hex c.toNat ++ '}' :: t).dropWhile (· ≠ '}') = '}' :: t := by
        rw [List.dropWhile_append_of_pos hhex]
        simp
      show character? ('\\' :: 'u' :: '{' :: (hex c.toNat ++ ['}'] ++ t)) = _
      rw [List.append_assoc, List.singleton_append, character?, htake, hdrop, digits_hex]
      simp
    · rw [List.singleton_append, character?]
      · exact fun u h _ => hb h
      · exact fun d u h _ => hb h
      · exact hq

/-- No character breaks the line where it stands between quotes. -/
theorem escape_unbroken (hd : d ∈ escape c) : d ≠ '\n' ∧ d ≠ '\r' := by
  -- a backslash and a letter
  have hpair {l : Char} (hl : l ≠ '\n' ∧ l ≠ '\r') (hd : d ∈ ['\\', l]) : d ≠ '\n' ∧ d ≠ '\r' := by
    rcases List.mem_pair.mp hd with rfl | rfl
    · decide
    · exact hl
  unfold escape at hd
  split at hd
  all_goals try exact hpair (by decide) hd
  next _ _ _ hr hn _ =>
    split at hd
    · simp only [List.mem_append, List.mem_cons, List.not_mem_nil, or_false] at hd
      rcases hd with ((rfl | rfl | rfl) | hd) | rfl
      · decide
      · decide
      · decide
      · exact (hex_plain hd).2
      · decide
    · rw [List.mem_singleton] at hd
      exact hd ▸ ⟨hn, hr⟩

theorem quoted_unbroken (hd : d ∈ quoted t) : d ≠ '\n' ∧ d ≠ '\r' := by
  simp only [quoted, List.mem_append, List.mem_cons, List.mem_flatMap, List.not_mem_nil,
    or_false] at hd
  rcases hd with (rfl | ⟨c, -, hd⟩) | rfl
  · decide
  · exact escape_unbroken hd
  · decide

theorem escaped_injective {s t : Text}
    (h : s.flatMap escape ++ '"' :: u = t.flatMap escape ++ '"' :: v) : s = t ∧ u = v := by
  -- what is read first is a character, or nothing at the quote that ends the text
  have hread {c : Char} {s w : Text} : character? ((c :: s).flatMap escape ++ w) =
      some (c, s.flatMap escape ++ w) := by
    rw [List.flatMap_cons, List.append_assoc, character_escape]
  have hc := congrArg character? h
  induction s generalizing t with
  | nil =>
    cases t with
    | nil => exact ⟨rfl, (List.cons.inj h).2⟩
    | cons d t =>
      rw [hread] at hc
      cases hc
  | cons c s ih =>
    cases t with
    | nil =>
      rw [hread] at hc
      cases hc
    | cons d t =>
      rw [hread, hread, Option.some.injEq, Prod.mk.injEq] at hc
      obtain ⟨rfl, hrest⟩ := hc
      obtain ⟨rfl, huv⟩ := ih hrest (congrArg character? hrest)
      exact ⟨rfl, huv⟩

/-- A text in quotes tells what it is and where it ends. -/
theorem quoted_injective (h : quoted s ++ u = quoted t ++ v) : s = t ∧ u = v := by
  simp only [quoted, List.cons_append, List.append_assoc, List.cons.injEq, true_and] at h
  exact escaped_injective h

end LogQuery.Text
