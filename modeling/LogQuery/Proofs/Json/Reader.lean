import Mathlib.Data.List.Basic
import LogQuery.Json.Printer
import LogQuery.Toml.Digit

/-! Reading JSON, with blanks wherever they may stand. A value that is printed is read back. -/
namespace LogQuery.Json

namespace Reader

def isBlank : Char → Bool
  | ' ' | '\t' | '\n' | '\r' => true
  | _ => false

def skip (t : Text) : Text := t.dropWhile isBlank

def named? : Char → Option Char
  | '"' => some '"'
  | '\\' => some '\\'
  | '/' => some '/'
  | 'b' => some '\x08'
  | 'f' => some '\x0c'
  | 'n' => some '\n'
  | 'r' => some '\r'
  | 't' => some '\t'
  | _ => none

/-- Characters that stand for themselves between quotes. -/
def isPlain (c : Char) : Bool := 0x20 ≤ c.toNat && c ≠ '"' && c ≠ '\\'

/-- Numbers that are the first half of a character. -/
def isHigh (n : Nat) : Bool := 0xD800 ≤ n && n < 0xDC00

/-- Numbers that are the second half of a character. -/
def isLow (n : Nat) : Bool := 0xDC00 ≤ n && n < 0xE000

def joined (high low : Nat) : Char :=
  Char.ofNat (0x10000 + 0x400 * (high - 0xD800) + (low - 0xDC00))

def prepend (c : Char) : Text × Text → Text × Text
  | (read, rest) => (c :: read, rest)

/-- After the opening quote of a string. The number is the half of a character whose other half has
to follow. -/
def text? : Option Nat → Text → Option (Text × Text)
  | none, '"' :: t => some ([], t)
  | none, '\\' :: 'u' :: a :: b :: c :: d :: t =>
    (Toml.ofDigits? 16 [a, b, c, d]).bind fun n =>
      if isHigh n then text? (some n) t
      else if isLow n then none
      else (text? none t).map (prepend (Char.ofNat n))
  | some high, '\\' :: 'u' :: a :: b :: c :: d :: t =>
    (Toml.ofDigits? 16 [a, b, c, d]).bind fun n =>
      if isLow n then (text? none t).map (prepend (joined high n)) else none
  | none, '\\' :: c :: t => (named? c).bind fun c => (text? none t).map (prepend c)
  | none, c :: t => if isPlain c then (text? none t).map (prepend c) else none
  | _, _ => none

/-- After one digit or more. -/
def digits? : Text → Option Text
  | c :: t => if c.isDigit then some (t.dropWhile Char.isDigit) else none
  | [] => none

def whole? : Text → Option Text
  | '0' :: t => some t
  | t => digits? t

def places? : Text → Option Text
  | '.' :: t => digits? t
  | t => some t

def unsigned (signs : List Char) : Text → Text
  | c :: t => if c ∈ signs then t else c :: t
  | [] => []

def exponent? : Text → Option Text
  | c :: t => if c = 'e' ∨ c = 'E' then digits? (unsigned ['+', '-'] t) else some (c :: t)
  | [] => some []

/-- After a number that is as long as possible. -/
def number? (t : Text) : Option Text :=
  ((whole? (unsigned ['-'] t)).bind places?).bind exponent?

def isNumber (t : Text) : Bool := number? t = some []

def scalar? : Text → Option (Json × Text)
  | 'n' :: 'u' :: 'l' :: 'l' :: t => some (null, t)
  | 't' :: 'r' :: 'u' :: 'e' :: t => some (bool true, t)
  | 'f' :: 'a' :: 'l' :: 's' :: 'e' :: t => some (bool false, t)
  | '"' :: t => (text? none t).map fun (s, t) => (string s, t)
  | t => (number? t).map fun rest => (number (t.take (t.length - rest.length)), rest)

section Items

variable {α : Type} (item? : Text → Option (α × Text)) (close : Char)

/-- The items behind a first one, up to the closing mark. -/
def more? : Nat → Text → Option (List α × Text)
  | 0, _ => none
  | fuel + 1, t =>
    match skip t with
    | ',' :: t =>
      (item? (skip t)).bind fun (x, t) => (more? fuel t).map fun (xs, t) => (x :: xs, t)
    | c :: t => if c = close then some ([], t) else none
    | [] => none

def items? (t : Text) : Option (List α × Text) :=
  match skip t with
  | [] => none
  | c :: u =>
    if c = close then some ([], u)
    else
      (item? (c :: u)).bind fun (x, t) =>
        (more? item? close (t.length + 1) t).map fun (xs, t) => (x :: xs, t)

end Items

/-- A name and a value. -/
def member? (value? : Text → Option (Json × Text)) : Text → Option ((Text × Json) × Text)
  | '"' :: t =>
    (text? none t).bind fun (name, t) =>
      match skip t with
      | ':' :: t => (value? (skip t)).map fun (x, t) => ((name, x), t)
      | _ => none
  | _ => none

/-- A value in which arrays and objects stand at most so deep. -/
def value? : Nat → Text → Option (Json × Text)
  | depth + 1, '[' :: t => (items? (value? depth) ']' t).map fun (xs, t) => (array xs, t)
  | depth + 1, '{' :: t => (items? (member? (value? depth)) '}' t).map fun (ms, t) => (object ms, t)
  | _, t => scalar? t

end Reader

/-- The one value that a text writes. -/
def read? (t : Text) : Option Json :=
  (Reader.value? t.length (Reader.skip t)).bind fun (j, rest) =>
    if (Reader.skip rest).isEmpty then some j else none

namespace Reader

variable {c : Char} {t u rest : Text} {n : Nat}

theorem escape_digits : ∀ n < 0x20, Toml.ofDigits? 16 ('0' :: '0' :: hexDigits n) = some n := by
  decide

/-- What stands for a character is read as that character. -/
theorem text_escape (c : Char) (t : Text) :
    text? none (escape c ++ t) = (text? none t).map (prepend c) := by
  unfold escape
  split
  all_goals try rfl
  next hq hb _ _ _ _ _ =>
    split
    · next hc =>
      have hn := escape_digits c.toNat hc
      have hhigh : isHigh c.toNat = false := by simp [isHigh]; omega
      have hlow : isLow c.toNat = false := by simp [isLow]; omega
      show (Toml.ofDigits? 16 ('0' :: '0' :: hexDigits c.toNat)).bind _ = _
      rw [hn]
      simp [hhigh, hlow]
    · next hc =>
      have hp : isPlain c = true := by
        simp only [isPlain, Bool.and_eq_true, decide_eq_true_eq]
        exact ⟨⟨by omega, hq⟩, hb⟩
      have hplain : text? none (c :: t) =
          if isPlain c then (text? none t).map (prepend c) else none := by
        rw [text?]
        · exact hq
        · exact fun _ _ _ _ _ h _ => hb h
        · exact fun _ _ h _ => hb h
      exact hplain.trans (if_pos hp)

theorem text_quoted (t rest : Text) :
    text? none (t.flatMap escape ++ '"' :: rest) = some (t, rest) := by
  induction t with
  | nil => rfl
  | cons c t ih =>
    rw [List.flatMap_cons, List.append_assoc, text_escape, ih]
    rfl

/-- A number ends ahead of what is no part of numbers. -/
def isNumberPart (c : Char) : Bool := c.isDigit || c = '.' || c = 'e' || c = 'E'

def Ends (t : Text) : Prop := ∀ c ∈ t.head?, isNumberPart c = false

theorem digits_append (hr : Ends rest) (h : digits? t = some u) :
    digits? (t ++ rest) = some (u ++ rest) := by
  cases t with
  | nil => cases h
  | cons c t =>
    rw [digits?] at h
    split at h
    · next hc =>
      obtain rfl := Option.some.inj h
      rw [List.cons_append, digits?, if_pos hc, List.dropWhile_append]
      split
      · next he =>
        rw [List.isEmpty_iff.mp he, List.nil_append]
        cases rest with
        | nil => rfl
        | cons d rest =>
          have hd := hr d rfl
          simp only [isNumberPart, Bool.or_eq_false_iff] at hd
          simp [hd.1.1.1]
      · rfl
    · cases h

theorem digits_ne_nil (h : digits? t = some u) : t ≠ [] := by
  rintro rfl
  cases h

theorem unsigned_append (signs : List Char) (h : t ≠ []) (rest : Text) :
    unsigned signs (t ++ rest) = unsigned signs t ++ rest := by
  cases t with
  | nil => exact absurd rfl h
  | cons c t =>
    rw [List.cons_append, unsigned, unsigned]
    split <;> rfl

theorem unsigned_ne_nil {signs : List Char} (h : unsigned signs t ≠ []) : t ≠ [] := by
  rintro rfl
  exact h rfl

theorem whole_append (hr : Ends rest) (h : whole? t = some u) :
    whole? (t ++ rest) = some (u ++ rest) := by
  unfold whole? at h
  split at h
  · obtain rfl := Option.some.inj h
    rfl
  · next hzero =>
    cases t with
    | nil => cases h
    | cons c t =>
      have hc : c ≠ '0' := fun hc => hzero t (hc ▸ rfl)
      rw [List.cons_append, whole?]
      · exact digits_append hr h
      · exact fun _ he => hc (List.cons.inj he).1

theorem places_append (hr : Ends rest) (h : places? t = some u) :
    places? (t ++ rest) = some (u ++ rest) := by
  unfold places? at h
  split at h
  · exact digits_append hr h
  · next hdot =>
    obtain rfl := Option.some.inj h
    have hhead : ∀ v, t ++ rest ≠ '.' :: v := by
      intro v hv
      cases t with
      | nil => exact absurd (hr '.' (by simp [show rest = '.' :: v from hv])) (by decide)
      | cons c t => exact hdot t (by rw [(List.cons.inj hv).1])
    rw [places?]
    exact hhead

theorem exponent_append (hr : Ends rest) (h : exponent? t = some u) :
    exponent? (t ++ rest) = some (u ++ rest) := by
  cases t with
  | nil =>
    obtain rfl := Option.some.inj h
    cases rest with
    | nil => rfl
    | cons d rest =>
      have hd := hr d rfl
      have hne : ¬ (d = 'e' ∨ d = 'E') := by
        rintro (rfl | rfl)
        · exact absurd hd (by decide)
        · exact absurd hd (by decide)
      rw [List.nil_append, exponent?, if_neg hne]
  | cons c t =>
    rw [exponent?] at h
    rw [List.cons_append, exponent?]
    split at h
    · next hc =>
      rw [if_pos hc, unsigned_append _ (unsigned_ne_nil (digits_ne_nil h))]
      exact digits_append hr h
    · next hc =>
      obtain rfl := Option.some.inj h
      rw [if_neg hc]
      rfl

theorem whole_ne_nil (h : whole? t = some u) : t ≠ [] := by
  rintro rfl
  cases h

/-- A number is read up to its end, whatever follows it. -/
theorem number_append (hr : Ends rest) (h : isNumber t = true) :
    number? (t ++ rest) = some rest := by
  have hn : number? t = some [] := of_decide_eq_true h
  obtain ⟨v, hv, hexponent⟩ := Option.bind_eq_some_iff.mp hn
  obtain ⟨u, hwhole, hplaces⟩ := Option.bind_eq_some_iff.mp hv
  rw [number?, unsigned_append _ (unsigned_ne_nil (whole_ne_nil hwhole)),
    whole_append hr hwhole, Option.bind_some, places_append hr hplaces, Option.bind_some,
    exponent_append hr hexponent, List.nil_append]

/-- A number begins with its sign or a digit. -/
theorem number_begins (h : isNumber t = true) :
    ∃ c u, t = c :: u ∧ (c = '-' ∨ c.isDigit = true) := by
  have hn : number? t = some [] := of_decide_eq_true h
  obtain ⟨v, hv, -⟩ := Option.bind_eq_some_iff.mp hn
  obtain ⟨u, hwhole, -⟩ := Option.bind_eq_some_iff.mp hv
  cases t with
  | nil => cases hwhole
  | cons c t =>
    refine ⟨c, t, rfl, ?_⟩
    by_cases hc : c = '-'
    · exact Or.inl hc
    · right
      rw [unsigned, if_neg (by simpa using hc)] at hwhole
      unfold whole? at hwhole
      split at hwhole
      · next heq =>
        rw [(List.cons.inj heq).1]
        rfl
      · rw [digits?] at hwhole
        split at hwhole
        · next hd => exact hd
        · cases hwhole

/-- A text that some item is read from, whatever follows the end of it. -/
structure Reads {α : Type} (item? : Text → Option (α × Text)) (t : Text) (x : α) : Prop where
  begins : ∃ c u, t = c :: u ∧ isBlank c = false ∧ c ≠ ']' ∧ c ≠ '}'
  reads : ∀ rest, Ends rest → item? (t ++ rest) = some (x, rest)

theorem skip_begins {α : Type} {item? : Text → Option (α × Text)} {x : α} (h : Reads item? t x)
    (rest : Text) : skip (t ++ rest) = t ++ rest := by
  obtain ⟨c, u, rfl, hc, -⟩ := h.begins
  simp [skip, hc]

theorem skip_newline (depth : Nat) (t : Text) : skip (newline depth ++ t) = skip t := by
  have hblank : ∀ n, List.dropWhile isBlank (List.replicate n ' ' ++ t) = skip t := by
    intro n
    induction n with
    | zero => rfl
    | succ n ih => exact ih
  exact hblank (2 * depth)

section Items

variable {α : Type} {item? : Text → Option (α × Text)} {close : Char} {print : α → Text}
  {x : α} {xs : List α} {depth fuel : Nat}

/-- Items behind a first one, each on a line of its own. -/
def behind (depth : Nat) (print : α → Text) (xs : List α) : Text :=
  xs.flatMap fun x => ',' :: newline depth ++ print x

theorem behind_cons (depth : Nat) (print : α → Text) (x : α) (xs : List α) :
    behind depth print (x :: xs) = ',' :: newline depth ++ print x ++ behind depth print xs :=
  List.flatMap_cons

theorem behind_length (depth : Nat) (print : α → Text) (xs : List α) :
    xs.length ≤ (behind depth print xs).length := by
  induction xs with
  | nil => exact Nat.zero_le _
  | cons x xs ih =>
    rw [behind_cons]
    simp only [List.length_append, List.length_cons]
    omega

/-- Behind an item there is a comma or the end of the line. -/
theorem behind_ends (depth : Nat) (print : α → Text) (xs : List α) (n : Nat) (rest : Text) :
    Ends (behind depth print xs ++ (newline n ++ rest)) := by
  intro c hc
  cases xs with
  | nil =>
    obtain rfl : '\n' = c := Option.some.inj hc
    rfl
  | cons x xs =>
    obtain rfl : ',' = c := Option.some.inj hc
    rfl

theorem skip_item (depth : Nat) (hx : Reads item? t x) (rest : Text) :
    skip (newline depth ++ (t ++ rest)) = t ++ rest := by
  rw [skip_newline, skip_begins hx]

theorem more_reads (depth n : Nat) (hclose : close = ']' ∨ close = '}')
    (hxs : ∀ x ∈ xs, Reads item? (print x) x) (hfuel : xs.length < fuel) (rest : Text) :
    more? item? close fuel (behind depth print xs ++ (newline n ++ close :: rest)) =
      some (xs, rest) := by
  obtain ⟨fuel, rfl⟩ := Nat.exists_eq_succ_of_ne_zero (Nat.ne_of_gt (Nat.zero_lt_of_lt hfuel))
  induction xs generalizing fuel with
  | nil =>
    have hskip : skip (newline n ++ close :: rest) = close :: rest := by
      rw [skip_newline]
      rcases hclose with rfl | rfl <;> rfl
    rw [behind, List.flatMap_nil, List.nil_append, more?, hskip]
    rcases hclose with rfl | rfl <;> rfl
  | cons x xs ih =>
    obtain ⟨hx, hmore⟩ := List.forall_mem_cons.mp hxs
    have hlt : xs.length < fuel := Nat.lt_of_succ_lt_succ hfuel
    obtain ⟨fuel, rfl⟩ := Nat.exists_eq_succ_of_ne_zero (Nat.ne_of_gt (Nat.zero_lt_of_lt hlt))
    rw [behind_cons, List.append_assoc, List.append_assoc, List.cons_append, more?]
    show (item? (skip (newline depth ++ _))).bind _ = _
    rw [skip_item depth hx, hx.reads _ (behind_ends depth print xs n _)]
    show Option.map _ (more? item? close (fuel + 1) _) = _
    rw [ih hmore _ hlt]
    rfl

theorem items_cons {c : Char} (hskip : skip t = c :: u) (hc : c ≠ close) :
    items? item? close t = (item? (c :: u)).bind fun (x, t) =>
      (more? item? close (t.length + 1) t).map fun (xs, t) => (x :: xs, t) := by
  rw [items?, hskip]
  exact if_neg hc

/-- Items on lines of their own, with commas between them. -/
theorem items_read (depth n : Nat) (hclose : close = ']' ∨ close = '}')
    (hxs : ∀ y ∈ x :: xs, Reads item? (print y) y) (rest : Text) :
    items? item? close
        (newline depth ++ (print x ++ (behind depth print xs ++ (newline n ++ close :: rest)))) =
      some (x :: xs, rest) := by
  obtain ⟨hx, hmore⟩ := List.forall_mem_cons.mp hxs
  have hfuel : xs.length < (behind depth print xs ++ (newline n ++ close :: rest)).length + 1 := by
    have := behind_length depth print xs
    rw [List.length_append]
    omega
  have hrest := more_reads depth n hclose hmore hfuel rest
  have hread := hx.reads _ (behind_ends depth print xs n (close :: rest))
  have hskip := skip_item depth hx (behind depth print xs ++ (newline n ++ close :: rest))
  obtain ⟨c, u, hbegin, -, hbracket, hbrace⟩ := hx.begins
  have hne : c ≠ close := by
    rcases hclose with rfl | rfl
    · exact hbracket
    · exact hbrace
  rw [hbegin, List.cons_append] at hread hskip
  rw [hbegin, List.cons_append, items_cons hskip hne, hread]
  show Option.map _ (more? item? close _ _) = _
  rw [hrest]
  rfl

end Items

theorem prettyItems_behind (depth : Nat) (xs : List Json) :
    prettyItems depth xs = behind depth (pretty depth) xs := by
  induction xs with
  | nil => rfl
  | cons x xs ih => rw [prettyItems, ih, behind_cons]

/-- A member of an object as it is printed. -/
def prettyMember (depth : Nat) (m : Text × Json) : Text :=
  quote m.1 ++ [':', ' '] ++ m.2.pretty depth

theorem prettyMembers_behind (depth : Nat) (ms : List (Text × Json)) :
    prettyMembers depth ms = behind depth (prettyMember depth) ms := by
  induction ms with
  | nil => rfl
  | cons m ms ih =>
    rw [prettyMembers, ih, behind_cons]
    simp [prettyMember]

theorem member_reads {value? : Text → Option (Json × Text)} {m : Text × Json}
    (h : Reads value? (m.2.pretty n) m.2) : Reads (member? value?) (prettyMember n m) m := by
  refine ⟨⟨'"', _, rfl, rfl, by decide, by decide⟩, fun rest hr => ?_⟩
  have htext : prettyMember n m ++ rest =
      '"' :: (m.1.flatMap escape ++ '"' :: ':' :: ' ' :: (m.2.pretty n ++ rest)) := by
    simp [prettyMember, quote]
  rw [htext, member?, text_quoted]
  show Option.map _ (value? (skip (m.2.pretty n ++ rest))) = _
  rw [skip_begins h, h.reads rest hr]
  rfl

mutual

/-- Is every number in a value written as a number? -/
def isSound : Json → Bool
  | number t => isNumber t
  | array xs => isSoundAll xs
  | object ms => isSoundMembers ms
  | _ => true

def isSoundAll : List Json → Bool
  | [] => true
  | x :: xs => isSound x && isSoundAll xs

def isSoundMembers : List (Text × Json) → Bool
  | [] => true
  | (_, x) :: ms => isSound x && isSoundMembers ms

end

theorem value_scalar (depth : Nat) (harray : ∀ u, t ≠ '[' :: u) (hobject : ∀ u, t ≠ '{' :: u) :
    value? depth t = scalar? t := by
  rw [value?]
  · exact fun _ u _ he => harray u he
  · exact fun _ u _ he => hobject u he

theorem number_reads (depth : Nat) (h : isNumber t = true) : Reads (value? depth) t (number t) := by
  obtain ⟨c, u, rfl, hc⟩ := number_begins h
  have hne : ∀ d, d ≠ '-' → d.isDigit = false → c ≠ d := by
    rintro d hd hdigit rfl
    rcases hc with hc | hc
    · exact hd hc
    · rw [hdigit] at hc
      cases hc
  have hblank : isBlank c = false := by
    rw [isBlank]
    · exact hne ' ' (by decide) rfl
    · exact hne '\t' (by decide) rfl
    · exact hne '\n' (by decide) rfl
    · exact hne '\r' (by decide) rfl
  refine ⟨⟨c, u, rfl, hblank, hne ']' (by decide) rfl, hne '\x7d' (by decide) rfl⟩, ?_⟩
  intro rest hr
  have hscalar : value? depth (c :: u ++ rest) = scalar? (c :: u ++ rest) := by
    apply value_scalar
    · exact fun _ he => hne '[' (by decide) rfl (List.cons.inj he).1
    · exact fun _ he => hne '\x7b' (by decide) rfl (List.cons.inj he).1
  rw [hscalar, scalar?]
  · rw [number_append hr h, Option.map_some, List.length_append, Nat.add_sub_cancel,
      List.take_left]
  · exact fun _ he => hne 'n' (by decide) rfl (List.cons.inj he).1
  · exact fun _ he => hne 't' (by decide) rfl (List.cons.inj he).1
  · exact fun _ he => hne 'f' (by decide) rfl (List.cons.inj he).1
  · exact fun _ he => hne '"' (by decide) rfl (List.cons.inj he).1

theorem string_reads (depth : Nat) (t : Text) : Reads (value? depth) (quote t) (string t) := by
  refine ⟨⟨'"', _, rfl, rfl, by decide, by decide⟩, fun rest _ => ?_⟩
  have htext : quote t ++ rest = '"' :: (t.flatMap escape ++ '"' :: rest) := by simp [quote]
  rw [htext, value_scalar, scalar?, text_quoted]
  · rfl
  · simp
  · simp

theorem array_reads {xs : List Json} {depth : Nat} {x : Json}
    (hxs : ∀ y ∈ x :: xs, Reads (value? depth) (y.pretty (n + 1)) y) :
    Reads (value? (depth + 1)) ((array (x :: xs)).pretty n) (array (x :: xs)) := by
  refine ⟨⟨'[', _, rfl, rfl, by decide, by decide⟩, fun rest _ => ?_⟩
  have htext : (array (x :: xs)).pretty n ++ rest = '[' :: (newline (n + 1) ++
      (x.pretty (n + 1) ++
        (behind (n + 1) (pretty (n + 1)) xs ++ (newline n ++ ']' :: rest)))) := by
    simp [pretty, prettyItems_behind]
  rw [htext, value?, items_read (n + 1) n (Or.inl rfl) hxs rest]
  rfl

theorem object_reads {ms : List (Text × Json)} {depth : Nat} {m : Text × Json}
    (hms : ∀ y ∈ m :: ms, Reads (member? (value? depth)) (prettyMember (n + 1) y) y) :
    Reads (value? (depth + 1)) ((object (m :: ms)).pretty n) (object (m :: ms)) := by
  refine ⟨⟨'\x7b', _, rfl, rfl, by decide, by decide⟩, fun rest _ => ?_⟩
  have htext : (object (m :: ms)).pretty n ++ rest = '\x7b' :: (newline (n + 1) ++
      (prettyMember (n + 1) m ++
        (behind (n + 1) (prettyMember (n + 1)) ms ++ (newline n ++ '\x7d' :: rest)))) := by
    simp [pretty, prettyMembers_behind, prettyMember]
  rw [htext, value?, items_read (n + 1) n (Or.inr rfl) hms rest]
  rfl

/-- What stands in brackets is shorter than with them. -/
theorem array_length (n : Nat) (x : Json) (xs : List Json) :
    (behind (n + 1) (pretty (n + 1)) (x :: xs)).length < ((array (x :: xs)).pretty n).length := by
  rw [behind_cons, pretty, prettyItems_behind]
  simp only [List.length_append, List.length_cons]
  omega

theorem object_length (n : Nat) (m : Text × Json) (ms : List (Text × Json)) :
    (behind (n + 1) (prettyMember (n + 1)) (m :: ms)).length <
      ((object (m :: ms)).pretty n).length := by
  rw [behind_cons, pretty, prettyMembers_behind]
  simp only [prettyMember, List.length_append, List.length_cons]
  omega

mutual

/-- The bound on the depth only has to allow for the length of the text. -/
theorem value_reads (j : Json) (n depth : Nat) (hj : isSound j = true)
    (hdepth : (j.pretty n).length ≤ depth) : Reads (value? depth) (j.pretty n) j := by
  cases j with
  | null =>
    refine ⟨⟨'n', _, rfl, rfl, by decide, by decide⟩, fun rest _ => ?_⟩
    exact value_scalar depth (by simp [pretty]) (by simp [pretty])
  | bool b =>
    cases b with
    | true =>
      refine ⟨⟨'t', _, rfl, rfl, by decide, by decide⟩, fun rest _ => ?_⟩
      exact value_scalar depth (by simp [pretty]) (by simp [pretty])
    | false =>
      refine ⟨⟨'f', _, rfl, rfl, by decide, by decide⟩, fun rest _ => ?_⟩
      exact value_scalar depth (by simp [pretty]) (by simp [pretty])
  | number t => exact number_reads depth hj
  | string t => exact string_reads depth t
  | array xs =>
    obtain ⟨depth, rfl⟩ := Nat.exists_eq_succ_of_ne_zero (n := depth) (by
      rintro rfl
      cases xs <;> simp [pretty] at hdepth)
    cases xs with
    | nil => exact ⟨⟨'[', _, rfl, rfl, by decide, by decide⟩, fun rest _ => rfl⟩
    | cons x xs =>
      have hlength := array_length n x xs
      exact array_reads (values_read (x :: xs) (n + 1) depth hj (by omega))
  | object ms =>
    obtain ⟨depth, rfl⟩ := Nat.exists_eq_succ_of_ne_zero (n := depth) (by
      rintro rfl
      cases ms <;> simp [pretty] at hdepth)
    cases ms with
    | nil => exact ⟨⟨'\x7b', _, rfl, rfl, by decide, by decide⟩, fun rest _ => rfl⟩
    | cons m ms =>
      have hlength := object_length n m ms
      exact object_reads (members_read (m :: ms) (n + 1) depth hj (by omega))

theorem values_read (xs : List Json) (n depth : Nat) (hxs : isSoundAll xs = true)
    (hdepth : (behind n (pretty n) xs).length ≤ depth) :
    ∀ x ∈ xs, Reads (value? depth) (x.pretty n) x := by
  cases xs with
  | nil => exact fun x hx => nomatch hx
  | cons x xs =>
    rw [isSoundAll, Bool.and_eq_true] at hxs
    rw [behind_cons] at hdepth
    simp only [List.length_append, List.length_cons] at hdepth
    have hx := value_reads x n depth hxs.1 (by omega)
    have hmore := values_read xs n depth hxs.2 (by omega)
    exact List.forall_mem_cons.mpr ⟨hx, hmore⟩

theorem members_read (ms : List (Text × Json)) (n depth : Nat) (hms : isSoundMembers ms = true)
    (hdepth : (behind n (prettyMember n) ms).length ≤ depth) :
    ∀ m ∈ ms, Reads (member? (value? depth)) (prettyMember n m) m := by
  cases ms with
  | nil => exact fun m hm => nomatch hm
  | cons m ms =>
    obtain ⟨name, x⟩ := m
    rw [isSoundMembers, Bool.and_eq_true] at hms
    rw [behind_cons] at hdepth
    simp only [prettyMember, List.length_append, List.length_cons] at hdepth
    have hx := member_reads (m := (name, x)) (value_reads x n depth hms.1 (by omega))
    have hmore := members_read ms n depth hms.2 (by omega)
    exact List.forall_mem_cons.mpr ⟨hx, hmore⟩

end

end Reader

/-- What is printed is read back. -/
theorem read_render (j : Json) (h : Reader.isSound j = true) : read? j.render = some j := by
  have hread := Reader.value_reads j 0 j.render.length h (Nat.le_refl _)
  have hends : Reader.Ends [] := fun c hc => nomatch hc
  have hvalue := hread.reads [] hends
  have hskip := Reader.skip_begins hread []
  rw [List.append_nil] at hvalue hskip
  show (Reader.value? j.render.length (Reader.skip (j.pretty 0))).bind _ = _
  rw [hskip, hvalue]
  rfl

end LogQuery.Json
