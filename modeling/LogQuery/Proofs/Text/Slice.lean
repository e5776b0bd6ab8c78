import LogQuery.Span

/-! Pieces of a text are cut out of it again at their byte offsets. -/
namespace LogQuery

namespace Text

variable {c : Char} {part t : Text}

/-- A character has at least one byte, so that it is passed at once. -/
theorem bytes_cons (c : Char) (t : Text) : ∃ n, bytes (c :: t) = n + 1 ∧ c.utf8Size ≤ n + 1 ∧
    n + 1 - c.utf8Size = t.bytes := by
  have hpos := c.utf8Size_pos
  refine ⟨c.utf8Size + t.bytes - 1, ?_, ?_, ?_⟩
  · rw [bytes]
    omega
  · omega
  · omega

theorem dropBytes_append (s t : Text) : (s ++ t).dropBytes? s.bytes = some t := by
  induction s with
  | nil => cases t <;> rfl
  | cons c s ih =>
    obtain ⟨n, hn, hc, hs⟩ := bytes_cons c s
    rw [List.cons_append, hn, dropBytes?, if_neg (Nat.not_lt.mpr hc), hs, ih]

theorem takeBytes_append (s t : Text) : (s ++ t).takeBytes? s.bytes = some s := by
  induction s with
  | nil => cases t <;> rfl
  | cons c s ih =>
    obtain ⟨n, hn, hc, hs⟩ := bytes_cons c s
    rw [List.cons_append, hn, takeBytes?, if_neg (Nat.not_lt.mpr hc), hs, ih]
    rfl

theorem slice_append (before part after : Text) :
    (before ++ part ++ after).slice? before.bytes (before.bytes + part.bytes) = some part := by
  rw [slice?, if_pos (Nat.le_add_right _ _), List.append_assoc, dropBytes_append,
    Option.bind_some, Nat.add_sub_cancel_left, takeBytes_append]

theorem dropBytes_add (s t : Text) (n : Nat) :
    (s ++ t).dropBytes? (s.bytes + n) = t.dropBytes? n := by
  induction s with
  | nil => simp [bytes]
  | cons c s ih =>
    obtain ⟨m, hm, hc, hs⟩ := bytes_cons c s
    have hn : bytes (c :: s) + n = (m + n) + 1 := by omega
    have hleft : m + n + 1 - c.utf8Size = bytes s + n := by omega
    rw [List.cons_append, hn, dropBytes?, if_neg (by omega), hleft, ih]

theorem dropBytes_left {n : Nat} (h : n ≤ t.bytes) (u : Text) :
    (t ++ u).dropBytes? n = (t.dropBytes? n).map (· ++ u) := by
  induction t generalizing n with
  | nil =>
    obtain rfl : n = 0 := Nat.le_zero.mp h
    cases u <;> rfl
  | cons c t ih =>
    cases n with
    | zero => rfl
    | succ n =>
      simp only [List.cons_append, dropBytes?]
      split
      · rfl
      · rw [bytes] at h
        exact ih (by omega)

theorem dropBytes_bytes {n : Nat} {u : Text} (h : t.dropBytes? n = some u) :
    n + u.bytes = t.bytes := by
  induction t generalizing n with
  | nil =>
    cases n with
    | zero =>
      obtain rfl := Option.some.inj h
      rfl
    | succ n => cases h
  | cons c t ih =>
    cases n with
    | zero =>
      obtain rfl := Option.some.inj h
      exact Nat.zero_add _
    | succ n =>
      rw [dropBytes?] at h
      split at h
      · cases h
      · have := ih h
        rw [bytes]
        omega

theorem takeBytes_left {n : Nat} (h : n ≤ t.bytes) (u : Text) :
    (t ++ u).takeBytes? n = t.takeBytes? n := by
  induction t generalizing n with
  | nil =>
    obtain rfl : n = 0 := Nat.le_zero.mp h
    cases u <;> rfl
  | cons c t ih =>
    cases n with
    | zero => rfl
    | succ n =>
      rw [bytes] at h
      rw [List.cons_append, takeBytes?, takeBytes?, ih (by omega)]

/-- A piece of a part is cut out of the whole at the same place in that part. -/
theorem slice_inside (before part after : Text) {i j : Nat} (h : j ≤ part.bytes) :
    (before ++ part ++ after).slice? (before.bytes + i) (before.bytes + j) = part.slice? i j := by
  unfold slice?
  by_cases hij : i ≤ j
  · rw [if_pos hij, if_pos (Nat.add_le_add_left hij _), List.append_assoc, dropBytes_add,
      dropBytes_left (Nat.le_trans hij h), Nat.add_sub_add_left]
    cases hd : part.dropBytes? i with
    | none => rfl
    | some u =>
      have := dropBytes_bytes hd
      exact takeBytes_left (by omega) after
  · rw [if_neg hij, if_neg (by omega)]

/-- A piece of the front of a text is the same whatever stands behind. -/
theorem slice_front {i j : Nat} (h : j ≤ t.bytes) (u : Text) :
    (t ++ u).slice? i j = t.slice? i j := by
  have hin := @slice_inside [] t u i j h
  rwa [List.nil_append, bytes, Nat.zero_add, Nat.zero_add] at hin

theorem hasInfix_iff (part t : Text) : part.hasInfix t = true ↔ part <:+: t := by
  induction t with
  | nil => simp [hasInfix]
  | cons c t ih => simp [hasInfix, ih, List.infix_cons_iff]

/-- What is removed is there, and nowhere further to the left. -/
theorem removeFirst_spec (h : part <:+: t) :
    ∃ before after, t = before ++ part ++ after ∧ t.removeFirst part = before ++ after ∧
      ∀ s u, t = s ++ part ++ u → before.length ≤ s.length := by
  induction t with
  | nil =>
    obtain rfl : part = [] := List.infix_nil.mp h
    exact ⟨[], [], rfl, rfl, fun _ _ _ => Nat.zero_le _⟩
  | cons c t ih =>
    by_cases hp : part <+: c :: t
    · obtain ⟨after, ha⟩ := hp
      refine ⟨[], after, ha.symm, ?_, fun _ _ _ => Nat.zero_le _⟩
      rw [removeFirst, if_pos (by simp [← ha]), ← ha, List.drop_left]
      rfl
    · obtain ⟨before, after, ht, hr, hfirst⟩ := ih ((List.infix_cons_iff.mp h).resolve_left hp)
      refine ⟨c :: before, after, by simp [ht], ?_, ?_⟩
      · rw [removeFirst, if_neg (by simpa using hp), hr]
        rfl
      · intro s u he
        cases s with
        | nil => exact (hp ⟨u, he.symm⟩).elim
        | cons d s =>
          have := hfirst s u (List.cons.inj he).2
          simpa using this

theorem removeFirst_eq {before after : Text} (h : t = before ++ part ++ after)
    (hfirst : ∀ s u, t = s ++ part ++ u → before.length ≤ s.length) :
    t.removeFirst part = before ++ after := by
  obtain ⟨left, right, ht, hr, hleft⟩ := removeFirst_spec ⟨before, after, h.symm⟩
  have hlength : before.length = left.length :=
    Nat.le_antisymm (hfirst left right ht) (hleft before after h)
  have hsame : before ++ (part ++ after) = left ++ (part ++ right) := by
    rw [← List.append_assoc, ← List.append_assoc, ← h, ht]
  obtain ⟨rfl, hrest⟩ := List.append_inj hsame hlength
  rw [hr, List.append_cancel_left hrest]

end Text

end LogQuery
