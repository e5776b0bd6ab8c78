import LogQuery.Report

/-! The lines of a text, said without the way in which they are found, and lines that are joined and
found again. -/
namespace LogQuery.Text

variable {c : Char} {t u : Text} {ls ts : List Text}

/-- A text and its lines. Each of them ends with a line feed, or with a carriage return and a line
feed, or is the last one, which is not empty. -/
inductive Lined : Text → List Text → Prop
  | none : Lined [] []
  | last (t : Text) (hne : t ≠ []) (ht : '\n' ∉ t) : Lined t [t]
  | feed (t u : Text) (ls : List Text) (ht : '\n' ∉ t) (hr : t.getLast? ≠ some '\r')
      (h : Lined u ls) : Lined (t ++ '\n' :: u) (t :: ls)
  | both (t u : Text) (ls : List Text) (ht : '\n' ∉ t) (h : Lined u ls) :
      Lined (t ++ '\r' :: '\n' :: u) (t :: ls)

/-- A text that can stand as a line of its own, whatever follows it. -/
structure IsLine (t : Text) : Prop where
  ne_nil : t ≠ []
  unbroken : '\n' ∉ t
  ends : t.getLast? ≠ some '\r'

theorem lined_cons {l : Text} (h : Lined t (l :: ls)) (hc : c ≠ '\n')
    (hr : c = '\r' → t.head? ≠ some '\n') : Lined (c :: t) ((c :: l) :: ls) := by
  have hmem (ht : '\n' ∉ l) : '\n' ∉ c :: l := by simp [hc.symm, ht]
  cases h with
  | last _ hne ht => exact .last _ (List.cons_ne_nil c t) (hmem ht)
  | feed _ u _ ht hl h =>
    refine .feed _ u ls (hmem ht) ?_ h
    cases l with
    | nil =>
      intro hlast
      exact hr (Option.some.inj hlast) rfl
    | cons d l => rwa [List.getLast?_cons_cons]
  | both _ u _ ht h => exact .both _ u ls (hmem ht) h

theorem lined_lines (t : Text) : Lined t (lines t) := by
  fun_induction lines t with
  | case1 => exact .none
  | case2 t ih => exact .feed [] t _ List.not_mem_nil (by simp) ih
  | case3 t ih => exact .both [] t _ List.not_mem_nil ih
  | case4 c t hfeed hboth hnil ih =>
    rw [hnil] at ih
    cases ih
    exact .last [c] (List.cons_ne_nil c []) (by simpa using fun h => hfeed h.symm)
  | case5 c t hfeed hboth line more hlines ih =>
    rw [hlines] at ih
    refine lined_cons ih hfeed fun hc ht => ?_
    obtain ⟨u, rfl⟩ := List.head?_eq_some_iff.mp ht
    exact hboth u hc rfl

theorem lines_cons (hc : c ≠ '\n') (hr : c = '\r' → t.head? ≠ some '\n') :
    lines (c :: t) =
      match lines t with
      | [] => [[c]]
      | line :: more => (c :: line) :: more :=
  lines.eq_4 c t hc fun _ hcr ht => hr hcr (ht ▸ rfl)

/-- What is in front of the end of a line is that line. -/
theorem lines_front {w : Text} (ht : '\n' ∉ t) (hr : t.getLast? = some '\r' → w.head? ≠ some '\n')
    (hw : lines w = [] :: ls) : lines (t ++ w) = t :: ls := by
  induction t with
  | nil => exact hw
  | cons c t ih =>
    have hc : c ≠ '\n' := fun hc => ht (hc ▸ .head t)
    have hrest : lines (t ++ w) = t :: ls := by
      refine ih (fun hmem => ht (.tail c hmem)) fun hlast => hr ?_
      rw [List.getLast?_cons, hlast]
      rfl
    have hbreak : c = '\r' → (t ++ w).head? ≠ some '\n' := by
      rintro rfl hhead
      cases t with
      | nil => exact hr rfl hhead
      | cons d t => exact ht (.tail _ (Option.some.inj hhead ▸ .head t))
    rw [List.cons_append, lines_cons hc hbreak, hrest]

theorem lines_last (ht : '\n' ∉ t) (hne : t ≠ []) : lines t = [t] := by
  induction t with
  | nil => exact absurd rfl hne
  | cons c t ih =>
    have hc : c ≠ '\n' := fun hc => ht (hc ▸ .head t)
    have hbreak : c = '\r' → t.head? ≠ some '\n' := fun _ hhead =>
      ht (.tail c (List.mem_of_mem_head? hhead))
    rw [lines_cons hc hbreak]
    cases t with
    | nil => rfl
    | cons d t => rw [ih (fun hmem => ht (.tail c hmem)) (List.cons_ne_nil d t)]

/-- A text has its lines in one way. -/
theorem lines_eq (h : Lined t ls) : lines t = ls := by
  induction h with
  | none => rfl
  | last t hne ht => exact lines_last ht hne
  | feed t u ls ht hr h ih =>
    exact lines_front ht (fun hlast => absurd hlast hr) (by rw [lines, ih])
  | both t u ls ht h ih =>
    exact lines_front ht (fun _ hn => nomatch hn) (by rw [lines, ih])

/-- No line feed is a part of a line. -/
theorem lined_unbroken (h : Lined t ls) : ∀ l ∈ ls, '\n' ∉ l := by
  induction h with
  | none => exact fun _ hl => nomatch hl
  | last t hne ht => exact List.forall_mem_singleton.mpr ht
  | feed t u ls ht hr h ih => exact List.forall_mem_cons.mpr ⟨ht, ih⟩
  | both t u ls ht h ih => exact List.forall_mem_cons.mpr ⟨ht, ih⟩

/-- Behind a separator, each of the texts that are joined stands behind one. -/
theorem join_behind (separator : Char) (h : ts ≠ []) :
    separator :: join [separator] ts = ts.flatMap (separator :: ·) := by
  induction ts with
  | nil => exact absurd rfl h
  | cons t ts ih =>
    cases ts with
    | nil => simp [join]
    | cons u us =>
      show separator :: (t ++ [separator] ++ join [separator] (u :: us)) = _
      rw [List.flatMap_cons, ← ih (List.cons_ne_nil u us), List.append_assoc]
      rfl

/-- Lines that are joined are found again. -/
theorem lined_unlines (h : ∀ t ∈ ts, IsLine t) : Lined (unlines ts) ts := by
  induction ts with
  | nil => exact .none
  | cons t ts ih =>
    obtain ⟨ht, hts⟩ := List.forall_mem_cons.mp h
    cases ts with
    | nil => exact .last t ht.ne_nil ht.unbroken
    | cons u us =>
      show Lined (t ++ ['\n'] ++ unlines (u :: us)) (t :: u :: us)
      rw [List.append_assoc]
      exact .feed t _ _ ht.unbroken ht.ends (ih hts)

theorem lines_unlines (h : ∀ t ∈ ts, IsLine t) : lines (unlines ts) = ts :=
  lines_eq (lined_unlines h)

end LogQuery.Text
