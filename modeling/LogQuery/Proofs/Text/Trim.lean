import Mathlib.Data.List.TakeWhile
import LogQuery.Text

/-! A text without the white space at its ends. -/
namespace LogQuery.Text

variable {c : Char} {t u : Text}

/-- A text without white space. -/
def Solid (t : Text) : Prop := ∀ c ∈ t, isBlank c = false

instance (t : Text) : Decidable (Solid t) :=
  List.decidableBAll (fun c => isBlank c = false) t

theorem solid_append (ht : Solid t) (hu : Solid u) : Solid (t ++ u) := by
  intro c hc
  rcases List.mem_append.mp hc with hc | hc
  · exact ht c hc
  · exact hu c hc

theorem solid_not_mem (h : Solid t) (hc : isBlank c = true) : c ∉ t := fun hm =>
  Bool.false_ne_true ((h c hm).symm.trans hc)

/-- A text, and what is left of it between the white space at its ends. -/
structure Trimmed (t u : Text) : Prop where
  between : ∃ ahead behind, t = ahead ++ u ++ behind ∧ (∀ c ∈ ahead, isBlank c = true) ∧
    ∀ c ∈ behind, isBlank c = true
  head : ∀ c ∈ u.head?, isBlank c = false
  last : ∀ c ∈ u.getLast?, isBlank c = false

theorem dropWhile_head : ∀ c ∈ (t.dropWhile isBlank).head?, isBlank c = false := by
  intro c hc
  have h := List.head?_dropWhile_not isBlank t
  rw [Option.mem_def.mp hc] at h
  simpa using h

theorem trimEnd_between (t : Text) :
    t = trimEnd t ++ (t.reverse.takeWhile isBlank).reverse := by
  rw [trimEnd, ← List.reverse_append, List.takeWhile_append_dropWhile, List.reverse_reverse]

theorem trim_trimmed (t : Text) : Trimmed t (trim t) where
  between := by
    refine ⟨t.takeWhile isBlank, ((trimStart t).reverse.takeWhile isBlank).reverse, ?_,
      fun c hc => List.mem_takeWhile_imp hc,
      fun c hc => List.mem_takeWhile_imp (List.mem_reverse.mp hc)⟩
    rw [List.append_assoc, trim, ← trimEnd_between, trimStart, List.takeWhile_append_dropWhile]
  head := by
    intro c hc
    refine dropWhile_head (t := t) c ?_
    have h := trimEnd_between (trimStart t)
    obtain ⟨u, hu⟩ := List.head?_eq_some_iff.mp hc
    rw [show trimEnd (trimStart t) = c :: u from hu] at h
    show c ∈ (trimStart t).head?
    rw [h]
    rfl
  last := by
    intro c hc
    rw [trim, trimEnd, List.getLast?_reverse] at hc
    exact dropWhile_head c hc

/-- What is left of a text that is not blank is what is left of it in one way. -/
theorem trim_eq (h : Trimmed t u) (hu : u ≠ []) : trim t = u := by
  obtain ⟨ahead, behind, rfl, hahead, hbehind⟩ := h.between
  have hstart : trimStart (ahead ++ u ++ behind) = u ++ behind := by
    cases u with
    | nil => exact absurd rfl hu
    | cons c u =>
      have hc := h.head c rfl
      rw [trimStart, List.append_assoc, List.dropWhile_append_of_pos hahead]
      exact List.dropWhile_cons_of_neg (by simp [hc])
  rw [trim, hstart, trimEnd, List.reverse_append,
    List.dropWhile_append_of_pos fun c hc => hbehind c (List.mem_reverse.mp hc)]
  cases hr : u.reverse with
  | nil => exact absurd (List.reverse_eq_nil_iff.mp hr) hu
  | cons c v =>
    have hc : isBlank c = false := h.last c (by
      rw [List.getLast?_eq_head?_reverse, hr]
      rfl)
    rw [List.dropWhile_cons_of_neg (by simp [hc]), ← hr, List.reverse_reverse]

theorem trimmed_mem (h : Trimmed t u) (hc : c ∈ u) : c ∈ t := by
  obtain ⟨ahead, behind, rfl, -⟩ := h.between
  simp [hc]

theorem trimEnd_blank (hc : isBlank c = true) : trimEnd (t ++ [c]) = trimEnd t := by
  simp [trimEnd, hc]

theorem trimEnd_last (hc : isBlank c = false) : trimEnd (t ++ [c]) = t ++ [c] := by
  simp [trimEnd, hc]

end LogQuery.Text
