import Mathlib.Data.List.Induction
import LogQuery.Event.Recorder

/-! Which markers are there after some actions: those that one of the actions made and that none of
the later ones used up. -/
namespace LogQuery

namespace Action

/-- The marker that an action is to use up. -/
def uses? : Action → Option Nat
  | complete m _ => some m
  | abandon m => some m
  | drop m => some m
  | _ => none

/-- Whether an action is to make a marker, whose number it answers. -/
def makes : Action → Bool
  | start => true
  | precede _ => true
  | _ => false

end Action

namespace Recorder

variable {r s : Recorder} {m n place : Nat} {a : Action} {as : List Action} {x : Action.Answer}

theorem runAll_append (r : Recorder) (as bs : List Action) :
    r.runAll (as ++ bs) = (r.runAll as).runAll bs := List.foldl_append ..

theorem runAll_concat (r : Recorder) (as : List Action) (a : Action) :
    r.runAll (as ++ [a]) = ((r.runAll as).run a).2 := runAll_append r as [a]

theorem marker_ofTokens (ts : List Token) (m : Nat) : (ofTokens ts).marker? m = none := rfl

/-- A marker that is used up is no longer there, and the others are. -/
theorem marker_useUp :
    (r.useUp m).marker? n = some place ↔ n ≠ m ∧ r.marker? n = some place := by
  rw [marker?, useUp, List.getElem?_set]
  split
  · next heq =>
    refine ⟨fun h => ?_, fun h => absurd heq (Ne.symm h.1)⟩
    split at h <;> cases h
  · next hne => exact ⟨fun h => ⟨Ne.symm hne, h⟩, And.right⟩

/-- A new marker at the end of some events. -/
theorem marker_push {s : Recorder} (hs : s.markers = r.markers ++ [some r.events.length]) :
    s.marker? m = some place ↔
      r.marker? m = some place ∨ m = r.markers.length ∧ place = r.events.length := by
  have hold {n : Nat} (h : r.marker? n = some place) : n < r.markers.length := by
    by_contra hn
    rw [marker?, List.getElem?_eq_none (by omega)] at h
    cases h
  rw [marker?, hs, List.getElem?_append]
  split
  · next hm => exact ⟨.inl, fun h => h.resolve_right (by omega)⟩
  · next hm =>
    rw [List.getElem?_singleton]
    constructor
    · intro h
      split at h
      · exact .inr ⟨by omega, (Option.some.inj h).symm⟩
      · cases h
    · rintro (h | ⟨rfl, rfl⟩)
      · exact absurd (hold h) hm
      · rw [Nat.sub_self, if_pos rfl]
        rfl

theorem enterTimes_same (times : Nat) (r : Recorder) :
    (enterTimes times r).2.events = r.events ∧ (enterTimes times r).2.markers = r.markers := by
  induction times generalizing r with
  | zero => exact ⟨rfl, rfl⟩
  | succ times ih =>
    rw [enterTimes, enter]
    split_ifs
    · exact ih _
    · exact ⟨rfl, rfl⟩

/-- What an action does to the markers, and what it answers if it makes one. -/
inductive Marks (r : Recorder) (a : Action) : Action.Answer × Recorder → Prop
  | same (x : Action.Answer) (s : Recorder) (hs : s.markers = r.markers)
      (hu : ∀ m, a.uses? = some m → r.marker? m = none)
      (ha : a.makes = true → ∀ m, x ≠ .number m) : Marks r a (x, s)
  | used (x : Action.Answer) (s : Recorder) (m : Nat) (hs : s.markers = (r.useUp m).markers)
      (hu : a.uses? = some m) (ha : a.makes = false) : Marks r a (x, s)
  | made (s : Recorder) (hs : s.markers = r.markers ++ [some r.events.length])
      (hu : a.uses? = none) (ha : a.makes = true) : Marks r a (.number r.markers.length, s)

theorem marks_same (hs : s.markers = r.markers) (hu : a.uses? = none) (ha : a.makes = false) :
    Marks r a (x, s) :=
  .same _ _ hs (fun m hm => by rw [hu] at hm; cases hm) fun h => by rw [ha] at h; cases h

theorem marks_none (hm : r.marker? m = none) (hu : a.uses? = some m) (ha : a.makes = false) :
    Marks r a (x, r) := by
  refine .same _ _ rfl (fun n hn => ?_) fun h => ?_
  · rw [hu] at hn
    rwa [← Option.some.inj hn]
  · rw [ha] at h
    cases h

theorem bumpAs_markers (r : Recorder) (k : Kind) : (r.bumpAs k).markers = r.markers := by
  unfold bumpAs
  split <;> rfl

theorem run_marks (r : Recorder) (a : Action) : Marks r a (r.run a) := by
  cases a with
  | start => exact .made _ rfl rfl rfl
  | bump => exact marks_same (bumpAs_markers r _) rfl rfl
  | bumpAs k => exact marks_same (bumpAs_markers r k) rfl rfl
  | eat k =>
    simp only [run]
    split
    · exact marks_same (bumpAs_markers r _) rfl rfl
    · exact marks_same rfl rfl rfl
  | isAt k => exact marks_same rfl rfl rfl
  | isAtAny ks => exact marks_same rfl rfl rfl
  | isSpelled n word => exact marks_same rfl rfl rfl
  | peek n => exact marks_same rfl rfl rfl
  | complete m k =>
    simp only [run]
    split
    · exact .used _ _ _ rfl rfl rfl
    · next hm => exact marks_none hm rfl rfl
  | abandon m =>
    simp only [run]
    split
    · exact .used _ _ _ rfl rfl rfl
    · next hm => exact marks_none hm rfl rfl
  | drop m =>
    simp only [run]
    split
    · exact .used _ _ _ rfl rfl rfl
    · next hm => exact marks_none hm rfl rfl
  | precede c =>
    simp only [run]
    split
    · exact .made _ rfl rfl rfl
    · exact .same _ _ rfl (by simp [Action.uses?]) (by simp)
  | enter times => exact marks_same (enterTimes_same times r).2 rfl rfl
  | leave times => exact marks_same rfl rfl rfl

theorem marker_congr (h : s.markers = r.markers) (m : Nat) : s.marker? m = r.marker? m := by
  rw [marker?, marker?, h]

/-- After an action a marker is there if it was there and the action did not use it up, or if the
action made it, behind all events. -/
theorem run_marker (a : Action) : (r.run a).2.marker? n = some place ↔
    (r.marker? n = some place ∧ a.uses? ≠ some n) ∨
      a.makes = true ∧ (r.run a).1 = .number n ∧ place = r.events.length := by
  have h := run_marks r a
  generalize r.run a = out at h ⊢
  cases h with
  | same _ _ hs hu ha =>
    rw [marker_congr hs]
    refine ⟨fun hn => .inl ⟨hn, fun hm => ?_⟩, ?_⟩
    · rw [hu n hm] at hn
      cases hn
    · rintro (hn | ⟨hm, hx, -⟩)
      · exact hn.1
      · exact absurd hx (ha hm n)
  | used _ _ m hs hu ha =>
    rw [marker_congr hs, marker_useUp, hu, ha]
    constructor
    · rintro ⟨hne, hn⟩
      exact .inl ⟨hn, fun h => hne (Option.some.inj h).symm⟩
    · rintro (⟨hn, hne⟩ | ⟨hm, -⟩)
      · exact ⟨fun h => hne (by rw [h]), hn⟩
      · cases hm
  | made _ hs hu ha =>
    rw [marker_push hs, hu, ha]
    constructor
    · rintro (hn | ⟨rfl, rfl⟩)
      · exact .inl ⟨hn, by simp⟩
      · exact .inr ⟨rfl, rfl, rfl⟩
    · rintro (hn | ⟨-, hx, rfl⟩)
      · exact .inl hn.1
      · exact .inr ⟨(Action.Answer.number.inj hx).symm, rfl⟩

/-- A marker that one of the actions made, and that none of the later ones uses up. -/
def Pending (r : Recorder) (as : List Action) (m : Nat) : Prop :=
  ∃ before a after, as = before ++ a :: after ∧ a.makes = true ∧
    ((r.runAll before).run a).1 = .number m ∧ ∀ b ∈ after, b.uses? ≠ some m

theorem pending_concat : Pending r (as ++ [a]) m ↔
    (Pending r as m ∧ a.uses? ≠ some m) ∨ a.makes = true ∧ ((r.runAll as).run a).1 = .number m := by
  constructor
  · rintro ⟨before, b, after, has, hmakes, hnumber, hafter⟩
    rcases List.eq_nil_or_concat after with rfl | ⟨after, c, rfl⟩
    · obtain ⟨rfl, hb⟩ := List.append_inj' has rfl
      obtain rfl := List.singleton_inj.mp hb
      exact .inr ⟨hmakes, hnumber⟩
    · rw [List.concat_eq_append, ← List.cons_append, ← List.append_assoc] at has
      obtain ⟨rfl, hc⟩ := List.append_inj' has rfl
      obtain rfl := List.singleton_inj.mp hc
      refine .inl ⟨⟨before, b, after, rfl, hmakes, hnumber, fun d hd => hafter d ?_⟩, hafter a ?_⟩
      · simp [hd]
      · simp
  · rintro (⟨⟨before, b, after, rfl, hmakes, hnumber, hafter⟩, ha⟩ | ⟨hmakes, hnumber⟩)
    · refine ⟨before, b, after ++ [a], by simp, hmakes, hnumber, fun c hc => ?_⟩
      rcases List.mem_append.mp hc with hc | hc
      · exact hafter c hc
      · rwa [List.mem_singleton.mp hc]
    · exact ⟨as, a, [], rfl, hmakes, hnumber, by simp⟩

/-- Where no marker is there at first, a marker is there just if it is pending. -/
theorem pending_iff (hnone : ∀ m, r.marker? m = none) (as : List Action) :
    Pending r as m ↔ ∃ place, (r.runAll as).marker? m = some place := by
  induction as using List.reverseRecOn with
  | nil =>
    constructor
    · rintro ⟨before, b, after, has, -⟩
      simp at has
    · rintro ⟨place, hm⟩
      cases (hnone m).symm.trans hm
  | append_singleton as a ih =>
    rw [pending_concat, runAll_concat, ih]
    simp only [run_marker]
    constructor
    · rintro (⟨⟨place, hm⟩, ha⟩ | ⟨ha, hx⟩)
      · exact ⟨place, .inl ⟨hm, ha⟩⟩
      · exact ⟨_, .inr ⟨ha, hx, rfl⟩⟩
    · rintro ⟨place, ⟨hm, ha⟩ | ⟨ha, hx, -⟩⟩
      · exact .inl ⟨⟨place, hm⟩, ha⟩
      · exact .inr ⟨ha, hx⟩

end Recorder

end LogQuery
