import LogQuery.Proofs.Event.Marker
import LogQuery.Proofs.Event.WellFormed

/-! Actions on a recorder, whatever their order. A marker that is not used up has a placeholder of
its own, a completed node keeps its start, and the events stay balanced. -/
namespace LogQuery

namespace Event

variable {es : List Event} {e e' : Event} {i n place : Nat} {k : Kind} {p q : Option Nat}
  {f : Event → Bool}

theorem balanced_placeholder : Balanced [placeholder] := by
  refine ⟨fun n => ?_, rfl⟩
  cases n with
  | zero => exact Nat.le_refl _
  | succ n => simp [finishes, isFinish]

/-- An event in place of one that counts alike. -/
theorem countP_set_same (h : es[i]? = some e) (hf : f e' = f e) (n : Nat) :
    ((es.set i e').take n).countP f = (es.take n).countP f := by
  obtain ⟨hi, rfl⟩ := List.getElem?_eq_some_iff.mp h
  rw [List.take_set]
  by_cases hn : i < (es.take n).length
  · rw [List.countP_set hn, List.getElem_take, hf]
    have hpos : f es[i] = true → 0 < (es.take n).countP f := fun hfi =>
      List.countP_pos_iff.mpr ⟨es[i], by rw [← List.getElem_take]; exact List.getElem_mem hn, hfi⟩
    split
    · next hfi =>
      have hp := hpos hfi
      omega
    · omega
  · rw [List.set_eq_of_length_le (by omega)]

theorem balanced_set (h : Balanced es) (hi : es[i]? = some e) (hs : isStart e' = isStart e)
    (hf : isFinish e' = isFinish e) : Balanced (es.set i e') := by
  have hlen : (es.set i e').length ≤ es.length := by rw [List.length_set]
  refine ⟨fun n => ?_, ?_⟩
  · rw [finishes, starts, countP_set_same hi hf, countP_set_same hi hs]
    exact h.open_or_closed n
  · have hs := countP_set_same (f := isStart) hi hs es.length
    have hf := countP_set_same (f := isFinish) hi hf es.length
    rw [List.take_of_length_le hlen, List.take_length] at hs hf
    rw [finishes, starts, hs, hf]
    exact h.closed

/-- A start in place of a placeholder, and a finish for it at the end. -/
theorem balanced_complete (h : Balanced es) (hi : es[i]? = some placeholder) (k : Kind) :
    Balanced (es.set i (start k none) ++ [finish]) := by
  obtain ⟨hl, hp⟩ := List.getElem?_eq_some_iff.mp hi
  have hfin : ∀ n, finishes ((es.set i (start k none)).take n) = finishes (es.take n) :=
    countP_set_same hi rfl
  have hstart : ∀ n, starts (es.take n) ≤ starts ((es.set i (start k none)).take n) := by
    intro n
    rw [starts, starts, List.take_set]
    by_cases hn : i < (es.take n).length
    · rw [List.countP_set hn, List.getElem_take, hp]
      exact Nat.le_add_right _ _
    · rw [List.set_eq_of_length_le (by omega)]
  have hwhole : starts (es.set i (start k none)) = starts es + 1 := by
    rw [starts, List.countP_set hl, hp]
    rfl
  have hnone := hfin es.length
  rw [List.take_length, List.take_of_length_le (by rw [List.length_set])] at hnone
  have hclosed : finishes (es.set i (start k none) ++ [finish]) =
      starts (es.set i (start k none) ++ [finish]) := by
    have hes := h.closed
    simp only [starts, finishes, List.countP_append] at hes hwhole hnone ⊢
    rw [hwhole, hnone, hes]
    rfl
  refine ⟨fun n => ?_, hclosed⟩
  rcases Nat.lt_or_ge es.length n with hn | hn
  · rw [List.take_of_length_le (by simp only [List.length_append, List.length_set]; exact hn)]
    exact hclosed.le
  · rw [List.take_append_of_le_length (by rwa [List.length_set]), hfin]
    exact (h.open_or_closed n).trans (hstart n)

/-- A placeholder at the end may be taken back. -/
theorem balanced_dropLast (h : Balanced es) (hl : es.getLast? = some placeholder) :
    Balanced es.dropLast := by
  have he : es.dropLast ++ [placeholder] = es := List.dropLast_append_getLast? _ hl
  generalize es.dropLast = ds at he ⊢
  subst he
  refine ⟨fun n => ?_, ?_⟩
  · rcases Nat.lt_or_ge ds.length n with hn | hn
    · have hd := h.closed
      simp only [starts, finishes, List.countP_append] at hd
      rw [List.take_of_length_le hn.le]
      exact hd.le
    · have hd := h.open_or_closed n
      rwa [List.take_append_of_le_length hn] at hd
  · have hd := h.closed
    simp only [starts, finishes, List.countP_append] at hd
    exact hd

theorem tokens_set (e' : Event) (h : es[i]? = some e) (he : tokenKind? e' = tokenKind? e) :
    ((es.set i e').filterMap tokenKind?).length = (es.filterMap tokenKind?).length := by
  have hs : ((es.set i e').take es.length).countP (fun a => (tokenKind? a).isSome) = _ :=
    countP_set_same h (by rw [he]) es.length
  rw [List.take_of_length_le (by rw [List.length_set]), List.take_length] at hs
  rw [List.length_filterMap_eq_countP, List.length_filterMap_eq_countP, hs]

end Event

namespace Recorder

open Event (Balanced tokenKind?)
open Grammar (maxLevels)

variable {r s : Recorder} {m n c place times : Nat} {k : Kind} {a : Action}

/-- What holds of a recorder between any two actions. -/
structure Sound (r : Recorder) : Prop where
  tokens : (r.events.filterMap tokenKind?).length = r.position
  position : r.position ≤ r.tokens.length
  waiting : ∀ {m place : Nat}, r.marker? m = some place → r.events[place]? = some .placeholder
  own : ∀ {m n place : Nat}, r.marker? m = some place → r.marker? n = some place → n = m
  completed : ∀ place ∈ r.completed, ∃ k p, r.events[place]? = some (.start k p)
  balanced : Balanced r.events
  forward : ∀ {i p : Nat} {k : Kind}, r.events[i]? = some (.start k (some p)) → i < p
  depth : r.depth ≤ maxLevels

/-- What is completed stays completed, and every start keeps its place and its kind. -/
structure Later (r s : Recorder) : Prop where
  tokens : s.tokens = r.tokens
  completed : r.completed <+: s.completed
  starts : ∀ {i : Nat} {k : Kind} {p : Option Nat}, r.events[i]? = some (.start k p) →
    ∃ q, s.events[i]? = some (.start k q)

theorem later_refl (r : Recorder) : Later r r := ⟨rfl, List.prefix_rfl, fun h => ⟨_, h⟩⟩

theorem later_trans {t : Recorder} (h : Later r s) (h' : Later s t) : Later r t where
  tokens := h'.tokens.trans h.tokens
  completed := h.completed.trans h'.completed
  starts := fun hs => by
    obtain ⟨_, hq⟩ := h.starts hs
    exact h'.starts hq

theorem sound_ofTokens (ts : List Token) : Sound (ofTokens ts) where
  tokens := rfl
  position := Nat.zero_le _
  waiting := by
    intro m place h
    cases h
  own := by
    intro m n place h
    cases h
  completed := by simp [ofTokens]
  balanced := Event.balanced_nil
  forward := by
    intro i k p h
    simp [ofTokens] at h
  depth := Nat.zero_le _

theorem getElem?_mono {es fs : List Event} {i : Nat} {e : Event} (h : es[i]? = some e) :
    (es ++ fs)[i]? = some e := by
  obtain ⟨hi, -⟩ := List.getElem?_eq_some_iff.mp h
  rw [List.getElem?_append_left hi, h]

theorem waiting_lt (h : Sound r) (hm : r.marker? m = some place) : place < r.events.length :=
  (List.getElem?_eq_some_iff.mp (h.waiting hm)).1

/-- Events that differ only in the parents of starts, and a placeholder of a new marker behind
them. -/
theorem sound_push {es : List Event} (h : Sound r) (hlen : es.length = r.events.length)
    (hb : Balanced es) (ht : (es.filterMap tokenKind?).length = r.position)
    (hp : ∀ i : Nat, r.events[i]? = some .placeholder → es[i]? = some .placeholder)
    (hs : ∀ {i : Nat} {k : Kind} {p : Option Nat}, r.events[i]? = some (.start k p) →
      ∃ q, es[i]? = some (.start k q))
    (hf : ∀ {i p : Nat} {k : Kind}, es[i]? = some (.start k (some p)) → i < p) :
    Sound { r with
      events := es ++ [.placeholder]
      markers := r.markers ++ [some r.events.length] } where
  tokens := by
    rw [List.filterMap_append, List.length_append, ht]
    rfl
  position := h.position
  waiting := by
    intro m place hm
    rcases (marker_push rfl).mp hm with hm | ⟨-, rfl⟩
    · exact getElem?_mono (hp _ (h.waiting hm))
    · rw [← hlen]
      exact List.getElem?_concat_length
  own := by
    intro m n place hm hn
    rcases (marker_push rfl).mp hm with hm | ⟨rfl, rfl⟩
    · rcases (marker_push rfl).mp hn with hn | ⟨-, rfl⟩
      · exact h.own hm hn
      · exact absurd (waiting_lt h hm) (Nat.lt_irrefl _)
    · rcases (marker_push rfl).mp hn with hn | ⟨rfl, -⟩
      · exact absurd (waiting_lt h hn) (Nat.lt_irrefl _)
      · rfl
  completed := by
    intro place hplace
    obtain ⟨k, p, hk⟩ := h.completed place hplace
    obtain ⟨q, hq⟩ := hs hk
    exact ⟨k, q, getElem?_mono hq⟩
  balanced := Event.balanced_append hb Event.balanced_placeholder
  forward := by
    intro i k p hi
    rw [List.getElem?_append] at hi
    split at hi
    · exact hf hi
    · rw [List.getElem?_singleton] at hi
      split at hi <;> cases hi
  depth := h.depth

theorem sound_start (h : Sound r) : Sound r.start ∧ Later r r.start :=
  ⟨sound_push h rfl h.balanced h.tokens (fun _ => id) (fun hi => ⟨_, hi⟩) h.forward,
    rfl, List.prefix_rfl, fun hi => ⟨_, getElem?_mono hi⟩⟩

theorem sound_bumpAs (h : Sound r) (k : Kind) : Sound (r.bumpAs k) ∧ Later r (r.bumpAs k) := by
  unfold bumpAs
  split
  · exact ⟨h, later_refl r⟩
  · next hend =>
    refine ⟨?_, rfl, List.prefix_rfl, fun hi => ⟨_, getElem?_mono hi⟩⟩
    exact {
      tokens := by
        rw [List.filterMap_append, List.length_append, h.tokens]
        rfl
      position := Nat.lt_of_not_le (by simpa [atEnd] using hend)
      waiting := fun hm => getElem?_mono (h.waiting hm)
      own := h.own
      completed := by
        intro place hplace
        obtain ⟨l, p, hl⟩ := h.completed place hplace
        exact ⟨l, p, getElem?_mono hl⟩
      balanced := Event.balanced_append h.balanced (Event.balanced_token k)
      forward := by
        intro i l p hi
        rw [List.getElem?_append] at hi
        split at hi
        · exact h.forward hi
        · rw [List.getElem?_singleton] at hi
          split at hi <;> cases hi
      depth := h.depth }

/-- A marker that is used up, where only the event at its place and those behind all others
change. -/
theorem sound_used {es : List Event} {done : List Nat} (h : Sound r)
    (hm : r.marker? m = some place) (ht : (es.filterMap tokenKind?).length = r.position)
    (hb : Balanced es)
    (hother : ∀ {i : Nat} {e : Event}, i ≠ place → r.events[i]? = some e → es[i]? = some e)
    (hf : ∀ {i p : Nat} {k : Kind}, es[i]? = some (.start k (some p)) → i < p)
    (hc : r.completed <+: done)
    (hdone : ∀ q ∈ done, q ∈ r.completed ∨ ∃ k p, es[q]? = some (.start k p)) :
    Sound { r.useUp m with events := es, completed := done } ∧
      Later r { r.useUp m with events := es, completed := done } := by
  have hstart : ∀ {i : Nat} {l : Kind} {p : Option Nat}, r.events[i]? = some (.start l p) →
      es[i]? = some (.start l p) := by
    intro i l p hi
    refine hother ?_ hi
    rintro rfl
    cases (h.waiting hm).symm.trans hi
  refine ⟨?_, rfl, hc, fun hi => ⟨_, hstart hi⟩⟩
  exact {
    tokens := ht
    position := h.position
    waiting := by
      intro n q hn
      obtain ⟨hne, hn'⟩ := marker_useUp.mp hn
      refine hother ?_ (h.waiting hn')
      rintro rfl
      exact hne (h.own hm hn')
    own := fun hn hn' => h.own (marker_useUp.mp hn).2 (marker_useUp.mp hn').2
    completed := by
      intro q hq
      rcases hdone q hq with hq | hq
      · obtain ⟨l, p, hl⟩ := h.completed q hq
        exact ⟨l, p, hstart hl⟩
      · exact hq
    balanced := hb
    forward := hf
    depth := h.depth }

theorem sound_complete (h : Sound r) (hm : r.marker? m = some place) (k : Kind) :
    Sound (r.complete m place k) ∧ Later r (r.complete m place k) ∧
      (r.complete m place k).completed[r.completed.length]? = some place ∧
      (r.complete m place k).events[place]? = some (.start k none) := by
  have hw := h.waiting hm
  set es := r.events.set place (.start k none) ++ [.finish] with hes
  have hplace : es[place]? = some (.start k none) :=
    getElem?_mono (List.getElem?_set_self (waiting_lt h hm))
  have htokens : (es.filterMap tokenKind?).length = r.position := by
    rw [hes, List.filterMap_append, List.length_append, Event.tokens_set (.start k none) hw rfl,
      h.tokens]
    rfl
  have hforward : ∀ {i p : Nat} {l : Kind}, es[i]? = some (.start l (some p)) → i < p := by
    intro i p l hi
    rw [hes, List.getElem?_append] at hi
    split at hi
    · by_cases hp : place = i
      · subst hp
        rw [List.getElem?_set_self (waiting_lt h hm)] at hi
        cases hi
      · rw [List.getElem?_set_ne hp] at hi
        exact h.forward hi
    · rw [List.getElem?_singleton] at hi
      split at hi <;> cases hi
  have hused : Sound (r.complete m place k) ∧ Later r (r.complete m place k) := by
    refine sound_used h hm htokens (Event.balanced_complete h.balanced hw k) (fun hi he => ?_)
      hforward (List.prefix_append _ _) fun q hq => ?_
    · exact getElem?_mono (by rwa [List.getElem?_set_ne (Ne.symm hi)])
    · refine (List.mem_append.mp hq).imp_right fun hq => ?_
      obtain rfl := List.mem_singleton.mp hq
      exact ⟨k, none, hplace⟩
  exact ⟨hused.1, hused.2, List.getElem?_concat_length, hplace⟩

/-- A marker that is used up without a node leaves its placeholder behind, unless that is the last
event. -/
theorem sound_abandon (h : Sound r) (hm : r.marker? m = some place) :
    Sound (r.abandon m place) ∧ Later r (r.abandon m place) := by
  have hw := h.waiting hm
  by_cases hp : place + 1 = r.events.length
  · have hlast : r.events.getLast? = some .placeholder := by
      rw [List.getLast?_eq_getElem?, ← hp, Nat.add_sub_cancel, hw]
    have hr : r.abandon m place = { r.useUp m with events := r.events.dropLast } := by
      rw [abandon, if_pos hp]
    rw [hr]
    refine sound_used h hm ?_ (Event.balanced_dropLast h.balanced hlast) (fun {i e} hi he => ?_)
      (fun {i p k} hi => ?_) List.prefix_rfl fun _ => .inl
    · have he := congrArg (fun es => (List.filterMap tokenKind? es).length)
        (List.dropLast_append_getLast? _ hlast)
      simp only [List.filterMap_append, List.length_append, h.tokens] at he
      exact he
    · obtain ⟨hlen, -⟩ := List.getElem?_eq_some_iff.mp he
      rwa [List.getElem?_dropLast, if_pos (by omega)]
    · rw [List.getElem?_dropLast] at hi
      split at hi
      · exact h.forward hi
      · cases hi
  · have hr : r.abandon m place = r.useUp m := by
      rw [abandon, if_neg hp]
      rfl
    rw [hr]
    exact sound_used h hm h.tokens h.balanced (fun _ => id) h.forward List.prefix_rfl fun _ => .inl

theorem sound_useUp (h : Sound r) (m : Nat) : Sound (r.useUp m) ∧ Later r (r.useUp m) := by
  refine ⟨?_, rfl, List.prefix_rfl, fun hi => ⟨_, hi⟩⟩
  exact { h with
    waiting := fun hn => h.waiting (marker_useUp.mp hn).2
    own := fun hn hn' => h.own (marker_useUp.mp hn).2 (marker_useUp.mp hn').2 }

/-- The parent of a node that is preceded stands behind all events. -/
theorem sound_precede (h : Sound r) (hc : r.completed[c]? = some place) :
    Sound (r.precede place) ∧ Later r (r.precede place) := by
  obtain ⟨k, p, hk⟩ := h.completed place (List.mem_of_getElem? hc)
  obtain ⟨hlt, -⟩ := List.getElem?_eq_some_iff.mp hk
  set es := r.events.set place (.start k (some r.events.length)) with hes
  have hr : r.precede place = { r with
      events := es ++ [.placeholder]
      markers := r.markers ++ [some r.events.length] } := by
    simp only [precede, hk, hes]
  have hplaceholder : ∀ i : Nat, r.events[i]? = some .placeholder → es[i]? = some .placeholder := by
    intro i hi
    rw [hes, List.getElem?_set_ne, hi]
    rintro rfl
    rw [hk] at hi
    cases hi
  have hstart : ∀ {i : Nat} {l : Kind} {q : Option Nat}, r.events[i]? = some (.start l q) →
      ∃ q', es[i]? = some (.start l q') := by
    intro i l q hi
    by_cases hp : place = i
    · subst hp
      obtain ⟨rfl, -⟩ := Event.start.inj (Option.some.inj (hk.symm.trans hi))
      exact ⟨_, List.getElem?_set_self hlt⟩
    · exact ⟨q, by rw [hes, List.getElem?_set_ne hp, hi]⟩
  have hforward : ∀ {i q : Nat} {l : Kind}, es[i]? = some (.start l (some q)) → i < q := by
    intro i l q hi
    rw [hes, List.getElem?_set] at hi
    split at hi
    · cases hi
      omega
    · exact h.forward hi
  rw [hr]
  refine ⟨sound_push h (by rw [hes, List.length_set]) (Event.balanced_set h.balanced hk rfl rfl) ?_
    hplaceholder hstart hforward, rfl, List.prefix_rfl, fun hi => ?_⟩
  · rw [hes, Event.tokens_set (.start k (some r.events.length)) hk rfl, h.tokens]
  · obtain ⟨q, hq⟩ := hstart hi
    exact ⟨q, getElem?_mono hq⟩

theorem sound_depth (h : Sound r) (hd : s.depth ≤ maxLevels) (ht : s.tokens = r.tokens)
    (hp : s.position = r.position) (he : s.events = r.events) (hm : s.markers = r.markers)
    (hc : s.completed = r.completed) : Sound s ∧ Later r s := by
  obtain ⟨_, _, _, _, _, _, _, _⟩ := s
  subst ht hp he hm hc
  exact ⟨{ h with depth := hd }, rfl, List.prefix_rfl, fun hi => ⟨_, hi⟩⟩

theorem sound_enter (h : Sound r) : Sound r.enter.2 ∧ Later r r.enter.2 := by
  unfold enter
  split
  · next hd => exact sound_depth h hd rfl rfl rfl rfl rfl
  · exact sound_depth h h.depth rfl rfl rfl rfl rfl

theorem sound_enterTimes (h : Sound r) (times : Nat) :
    Sound (enterTimes times r).2 ∧ Later r (enterTimes times r).2 := by
  induction times generalizing r with
  | zero => exact ⟨h, later_refl r⟩
  | succ times ih =>
    obtain ⟨hs, hl⟩ := sound_enter h
    rcases he : r.enter with ⟨entered, s⟩
    rw [he] at hs hl
    cases entered with
    | true =>
      simp only [enterTimes, he]
      exact ⟨(ih hs).1, later_trans hl (ih hs).2⟩
    | false =>
      simp only [enterTimes, he]
      exact ⟨hs, hl⟩

/-- Every action keeps what holds of the recorder. -/
theorem sound_run (h : Sound r) (a : Action) : Sound (r.run a).2 ∧ Later r (r.run a).2 := by
  have hsame := And.intro h (later_refl r)
  cases a with
  | start => exact sound_start h
  | bump => exact sound_bumpAs h _
  | bumpAs k => exact sound_bumpAs h k
  | eat k =>
    simp only [run]
    split
    · exact sound_bumpAs h _
    · exact hsame
  | isAt k => exact hsame
  | isAtAny ks => exact hsame
  | isSpelled n word => exact hsame
  | peek n => exact hsame
  | complete m k =>
    simp only [run]
    split
    · next hm => exact ⟨(sound_complete h hm k).1, (sound_complete h hm k).2.1⟩
    · exact hsame
  | abandon m =>
    simp only [run]
    split
    · next hm => exact sound_abandon h hm
    · exact hsame
  | drop m =>
    simp only [run]
    split
    · exact sound_useUp h m
    · exact hsame
  | precede c =>
    simp only [run]
    split
    · next hc => exact sound_precede h hc
    · exact hsame
  | enter times => exact sound_enterTimes h times
  | leave times => exact sound_depth h ((Nat.sub_le _ _).trans h.depth) rfl rfl rfl rfl rfl

theorem sound_runAll (h : Sound r) (as : List Action) :
    Sound (r.runAll as) ∧ Later r (r.runAll as) := by
  induction as generalizing r with
  | nil => exact ⟨h, later_refl r⟩
  | cons a as ih =>
    obtain ⟨hs, hl⟩ := sound_run h a
    exact ⟨(ih hs).1, later_trans hl (ih hs).2⟩

/-- A marker that is not used up can be completed or abandoned: what either asserts is so. -/
theorem sound_usable (h : Sound r) (hm : r.marker? m = some place) :
    (∀ k, Recording.complete m k r = some (r.completed.length, r.complete m place k)) ∧
      Recording.abandon m r = some ((), r.abandon m place) := by
  have hw := h.waiting hm
  refine ⟨fun k => by simp only [Recording.complete, hm, hw, if_true], ?_⟩
  have hlast : r.events.getLast? = some .placeholder ∨ place + 1 ≠ r.events.length := by
    by_cases hp : place + 1 = r.events.length
    · rw [List.getLast?_eq_getElem?, ← hp, Nat.add_sub_cancel, hw]
      exact .inl rfl
    · exact .inr hp
  simp only [Recording.abandon, hm, hlast, if_true]

/-- Whatever the actions are: a marker that was made and not used up since is there and points at a
placeholder of its own, and can be completed and abandoned. When one is completed, its node begins
where its placeholder was, and keeps its start and its kind. There are as many tokens recorded as
were passed, the events are balanced, every parent stands behind the start that names it, and the
depth is in its bounds. -/
theorem runAll_markers (ts : List Token) (as : List Action) :
    let r := (ofTokens ts).runAll as
    (∀ m, Pending (ofTokens ts) as m ↔ ∃ place, r.marker? m = some place) ∧
      (∀ m place, r.marker? m = some place →
        r.events[place]? = some .placeholder ∧ (∀ n, r.marker? n = some place → n = m) ∧
        (∀ k, Recording.complete m k r = some (r.completed.length, (r.run (.complete m k)).2)) ∧
        Recording.abandon m r = some ((), (r.run (.abandon m)).2)) ∧
      (∀ before m k after, as = before ++ .complete m k :: after →
        Pending (ofTokens ts) before m → ∃ place c p,
          ((ofTokens ts).runAll before).marker? m = some place ∧
          (((ofTokens ts).runAll before).run (.complete m k)).1 = .number c ∧
          r.completed[c]? = some place ∧ r.events[place]? = some (.start k p)) ∧
      (r.events.filterMap Event.tokenKind?).length = r.position ∧ r.position ≤ ts.length ∧
      Event.Balanced r.events ∧
      (∀ (i p : Nat) (k : Kind), r.events[i]? = some (.start k (some p)) → i < p) ∧
      r.depth ≤ Grammar.maxLevels := by
  intro r
  obtain ⟨h, hl⟩ : Sound r ∧ Later (ofTokens ts) r := sound_runAll (sound_ofTokens ts) as
  have hposition := h.position
  rw [hl.tokens] at hposition
  have hpending (as : List Action) (m : Nat) := pending_iff (m := m) (marker_ofTokens ts) as
  refine ⟨hpending as, fun m place hm => ?_, ?_, h.tokens, hposition, h.balanced,
    fun _ _ _ => h.forward, h.depth⟩
  · obtain ⟨hcomplete, habandon⟩ := sound_usable h hm
    refine ⟨h.waiting hm, fun n hn => h.own hm hn, fun k => ?_, ?_⟩
    · rw [hcomplete k]
      simp only [run, hm]
    · rw [habandon]
      simp only [run, hm]
  · rintro before m k after rfl hm
    obtain ⟨place, hm⟩ := (hpending before m).mp hm
    obtain ⟨hb, -⟩ := sound_runAll (sound_ofTokens ts) before
    obtain ⟨hs, -, hc, hp⟩ := sound_complete hb hm k
    have hstep : ((ofTokens ts).runAll before).run (.complete m k) =
        (.number ((ofTokens ts).runAll before).completed.length,
          ((ofTokens ts).runAll before).complete m place k) := by
      simp only [run, hm]
    have hafter : r = (((ofTokens ts).runAll before).complete m place k).runAll after := by
      refine (runAll_append ..).trans ?_
      show (((ofTokens ts).runAll before).run (.complete m k)).2.runAll after = _
      rw [hstep]
    obtain ⟨-, hlater⟩ := sound_runAll hs after
    obtain ⟨q, hq⟩ := hlater.starts hp
    rw [hafter]
    refine ⟨place, _, q, hm, by rw [hstep], ?_, hq⟩
    obtain ⟨more, hmore⟩ := hlater.completed
    rw [← hmore, List.getElem?_append_left (List.getElem?_eq_some_iff.mp hc).1, hc]

def letterTokens : List Token := [⟨.identifier, ['a']⟩, ⟨.comma, [',']⟩, ⟨.identifier, ['b']⟩]

/-- Of two nodes the outer is completed first, and one more is left open around it. -/
def crossedActions : List Action :=
  [.start, .start, .bump, .complete 0 .matcher, .bump, .precede 0]

/-- The inner marker and the one made last still have their placeholders. -/
theorem runAll_markers_crossed :
    let r := (ofTokens letterTokens).runAll crossedActions
    Pending (ofTokens letterTokens) crossedActions 1 ∧
      Pending (ofTokens letterTokens) crossedActions 2 ∧
      (∃ place, r.marker? 1 = some place ∧ r.events[place]? = some .placeholder) ∧
      (∃ place, r.marker? 2 = some place ∧ r.events[place]? = some .placeholder) ∧
      ∃ (c place : Nat) (p : Option Nat), r.completed[c]? = some place ∧
        r.events[place]? = some (.start .matcher p) := by
  intro r
  obtain ⟨hpending, hplace, hcompleted, -⟩ := runAll_markers letterTokens crossedActions
  have hone : Pending (ofTokens letterTokens) crossedActions 1 :=
    ⟨[.start], .start, [.bump, .complete 0 .matcher, .bump, .precede 0], rfl, rfl, rfl,
      by simp [Action.uses?]⟩
  have htwo : Pending (ofTokens letterTokens) crossedActions 2 :=
    ⟨[.start, .start, .bump, .complete 0 .matcher, .bump], .precede 0, [], rfl, rfl, rfl,
      by simp [Action.uses?]⟩
  have hzero : Pending (ofTokens letterTokens) [.start, .start, .bump] 0 :=
    ⟨[], .start, [.start, .bump], rfl, rfl, rfl,
      by simp [Action.uses?]⟩
  obtain ⟨one, hm⟩ := (hpending 1).mp hone
  obtain ⟨two, hn⟩ := (hpending 2).mp htwo
  obtain ⟨place, c, p, -, -, hc, hp⟩ := hcompleted _ 0 .matcher [.bump, .precede 0] rfl hzero
  exact ⟨hone, htwo, ⟨one, hm, (hplace 1 one hm).1⟩, ⟨two, hn, (hplace 2 two hn).1⟩,
    c, place, p, hc, hp⟩

end Recorder

end LogQuery
