import LogQuery.Proofs.Grammar.Sound

/-! Loops take at least one token each time around, so that the limit on them is never met: a loop
is equal to its own unfolding. -/
namespace LogQuery.Grammar

variable {k : Kind} {ts us : List Token} {t : Token} {p : Look} {a b r : Rule} {rs : List Rule}

/-- A rule leaves no more tokens than it is given. -/
class NoLonger (r : Rule) : Prop where
  length_le : ∀ ts, (r ts).rest.length ≤ ts.length

/-- A rule takes at least one of some tokens. -/
def Shorter (r : Rule) (ts : List Token) : Prop := (r ts).rest.length < ts.length

instance : NoLonger nothing := ⟨fun _ => Nat.le_refl _⟩

instance : NoLonger (bumpAs k) where
  length_le ts := by cases ts <;> simp [bumpAs, nothing]

instance : NoLonger bump where
  length_le ts := by cases ts <;> simp [bump, nothing]

instance (w : Keyword) : NoLonger (bumpWord w) := inferInstanceAs (NoLonger (bumpAs _))

instance (ks : List Kind) : NoLonger (skipUntil ks) :=
  ⟨fun ts => reads_length (skipUntil_reads ks ts)⟩

instance : NoLonger refuse := ⟨fun ts => reads_length (skipUntil_reads [] ts)⟩

instance [ha : NoLonger a] [hb : NoLonger b] : NoLonger (andThen a b) :=
  ⟨fun ts => (hb.length_le _).trans (ha.length_le ts)⟩

instance : NoLonger (seq []) := inferInstanceAs (NoLonger nothing)

instance [NoLonger r] [NoLonger (seq rs)] : NoLonger (seq (r :: rs)) :=
  inferInstanceAs (NoLonger (andThen r (seq rs)))

instance [ha : NoLonger a] [hb : NoLonger b] : NoLonger (either p a b) where
  length_le ts := by
    unfold either
    split
    · exact ha.length_le ts
    · exact hb.length_le ts

instance [NoLonger r] : NoLonger (when p r) := inferInstanceAs (NoLonger (either p r nothing))

instance [NoLonger r] : NoLonger (many p r) := by
  have hgo : ∀ limit, NoLonger (many.go p r limit) := by
    intro limit
    induction limit with
    | nil => exact inferInstanceAs (NoLonger nothing)
    | cons _ limit ih => exact inferInstanceAs (NoLonger (when p (andThen r (many.go p r limit))))
  exact ⟨fun ts => (hgo ts).length_le ts⟩

instance {q : List Tree → Kind} [h : NoLonger r] : NoLonger (nodeBy q r) := ⟨h.length_le⟩

instance [NoLonger r] : NoLonger (node k r) := inferInstanceAs (NoLonger (nodeBy _ r))

instance : NoLonger missing := inferInstanceAs (NoLonger (node .error nothing))

instance : NoLonger (optional k) := inferInstanceAs (NoLonger (when _ bump))

instance : NoLonger (expect k) := inferInstanceAs (NoLonger (either _ bump missing))

instance [h : NoLonger r] : NoLonger (orMissing k r) where
  length_le ts := by
    unfold orMissing Found.orMissing
    split
    · exact h.length_le ts
    · exact h.length_le ts

instance [h : NoLonger r] : NoLonger (deepen r) := ⟨h.length_le⟩

theorem shorter_bump (h : ts ≠ []) : Shorter bump ts := by
  cases ts with
  | nil => exact (h rfl).elim
  | cons t ts => simp [Shorter, bump]

theorem shorter_bumpAs (h : ts ≠ []) : Shorter (bumpAs k) ts := by
  cases ts with
  | nil => exact (h rfl).elim
  | cons t ts => simp [Shorter, bumpAs]

theorem shorter_andThen [hb : NoLonger b] (ha : Shorter a ts) : Shorter (andThen a b) ts :=
  (hb.length_le _).trans_lt ha

theorem shorter_andThen_right [ha : NoLonger a] (hb : Shorter b (a ts).rest) :
    Shorter (andThen a b) ts := lt_of_lt_of_le hb (ha.length_le ts)

theorem shorter_seq [NoLonger (seq rs)] (h : Shorter r ts) : Shorter (seq (r :: rs)) ts :=
  shorter_andThen h

theorem shorter_either (ha : p ts = true → Shorter a ts) (hb : p ts = false → Shorter b ts) :
    Shorter (either p a b) ts := by
  unfold Shorter either
  split
  · next hp => exact ha hp
  · next hp => exact hb (by simpa using hp)

theorem shorter_node (h : Shorter r ts) : Shorter (node k r) ts := h

theorem shorter_deepen (h : Shorter r ts) : Shorter (deepen r) ts := h

theorem shorter_orMissing (h : Shorter r ts) : Shorter (orMissing k r) ts := by
  unfold Shorter orMissing Found.orMissing
  split
  · exact h
  · exact h

theorem shorter_refuse (h : ts ≠ []) : Shorter refuse ts := by
  have hr : (refuse ts).rest = [] := skipUntil_nil_rest ts
  rw [Shorter, hr]
  exact List.length_pos_iff.mpr h

theorem kindAt_ne_nil {n : Nat} (h : kindAt n ts = k) (hk : k ≠ .eof) : ts ≠ [] := by
  rintro rfl
  exact hk h.symm

theorem atKind_ne_nil (h : atKind k ts = true) : ts ≠ [] := by
  rintro rfl
  cases h

/-- A rule that takes a token is not begun where there is none. -/
theorem look_nil (h : ∀ ts, p ts = true → Shorter r ts) : p [] = false := by
  by_contra hp
  exact absurd (h [] (by simpa using hp)) (Nat.not_lt_zero _)

/-- Any two limits with a token for each time around are the same. -/
theorem many_go_limit (h : ∀ ts, p ts = true → Shorter r ts) {l m : List Token}
    (hl : ts.length ≤ l.length) (hm : ts.length ≤ m.length) :
    many.go p r l ts = many.go p r m ts := by
  induction l generalizing m ts with
  | nil =>
    obtain rfl : ts = [] := List.length_eq_zero_iff.mp (by simpa using hl)
    rw [many_go_of_not (look_nil h), many_go_of_not (look_nil h)]
  | cons x l ih =>
    cases m with
    | nil =>
      obtain rfl : ts = [] := List.length_eq_zero_iff.mp (by simpa using hm)
      rw [many_go_of_not (look_nil h), many_go_of_not (look_nil h)]
    | cons y m =>
      rw [many.go, many.go]
      unfold when
      split
      · next hp =>
        have hs : (r ts).rest.length < ts.length := h ts hp
        simp only [List.length_cons] at hl hm
        have he : many.go p r l (r ts).rest = many.go p r m (r ts).rest :=
          ih (by omega) (by omega)
        simp only [andThen, he]
      · rfl

/-- A loop whose rule takes a token wherever it is entered goes on as long as its look allows. -/
theorem many_eq (h : ∀ ts, p ts = true → Shorter r ts) :
    many p r = when p (andThen r (many p r)) := by
  funext ts
  unfold when
  split
  · next hp =>
    have hs : (r ts).rest.length < ts.length := h ts hp
    cases ts with
    | nil => exact absurd hs (Nat.not_lt_zero _)
    | cons t ts =>
      rw [many, many.go, when, if_pos hp]
      simp only [andThen, many]
      rw [many_go_limit h (by simpa using Nat.le_of_lt_succ hs) (Nat.le_refl _)]
  · next hp => exact many_of_not (by simpa using hp)

theorem shorter_many [NoLonger r] (h : ∀ ts, p ts = true → Shorter r ts) (hp : p ts = true) :
    Shorter (many p r) ts := by
  rw [many_eq h, Shorter, when, if_pos hp]
  exact shorter_andThen (h ts hp)

section Chain

variable {join : List Token → Option Join} {wrap : List Tree → Tree} {operand : Nat → Rule}
  {least : Nat} {first : Rule} {lhs : Tree}

theorem climb_of_none (h : join ts = none) (limit : List Token) :
    climb join wrap operand least limit lhs ts = ⟨[lhs], ts, 0, none⟩ := by
  cases limit with
  | nil => rfl
  | cons _ limit => simp only [climb, h]

theorem climb_length (h : ∀ ts j, join ts = some j → NoLonger (andThen j.mark (operand j.right)))
    (limit : List Token) (lhs : Tree) (ts : List Token) :
    (climb join wrap operand least limit lhs ts).rest.length ≤ ts.length := by
  induction limit generalizing lhs ts with
  | nil => exact Nat.le_refl _
  | cons _ limit ih =>
    rw [climb]
    split
    · exact Nat.le_refl _
    · next j hj =>
      split
      · exact Nat.le_refl _
      · exact (ih _ _).trans ((h ts j hj).length_le ts)

theorem noLonger_chain [hf : NoLonger first]
    (h : ∀ ts j, join ts = some j → NoLonger (andThen j.mark (operand j.right))) :
    NoLonger (chain first join wrap operand least) where
  length_le ts := by
    simp only [chain]
    split
    · exact (climb_length h _ _ _).trans (hf.length_le ts)
    · exact hf.length_le ts

theorem shorter_chain (hf : Shorter first ts)
    (h : ∀ ts j, join ts = some j → NoLonger (andThen j.mark (operand j.right))) :
    Shorter (chain first join wrap operand least) ts := by
  unfold Shorter
  simp only [chain]
  split
  · exact (climb_length h _ _ _).trans_lt hf
  · exact hf

/-- Any two limits with a token for each sign are the same. -/
theorem climb_limit
    (h : ∀ ts j, join ts = some j → Shorter (andThen j.mark (operand j.right)) ts)
    {l m : List Token} (hl : ts.length ≤ l.length) (hm : ts.length ≤ m.length) :
    climb join wrap operand least l lhs ts = climb join wrap operand least m lhs ts := by
  have hnil : join [] = none := by
    cases hj : join [] with
    | none => rfl
    | some j => exact absurd (h [] j hj) (Nat.not_lt_zero _)
  induction l generalizing m ts lhs with
  | nil =>
    obtain rfl : ts = [] := List.length_eq_zero_iff.mp (by simpa using hl)
    rw [climb_of_none hnil, climb_of_none hnil]
  | cons x l ih =>
    cases m with
    | nil =>
      obtain rfl : ts = [] := List.length_eq_zero_iff.mp (by simpa using hm)
      rw [climb_of_none hnil, climb_of_none hnil]
    | cons y m =>
      rw [climb, climb]
      split
      · rfl
      · next j hj =>
        split
        · rfl
        · have hs : (andThen j.mark (operand j.right) ts).rest.length < ts.length := h ts j hj
          simp only [List.length_cons] at hl hm
          exact congrArg (Found.absorbed _) (ih (by omega) (by omega))

/-- A left operand, and what is joined to it. -/
def joined (join : List Token → Option Join) (wrap : List Tree → Tree) (operand : Nat → Rule)
    (least : Nat) (lhs : Tree) : Rule := fun ts => climb join wrap operand least ts lhs ts

theorem joined_of_none (h : join ts = none) :
    joined join wrap operand least lhs ts = ⟨[lhs], ts, 0, none⟩ := climb_of_none h ts

/-- A sign that binds too weakly is left. -/
theorem joined_of_weak {j : Join} (h : join ts = some j) (hl : j.left < least) :
    joined join wrap operand least lhs ts = ⟨[lhs], ts, 0, none⟩ := by
  cases ts with
  | nil => rfl
  | cons t ts => simp only [joined, climb, h, if_pos hl]

theorem joined_eq (h : ∀ ts j, join ts = some j → Shorter (andThen j.mark (operand j.right)) ts)
    {j : Join} (hj : join ts = some j) (hl : least ≤ j.left) :
    joined join wrap operand least lhs ts =
      (andThen j.mark (operand j.right) ts).absorbed
        (joined join wrap operand least (wrap (lhs :: (andThen j.mark (operand j.right) ts).trees))
          (andThen j.mark (operand j.right) ts).rest) := by
  have hs : (andThen j.mark (operand j.right) ts).rest.length < ts.length := h ts j hj
  cases ts with
  | nil => exact absurd hs (Nat.not_lt_zero _)
  | cons t ts =>
    simp only [joined, climb, hj, if_neg (Nat.not_lt.mpr hl)]
    rw [climb_limit h (Nat.le_of_lt_succ hs) (Nat.le_refl _)]

theorem chain_eq {d : Nat} {c : Option (List Token)} (h : first ts = ⟨[lhs], us, d, c⟩) :
    chain first join wrap operand least ts =
      (⟨[lhs], us, d, c⟩ : Found).absorbed (joined join wrap operand least lhs us) := by
  simp only [chain, h, joined]

end Chain

end LogQuery.Grammar
