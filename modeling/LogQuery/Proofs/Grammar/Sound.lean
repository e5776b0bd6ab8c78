import LogQuery.Proofs.Grammar.Production
import LogQuery.Proofs.Tree.Trivia

/-! What every rule keeps: its trees stand for the tokens it takes, in their order, and unless there
is an error node among them they conform and have the shape of the rule. -/
namespace LogQuery.Grammar

open LogQuery.Tree (leavesAll kindsAll word)
open Shape (one opt inOrder)

variable {S T : Shape} {k : Kind} {ts us : List Token} {t : Token} {f g : Found}
  {p : Look} {a b r : Rule} {rs : List Rule} {Ss : List Shape}

/-- The trees stand for the tokens in front of the rest. -/
def Found.Reads (ts : List Token) (f : Found) : Prop :=
  ∃ taken, ts = taken ++ f.rest ∧ List.Forall₂ Token.ReadAs taken (leavesAll f.trees)

/-- The trees conform and have a shape, unless there is an error node among them. -/
def Found.Spells (S : Shape) (f : Found) : Prop :=
  .error ∉ kindsAll f.trees → (∀ t ∈ f.trees, t.Conforms) ∧ word f.trees ∈ S.matches'

structure Found.Sound (S : Shape) (ts : List Token) (f : Found) : Prop where
  reads : f.Reads ts
  spells : f.Spells S

theorem kindsAll_append (cs ds : List Tree) : kindsAll (cs ++ ds) = kindsAll cs ++ kindsAll ds := by
  induction cs with
  | nil => rfl
  | cons c cs ih => simp [kindsAll, ih]

theorem reads_length (h : f.Reads ts) : f.rest.length ≤ ts.length := by
  obtain ⟨taken, rfl, _⟩ := h
  simp

theorem nothing_reads (ts : List Token) : (nothing ts).Reads ts := ⟨[], rfl, .nil⟩

theorem followed_reads (hf : f.Reads ts) (hg : g.Reads f.rest) : (f.followed g).Reads ts := by
  obtain ⟨taken, he, hf⟩ := hf
  obtain ⟨more, hm, hg⟩ := hg
  refine ⟨taken ++ more, ?_, ?_⟩
  · rw [he, hm, List.append_assoc]
    rfl
  · simp only [Found.followed, Tree.leavesAll_append]
    exact List.rel_append hf hg

theorem ofToken_reads (ts us : List Token) (d : Nat) (c : Option (List Token)) :
    (⟨ts.map .ofToken, us, d, c⟩ : Found).Reads (ts ++ us) := by
  refine ⟨ts, rfl, ?_⟩
  rw [Tree.leavesAll_ofToken]
  exact Tree.readAs_all ts

theorem skipUntil_reads (stops : List Kind) (ts : List Token) : (skipUntil stops ts).Reads ts := by
  unfold skipUntil
  set skipped := ts.takeWhile fun t => !stops.contains t.kind with hs
  have ht : ts = skipped ++ ts.drop skipped.length :=
    (List.prefix_iff_eq_append.mp (List.takeWhile_prefix _)).symm
  clear_value skipped
  cases skipped with
  | nil => exact nothing_reads ts
  | cons t more =>
    refine ⟨t :: more, ht, ?_⟩
    simp only [leavesAll, Tree.leaves, Tree.leavesAll_ofToken, List.append_nil]
    exact Tree.readAs_all (t :: more)

theorem skipUntil_nil_rest (ts : List Token) : (skipUntil [] ts).rest = [] := by
  cases ts with
  | nil => rfl
  | cons t ts =>
    have h : ts.takeWhile (fun _ => true) = ts := List.takeWhile_eq_self_iff.mpr fun _ _ => rfl
    simp [skipUntil, h]

theorem skipUntil_cut (stops : List Kind) (ts : List Token) : (skipUntil stops ts).cut = none := by
  unfold skipUntil
  dsimp only
  split <;> rfl

theorem mono_sound (h : f.Sound S ts) (hs : ∀ w ∈ S.matches', w ∈ T.matches') : f.Sound T ts :=
  ⟨h.reads, fun he => ⟨(h.spells he).1, hs _ (h.spells he).2⟩⟩

/-- How deep a finding went says nothing about its trees. -/
theorem congr_sound (h : f.Sound S ts) (ht : g.trees = f.trees) (hr : g.rest = f.rest) :
    g.Sound S ts := by
  refine ⟨?_, ?_⟩
  · rw [Found.Reads, ht, hr]
    exact h.reads
  · rw [Found.Spells, ht]
    exact h.spells

theorem error_sound (h : f.Reads ts) (he : .error ∈ kindsAll f.trees) : f.Sound S ts :=
  ⟨h, fun hn => (hn he).elim⟩

theorem nothing_sound (ts : List Token) : (nothing ts).Sound 1 ts := by
  refine ⟨nothing_reads ts, fun _ => ⟨?_, rfl⟩⟩
  intro t ht
  cases ht

theorem oneOf_sound {ks : List Kind} (h : f.Sound (one k) ts) (hk : k ∈ ks) :
    f.Sound (.oneOf ks) ts :=
  mono_sound h fun _ hw => Shape.mem_oneOf.mpr ⟨k, hk, hw⟩

theorem left_sound (h : f.Sound S ts) : f.Sound (S + T) ts := mono_sound h fun _ hw => Or.inl hw

theorem right_sound (h : f.Sound T ts) : f.Sound (S + T) ts := mono_sound h fun _ hw => Or.inr hw

theorem single_sound : f.Sound (inOrder [S]) ts ↔ f.Sound S ts := by
  have he : (inOrder [S]).matches' = S.matches' := mul_one _
  exact ⟨fun h => mono_sound h fun w hw => he ▸ hw, fun h => mono_sound h fun w hw => he ▸ hw⟩

theorem followed_sound (hf : f.Sound S ts) (hg : g.Sound T f.rest) :
    (f.followed g).Sound (S * T) ts := by
  refine ⟨followed_reads hf.reads hg.reads, fun he => ?_⟩
  simp only [Found.followed, kindsAll_append, List.mem_append, not_or] at he
  obtain ⟨hcf, hwf⟩ := hf.spells he.1
  obtain ⟨hcg, hwg⟩ := hg.spells he.2
  refine ⟨?_, ?_⟩
  · intro t ht
    rcases List.mem_append.mp ht with ht | ht
    · exact hcf t ht
    · exact hcg t ht
  · simp only [Found.followed, Tree.word_append]
    exact Language.append_mem_mul hwf hwg

theorem followed_sound_one (hf : f.Sound S ts) (hg : g.Sound 1 f.rest) :
    (f.followed g).Sound S ts :=
  single_sound.mp (followed_sound hf hg)

theorem pair_sound (hf : f.Sound S ts) (hg : g.Sound T f.rest) :
    (f.followed g).Sound (inOrder [S, T]) ts := followed_sound hf (single_sound.mpr hg)

/-- A part that leaves no tree without an error node does not show in the shape. -/
theorem followed_sound_of_one (hf : f.Sound 1 ts) (hg : g.Sound S f.rest) :
    (f.followed g).Sound S ts :=
  mono_sound (followed_sound hf hg) fun w hw => by
    rwa [RegularExpression.matches'_mul, RegularExpression.matches'_epsilon, one_mul] at hw

theorem seq_sound (h : (r ts).Sound S ts)
    (hs : (seq rs (r ts).rest).Sound (inOrder Ss) (r ts).rest) :
    (seq (r :: rs) ts).Sound (inOrder (S :: Ss)) ts := followed_sound h hs

theorem seq_sound_nil (ts : List Token) : (seq [] ts).Sound (inOrder []) ts := nothing_sound ts

/-- A part with several pieces of its own takes its place among the others. -/
theorem append_sound {A B : List Shape} (hf : f.Sound (inOrder A) ts)
    (hg : g.Sound (inOrder B) f.rest) : (f.followed g).Sound (inOrder (A ++ B)) ts :=
  mono_sound (followed_sound hf hg) fun _ hw => Shape.inOrder_append A B ▸ hw

theorem seq_sound_skip (h : (r ts).Sound 1 ts)
    (hs : (seq rs (r ts).rest).Sound (inOrder Ss) (r ts).rest) :
    (seq (r :: rs) ts).Sound (inOrder Ss) ts := followed_sound_of_one h hs

theorem when_sound (h : p ts = true → (r ts).Sound S ts) : (when p r ts).Sound (opt S) ts := by
  unfold when
  split
  · next hp => exact right_sound (h hp)
  · exact left_sound (nothing_sound ts)

theorem either_sound (ha : p ts = true → (a ts).Sound S ts)
    (hb : p ts = false → (b ts).Sound T ts) :
    (either p a b ts).Sound (S + T) ts := by
  unfold either
  split
  · next hp => exact left_sound (ha hp)
  · next hp => exact right_sound (hb (by simpa using hp))

theorem either_sound_same (ha : p ts = true → (a ts).Sound S ts)
    (hb : p ts = false → (b ts).Sound S ts) : (either p a b ts).Sound S ts :=
  mono_sound (either_sound ha hb) fun _ hw => hw.elim id id

theorem many_go_sound (h : ∀ us, p us = true → (r us).Sound S us) (limit ts : List Token) :
    (many.go p r limit ts).Sound S.star ts := by
  induction limit generalizing ts with
  | nil =>
    refine mono_sound (nothing_sound ts) fun w hw => ?_
    rw [(Language.mem_one w).mp hw]
    exact Language.nil_mem_kstar _
  | cons _ limit ih =>
    have hs : (when p (andThen r (many.go p r limit)) ts).Sound (opt (S * S.star)) ts :=
      when_sound fun hp => followed_sound (h ts hp) (ih _)
    refine mono_sound hs fun w hw => ?_
    rw [RegularExpression.matches'_star, ← Language.one_add_self_mul_kstar_eq_kstar]
    exact hw

theorem many_sound (h : ∀ us, p us = true → (r us).Sound S us) (ts : List Token) :
    (many p r ts).Sound S.star ts := many_go_sound h ts ts

/-- A loop that is entered runs at least once. -/
theorem many_sound_of_look (h : ∀ us, p us = true → (r us).Sound S us)
    (hp : p (t :: ts) = true) : (many p r (t :: ts)).Sound (.some S) (t :: ts) := by
  rw [many, many.go, when, if_pos hp]
  exact followed_sound (h _ hp) (many_go_sound h ts _)

theorem many_go_of_not (h : p ts = false) (limit : List Token) :
    many.go p r limit ts = nothing ts := by
  cases limit with
  | nil => rfl
  | cons u limit => simp [many.go, when, h]

theorem many_of_not (h : p ts = false) : many p r ts = nothing ts := many_go_of_not h ts

theorem missing_sound (ts : List Token) : (missing ts).Sound S ts :=
  error_sound ⟨[], rfl, .nil⟩ (by simp [missing, node, nodeBy, kindsAll, Tree.kinds])

theorem word_node (k : Kind) (cs : List Tree) (h : k.isTrivia = false) :
    word [.node k cs] = [k] := by
  simp [word, Tree.kind, h]

theorem nodeBy_sound {q : List Tree → Kind} (hk : (q (r ts).trees).isTrivia = false)
    (h : (r ts).Sound (production (q (r ts).trees)) ts) :
    (nodeBy q r ts).Sound (one (q (r ts).trees)) ts := by
  obtain ⟨⟨taken, ht, hr⟩, hs⟩ := h
  refine ⟨⟨taken, ht, ?_⟩, fun he => ?_⟩
  · simpa [nodeBy, leavesAll, Tree.leaves] using hr
  · simp only [nodeBy, kindsAll, Tree.kinds, List.append_nil, List.mem_cons, not_or] at he
    obtain ⟨hc, hw⟩ := hs he.2
    refine ⟨?_, ?_⟩
    · intro t ht
      rw [nodeBy, List.mem_singleton] at ht
      subst ht
      exact .node _ _ hw hc
    · simp only [nodeBy, word_node _ _ hk]
      rfl

theorem node_sound (hk : k.isTrivia = false) (h : (r ts).Sound (production k) ts) :
    (node k r ts).Sound (one k) ts := nodeBy_sound (q := fun _ => k) hk h

/-- What stands under an error node is not asked for its shape. -/
theorem node_error_sound (h : (r ts).Reads ts) : (node .error r ts).Sound S ts := by
  obtain ⟨taken, ht, hr⟩ := h
  refine error_sound ⟨taken, ht, ?_⟩ (by simp [node, nodeBy, kindsAll, Tree.kinds])
  simpa [node, nodeBy, leavesAll, Tree.leaves] using hr

theorem word_leaf (k : Kind) (t : Text) (h : k.isTrivia = false) : word [.leaf k t] = [k] := by
  simp [word, Tree.kind, h]

theorem bumpAs_sound (ts : List Token) (hk : k.isTrivia = false)
    (h : t.ReadAs ⟨k, t.text⟩) : (bumpAs k (t :: ts)).Sound (one k) (t :: ts) := by
  refine ⟨⟨[t], rfl, .cons h .nil⟩, fun _ => ⟨?_, ?_⟩⟩
  · intro c hc
    rw [bumpAs, List.mem_singleton] at hc
    subst hc
    exact .leaf k t.text
  · simp only [bumpAs, word_leaf k _ hk]
    rfl

theorem bump_sound (ts : List Token) (hk : t.kind = k) (ht : k.isTrivia = false) :
    (bump (t :: ts)).Sound (one k) (t :: ts) := by
  subst hk
  exact bumpAs_sound ts ht ⟨rfl, Or.inl rfl⟩

theorem bumpWord_sound (ts : List Token) {w : Keyword} (h : t.spells w = true) :
    (bumpWord w (t :: ts)).Sound (.word w) (t :: ts) :=
  bumpAs_sound ts rfl ⟨rfl, Or.inr ⟨w, h, rfl⟩⟩

theorem seq_bump_sound (h : t.kind = k) (hk : k.isTrivia = false)
    (hs : (seq rs ts).Sound (inOrder Ss) ts) :
    (seq (bump :: rs) (t :: ts)).Sound (inOrder (one k :: Ss)) (t :: ts) :=
  seq_sound (bump_sound ts h hk) hs

theorem seq_bumpWord_sound {w : Keyword} (h : t.spells w = true)
    (hs : (seq rs ts).Sound (inOrder Ss) ts) :
    (seq (bumpWord w :: rs) (t :: ts)).Sound (inOrder (.word w :: Ss)) (t :: ts) :=
  seq_sound (bumpWord_sound ts h) hs

theorem bump_reads (ts : List Token) : (bump ts).Reads ts := by
  cases ts with
  | nil => exact nothing_reads []
  | cons t ts => exact ofToken_reads [t] ts 0 none

theorem kindAt_cons (h : kindAt 0 ts = k) (hk : k ≠ .eof) : ∃ t us, ts = t :: us ∧ t.kind = k := by
  cases ts with
  | nil => exact (hk h.symm).elim
  | cons t us => exact ⟨t, us, rfl, h⟩

theorem wordAt_cons {w : Keyword} (h : wordAt 0 w ts = true) :
    ∃ t us, ts = t :: us ∧ t.spells w = true := by
  cases ts with
  | nil => simp at h
  | cons t us => exact ⟨t, us, rfl, h⟩

theorem atKind_cons (h : atKind k ts = true) : ∃ t us, ts = t :: us ∧ t.kind = k := by
  cases ts with
  | nil => simp [atKind] at h
  | cons t us => exact ⟨t, us, rfl, by simpa [atKind] using h⟩

theorem atAny_cons {ks : List Kind} (h : atAny ks ts = true) :
    ∃ t us, ts = t :: us ∧ t.kind ∈ ks := by
  cases ts with
  | nil => simp [atAny] at h
  | cons t us => exact ⟨t, us, rfl, by simpa [atAny] using h⟩

theorem optional_sound (hk : k.isTrivia = false) (ts : List Token) :
    (optional k ts).Sound (opt (one k)) ts :=
  when_sound fun h => by
    obtain ⟨t, us, rfl, ht⟩ := atKind_cons h
    exact bump_sound us ht hk

theorem expect_sound (hk : k.isTrivia = false) (ts : List Token) :
    (expect k ts).Sound (one k) ts := by
  unfold expect either
  split
  · next h =>
    obtain ⟨t, us, rfl, ht⟩ := atKind_cons h
    exact bump_sound us ht hk
  · exact missing_sound ts

/-- An expected token, or an empty error node in its place. -/
theorem seq_expect_sound (hk : k.isTrivia = false) (ts : List Token)
    (hs : ∀ us, (seq rs us).Sound (inOrder Ss) us) :
    (seq (expect k :: rs) ts).Sound (inOrder (one k :: Ss)) ts :=
  seq_sound (expect_sound hk ts) (hs _)

theorem skipUntil_sound (stops : List Kind) (ts : List Token) :
    (skipUntil stops ts).Sound 1 ts := by
  refine ⟨skipUntil_reads stops ts, ?_⟩
  simp only [skipUntil]
  split
  · exact (nothing_sound ts).spells
  · exact fun he => (he (by simp [kindsAll, Tree.kinds])).elim

/-- Tokens that are refused become an error node. -/
theorem refuse_sound (t : Token) (ts : List Token) : (refuse (t :: ts)).Sound S (t :: ts) :=
  error_sound (skipUntil_reads [] _) (by simp [refuse, skipUntil, kindsAll, Tree.kinds])

theorem refuse_sound_nil : (refuse []).Sound 1 [] :=
  ⟨skipUntil_reads [] _, (nothing_sound []).spells⟩

theorem orMissing_sound (hk : k.isTrivia = false) (h : (r ts).Sound S ts) :
    (orMissing k r ts).Sound (one k) ts := by
  unfold orMissing Found.orMissing
  split
  · next hm =>
    refine ⟨h.reads, fun he => ⟨(h.spells he).1, ?_⟩⟩
    unfold Found.makes at hm
    split at hm
    · next t ht =>
      have hw : word [t] = [k] := by simp [word, of_decide_eq_true hm, hk]
      rw [ht, hw]
      rfl
    · cases hm
  · exact error_sound (followed_reads h.reads (missing_sound (S := 1) _).reads)
      (by simp [Found.followed, kindsAll_append, missing, node, nodeBy, kindsAll, Tree.kinds])

theorem deepen_sound (h : (r ts).Sound S ts) : (deepen r ts).Sound S ts :=
  congr_sound h rfl rfl

section Chain

variable {join : List Token → Option Join} {wrap : List Tree → Tree} {operand : Nat → Rule}
  {least : Nat} {first : Rule}

/-- From a left operand that is sound for the tokens from `ts` on, to all that is joined to it. -/
theorem climb_sound
    (hjoin : ∀ us j, join us = some j → (andThen j.mark (operand j.right) us).Sound T us)
    (hwrap : ∀ us (f : Found), f.Sound (one k * T) us →
      (⟨[wrap f.trees], f.rest, f.depth, f.cut⟩ : Found).Sound (one k) us)
    (limit : List Token) {acc : Found} {lhs : Tree} (ht : acc.trees = [lhs])
    (hs : acc.Sound (one k) ts) :
    (acc.absorbed (climb join wrap operand least limit lhs acc.rest)).Sound (one k) ts := by
  induction limit generalizing acc lhs with
  | nil => exact congr_sound hs ht.symm rfl
  | cons _ limit ih =>
    rw [climb]
    split
    · exact congr_sound hs ht.symm rfl
    · next j hj =>
      split
      · exact congr_sound hs ht.symm rfl
      · have hf := followed_sound hs (hjoin acc.rest j hj)
        have hw := hwrap ts _ hf
        simp only [Found.followed, ht, List.singleton_append] at hw
        exact congr_sound (ih rfl hw) rfl rfl

theorem chain_sound (hfirst : (first ts).Sound (one k) ts)
    (hjoin : ∀ us j, join us = some j → (andThen j.mark (operand j.right) us).Sound T us)
    (hwrap : ∀ us (f : Found), f.Sound (one k * T) us →
      (⟨[wrap f.trees], f.rest, f.depth, f.cut⟩ : Found).Sound (one k) us) :
    (chain first join wrap operand least ts).Sound (one k) ts := by
  simp only [chain]
  split
  · next lhs ht => exact climb_sound hjoin hwrap _ ht hfirst
  · exact hfirst

/-- Without a first operand nothing is joined. -/
theorem chain_sound_of_nothing (h : first ts = nothing ts) :
    (chain first join wrap operand least ts).Sound 1 ts := by
  simp only [chain, h, nothing]
  exact nothing_sound ts

end Chain

end LogQuery.Grammar
