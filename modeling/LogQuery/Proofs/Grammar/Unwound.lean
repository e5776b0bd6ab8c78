import LogQuery.Proofs.Grammar.Sound
import LogQuery.Proofs.Precedence.Ranked

/-! Nesting that is refused, and nesting that is not. Where a level is refused, all that is left goes
into one error node, and the rules around it come to their ends with nothing but empty error nodes.
Where none is refused, a rule with more levels finds the same. -/
namespace LogQuery

namespace Kind

@[reducible] def isRight : Kind → Bool
  | .error => false
  | _ => true

end Kind

namespace Tree

mutual

/-- The error nodes in the order of the text. -/
def errors : Tree → List Tree
  | leaf _ _ => []
  | node k cs => if k = .error then node k cs :: errorsAll cs else errorsAll cs

def errorsAll : List Tree → List Tree
  | [] => []
  | t :: ts => t.errors ++ errorsAll ts

end

variable {k : Kind}

theorem errorsAll_append (cs ds : List Tree) :
    errorsAll (cs ++ ds) = errorsAll cs ++ errorsAll ds := by
  induction cs with
  | nil => rfl
  | cons c cs ih => rw [List.cons_append, errorsAll, ih, errorsAll, List.append_assoc]

theorem errorsAll_tokens (us : List Token) : errorsAll (us.map ofToken) = [] := by
  induction us with
  | nil => rfl
  | cons u us ih => exact ih

theorem errors_tokens (us : List Token) :
    (node .error (us.map ofToken)).errors = [.node .error (us.map ofToken)] := by
  rw [errors, if_pos rfl, errorsAll_tokens]

theorem errors_node (h : k.isRight = true) (cs : List Tree) :
    (node k cs).errors = errorsAll cs := by
  rw [errors, if_neg]
  rintro rfl
  cases h

end Tree

namespace Grammar

open LogQuery.Tree (errorsAll errorsAll_append errorsAll_tokens)

variable {k : Kind} {ts us : List Token} {p : Look} {a a' b b' r r' : Rule} {rs rs' : List Rule}
  {f g : Found} {levels more : Nat}

/-- Some tokens are all that one of the error nodes holds, and those behind it are empty. -/
def Lodged (us : List Token) (errors : List Tree) : Prop :=
  ∃ before after, errors = before ++ .node .error (us.map .ofToken) :: after ∧
    ∀ e ∈ after, e = .node .error []

/-- What is found where a level may be refused. Error nodes hold tokens only, and without tokens
nothing. Where a level is refused, the tokens from there to the end are in one error node. -/
structure Unwound (ts : List Token) (f : Found) : Prop where
  rest : f.rest <:+ ts
  flat : ∀ e ∈ errorsAll f.trees, ∃ us : List Token, e = .node .error (us.map .ofToken)
  ended : ts = [] → ∀ e ∈ errorsAll f.trees, e = .node .error []
  refused : ∀ us, f.cut = some us → f.rest = [] ∧ us <:+ ts ∧ Lodged us (errorsAll f.trees)

/-- A rule is unwound wherever it is refused, and the second one, which has more levels, finds the
same where it is not. -/
class Unwinds (r r' : Rule) : Prop where
  unwound : ∀ ts, Unwound ts (r ts)
  same : ∀ ts, (r ts).cut = none → r' ts = r ts

/-- As before, except that nothing is found where the rule itself is refused at the end. -/
class MayRefuse (r r' : Rule) : Prop where
  unwound : ∀ ts, ts ≠ [] → Unwound ts (r ts)
  ended : (r []).trees = [] ∧ (r []).rest = [] ∧ ∀ us, (r []).cut = some us → us = []
  same : ∀ ts, (r ts).cut = none → r' ts = r ts

theorem unwound_self (r : Rule) [h : Unwinds r r] (ts : List Token) : Unwound ts (r ts) :=
  h.unwound ts

theorem cut_none {x y : Option (List Token)} (h : (x <|> y) = none) : x = none ∧ y = none := by
  cases x with
  | none => exact ⟨rfl, h⟩
  | some _ => cases h

theorem unwound_of (h : Unwound ts f) (hr : g.rest = f.rest) (hc : g.cut = f.cut)
    (he : errorsAll g.trees = errorsAll f.trees) : Unwound ts g where
  rest := hr ▸ h.rest
  flat := he ▸ h.flat
  ended := he ▸ h.ended
  refused := by
    rw [hr, hc, he]
    exact h.refused

theorem plain_unwound (hr : f.rest <:+ ts) (hc : f.cut = none) (he : errorsAll f.trees = []) :
    Unwound ts f where
  rest := hr
  flat := by simp [he]
  ended := by simp [he]
  refused := by simp [hc]

theorem error_unwound (us : List Token) (hr : f.rest <:+ ts) (hc : f.cut = none)
    (he : errorsAll f.trees = [.node .error (us.map .ofToken)]) (hn : ts = [] → us = []) :
    Unwound ts f where
  rest := hr
  flat := by
    intro e hm
    rw [he, List.mem_singleton] at hm
    exact ⟨us, hm⟩
  ended := by
    intro ht e hm
    rw [he, List.mem_singleton, hn ht] at hm
    exact hm
  refused := by simp [hc]

/-- Where the first finding is refused, nothing is left for the second. -/
theorem followed_unwound (hf : Unwound ts f) (hg : Unwound f.rest g) :
    Unwound ts (f.followed g) := by
  have he : errorsAll (f.followed g).trees = errorsAll f.trees ++ errorsAll g.trees :=
    errorsAll_append _ _
  refine ⟨hg.rest.trans hf.rest, ?_, ?_, ?_⟩
  · rw [he]
    exact List.forall_mem_append.mpr ⟨hf.flat, hg.flat⟩
  · rintro rfl
    rw [he]
    exact List.forall_mem_append.mpr ⟨hf.ended rfl, hg.ended (List.suffix_nil.mp hf.rest)⟩
  · intro us hu
    rw [he]
    cases hc : f.cut with
    | some vs =>
      obtain rfl : vs = us := by simpa [Found.followed, hc] using hu
      obtain ⟨hr, hs, before, after, hl, hafter⟩ := hf.refused vs hc
      refine ⟨?_, hs, before, after ++ errorsAll g.trees, ?_, ?_⟩
      · exact List.suffix_nil.mp (hr ▸ hg.rest)
      · rw [hl, List.append_assoc, List.cons_append]
      · exact List.forall_mem_append.mpr ⟨hafter, hg.ended hr⟩
    | none =>
      obtain ⟨hr, hs, before, after, hl, hafter⟩ :=
        hg.refused us (by simpa [Found.followed, hc] using hu)
      refine ⟨hr, hs.trans hf.rest, errorsAll f.trees ++ before, after, ?_, hafter⟩
      rw [hl, List.append_assoc]

theorem nothing_unwound (ts : List Token) : Unwound ts (nothing ts) :=
  plain_unwound List.suffix_rfl rfl rfl

theorem missing_unwound (ts : List Token) : Unwound ts (missing ts) :=
  error_unwound [] List.suffix_rfl rfl rfl fun _ => rfl

instance : Unwinds nothing nothing := ⟨nothing_unwound, fun _ _ => rfl⟩

instance : Unwinds missing missing := ⟨missing_unwound, fun _ _ => rfl⟩

instance : Unwinds (bumpAs k) (bumpAs k) where
  unwound ts := by
    cases ts with
    | nil => exact nothing_unwound []
    | cons t ts => exact plain_unwound (List.suffix_cons t ts) rfl rfl
  same _ _ := rfl

instance (w : Keyword) : Unwinds (bumpWord w) (bumpWord w) :=
  inferInstanceAs (Unwinds (bumpAs _) (bumpAs _))

instance (stops : List Kind) : Unwinds (skipUntil stops) (skipUntil stops) where
  unwound ts := by
    unfold skipUntil
    dsimp only
    split
    · exact nothing_unwound ts
    · exact error_unwound _ (List.drop_suffix _ ts) rfl
        (by rw [errorsAll, LogQuery.Tree.errors_tokens]; rfl)
        (by rintro rfl; rfl)
  same _ _ := rfl

/-- A rule that takes some tokens from the front, one by one. -/
class Bumps (r : Rule) : Prop where
  bumped : ∀ ts, ∃ us, ts = us ++ (r ts).rest ∧ (r ts).trees = us.map .ofToken ∧ (r ts).cut = none

instance : Bumps bump where
  bumped ts := by
    cases ts with
    | nil => exact ⟨[], rfl, rfl, rfl⟩
    | cons t ts => exact ⟨[t], rfl, rfl, rfl⟩

instance [hr : Bumps r] : Bumps (many p r) := by
  have hgo : ∀ limit ts, ∃ us, ts = us ++ (many.go p r limit ts).rest ∧
      (many.go p r limit ts).trees = us.map .ofToken ∧ (many.go p r limit ts).cut = none := by
    intro limit
    induction limit with
    | nil => exact fun ts => ⟨[], rfl, rfl, rfl⟩
    | cons _ limit ih =>
      intro ts
      rw [many.go, when]
      split
      · obtain ⟨us, hu, ht, hc⟩ := hr.bumped ts
        obtain ⟨vs, hv, ht', hc'⟩ := ih (r ts).rest
        refine ⟨us ++ vs, ?_, ?_, ?_⟩
        · rw [List.append_assoc]
          exact hu.trans (congrArg (us ++ ·) hv)
        · rw [List.map_append, ← ht, ← ht']
          rfl
        · show ((r ts).cut <|> _) = none
          rw [hc]
          exact hc'
      · exact ⟨[], rfl, rfl, rfl⟩
  exact ⟨fun ts => hgo ts ts⟩

instance [hr : Bumps r] : Unwinds r r where
  unwound ts := by
    obtain ⟨us, hu, ht, hc⟩ := hr.bumped ts
    exact plain_unwound ⟨us, hu.symm⟩ hc (by rw [ht, errorsAll_tokens])
  same _ _ := rfl

/-- Tokens that are not wanted. -/
instance [hr : Bumps r] : Unwinds (node .error r) (node .error r) where
  unwound ts := by
    obtain ⟨us, hu, ht, hc⟩ := hr.bumped ts
    refine error_unwound us ⟨us, hu.symm⟩ hc ?_ fun hn => ?_
    · show (Tree.node .error (r ts).trees).errors ++ [] = _
      rw [ht, LogQuery.Tree.errors_tokens, List.append_nil]
    · rw [hn] at hu
      exact (List.append_eq_nil_iff.mp hu.symm).1
  same _ _ := rfl

instance [ha : Unwinds a a'] [hb : Unwinds b b'] : Unwinds (andThen a b) (andThen a' b') where
  unwound ts := followed_unwound (ha.unwound ts) (hb.unwound _)
  same ts hc := by
    obtain ⟨hca, hcb⟩ := cut_none hc
    simp only [andThen]
    rw [ha.same ts hca, hb.same _ hcb]

instance : Unwinds (seq []) (seq []) := inferInstanceAs (Unwinds nothing nothing)

instance [Unwinds r r'] [Unwinds (seq rs) (seq rs')] : Unwinds (seq (r :: rs)) (seq (r' :: rs')) :=
  inferInstanceAs (Unwinds (andThen r (seq rs)) (andThen r' (seq rs')))

/-- A rule is tried only where some tokens ask for it. -/
theorem when_unwinds (hu : ∀ ts, p ts = true → Unwound ts (r ts))
    (hs : ∀ ts, (r ts).cut = none → r' ts = r ts) : Unwinds (when p r) (when p r') where
  unwound ts := by
    unfold when
    split
    · next h => exact hu ts h
    · exact nothing_unwound ts
  same ts hc := by
    unfold when at hc ⊢
    split
    · next h =>
      rw [if_pos h] at hc
      exact hs ts hc
    · rfl

instance [h : Unwinds r r'] : Unwinds (when p r) (when p r') :=
  when_unwinds (fun ts _ => h.unwound ts) h.same

theorem either_unwinds (hu : ∀ ts, p ts = true → Unwound ts (a ts))
    (hs : ∀ ts, (a ts).cut = none → a' ts = a ts) [hb : Unwinds b b'] :
    Unwinds (either p a b) (either p a' b') where
  unwound ts := by
    unfold either
    split
    · next h => exact hu ts h
    · exact hb.unwound ts
  same ts hc := by
    unfold either at hc ⊢
    split
    · next h =>
      rw [if_pos h] at hc
      exact hs ts hc
    · next h =>
      rw [if_neg h] at hc
      exact hb.same ts hc

instance [ha : Unwinds a a'] [Unwinds b b'] : Unwinds (either p a b) (either p a' b') :=
  either_unwinds (fun ts _ => ha.unwound ts) ha.same

theorem many_unwinds (hu : ∀ ts, p ts = true → Unwound ts (r ts))
    (hs : ∀ ts, (r ts).cut = none → r' ts = r ts) : Unwinds (many p r) (many p r') := by
  have hgo : ∀ limit, Unwinds (many.go p r limit) (many.go p r' limit) := by
    intro limit
    induction limit with
    | nil => exact inferInstanceAs (Unwinds nothing nothing)
    | cons _ limit ih =>
      refine when_unwinds (fun ts h => followed_unwound (hu ts h) (ih.unwound _)) fun ts hc => ?_
      obtain ⟨hca, hcb⟩ := cut_none hc
      simp only [andThen]
      rw [hs ts hca, ih.same _ hcb]
  exact ⟨fun ts => (hgo ts).unwound ts, fun ts => (hgo ts).same ts⟩

instance [h : Unwinds r r'] : Unwinds (many p r) (many p r') :=
  many_unwinds (fun ts _ => h.unwound ts) h.same

theorem nodeBy_unwound {pick : List Tree → Kind} (hk : (pick (r ts).trees).isRight = true)
    (h : Unwound ts (r ts)) : Unwound ts (nodeBy pick r ts) := by
  refine unwound_of h rfl rfl ?_
  show (Tree.node _ _).errors ++ [] = _
  rw [LogQuery.Tree.errors_node hk, List.append_nil]

theorem nodeBy_same {pick : List Tree → Kind} (hs : (r ts).cut = none → r' ts = r ts)
    (hc : (nodeBy pick r ts).cut = none) : nodeBy pick r' ts = nodeBy pick r ts := by
  simp only [nodeBy]
  rw [hs hc]

instance [hk : Holds k.isRight] [h : Unwinds r r'] : Unwinds (node k r) (node k r') where
  unwound ts := nodeBy_unwound hk.holds (h.unwound ts)
  same ts := nodeBy_same (h.same ts)

instance : Unwinds (optional k) (optional k) :=
  inferInstanceAs (Unwinds (when _ bump) (when _ bump))

instance : Unwinds (expect k) (expect k) :=
  inferInstanceAs (Unwinds (either _ bump missing) (either _ bump missing))

instance [h : Unwinds r r'] : Unwinds (deepen r) (deepen r') where
  unwound ts := unwound_of (h.unwound ts) rfl rfl rfl
  same ts hc := by
    simp only [deepen]
    rw [h.same ts hc]

theorem refuse_trees_cons (t : Token) (ts : List Token) :
    (refuse (t :: ts)).trees = [.node .error ((t :: ts).map .ofToken)] := by
  have ht : ((t :: ts).takeWhile fun u => !([] : List Kind).contains u.kind) = t :: ts :=
    List.takeWhile_eq_self_iff.mpr fun _ _ => rfl
  simp only [refuse, skipUntil, ht]

instance (r' : Rule) : MayRefuse refuse r' where
  unwound ts hts := by
    obtain ⟨t, us, rfl⟩ := List.exists_cons_of_ne_nil hts
    have he : errorsAll (refuse (t :: us)).trees = [.node .error ((t :: us).map .ofToken)] := by
      rw [refuse_trees_cons, errorsAll, LogQuery.Tree.errors_tokens]
      rfl
    have hr : (refuse (t :: us)).rest = [] := skipUntil_nil_rest _
    refine ⟨hr ▸ List.nil_suffix, ?_, fun hn => (hts hn).elim, ?_⟩
    · rw [he]
      intro e hm
      exact ⟨t :: us, List.mem_singleton.mp hm⟩
    · rintro _ ⟨⟩
      exact ⟨hr, List.suffix_rfl, [], [], he, by simp⟩
  ended := ⟨rfl, rfl, by rintro _ ⟨⟩; rfl⟩
  same _ hc := by cases hc

theorem orMissing_cut (h : (f.orMissing k).cut = none) : f.cut = none := by
  unfold Found.orMissing at h
  split at h
  · exact h
  · exact (cut_none h).1

/-- Where nothing is found, an empty error node stands for it. -/
instance [h : MayRefuse r r'] : Unwinds (orMissing k r) (orMissing k r') where
  unwound ts := by
    unfold orMissing Found.orMissing
    by_cases hts : ts = []
    · subst hts
      obtain ⟨ht, hr, hc⟩ := h.ended
      rw [if_neg (by simp [Found.makes, ht]), hr]
      have he : errorsAll ((r []).followed (missing [])).trees = [.node .error []] := by
        rw [Found.followed, ht]
        rfl
      refine ⟨List.suffix_rfl, ?_, ?_, fun us hu => ⟨rfl, ?_⟩⟩
      · rw [he]
        exact fun e hm => ⟨[], List.mem_singleton.mp hm⟩
      · rw [he]
        exact fun _ e hm => List.mem_singleton.mp hm
      · obtain rfl : us = [] := by
          cases hcut : (r []).cut with
          | some vs =>
            obtain rfl : vs = us := by simpa [Found.followed, hcut] using hu
            exact hc vs hcut
          | none => simp [Found.followed, hcut, missing, node, nodeBy, nothing] at hu
        exact ⟨List.suffix_rfl, [], [], he, by simp⟩
    · split
      · exact h.unwound ts hts
      · exact followed_unwound (h.unwound ts hts) (missing_unwound _)
  same ts hc := by
    unfold orMissing
    rw [h.same ts (orMissing_cut hc)]

section Chain

variable {join : List Token → Option Join} {wrap : List Tree → Tree} {operand operand' : Nat → Rule}
  {least : Nat} {first first' : Rule} {lhs : Tree}

/-- From a left operand to all that is joined to it. Where an operand is refused, no sign is left
for a further one. -/
theorem climb_unwound (hwrap : ∀ cs, (wrap cs).errors = errorsAll cs)
    (hjoin : ∀ ts j, join ts = some j →
      Unwinds (andThen j.mark (operand j.right)) (andThen j.mark (operand' j.right)))
    (limit : List Token) (h : Unwound ts f) (hf : f.trees = [lhs]) :
    Unwound ts (f.absorbed (climb join wrap operand least limit lhs f.rest)) := by
  have hstop : Unwound ts (f.absorbed ⟨[lhs], f.rest, 0, none⟩) := by
    refine unwound_of h rfl ?_ (by rw [hf]; rfl)
    show (f.cut <|> none) = f.cut
    cases f.cut <;> rfl
  induction limit generalizing f lhs with
  | nil => exact hstop
  | cons _ limit ih =>
    rw [climb]
    split
    · exact hstop
    · next j hj =>
      split
      · exact hstop
      · set g := andThen j.mark (operand j.right) f.rest with hg
        -- The operands so far with the sign between them are the next left operand.
        let next : Found := { f.followed g with trees := [wrap (lhs :: g.trees)] }
        have hnext : Unwound ts next := by
          refine unwound_of (followed_unwound h ((hjoin _ j hj).unwound f.rest)) rfl rfl ?_
          show (wrap _).errors ++ [] = errorsAll (f.trees ++ g.trees)
          rw [hwrap, hf, List.append_nil]
          rfl
        have hstop' : Unwound ts (next.absorbed ⟨[wrap (lhs :: g.trees)], next.rest, 0, none⟩) := by
          refine unwound_of hnext rfl ?_ rfl
          show (next.cut <|> none) = next.cut
          cases next.cut <;> rfl
        refine unwound_of (ih hnext rfl hstop') rfl ?_ rfl
        show (f.cut <|> (g.cut <|> _)) = ((f.cut <|> g.cut) <|> _)
        cases f.cut <;> rfl

theorem climb_same (hjoin : ∀ ts j, join ts = some j →
      Unwinds (andThen j.mark (operand j.right)) (andThen j.mark (operand' j.right)))
    (limit : List Token) (hc : (climb join wrap operand least limit lhs ts).cut = none) :
    climb join wrap operand' least limit lhs ts = climb join wrap operand least limit lhs ts := by
  induction limit generalizing lhs ts with
  | nil => rfl
  | cons _ limit ih =>
    rw [climb] at hc ⊢
    rw [climb]
    split
    · rfl
    · next j hj =>
      simp only [hj] at hc
      split
      · rfl
      · next hl =>
        rw [if_neg hl] at hc
        obtain ⟨hca, hcb⟩ := cut_none hc
        rw [(hjoin ts j hj).same ts hca]
        dsimp only
        rw [ih hcb]

theorem chain_unwinds (hwrap : ∀ cs, (wrap cs).errors = errorsAll cs)
    (hjoin : ∀ ts j, join ts = some j →
      Unwinds (andThen j.mark (operand j.right)) (andThen j.mark (operand' j.right)))
    [hf : Unwinds first first'] :
    Unwinds (chain first join wrap operand least) (chain first' join wrap operand' least) where
  unwound ts := by
    unfold chain
    dsimp only
    split
    · next lhs hl => exact climb_unwound hwrap hjoin _ (hf.unwound ts) hl
    · exact hf.unwound ts
  same ts hc := by
    unfold chain at hc ⊢
    dsimp only at hc ⊢
    have hcut : (first ts).cut = none := by
      split at hc
      · exact (cut_none hc).1
      · exact hc
    rw [hf.same ts hcut]
    split
    · next lhs hl =>
      simp only [hl] at hc
      rw [climb_same hjoin _ (cut_none hc).2]
    · rfl

end Chain

/-! Selectors and line filters. -/

instance : Unwinds matcher matcher := by
  unfold matcher
  infer_instance

instance [Unwinds r r'] : Unwinds (commaList r) (commaList r') := by
  unfold commaList
  infer_instance

instance : Unwinds selector selector := by
  unfold selector
  infer_instance

instance : Unwinds lineValue lineValue := by
  unfold lineValue
  infer_instance

theorem atOrValue_cons (h : atOrValue ts = true) : ts ≠ [] := by
  rintro rfl
  cases h

instance (levels more : Nat) :
    Unwinds (when atOrValue (orFilter levels)) (when atOrValue (orFilter (levels + more))) := by
  induction levels with
  | zero =>
    have h : MayRefuse refuse (orFilter (0 + more)) := inferInstance
    exact when_unwinds (fun ts hp => h.unwound ts (atOrValue_cons hp)) h.same
  | succ levels ih =>
    rw [Nat.succ_add]
    have h : Unwinds (orFilter (levels + 1)) (orFilter (levels + more + 1)) := by
      unfold orFilter
      infer_instance
    infer_instance

instance (levels more : Nat) : Unwinds (lineFilter levels) (lineFilter (levels + more)) := by
  unfold lineFilter
  infer_instance

instance (levels more : Nat) : Unwinds (lineFilters levels) (lineFilters (levels + more)) := by
  unfold lineFilters
  infer_instance

/-! Label filters. -/

instance (v k : Kind) [Holds k.isRight] : Unwinds (comparison v k) (comparison v k) := by
  unfold comparison
  infer_instance

instance : Unwinds ipLabelFilter ipLabelFilter := by
  unfold ipLabelFilter
  infer_instance

instance : Unwinds labelComparison labelComparison where
  unwound ts := by
    simp only [labelComparison]
    split_ifs
    · exact unwound_self _ ts
    · exact unwound_self _ ts
    · split <;> exact unwound_self _ ts
  same _ _ := rfl

instance [MayRefuse r r'] : Unwinds (labelOperand r) (labelOperand r') := by
  unfold labelOperand
  infer_instance

theorem labelJoin_unwinds [Unwinds r r'] {j : Join} (h : labelJoin ts = some j) :
    Unwinds (andThen j.mark r) (andThen j.mark r') := by
  unfold labelJoin at h
  split_ifs at h
  all_goals
    cases h
    infer_instance

theorem mayRefuse_of (h : Unwinds r r') (ht : (r []).trees = []) (hc : (r []).cut = none) :
    MayRefuse r r' where
  unwound ts _ := h.unwound ts
  ended := ⟨ht, List.suffix_nil.mp (h.unwound []).rest, by simp [hc]⟩
  same := h.same

instance (levels more least : Nat) :
    MayRefuse (labelFilter levels least) (labelFilter (levels + more) least) := by
  induction levels generalizing least with
  | zero => exact inferInstanceAs (MayRefuse refuse _)
  | succ levels ih =>
    rw [Nat.succ_add]
    have hchain : Unwinds
        (chain (labelOperand (labelFilter levels 0)) labelJoin (.node .labelFilter)
          (fun right => orMissing .labelFilter (labelFilter levels right)) least)
        (chain (labelOperand (labelFilter (levels + more) 0)) labelJoin (.node .labelFilter)
          (fun right => orMissing .labelFilter (labelFilter (levels + more) right)) least) :=
      chain_unwinds (LogQuery.Tree.errors_node rfl) fun _ _ => labelJoin_unwinds
    exact mayRefuse_of
      (inferInstanceAs (Unwinds (deepen (chain _ _ _ _ _)) (deepen (chain _ _ _ _ _)))) rfl rfl

/-! Stages. -/

instance : Unwinds labelExtraction labelExtraction := by
  unfold labelExtraction
  infer_instance

instance : Unwinds labelExtractions labelExtractions := by
  unfold labelExtractions
  infer_instance

instance : Unwinds labelFormat labelFormat := by
  unfold labelFormat
  infer_instance

instance [Holds k.isRight] : Unwinds (labelChoice k) (labelChoice k) := by
  unfold labelChoice
  infer_instance

instance : Unwinds jsonParser jsonParser where
  unwound ts := by
    unfold jsonParser
    refine nodeBy_unwound ?_ (unwound_self _ ts)
    split <;> rfl
  same _ _ := rfl

instance : Unwinds logfmtParser logfmtParser where
  unwound ts := by
    unfold logfmtParser
    refine nodeBy_unwound ?_ (unwound_self _ ts)
    unfold logfmtKind
    split_ifs <;> rfl
  same _ _ := rfl

instance (w : Keyword) : Unwinds (namedStage w) (namedStage w) := by
  unfold namedStage stringStage bareStage labelFormats labelChoices
  split <;> infer_instance

instance : Unwinds wordStage wordStage where
  unwound ts := by
    unfold wordStage
    split
    · split <;> exact unwound_self _ _
    · exact nothing_unwound []
  same _ _ := rfl

instance (levels more : Nat) : Unwinds (stage levels) (stage (levels + more)) := by
  have h : MayRefuse (labelFilter levels 0) (labelFilter (levels + more) 0) := inferInstance
  have hword : Unwinds
      (either (atLabelFilter 0) (labelFilter levels 0)
        (either (atKind .identifier) wordStage missing))
      (either (atLabelFilter 0) (labelFilter (levels + more) 0)
        (either (atKind .identifier) wordStage missing)) :=
    either_unwinds (fun ts hp => h.unwound ts (atLabelFilter_ne_nil hp)) h.same
  unfold stage
  infer_instance

instance (levels more : Nat) : Unwinds (pipeline levels) (pipeline (levels + more)) := by
  unfold pipeline
  infer_instance

instance (levels more : Nat) : Unwinds (logExpr levels) (logExpr (levels + more)) := by
  unfold logExpr
  infer_instance

/-! Calls. -/

instance : Unwinds range range := by
  unfold range
  infer_instance

instance : Unwinds offset offset := by
  unfold offset
  infer_instance

instance : Unwinds unwrapped unwrapped where
  unwound ts := by
    unfold unwrapped
    dsimp only
    split <;> exact unwound_self _ ts
  same _ _ := rfl

instance (levels more : Nat) : Unwinds (unwrap levels) (unwrap (levels + more)) := by
  have h : MayRefuse (labelFilter levels 0) (labelFilter (levels + more) 0) := inferInstance
  have hbump : Unwinds bump bump := inferInstance
  have hmany : Unwinds
      (many (fun ts => kindAt 0 ts = .pipe && atLabelFilter 1 ts)
        (andThen bump (labelFilter levels 0)))
      (many (fun ts => kindAt 0 ts = .pipe && atLabelFilter 1 ts)
        (andThen bump (labelFilter (levels + more) 0))) := by
    refine many_unwinds (fun ts hp => ?_) fun ts hc => ?_
    · refine followed_unwound (hbump.unwound ts) (h.unwound _ ?_)
      simp only [Bool.and_eq_true] at hp
      cases ts with
      | nil => cases hp.2
      | cons t ts =>
        rintro rfl
        cases hp.2
    · obtain ⟨-, hcut⟩ := cut_none hc
      simp only [andThen]
      rw [h.same _ hcut]
  unfold unwrap
  infer_instance

instance (levels more : Nat) : Unwinds (logRange levels) (logRange (levels + more)) := by
  unfold logRange
  infer_instance

instance : Unwinds grouping grouping := by
  unfold grouping
  infer_instance

instance [Unwinds r r'] : Unwinds (arguments r) (arguments r') := by
  unfold arguments
  infer_instance

instance : Unwinds parameter parameter := by
  unfold parameter
  infer_instance

/-- A name opens a call whatever the levels are. -/
theorem call_unwinds [MayRefuse a a'] (levels more : Nat) (name : Text) :
    (call? levels a name = none ∧ call? (levels + more) a' name = none) ∨
      ∃ r r', call? levels a name = some r ∧ call? (levels + more) a' name = some r' ∧
        Unwinds r r' := by
  unfold call?
  split
  · refine .inr ⟨_, _, rfl, rfl, ?_⟩
    unfold rangeAggregation
    infer_instance
  · split
    · refine .inr ⟨_, _, rfl, rfl, ?_⟩
      unfold vectorAggregation
      infer_instance
    · split
      · refine .inr ⟨_, _, rfl, rfl, ?_⟩
        unfold vectorLiteral
        infer_instance
      · exact .inl ⟨rfl, rfl⟩

/-! Expressions. -/

instance : Unwinds literal literal := by
  unfold literal
  infer_instance

instance [MayRefuse a a'] : Unwinds (parentheses a) (parentheses a') := by
  have h : Unwinds (seq [bump, orMissing .expr a, expect .rParen])
    (seq [bump, orMissing .expr a', expect .rParen]) := inferInstance
  refine ⟨fun ts => nodeBy_unwound ?_ (h.unwound ts), fun ts => nodeBy_same (h.same ts)⟩
  unfold parenthesesKind
  split <;> rfl

/-- What opens an operand does not depend on the levels. -/
theorem operand_cases (levels more : Nat) (a a' : Rule) [MayRefuse a a'] (ts : List Token) :
    ∃ r r', Unwinds r r' ∧ operand levels a ts = r ts ∧ operand (levels + more) a' ts = r' ts := by
  cases ts with
  | nil => exact ⟨nothing, nothing, inferInstance, rfl, rfl⟩
  | cons t ts =>
    simp only [operand]
    split
    · exact ⟨node .expr (logExpr levels), node .expr (logExpr (levels + more)), inferInstance, rfl,
        rfl⟩
    · exact ⟨node .expr (parentheses a), node .expr (parentheses a'), inferInstance, rfl, rfl⟩
    · exact ⟨node .expr literal, node .expr literal, inferInstance, rfl, rfl⟩
    · exact ⟨when _ (node .expr literal), _, inferInstance, rfl, rfl⟩
    · exact ⟨when _ (node .expr literal), _, inferInstance, rfl, rfl⟩
    · have hcall : (call? levels a t.text = none ∧ call? (levels + more) a' t.text = none) ∨ _ :=
        call_unwinds levels more t.text
      rcases hcall with ⟨hn, hn'⟩ | ⟨r, r', hr, hr', h⟩
      · rw [hn, hn']
        exact ⟨nothing, nothing, inferInstance, rfl, rfl⟩
      · rw [hr, hr']
        exact ⟨node .expr (node .metricExpr r), node .expr (node .metricExpr r'), inferInstance, rfl,
          rfl⟩
    · exact ⟨nothing, nothing, inferInstance, rfl, rfl⟩

instance [MayRefuse a a'] : Unwinds (operand levels a) (operand (levels + more) a') where
  unwound ts := by
    obtain ⟨r, r', h, hr, -⟩ := operand_cases levels more a a' ts
    exact hr ▸ h.unwound ts
  same ts hc := by
    obtain ⟨r, r', h, hr, hr'⟩ := operand_cases levels more a a' ts
    rw [hr] at hc
    rw [hr, hr', h.same ts hc]

theorem binaryJoin_unwinds [Unwinds r r'] {j : Join} (h : binaryJoin ts = some j) :
    Unwinds (andThen j.mark r) (andThen j.mark r') := by
  cases ts with
  | nil => cases h
  | cons t us =>
    obtain ⟨⟨op, left, right⟩, -, rfl⟩ := Option.map_eq_some_iff.mp h
    have : Unwinds boolModifier boolModifier := by
      unfold boolModifier
      infer_instance
    infer_instance

instance (levels more least : Nat) :
    MayRefuse (expr levels least) (expr (levels + more) least) := by
  induction levels generalizing least with
  | zero => exact inferInstanceAs (MayRefuse refuse _)
  | succ levels ih =>
    rw [Nat.succ_add]
    have hchain : Unwinds
        (chain (operand levels (expr levels 0)) binaryJoin binary
          (fun right => orMissing .expr (expr levels right)) least)
        (chain (operand (levels + more) (expr (levels + more) 0)) binaryJoin binary
          (fun right => orMissing .expr (expr (levels + more) right)) least) := by
      refine chain_unwinds (fun cs => ?_) fun _ _ => binaryJoin_unwinds
      simp only [binary, LogQuery.Tree.errors_node, errorsAll, List.append_nil]
    exact mayRefuse_of
      (inferInstanceAs (Unwinds (deepen (chain _ _ _ _ _)) (deepen (chain _ _ _ _ _)))) rfl rfl

/-- The expression of a query is missed only where nothing is left. -/
instance (levels more : Nat) : Unwinds (contents levels) (contents (levels + more)) := by
  have he : MayRefuse (expr levels 0) (expr (levels + more) 0) := inferInstance
  have hm : Unwinds (orMissing .expr (expr levels 0)) (orMissing .expr (expr (levels + more) 0)) :=
    inferInstance
  have hfirst : Unwinds
      (fun ts =>
        let f := expr levels 0 ts
        if f.rest.isEmpty then f.orMissing .expr else f)
      (fun ts =>
        let f := expr (levels + more) 0 ts
        if f.rest.isEmpty then f.orMissing .expr else f) := by
    constructor
    · intro ts
      dsimp only
      split
      · exact hm.unwound ts
      · next hr =>
        refine he.unwound ts ?_
        rintro rfl
        rw [he.ended.2.1] at hr
        exact hr rfl
    · intro ts hc
      dsimp only at hc ⊢
      have hcut : (expr levels 0 ts).cut = none := by
        split at hc
        · exact orMissing_cut hc
        · exact hc
      rw [he.same ts hcut]
  unfold contents
  infer_instance

end Grammar

end LogQuery
