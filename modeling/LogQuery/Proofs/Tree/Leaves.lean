import LogQuery.Proofs.Tree.Survey
import LogQuery.Proofs.Event.WellFormed

/-! The leaves of what is built. They are appended in the order of the query: trivia as they are,
and for each token event the next token that is not trivia. -/
namespace LogQuery

namespace Event

/-- The token events by their places, the first event standing at some place. -/
def tokensAt (place : Nat) (es : List Event) : List (Nat × Kind) :=
  (es.zipIdx place).filterMap fun x => (tokenKind? x.1).map (x.2, ·)

theorem tokensAt_kinds (place : Nat) (es : List Event) :
    (tokensAt place es).map Prod.snd = es.filterMap tokenKind? := by
  rw [tokensAt, List.map_filterMap]
  conv_rhs => rw [← List.zipIdx_map_fst place es, List.filterMap_map]
  congr 1
  funext x
  rw [Option.map_map]
  exact Option.map_id'

theorem tokensAt_append (place : Nat) (es fs : List Event) :
    tokensAt place (es ++ fs) = tokensAt place es ++ tokensAt (place + es.length) fs := by
  rw [tokensAt, List.zipIdx_append, List.filterMap_append]
  rfl

end Event

namespace Marked

mutual

/-- The leaves in the order of the text, each with the place of its token event. -/
def leaves : Marked → List (Option Nat × Token)
  | trivia t => [(none, t)]
  | token place t => [(some place, t)]
  | node _ _ cs => leavesAll cs

def leavesAll : List Marked → List (Option Nat × Token)
  | [] => []
  | c :: cs => c.leaves ++ leavesAll cs

end

theorem leavesAll_append (cs ds : List Marked) :
    leavesAll (cs ++ ds) = leavesAll cs ++ leavesAll ds := by
  induction cs with
  | nil => rfl
  | cons c cs ih => rw [List.cons_append, leavesAll, ih, leavesAll, List.append_assoc]

theorem leavesAll_one (c : Marked) : leavesAll [c] = c.leaves := List.append_nil _

theorem leavesAll_push (c : Marked) (cs : List Marked) :
    leavesAll (c :: cs).reverse = leavesAll cs.reverse ++ c.leaves := by
  rw [List.reverse_cons, leavesAll_append, leavesAll_one]

mutual

theorem tree_leaves : (c : Marked) → c.tree.leaves = c.leaves.map Prod.snd
  | trivia _ => rfl
  | token _ _ => rfl
  | node _ _ cs => treeAll_leaves cs

theorem treeAll_leaves : (cs : List Marked) →
    Tree.leavesAll (treeAll cs) = (leavesAll cs).map Prod.snd
  | [] => rfl
  | c :: cs => by
    rw [treeAll, Tree.leavesAll, tree_leaves c, treeAll_leaves cs, leavesAll, List.map_append]

end

end Marked

namespace Survey

open LogQuery.Marked (leavesAll leavesAll_append leavesAll_push)
open LogQuery.Event (tokensAt tokensAt_append tokenKind?)

variable {s t u : Survey} {events es : List Event} {e : Event} {place : Nat} {k : Kind}
  {xs ys : List (Nat × Kind)}

def leavesFrom (closed : List Marked) : List Frame → List (Option Nat × Token)
  | [] => leavesAll closed.reverse
  | f :: more => leavesFrom closed more ++ leavesAll f.children.reverse

/-- The leaves of all nodes, open and closed, in the order of the text. -/
def leaves (s : Survey) : List (Option Nat × Token) := leavesFrom s.closed s.stack

theorem add_leaves (c : Marked) (s : Survey) : (s.add c).leaves = s.leaves ++ c.leaves := by
  obtain ⟨ts, _ | ⟨f, more⟩, closed, opened, closings⟩ := s
  · exact leavesAll_push c closed
  · exact (congrArg (leavesFrom closed more ++ ·) (leavesAll_push c f.children)).trans
      (List.append_assoc ..).symm

/-- The leaf of a token event and the token that it takes. -/
def leafOf (x : Nat × Kind) (t : Token) : Option Nat × Token := (some x.1, ⟨x.2, t.text⟩)

/-- The leaves that are not trivia. -/
def solid (s : Survey) : List (Option Nat × Token) := s.leaves.filter fun l => !l.2.isTrivia

/-- Between two states some tokens are filed as leaves, and taken from the significant tokens. -/
structure Files (xs : List (Nat × Kind)) (s t : Survey) : Prop where
  solid : t.solid = s.solid ++ List.zipWith leafOf xs (Token.significant s.tokens)
  tokens : Token.significant t.tokens = (Token.significant s.tokens).drop xs.length

theorem files_none (hl : t.solid = s.solid)
    (ht : Token.significant t.tokens = Token.significant s.tokens) : Files [] s t where
  solid := hl.trans (List.append_nil _).symm
  tokens := ht

theorem zipWith_behind {α β γ : Type} (f : α → β → γ) (xs ys : List α) (zs : List β) :
    List.zipWith f (xs ++ ys) zs =
      List.zipWith f xs zs ++ List.zipWith f ys (zs.drop xs.length) := by
  induction xs generalizing zs with
  | nil => rfl
  | cons x xs ih =>
    cases zs with
    | nil => simp
    | cons z zs => exact congrArg (f x z :: ·) (ih zs)

theorem files_append (h : Files xs s t) (h' : Files ys t u) : Files (xs ++ ys) s u where
  solid := by rw [h'.solid, h.solid, h.tokens, zipWith_behind, List.append_assoc]
  tokens := by rw [h'.tokens, h.tokens, List.drop_drop, List.length_append]

/-- Trivia are no solid leaves, and none of the tokens that are still to come. -/
theorem addTrivia_files (s : Survey) : Files [] s s.addTrivia := by
  have hadd : ∀ (ts : List Token) (s : Survey), (∀ t ∈ ts, t.isTrivia = true) →
      (ts.foldl (fun s t => s.add (.trivia t)) s).solid = s.solid := by
    intro ts
    induction ts with
    | nil => exact fun _ _ => rfl
    | cons t ts ih =>
      intro s ht
      rw [List.foldl_cons, ih _ fun u hu => ht u (.tail _ hu), solid, add_leaves]
      simp [Marked.leaves, ht t, solid]
  exact files_none (hadd _ s fun t ht => List.mem_takeWhile_imp ht)
    (Tree.significant_dropWhile s.tokens)

/-- A token event takes the next token, if there is one. -/
theorem addToken_files (hk : k.isTrivia = false)
    (hd : s.tokens.dropWhile Token.isTrivia = s.tokens) :
    Files [(place, k)] s (s.addToken place k) := by
  obtain ⟨ts, stack, closed, opened, closings⟩ := s
  cases ts with
  | nil => exact ⟨(List.append_nil _).symm, rfl⟩
  | cons t ts =>
    have ht : t.isTrivia = false := by
      have h := List.dropWhile_eq_self_iff.mp hd (Nat.succ_pos _)
      simpa using h
    have hs : Token.significant (t :: ts) = t :: Token.significant ts :=
      List.filter_cons_of_pos (by simp [ht])
    have hl : (addToken place k ⟨t :: ts, stack, closed, opened, closings⟩).leaves =
        leaves ⟨t :: ts, stack, closed, opened, closings⟩ ++ [(some place, ⟨k, t.text⟩)] :=
      add_leaves (.token place ⟨k, t.text⟩) ⟨t :: ts, stack, closed, opened, closings⟩
    have hn : Token.isTrivia ⟨k, t.text⟩ = false := hk
    refine ⟨?_, congrArg (List.drop 1) hs.symm⟩
    rw [solid, hl, List.filter_append, List.filter_cons_of_pos (by simp [hn])]
    simp only [hs]
    rfl

theorem close_files (h : s.close? = some t) : Files [] s t := by
  obtain ⟨ts, _ | ⟨f, more⟩, closed, opened, closings⟩ := s
  · cases h
  · cases h
    refine files_none ?_ ?_
    · exact congrArg (List.filter _) (add_leaves _ _)
    · cases more <;> rfl

theorem openAll_files (os : List (Nat × Kind)) (s : Survey) : Files [] s (s.openAll os) := by
  induction os with
  | nil => exact files_none rfl rfl
  | cons o os ih =>
    exact files_append ih (files_none (congrArg (List.filter _) (List.append_nil _)) rfl)

theorem openChain_files (o : Nat × Kind) (outer : List (Nat × Kind)) (s : Survey) :
    Files [] s (s.openChain o outer) := by
  obtain ⟨u, hcase, ht⟩ := openChain_eq o outer s
  have hu : Files [] s u := by
    rcases hcase with rfl | rfl
    · exact files_none rfl rfl
    · exact addTrivia_files s
  have hopened : Files [] u { u with opened := outer.map Prod.fst ++ u.opened } :=
    files_none rfl rfl
  rw [ht]
  exact files_append (files_append hu hopened) (openAll_files _ _)

/-- A step files the leaf of its event, if that is a token. -/
theorem step_files (hk : ∀ k, tokenKind? e = some k → k.isTrivia = false)
    (hs : step? events place e s = some t) : Files (tokensAt place [e]) s t := by
  cases e with
  | placeholder =>
    cases hs
    exact files_none rfl rfl
  | token k =>
    cases hs
    exact files_append (addTrivia_files s)
      (addToken_files (hk k rfl) (List.dropWhile_idempotent Token.isTrivia s.tokens))
  | finish =>
    simp only [step?] at hs
    split at hs
    · exact files_append (addTrivia_files s) (close_files hs)
    · exact close_files hs
  | start k parent =>
    simp only [step?] at hs
    split at hs
    · cases hs
      exact files_none rfl rfl
    · obtain ⟨outer, -, rfl⟩ := Option.map_eq_some_iff.mp hs
      exact openChain_files _ _ _

/-- The k-th token event of a run takes the k-th significant token. -/
theorem from_files (hk : ∀ k ∈ es.filterMap tokenKind?, k.isTrivia = false)
    (hs : from? events place es s = some t) : Files (tokensAt place es) s t := by
  induction es generalizing place s with
  | nil =>
    cases hs
    exact files_none rfl rfl
  | cons e es ih =>
    obtain ⟨u, hu, ht⟩ := Option.bind_eq_some_iff.mp hs
    have he : tokensAt place (e :: es) = tokensAt place [e] ++ tokensAt (place + 1) es :=
      tokensAt_append place [e] es
    rw [he]
    exact files_append
      (step_files (fun k h => hk k (List.mem_filterMap.mpr ⟨e, .head _, h⟩)) hu)
      (ih (fun k h => hk k (by
        obtain ⟨e', he', h⟩ := List.mem_filterMap.mp h
        exact List.mem_filterMap.mpr ⟨e', .tail _ he', h⟩)) ht)

end Survey

end LogQuery
