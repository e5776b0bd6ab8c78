import LogQuery.Proofs.Element.Seen
import LogQuery.Proofs.Grammar.Kept
import LogQuery.Proofs.Tree.Prune

/-! Line filters of any query: the strings of a filter and of those joined to it, up to where the
chain ends or was refused. -/
namespace LogQuery

open LogQuery.Grammar (Kept LineParts IsLineValue Refused RefusedIn Expected lineOps)
open LogQuery.Tree (kindsAll leavesAll pruneAll listed)

variable {query : Text} {cut : Bool} {cs more : List Tree} {value : List Tree} {first : Tree}
  {k : Kind}

/-- The parts of a line filter behind its sign, with those of the filters joined to it. -/
inductive Chained (cut : Bool) : List Tree → Prop
  | last (value : List Tree) (h : IsLineValue value) : Chained cut value
  | next (value : List Tree) (x : Text) (more : List Tree) (h : IsLineValue value)
    (hmore : Chained cut more) :
    Chained cut (value ++ [.node .orFilter (.leaf (.keyword .or) x :: more)])
  | refused (value : List Tree) (c : Tree) (h : IsLineValue value) (hc : Refused cut c) :
    Chained cut (value ++ [c])

/-- The induction is on the number of parts. -/
theorem chained_of_kept (hk : Kept cut cs) (h : LineParts cut cs) : Chained cut cs := by
  induction hn : (kindsAll cs).length using Nat.strong_induction_on generalizing cs with
  | _ n ih =>
    cases h with
    | last value h => exact .last cs h
    | refused value c h hc => exact .refused value c h hc
    | next value ds h =>
      have hor : Kept cut [.node .orFilter ds] := Grammar.kept_mem hk (by simp)
      obtain ⟨x, more, rfl, hparts⟩ := Grammar.kept_head hor
      have hmore : Kept cut more := Grammar.kept_tail (Grammar.kept_inside hor)
      refine .next value x more h (ih _ ?_ hmore hparts rfl)
      rw [← hn, Grammar.kindsAll_append, List.length_append]
      simp only [kindsAll, Tree.kinds, List.length_append, List.length_cons, List.length_nil]
      omega

/-- No value has a token that is a sign of a line filter. -/
theorem value_signs (h : IsLineValue value) : ∀ l ∈ leavesAll value, l.kind ∉ lineOps := by
  have hone : ∀ k c, k ∉ lineOps → Expected [k] c → ∀ l ∈ c.leaves, l.kind ∉ lineOps := by
    rintro k c hk (⟨k', hk', x, rfl⟩ | rfl)
    · obtain rfl := List.mem_singleton.mp hk'
      simpa [Tree.leaves] using hk
    · simp [Tree.leaves, leavesAll]
  intro l hl
  cases h with
  | text value h =>
    simp only [leavesAll, List.append_nil] at hl
    exact hone _ value (by decide) h l hl
  | address x y value close hvalue hclose =>
    simp only [leavesAll, Tree.leaves, List.append_nil, List.mem_append, List.mem_singleton] at hl
    rcases hl with rfl | rfl | hl | hl
    · simp [lineOps]
    · simp [lineOps]
    · exact hone _ value (by decide) hvalue l hl
    · exact hone _ close (by decide) hclose l hl

/-- Behind its sign a line filter has no other, unless nesting was refused in it. -/
theorem chained_signs (h : Chained cut cs) :
    (∀ l ∈ leavesAll cs, l.kind ∉ lineOps) ∨ RefusedIn cut cs := by
  induction h with
  | last value h => exact Or.inl (value_signs h)
  | next value x more h _ ih =>
    rcases ih with ih | hrefused
    · left
      intro l hl
      simp only [Tree.leavesAll_append, leavesAll, Tree.leaves, List.append_nil, List.mem_append,
        List.mem_singleton] at hl
      rcases hl with hl | rfl | hl
      · exact value_signs h l hl
      · simp [lineOps]
      · exact ih l hl
    · have hin := Grammar.refusedIn_tail hrefused (.leaf (.keyword .or) x)
      exact Or.inr (Grammar.refusedIn_mem (Grammar.refusedIn_node hin .orFilter) (by simp))
  | refused value c h hc =>
    exact Or.inr (Grammar.refusedIn_mem (Grammar.refusedIn_head hc) (by simp))

namespace Tree

mutual

/-- The strings of a filter and of those joined to it, as they are looked for. -/
def strings : Tree → List Tree
  | leaf _ _ => []
  | node _ cs =>
    (if (listed cs).any (·.kind = .filterOp) then []
      else ((listed cs).find? (·.kind = .string)).toList) ++ joined cs

def joined : List Tree → List Tree
  | [] => []
  | c :: cs => if c.kind = .orFilter then c.strings else joined cs

end

end Tree

theorem find_kind {es : List Element} {us : List Tree} (h : List.Forall₂ (Seen query) es us) :
    Option.Rel (Seen query) (es.find? fun e => e.kind = k) (us.find? fun u => u.kind = k) := by
  induction h with
  | nil => exact .none
  | cons he _ ih =>
    rw [List.find?_cons, List.find?_cons, seen_kind he]
    split
    · exact .some he
    · exact ih

theorem any_kind {es : List Element} {us : List Tree} (h : List.Forall₂ (Seen query) es us) :
    es.any (fun e => e.kind = k) = us.any fun u => u.kind = k := by
  induction h with
  | nil => rfl
  | cons he _ ih => rw [List.any_cons, List.any_cons, seen_kind he, ih]

mutual

theorem strings_seen : (t : Tree) → {e : Element} → Seen query e t →
    List.Forall₂ (Seen query) (LineEntry.strings e) t.strings
  | .leaf k x, .mk l s es, h => by
    have hes : List.Forall₂ (Seen query) es [] := seen_children h
    cases hes
    exact .nil
  | .node k cs, .mk l s es, h => by
    have hes : List.Forall₂ (Seen query) es (listed cs) := seen_children h
    rw [LineEntry.strings, Tree.strings, any_kind hes]
    refine List.rel_append ?_ (joined_seen cs hes)
    split
    · exact .nil
    · have hfind := find_kind (k := .string) hes
      generalize (es.find? fun e => e.kind = .string) = a at hfind
      generalize ((listed cs).find? fun u => u.kind = .string) = b at hfind
      cases hfind with
      | none => exact .nil
      | some hs => exact .cons hs .nil

theorem joined_seen : (cs : List Tree) → {es : List Element} →
    List.Forall₂ (Seen query) es (listed cs) →
    List.Forall₂ (Seen query) (LineEntry.joined es) (Tree.joined cs)
  | [], _, h => by
    cases h
    exact .nil
  | c :: cs, es, h => by
    rw [Tree.joined]
    by_cases hc : c.kind.isNamed = true
    · rw [Tree.listed_named hc] at h
      cases h with
      | cons he h =>
        rw [LineEntry.joined, seen_kind he]
        split
        · exact strings_seen c he
        · exact joined_seen cs h
    · have hor : c.kind ≠ .orFilter := fun he => hc (he ▸ rfl)
      rw [Tree.listed_unnamed (by simpa using hc)] at h
      rw [if_neg hor]
      exact joined_seen cs h

end

/-- What a value adds to the strings of a filter: a string, or nothing. -/
theorem value_strings (k : Kind) (more : List Tree) (h : IsLineValue value)
    (hfirst : first.kind ∈ [.filter, .keyword .or])
    (hmore : ∀ c ∈ more, c.kind ∈ [.orFilter, .error]) :
    ∃ ls : List Token, (Tree.node k (first :: (value ++ more))).strings =
        ls.map .ofToken ++ Tree.joined more ∧
      ls.Sublist ((leavesAll (pruneAll value)).filter fun l => l.kind = .string) := by
  have hopen : first.kind.isNamed = true ∧ first.kind ≠ .filterOp ∧ first.kind ≠ .string ∧
      first.kind ≠ .orFilter :=
    (by decide : ∀ k ∈ [Kind.filter, .keyword .or], k.isNamed = true ∧ k ≠ .filterOp ∧
      k ≠ .string ∧ k ≠ .orFilter) _ hfirst
  obtain ⟨hnamed, hop, hstring, hor⟩ := hopen
  have hlast : ∀ c ∈ listed more, c.kind ≠ .filterOp ∧ c.kind ≠ .string := by
    intro c hc
    have hk := hmore c (List.mem_of_mem_filter hc)
    exact (by decide : ∀ k ∈ [Kind.orFilter, .error], k ≠ .filterOp ∧ k ≠ .string) _ hk
  have hany : (listed more).any (fun c => c.kind = .filterOp) = false := by
    rw [List.any_eq_false]
    exact fun c hc => by simp [(hlast c hc).1]
  have hfind : (listed more).find? (fun c => c.kind = .string) = none := by
    rw [List.find?_eq_none]
    exact fun c hc => by simp [(hlast c hc).2]
  have hjoined : ∀ c cs, c.kind ≠ .orFilter → Tree.joined (c :: cs) = Tree.joined cs :=
    fun c cs hc => by rw [Tree.joined, if_neg hc]
  -- Of a string that is missing an empty error node is left.
  have hexpected : ∀ ks c, Expected ks c → .orFilter ∉ ks → c.kind ≠ .orFilter := by
    rintro ks c (⟨k, hk, x, rfl⟩ | rfl) hks he
    · exact hks ((show k = .orFilter from he) ▸ hk)
    · cases he
  cases h with
  | text value h =>
    have hv := hexpected _ _ h (by decide)
    have hl : listed (first :: ([value] ++ more)) = first :: (listed [value] ++ listed more) := by
      rw [Tree.listed_named hnamed, listed, List.filter_append]
      rfl
    rw [Tree.strings, hl, hjoined _ _ hor, List.singleton_append, hjoined _ _ hv]
    rcases h with ⟨l, hk, x, rfl⟩ | rfl
    · obtain rfl := List.mem_singleton.mp hk
      have hkind : (Tree.leaf .string x).kind = .string := rfl
      have hone : listed [Tree.leaf .string x] = [.leaf .string x] := rfl
      refine ⟨[⟨.string, x⟩], ?_, List.Sublist.refl _⟩
      rw [hone, List.any_cons, List.any_append, hany]
      simp [hop, hstring, hkind, Tree.ofToken]
    · have hkind : (Tree.node .error []).kind = .error := rfl
      have hone : listed [Tree.node .error []] = [.node .error []] := rfl
      refine ⟨[], ?_, List.nil_sublist _⟩
      rw [hone, List.any_cons, List.any_append, hany]
      simp [hop, hstring, hfind, hkind]
  | address x y value close hvalue hclose =>
    have hv := hexpected _ _ hvalue (by decide)
    have hc := hexpected _ _ hclose (by decide)
    have hin : (listed (first :: ([.node .filterOp [.leaf (.keyword .ip) x], .leaf .lParen y, value,
        close] ++ more))).any (fun c => c.kind = .filterOp) = true := by
      rw [Tree.listed_named hnamed, List.any_eq_true]
      exact ⟨.node .filterOp [.leaf (.keyword .ip) x], .tail _ (.head _), rfl⟩
    refine ⟨[], ?_, List.nil_sublist _⟩
    rw [Tree.strings, if_pos hin, hjoined _ _ hor]
    simp only [List.cons_append, List.nil_append, List.map_nil]
    have hmark : ∀ cs, Tree.kind (.node .filterOp cs) ≠ .orFilter := by simp [Tree.kind]
    have hopen : Tree.kind (.leaf .lParen y) ≠ .orFilter := by simp [Tree.kind]
    rw [hjoined _ _ (hmark _), hjoined _ _ hopen, hjoined _ _ hv, hjoined _ _ hc]

/-- The strings of a filter and of those joined to it stand in no error node. -/
theorem chained_strings (k : Kind) (h : Chained cut more)
    (hfirst : first.kind ∈ [.filter, .keyword .or]) :
    ∃ ls : List Token, (Tree.node k (first :: more)).strings = ls.map .ofToken ∧
      ls.Sublist ((leavesAll (pruneAll more)).filter fun l => l.kind = .string) := by
  induction h generalizing k first with
  | last value h =>
    obtain ⟨ls, hs, hsub⟩ := value_strings k [] h hfirst (by simp)
    rw [List.append_nil] at hs
    exact ⟨ls, by rw [hs, Tree.joined, List.append_nil], hsub⟩
  | next value x more h _ ih =>
    obtain ⟨ls, hs, hsub⟩ := value_strings k [.node .orFilter (.leaf (.keyword .or) x :: more)] h
      hfirst (by simp [Tree.kind])
    have hor : (Tree.leaf (.keyword .or) x).kind ∈ [.filter, .keyword .or] := .tail _ (.head _)
    obtain ⟨ms, hms, hmsub⟩ := ih .orFilter hor
    refine ⟨ls ++ ms, ?_, ?_⟩
    · have hjoined : Tree.joined [.node .orFilter (.leaf (.keyword .or) x :: more)] =
          (Tree.node .orFilter (.leaf (.keyword .or) x :: more)).strings := by
        rw [Tree.joined]
        rfl
      rw [hs, hjoined, hms, List.map_append]
    · have hprune : leavesAll (pruneAll
          (value ++ [.node .orFilter (.leaf (.keyword .or) x :: more)])) =
            leavesAll (pruneAll value) ++ ⟨.keyword .or, x⟩ :: leavesAll (pruneAll more) := by
        rw [Tree.pruneAll_append, Tree.leavesAll_append]
        simp [pruneAll, Tree.prune, leavesAll, Tree.leaves]
      rw [hprune, List.filter_append]
      exact hsub.append (by simpa using hmsub)
  | refused value c h hc =>
    obtain ⟨-, us, -, rfl⟩ := hc
    obtain ⟨ls, hs, hsub⟩ := value_strings k [.node .error (us.map .ofToken)] h hfirst
      (by simp [Tree.kind])
    refine ⟨ls, ?_, ?_⟩
    · have herror : Tree.joined [.node .error (us.map .ofToken)] = [] := by
        rw [Tree.joined, if_neg (by simp [Tree.kind]), Tree.joined]
      rw [hs, herror, List.append_nil]
    · rw [Tree.pruneAll_append, Tree.leavesAll_append, List.filter_append]
      exact hsub.trans (List.sublist_append_left _ _)

end LogQuery
