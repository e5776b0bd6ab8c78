import LogQuery.Proofs.Element.Seen
import LogQuery.Proofs.Grammar.Kept
import LogQuery.Proofs.Token.Sign
import LogQuery.Proofs.Tree.Prune

/-! What the filter on a field is read off: the name, the sign and the value of one comparison. -/
namespace LogQuery

open LogQuery.Grammar (IsTest ValueParts LabelParts Kept Expected)
open LogQuery.Tree (leavesAll kindsAll pruneAll listed)

/-- A name, a sign and the value behind it. -/
structure FieldSource where
  name : Token
  sign : Token
  value : Token
  deriving DecidableEq, Repr

namespace FieldSource

/-- Signs of comparisons by size. -/
def orders : List Kind := [.lss, .lte, .gtr, .gte]

/-- The first two tokens of a comparison, and the first value behind them. -/
def ofTree? (c : Tree) : Option FieldSource :=
  match c.leaves with
  | name :: sign :: rest =>
    (rest.find? fun l => Grammar.valueKinds.contains l.kind).map fun value => ⟨name, sign, value⟩
  | _ => none

variable (t : FieldSource)

/-- What the field is compared with. Strings are compared without their quotes. -/
def operand : Text := if t.value.kind = .string then t.value.value else t.value.text

def isCheck : Bool := "__error__".toList.isPrefixOf t.name.text

/-- Strings are compared in any way, and amounts by their size only. -/
def isField : Bool := t.value.kind = .string || orders.contains t.sign.kind

/-- The filter has the name, the operator of the sign and the value. -/
structure Gives (f : FieldFilter) : Prop where
  key : f.key = t.name.text
  operator : f.operator.symbol.toList = t.sign.text
  value : f.value = t.operand

end FieldSource

namespace Tree

mutual

/-- The left-most comparison of a label filter, on its left or in its parentheses. -/
def leftmost? : Tree → Option Tree
  | leaf _ _ => none
  | node k cs =>
    if k = .labelFilter then leftmostAll? cs
    else if k ∈ Grammar.testKinds then some (node k cs) else none

/-- Tokens are passed over. -/
def leftmostAll? : List Tree → Option Tree
  | [] => none
  | leaf _ _ :: cs => leftmostAll? cs
  | node k cs :: _ => (node k cs).leftmost?

end

mutual

theorem leftmost_prune : (t : Tree) → t.prune.leftmost? = t.leftmost?.map prune
  | leaf _ _ => rfl
  | node k cs => by
    by_cases hk : k = .error
    · subst hk
      rfl
    · rw [prune_node hk, leftmost?, leftmost?, leftmostAll_prune cs]
      split
      · rfl
      · split
        · rw [Option.map_some, prune_node hk]
        · rfl

theorem leftmostAll_prune : (cs : List Tree) →
    leftmostAll? (pruneAll cs) = (leftmostAll? cs).map prune
  | [] => rfl
  | leaf _ _ :: cs => by
    rw [pruneAll, prune, leftmostAll?, leftmostAll?, leftmostAll_prune cs]
  | node k ds :: cs => by
    have hn := leftmost_prune (node k ds)
    rw [pruneAll, leftmostAll?, ← hn, prune, leftmostAll?]

end

end Tree

/-- Tokens that a comparison is known by: no stray characters, and nothing that stands around an
address. -/
def Kind.tells (k : Kind) : Bool := k ∉ [.unknown, .keyword .ip, .lParen, .rParen]

def Token.tells (l : Token) : Bool := l.kind.tells

section Tokens

variable {k : Kind} {ls : List Token} {rest cs : List Tree} {c : Tree} {name : Text}
  {sign : Token} {v : Option Token}

/-- What is looked for among those tokens only is found among them. -/
theorem find_tells {p : Kind → Bool} (hp : ∀ k, p k = true → k.tells = true) (ls : List Token) :
    (ls.find? fun l => p l.kind) = (ls.filter Token.tells).find? fun l => p l.kind := by
  rw [List.find?_filter]
  congr 1
  funext l
  by_cases hl : p l.kind = true
  · simp [hl, Token.tells, hp _ hl]
  · simp [hl]

theorem value_tells : ∀ k ∈ Grammar.valueKinds, k.tells = true := by
  decide

/-- The tokens behind the name and the sign of a comparison, and the value among them. -/
structure ValueTokens (sign : Kind) (rest : List Tree) (v : Option Token) : Prop where
  tells : (leavesAll rest).filter Token.tells = v.toList
  pruned : (leavesAll (pruneAll rest)).filter Token.tells = v.toList
  kind : ∀ x ∈ v, x.kind ∈ Grammar.valueKinds
  string : ∀ x ∈ v, x.kind = .string → sign ∈ Grammar.matcherOps
  amount : ∀ x ∈ v, x.kind ≠ .string → leavesAll rest = [x]
  complete : .error ∉ kindsAll rest → v.isSome = true

theorem expected_token {ks : List Kind} (h : Expected ks c) :
    ∃ v : Option Token, c.leaves = v.toList ∧ c.prune = c ∧ (∀ x ∈ v, x.kind ∈ ks) ∧
      (.error ∉ c.kinds → v.isSome = true) := by
  rcases h with ⟨k, hk, x, rfl⟩ | rfl
  · exact ⟨some ⟨k, x⟩, rfl, rfl, by simp [hk], fun _ => rfl⟩
  · exact ⟨none, rfl, rfl, by simp, fun h => (h (by simp [Tree.kinds])).elim⟩

theorem tells_all (h : ∀ x ∈ v, x.kind ∈ Grammar.valueKinds) :
    v.toList.filter Token.tells = v.toList := by
  apply List.filter_eq_self.mpr
  exact fun x hx => value_tells _ (h x (Option.mem_toList.mp hx))

theorem value_tokens (h : ValueParts sign.kind rest) : ∃ v, ValueTokens sign.kind rest v := by
  have hstring : ∀ x : Token, x.kind ∈ [Kind.string] → x.kind ∈ Grammar.valueKinds := by
    intro x hx
    rw [List.mem_singleton.mp hx]
    decide
  cases h with
  | string stray value hsign hstray hvalue =>
    obtain ⟨v, hl, hp, hk, he⟩ := expected_token hvalue
    have hkv : ∀ x ∈ v, x.kind ∈ Grammar.valueKinds := fun x hx => hstring x (hk x hx)
    have hv := tells_all hkv
    refine ⟨v, ?_, ?_, hkv, fun _ _ _ => hsign, ?_, ?_⟩
    · rcases hstray with rfl | ⟨us, hus, rfl⟩
      · simpa [leavesAll, hl] using hv
      · have hnone : us.filter Token.tells = [] := List.filter_eq_nil_iff.mpr fun u hu => by
          simp [Token.tells, Kind.tells, hus u hu]
        simpa [leavesAll, Tree.leaves, Tree.leavesAll_ofToken, hl, hnone] using hv
    · rcases hstray with rfl | ⟨us, -, rfl⟩
      · simpa [pruneAll, leavesAll, hp, hl] using hv
      · simpa [pruneAll, leavesAll, Tree.prune_error, Tree.leaves, hp, hl] using hv
    · exact fun x hx hn => (hn (List.mem_singleton.mp (hk x hx))).elim
    · intro hne
      refine he fun hc => hne ?_
      simp [Grammar.kindsAll_append, kindsAll, hc]
  | address x y value close hsign hvalue hclose =>
    obtain ⟨v, hl, hp, hk, he⟩ := expected_token hvalue
    obtain ⟨w, hlw, hpw, hkw, -⟩ := expected_token hclose
    have hkv : ∀ x ∈ v, x.kind ∈ Grammar.valueKinds := fun x hx => hstring x (hk x hx)
    have hv := tells_all hkv
    have hw : w.toList.filter Token.tells = [] := List.filter_eq_nil_iff.mpr fun u hu => by
      simp [Token.tells, Kind.tells, List.mem_singleton.mp (hkw u (Option.mem_toList.mp hu))]
    refine ⟨v, ?_, ?_, hkv, fun _ _ _ => hsign, ?_, ?_⟩
    · simp [leavesAll, Tree.leaves, hl, hlw, hv, hw, Token.tells, Kind.tells]
    · simp [pruneAll, Tree.prune, leavesAll, Tree.leaves, hp, hpw, hl, hlw, hv, hw, Token.tells,
        Kind.tells]
    · exact fun x hx hn => (hn (List.mem_singleton.mp (hk x hx))).elim
    · intro hne
      refine he fun hc => hne ?_
      simp [kindsAll, hc]
  | amount k value hk hvalue =>
    obtain ⟨v, hl, hp, hkv, he⟩ := expected_token hvalue
    have hunits : ∀ k ∈ Grammar.unitKinds, k ∈ Grammar.valueKinds ∧ k ≠ .string := by decide
    have hvalues : ∀ x ∈ v, x.kind ∈ Grammar.valueKinds := by
      intro x hx
      rw [List.mem_singleton.mp (hkv x hx)]
      exact (hunits k hk).1
    have hv := tells_all hvalues
    refine ⟨v, ?_, ?_, hvalues, ?_, ?_, ?_⟩
    · simpa [leavesAll, hl] using hv
    · simpa [pruneAll, leavesAll, hp, hl] using hv
    · intro x hx hs
      rw [List.mem_singleton.mp (hkv x hx)] at hs
      exact ((hunits k hk).2 hs).elim
    · intro x hx _
      rw [Option.mem_def.mp hx] at hl
      simp [leavesAll, hl]
    · intro hne
      refine he fun hc => hne ?_
      simp [kindsAll, hc]

/-- The tokens of a comparison. -/
structure TestTokens (name : Text) (sign : Token) (rest : List Tree) (c : Tree) : Prop where
  leaves : c.leaves = ⟨.identifier, name⟩ :: sign :: leavesAll rest
  pruned : c.prune.leaves = ⟨.identifier, name⟩ :: sign :: leavesAll (pruneAll rest)
  kinds : ∀ k ∈ kindsAll rest, k ∈ c.kinds
  kind : c.kind ∈ Grammar.testKinds
  value : ValueParts sign.kind rest
  signed : sign.kind ∈ Grammar.comparisonOps ++ Grammar.matcherOps

theorem test_tokens (h : IsTest name sign rest c) : TestTokens name sign rest c := by
  cases h with
  | plain k cs hk h =>
    obtain ⟨rfl, hvalue, hsigned⟩ := h
    have hne : k ≠ .error := (by decide : ∀ k ∈ Grammar.testKinds, k ≠ .error) k hk
    refine ⟨?_, ?_, ?_, hk, hvalue, hsigned⟩
    · simp [Tree.leaves, leavesAll, Tree.ofToken]
    · rw [Tree.prune_node hne]
      simp [pruneAll, Tree.prune, Tree.leaves, leavesAll, Tree.ofToken]
    · intro l hl
      simp [Tree.kinds, kindsAll, hl]
  | unit k cs hk h =>
    obtain ⟨rfl, hvalue, hsigned⟩ := h
    have hne : k ≠ .error :=
      (by decide : ∀ k ∈ [Kind.durationFilter, .bytesFilter], k ≠ .error) k hk
    refine ⟨?_, ?_, ?_, ?_, hvalue, hsigned⟩
    · simp [Tree.leaves, leavesAll, Tree.ofToken]
    · simp [Tree.prune, hne, pruneAll, Tree.leaves, leavesAll, Tree.ofToken]
    · intro l hl
      simp [Tree.kinds, kindsAll, hl]
    · show Kind.unitFilter ∈ Grammar.testKinds
      decide

theorem ofTree_pruned (h : TestTokens name sign rest c) (hv : ValueTokens sign.kind rest v) :
    FieldSource.ofTree? c.prune = v.map fun value => ⟨⟨.identifier, name⟩, sign, value⟩ := by
  have hfind : ((leavesAll (pruneAll rest)).find? fun l => Grammar.valueKinds.contains l.kind) =
      v := by
    rw [find_tells (p := Grammar.valueKinds.contains) fun k hk =>
      value_tells k (List.contains_iff_mem.mp hk), hv.pruned]
    cases v with
    | none => rfl
    | some x => simp [hv.kind x rfl]
  rw [FieldSource.ofTree?, h.pruned]
  simp only [hfind]

end Tokens

end LogQuery
