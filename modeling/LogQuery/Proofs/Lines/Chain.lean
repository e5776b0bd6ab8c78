import LogQuery.Proofs.Tight
import LogQuery.Proofs.Token.Quoted

/-! Line filters of valid queries: a value and all those joined to it by `or`, however many. -/
namespace LogQuery

namespace Grammar

open Shape (one opt inOrder)

/-- The kinds that a shape is made of. -/
def Shape.letters : Shape → List Kind
  | .zero | .epsilon => []
  | .char k => [k]
  | .plus s r | .comp s r => letters s ++ letters r
  | .star s => letters s

theorem mem_letters {s : Shape} {w : List Kind} (h : w ∈ s.matches') :
    ∀ k ∈ w, k ∈ Shape.letters s := by
  induction s generalizing w with
  | zero => cases h
  | epsilon =>
    obtain rfl : w = [] := h
    simp
  | char k =>
    obtain rfl : w = [k] := h
    simp [Shape.letters]
  | plus s r hs hr =>
    intro k hk
    rcases h with h | h
    · exact List.mem_append_left _ (hs h k hk)
    · exact List.mem_append_right _ (hr h k hk)
  | comp s r hs hr =>
    obtain ⟨u, hu, v, hv, rfl⟩ := Language.mem_mul.mp h
    intro k hk
    rcases List.mem_append.mp hk with hk | hk
    · exact List.mem_append_left _ (hs hu k hk)
    · exact List.mem_append_right _ (hr hv k hk)
  | star s hs =>
    obtain ⟨words, rfl, hwords⟩ := Language.mem_kstar.mp h
    intro k hk
    obtain ⟨u, hu, hk⟩ := List.mem_flatten.mp hk
    exact hs (hwords u hu) k hk

theorem mem_ones {ks w : List Kind} (h : w ∈ (inOrder (ks.map one)).matches') : w = ks := by
  induction ks generalizing w with
  | nil => exact h
  | cons k ks ih =>
    obtain ⟨_, rfl, v, hv, rfl⟩ := Language.mem_mul.mp h
    rw [ih hv]
    rfl

/-- The values that a line may be searched for, as the kinds of their parts. -/
def valueWords : List (List Kind) := [[.string], [.filterOp, .lParen, .string, .rParen]]

theorem value_word {w : List Kind} (h : w ∈ valueShape.matches') : w ∈ valueWords := by
  rcases h with h | h
  · obtain rfl : w = [.string] := h
    exact .head _
  · have h : w ∈ (inOrder ([Kind.filterOp, .lParen, .string, .rParen].map one)).matches' := h
    rw [mem_ones h]
    exact .tail _ (.head _)

/-- A line filter and a filter joined to it have the same parts behind their first one. -/
theorem chain_word {a : Kind} {w : List Kind}
    (h : w ∈ (inOrder [one a, valueShape, opt (one .orFilter)]).matches') :
    ∃ v ∈ valueWords, ∃ o ∈ [[], [Kind.orFilter]], w = a :: (v ++ o) := by
  obtain ⟨_, rfl, _, hvo, rfl⟩ := Language.mem_mul.mp h
  obtain ⟨v, hv, _, hrest, rfl⟩ := Language.mem_mul.mp hvo
  obtain ⟨o, ho, _, rfl, rfl⟩ := Language.mem_mul.mp hrest
  have ho : o = [] ∨ o = [.orFilter] := ho
  exact ⟨v, value_word hv, o, by simpa using ho, by simp⟩

end Grammar

namespace Tree

mutual

/-- The strings that lines are searched for, from left to right: all but those in the parentheses
of an address range. -/
def literals : Tree → List Token
  | leaf k x => if k = .string then [⟨k, x⟩] else []
  | node _ cs => literalsAll false cs

/-- The flag is raised from the sign of an address range up to the parenthesis that closes it. -/
def literalsAll (address : Bool) : List Tree → List Token
  | [] => []
  | c :: cs =>
    (if address then [] else c.literals) ++
      literalsAll ((address || c.kind = .filterOp) && c.kind ≠ .rParen) cs

end

variable {t c : Tree} {cs ds : List Tree} {k : Kind} {ks : List Kind}

mutual

theorem literals_none : (t : Tree) → .string ∉ t.kinds → t.literals = []
  | leaf k x, h => by
    have hk : k ≠ .string := fun he => h (he ▸ .head _)
    rw [literals, if_neg hk]
  | node k cs, h => literalsAll_none cs false fun hs => h (.tail k hs)

theorem literalsAll_none : (cs : List Tree) → (address : Bool) → .string ∉ kindsAll cs →
    literalsAll address cs = []
  | [], _, _ => rfl
  | c :: cs, address, h => by
    rw [kindsAll, List.mem_append, not_or] at h
    rw [literalsAll, literals_none c h.1, literalsAll_none cs _ h.2, ite_self]
    rfl

end

mutual

theorem literals_strings : (t : Tree) → ∀ l ∈ t.literals, l ∈ t.leaves ∧ l.kind = .string
  | leaf k x, l, h => by
    rw [literals] at h
    split at h
    · next hk =>
      subst hk
      obtain rfl := List.mem_singleton.mp h
      exact ⟨.head _, rfl⟩
    · cases h
  | node _ cs, l, h => literalsAll_strings cs false l h

theorem literalsAll_strings : (cs : List Tree) → (address : Bool) →
    ∀ l ∈ literalsAll address cs, l ∈ leavesAll cs ∧ l.kind = .string
  | [], _, l, h => by cases h
  | c :: cs, address, l, h => by
    rw [literalsAll, List.mem_append] at h
    rw [leavesAll, List.mem_append]
    rcases h with h | h
    · split at h
      · cases h
      · exact (literals_strings c l h).imp_left Or.inl
    · exact (literalsAll_strings cs _ l h).imp_left Or.inr

end

/-- The parts of a node that are no blanks or comments. -/
def parted (cs : List Tree) : List Tree := cs.filter fun c => !c.kind.isTrivia

theorem parted_kinds (cs : List Tree) : (parted cs).map kind = word cs := by
  rw [parted, word, List.filter_map]
  rfl

/-- The parts of a node that are listed as elements. -/
def listed (cs : List Tree) : List Tree := cs.filter fun c => c.kind.isNamed

theorem listed_named (h : c.kind.isNamed = true) : listed (c :: cs) = c :: listed cs :=
  List.filter_cons_of_pos h

theorem listed_unnamed (h : c.kind.isNamed = false) : listed (c :: cs) = listed cs :=
  List.filter_cons_of_neg (by simp [h])

theorem listed_parted (cs : List Tree) : listed (parted cs) = listed cs := by
  rw [parted, listed, List.filter_filter]
  apply List.filter_congr
  intro c _
  cases ht : c.kind.isTrivia with
  | true => simp [Kind.isNamed_of_trivia ht]
  | false => simp

/-- A tree that conforms, of a kind that no parts make up, is a leaf. -/
theorem conforms_leaf (h : t.Conforms) (hk : (Grammar.production t.kind).letters = []) :
    ∃ x, t = leaf t.kind x := by
  cases h with
  | leaf k x => exact ⟨x, rfl⟩
  | node k cs hw _ =>
    have hl := Grammar.mem_letters hw
    rw [show (Grammar.production k).letters = [] from hk] at hl
    have hnil : word cs = [] := List.eq_nil_iff_forall_not_mem.mpr fun l hm => by
      simpa using hl l hm
    rw [hnil] at hw
    exact (production_nil k hw).elim

theorem trivia_cases (h : k.isTrivia = true) : k = .whitespace ∨ k = .comment := by
  cases k <;> first | exact Or.inl rfl | exact Or.inr rfl | cases h

/-- Kinds that are made up of one another are all that a tree of one of them holds. -/
theorem conforms_kinds (h : t.Conforms) (hws : .whitespace ∈ ks) (hcomment : .comment ∈ ks)
    (hks : ∀ k ∈ ks, ∀ l ∈ (Grammar.production k).letters, l ∈ ks) (hk : t.kind ∈ ks) :
    ∀ l ∈ t.kinds, l ∈ ks := by
  induction h with
  | leaf k x =>
    intro l hl
    obtain rfl := List.mem_singleton.mp hl
    exact hk
  | node k cs hw hcs ih =>
    intro l hl
    rcases List.mem_cons.mp hl with rfl | hl
    · exact hk
    · obtain ⟨c, hc, hl⟩ := mem_kindsAll.mp hl
      refine ih c hc ?_ l hl
      cases ht : c.kind.isTrivia with
      | true =>
        rcases trivia_cases ht with h | h <;> rw [h]
        · exact hws
        · exact hcomment
      | false =>
        have hm : c.kind ∈ word cs :=
          List.mem_filter.mpr ⟨List.mem_map_of_mem hc, by simp [ht]⟩
        exact hks k hk _ (Grammar.mem_letters hw _ hm)

theorem literalsAll_parted (h : ∀ c ∈ cs, c.Conforms) (address : Bool) :
    literalsAll address (parted cs) = literalsAll address cs := by
  induction cs generalizing address with
  | nil => rfl
  | cons c cs ih =>
    have hcs := fun b => ih (fun d hd => h d (.tail c hd)) b
    rw [parted, List.filter_cons]
    split
    · rw [literalsAll, literalsAll, ← hcs]
      rfl
    · next ht =>
      have ht : c.kind = .whitespace ∨ c.kind = .comment := trivia_cases (by simpa using ht)
      have hp : (Grammar.production c.kind).letters = [] := by
        rcases ht with ht | ht <;> rw [ht] <;> rfl
      obtain ⟨x, hx⟩ := conforms_leaf (h c (.head _)) hp
      have hnone : c.literals = [] := by
        rw [hx]
        rcases ht with ht | ht <;> rw [ht] <;> rfl
      have hflag : ((address || c.kind = .filterOp) && c.kind ≠ .rParen) = address := by
        rcases ht with ht | ht <;> simp [ht]
      rw [literalsAll, hnone, hflag, ite_self]
      exact hcs address

/-- The parts of one filter of a chain: a sign, a string or an address range, and the next filter of
the chain or nothing. -/
inductive Link (sign : Tree) (x : Text) (next : List Tree) : List Tree → Prop
  | text : Link sign x next (sign :: leaf .string x :: next)
  | address (op l r : Tree) (hop : op.kind = .filterOp) (hnone : .string ∉ op.kinds)
    (hl : l.kind = .lParen) (hr : r.kind = .rParen) :
    Link sign x next (sign :: op :: l :: leaf .string x :: r :: next)

section Link

variable {sign op l r : Tree} {x : Text} {next : List Tree}

theorem literals_text (hsign : sign.kind = .filter ∨ sign.kind = .keyword .or)
    (hnone : .string ∉ sign.kinds) :
    literalsAll false (sign :: leaf .string x :: next) =
      ⟨.string, x⟩ :: literalsAll false next := by
  have hstring : (leaf .string x).kind = .string := rfl
  rcases hsign with hs | hs <;>
    simp [literalsAll, literals_none sign hnone, hs, hstring, literals]

theorem literals_address (hsign : sign.kind = .filter ∨ sign.kind = .keyword .or)
    (hnone : .string ∉ sign.kinds) (hop : op.kind = .filterOp) (hopnone : .string ∉ op.kinds)
    (hl : l.kind = .lParen) (hr : r.kind = .rParen) :
    literalsAll false (sign :: op :: l :: leaf .string x :: r :: next) =
      literalsAll false next := by
  have hstring : (leaf .string x).kind = .string := rfl
  rcases hsign with hs | hs <;>
    simp [literalsAll, literals_none sign hnone, literals_none op hopnone, hs, hop, hl, hr, hstring]

theorem link_next (h : Link sign x next cs) :
    ∀ c ∈ next, c ∈ cs := by
  intro c hc
  cases h <;> simp [hc]

end Link

/-- The kinds of a sign and what is in it. -/
def signKinds : List Kind :=
  .whitespace :: .comment :: .filter :: .filterOp :: .keyword .or :: .keyword .ip ::
    Grammar.lineOps

/-- There is no string in the sign of a filter. -/
theorem sign_string (h : t.Conforms) (hk : t.kind ∈ signKinds) : .string ∉ t.kinds := by
  intro hs
  have hm := conforms_kinds h (by decide) (by decide) (by decide) hk .string hs
  exact absurd hm (by decide)

theorem conforms_string (h : t.Conforms) (hk : t.kind = .string) : ∃ x, t = leaf .string x := by
  obtain ⟨x, hx⟩ := conforms_leaf h (by rw [hk]; rfl)
  exact ⟨x, by rw [hx, hk]⟩

theorem conforms_link (h : (node k cs).Conforms) (hk : k = .lineFilter ∨ k = .orFilter) :
    ∃ sign x next, Link sign x next (parted cs) ∧ (sign.kind = .filter ∨ sign.kind = .keyword .or) ∧
      .string ∉ sign.kinds ∧ (next = [] ∨ ∃ c, next = [c] ∧ c.kind = .orFilter) := by
  cases h with
  | node _ _ hw hcs =>
    obtain ⟨a, ha, hword⟩ : ∃ a ∈ [.filter, .keyword .or],
        word cs ∈ (Grammar.Shape.inOrder [Grammar.Shape.one a, Grammar.valueShape,
          Grammar.Shape.opt (Grammar.Shape.one .orFilter)]).matches' := by
      rcases hk with rfl | rfl
      · exact ⟨_, by simp, hw⟩
      · exact ⟨_, by simp, hw⟩
    obtain ⟨v, hv, o, ho, hword⟩ := Grammar.chain_word hword
    rw [← parted_kinds] at hword
    have hparted : ∀ c ∈ parted cs, c ∈ cs := fun c hc => List.mem_of_mem_filter hc
    generalize parted cs = ps at hword hparted
    obtain ⟨sign, rest, rfl, hsign, hrest⟩ := List.map_eq_cons_iff.mp hword
    obtain ⟨values, next, rfl, hvalues, hnext⟩ := List.map_eq_append_iff.mp hrest
    have hconforms : ∀ c ∈ sign :: (values ++ next), c.Conforms := fun c hc => hcs c (hparted c hc)
    have hsigns : ∀ a ∈ [Kind.filter, .keyword .or], a ∈ signKinds := by decide
    have hnone := sign_string (hconforms sign (.head _)) (hsign ▸ hsigns a ha)
    have hmore : next = [] ∨ ∃ c, next = [c] ∧ c.kind = .orFilter := by
      rcases List.mem_pair.mp ho with rfl | rfl
      · exact Or.inl (List.map_eq_nil_iff.mp hnext)
      · exact Or.inr (List.map_eq_singleton_iff.mp hnext)
    have hkind : sign.kind = .filter ∨ sign.kind = .keyword .or := by
      rw [hsign]
      exact List.mem_pair.mp ha
    rcases List.mem_pair.mp hv with rfl | rfl
    · obtain ⟨s, rfl, hs⟩ := List.map_eq_singleton_iff.mp hvalues
      obtain ⟨x, rfl⟩ := conforms_string (hconforms s (by simp)) hs
      exact ⟨sign, x, next, .text, hkind, hnone, hmore⟩
    · obtain ⟨op, _, rfl, hop, hvalues⟩ := List.map_eq_cons_iff.mp hvalues
      obtain ⟨l, _, rfl, hl, hvalues⟩ := List.map_eq_cons_iff.mp hvalues
      obtain ⟨s, _, rfl, hs, hvalues⟩ := List.map_eq_cons_iff.mp hvalues
      obtain ⟨r, rfl, hr⟩ := List.map_eq_singleton_iff.mp hvalues
      obtain ⟨x, rfl⟩ := conforms_string (hconforms s (by simp)) hs
      have hopnone := sign_string (hconforms op (by simp)) (hop ▸ by decide)
      exact ⟨sign, x, next, .address op l r hop hopnone hl hr, hkind, hnone, hmore⟩

/-- The kinds behind the sign of a line filter, all along its chain. -/
def chainKinds : List Kind :=
  [.whitespace, .comment, .string, .filterOp, .lParen, .rParen, .orFilter, .keyword .or,
    .keyword .ip]

/-- Behind its sign a line filter holds values and what joins them. -/
theorem chain_kinds (h : (node .lineFilter (t :: cs)).Conforms) (ht : t.kind = .filter) :
    ∀ k ∈ kindsAll cs, k ∈ chainKinds := by
  cases h with
  | node _ _ hw hcs =>
    obtain ⟨v, hv, o, ho, hword⟩ := Grammar.chain_word hw
    have hfirst : word (t :: cs) = .filter :: word cs := by
      rw [word, List.map_cons, ht]
      rfl
    rw [hfirst] at hword
    have hparts : ∀ v ∈ Grammar.valueWords, ∀ o ∈ [[], [Kind.orFilter]],
        ∀ k ∈ v ++ o, k ∈ chainKinds := by decide
    intro k hk
    obtain ⟨c, hc, hk⟩ := mem_kindsAll.mp hk
    refine conforms_kinds (hcs c (.tail _ hc)) (by decide) (by decide) (by decide) ?_ k hk
    cases htrivia : c.kind.isTrivia with
    | true => rcases trivia_cases htrivia with h | h <;> rw [h] <;> decide
    | false =>
      have hm : c.kind ∈ word cs :=
        List.mem_filter.mpr ⟨List.mem_map_of_mem hc, by simp [htrivia]⟩
      rw [(List.cons.inj hword).2] at hm
      exact hparts v hv o ho _ hm

mutual

/-- Kinds that are not in a tree are not found in it. -/
theorem outermost_none : (t : Tree) → k ∉ t.kinds → t.outermost k = []
  | leaf l x, h => by
    have hl : l ≠ k := fun he => h (he ▸ .head _)
    rw [outermost, if_neg hl]
  | node l cs, h => by
    have hl : l ≠ k := fun he => h (he ▸ .head _)
    rw [outermost, if_neg hl, outermostAll_none cs fun hk => h (.tail l hk)]

theorem outermostAll_none : (cs : List Tree) → k ∉ kindsAll cs → outermostAll k cs = []
  | [], _ => rfl
  | c :: cs, h => by
    rw [kindsAll, List.mem_append, not_or] at h
    rw [outermostAll, outermost_none c h.1, outermostAll_none cs h.2, ite_self]
    rfl

end

end Tree

namespace Element

variable {query before after : Text} {t : Tree} {e : Element} {cs : List Tree}

theorem located_kind (h : Located query e t) : e.kind = t.kind := by
  obtain ⟨before, h⟩ := h
  rw [h.element, elementAt_kind]

/-- The children of an element stand for those of its tree that are listed. -/
theorem children_located (cs : List Tree) (h : query = before ++ Tree.textAll cs ++ after) :
    List.Forall₂ (Located query) (Tree.elementsAt before.bytes cs) (Tree.listed cs) := by
  induction cs generalizing before with
  | nil => exact .nil
  | cons c cs ih =>
    have hc : query = before ++ c.text ++ (Tree.textAll cs ++ after) := by
      simpa [Tree.textAll] using h
    have hcs : query = (before ++ c.text) ++ Tree.textAll cs ++ after := by
      simpa [Tree.textAll] using h
    have hmore := ih hcs
    rw [Text.bytes_append, Tree.bytes_text] at hmore
    rw [Tree.elementsAt]
    split
    · next hn =>
      rw [Tree.listed_named hn]
      exact .cons ⟨before, at_of_eq hc⟩ hmore
    · next hn =>
      rw [Tree.listed_unnamed (by simpa using hn)]
      exact hmore

section Link

variable {sign : Tree} {x : Text} {next ps : List Tree} {es : List Element} {k : Kind} {s : Span}
  {a b o : Element}

/-- A filter with a string of its own. -/
theorem strings_text (ha : a.kind = .filter ∨ a.kind = .keyword .or) (hb : b.kind = .string)
    (hes : ∀ e ∈ es, e.kind = .orFilter) :
    LineEntry.strings (mk k s (a :: b :: es)) = b :: LineEntry.joined es := by
  have hany : es.any (fun e => e.kind = .filterOp) = false := by
    rw [List.any_eq_false]
    intro e he
    simp [hes e he]
  rcases ha with ha | ha <;> simp [LineEntry.strings, LineEntry.joined, ha, hb, hany]

/-- A filter with an address range. -/
theorem strings_address (ha : a.kind = .filter ∨ a.kind = .keyword .or) (ho : o.kind = .filterOp)
    (hb : b.kind = .string) :
    LineEntry.strings (mk k s (a :: o :: b :: es)) = LineEntry.joined es := by
  rcases ha with ha | ha <;> simp [LineEntry.strings, LineEntry.joined, ha, ho, hb]

/-- What is joined to a filter is the next filter of its chain, or nothing. -/
theorem joined_located (hes : List.Forall₂ (Located query) es (Tree.listed next))
    (hnext : next = [] ∨ ∃ c, next = [c] ∧ c.kind = .orFilter)
    (hmore : ∀ c ∈ next, ∀ e, Located query e c →
      List.Forall₂ (Located query) (LineEntry.strings e) (c.literals.map .ofToken)) :
    (∀ e ∈ es, e.kind = .orFilter) ∧
      List.Forall₂ (Located query) (LineEntry.joined es)
        ((Tree.literalsAll false next).map .ofToken) := by
  rcases hnext with rfl | ⟨c, rfl, hc⟩
  · cases hes
    exact ⟨by simp, .nil⟩
  · rw [Tree.listed_named (by rw [hc]; rfl)] at hes
    cases hes with
    | @cons e _ _ _ he h =>
      cases h
      have hk : e.kind = .orFilter := (located_kind he).trans hc
      refine ⟨by simpa using hk, ?_⟩
      rw [LineEntry.joined, if_pos hk]
      simpa [Tree.literalsAll] using hmore c (.head _) e he

/-- The strings of a filter are its own, if it has one, and those of the next filter. -/
theorem link_strings (h : Tree.Link sign x next ps)
    (hsign : sign.kind = .filter ∨ sign.kind = .keyword .or) (hnone : .string ∉ sign.kinds)
    (hnext : next = [] ∨ ∃ c, next = [c] ∧ c.kind = .orFilter)
    (hes : List.Forall₂ (Located query) es (Tree.listed ps))
    (hmore : ∀ c ∈ next, ∀ e, Located query e c →
      List.Forall₂ (Located query) (LineEntry.strings e) (c.literals.map .ofToken)) :
    List.Forall₂ (Located query) (LineEntry.strings (mk k s es))
      ((Tree.literalsAll false ps).map .ofToken) := by
  have hnamed : sign.kind.isNamed = true := by
    rcases hsign with h | h <;> rw [h] <;> rfl
  cases h with
  | text =>
    rw [Tree.listed_named hnamed, Tree.listed_named rfl] at hes
    cases hes with
    | cons ha hes =>
      cases hes with
      | cons hb hes =>
        obtain ⟨hkinds, hjoined⟩ := joined_located hes hnext hmore
        rw [strings_text (by rwa [located_kind ha]) (located_kind hb) hkinds,
          Tree.literals_text hsign hnone]
        exact .cons hb hjoined
  | address op l r hop hopnone hl hr =>
    rw [Tree.listed_named hnamed, Tree.listed_named (by rw [hop]; rfl),
      Tree.listed_unnamed (by rw [hl]; rfl), Tree.listed_named rfl,
      Tree.listed_unnamed (by rw [hr]; rfl)] at hes
    cases hes with
    | cons ha hes =>
      cases hes with
      | cons ho hes =>
        cases hes with
        | cons hb hes =>
          rw [strings_address (by rwa [located_kind ha]) ((located_kind ho).trans hop)
            (located_kind hb), Tree.literals_address hsign hnone hop hopnone hl hr]
          exact (joined_located hes hnext hmore).2

end Link

/-- The strings of a filter, and of all that are joined to it, are the literals of its tree. -/
theorem strings_located (h : t.Conforms) (hk : t.kind = .lineFilter ∨ t.kind = .orFilter)
    (he : Located query e t) :
    List.Forall₂ (Located query) (LineEntry.strings e) (t.literals.map .ofToken) := by
  induction h generalizing e with
  | leaf k x =>
    obtain ⟨before, ha⟩ := he
    rw [ha.element]
    rcases hk with rfl | rfl <;> exact .nil
  | node k cs hw hcs ih =>
    obtain ⟨sign, x, next, hlink, hsign, hnone, hnext⟩ := Tree.conforms_link (.node k cs hw hcs) hk
    obtain ⟨before, he⟩ := he
    obtain ⟨after, hq⟩ := he.fits
    have hchildren := children_located cs hq
    rw [← Tree.listed_parted] at hchildren
    have hliterals : (Tree.node k cs).literals = Tree.literalsAll false (Tree.parted cs) :=
      (Tree.literalsAll_parted hcs false).symm
    rw [hliterals, he.element, Tree.elementAt]
    refine link_strings hlink hsign hnone hnext hchildren fun c hc e he => ?_
    have hm : c ∈ cs := List.mem_of_mem_filter (Tree.link_next hlink c hc)
    have hkind : c.kind = .orFilter := by
      rcases hnext with rfl | ⟨d, rfl, hd⟩
      · cases hc
      · rw [List.mem_singleton.mp hc, hd]
    exact ih c hm (Or.inr hkind) he

end Element

open LogQuery.Tree (Within)

/-- In a valid query every tree conforms. -/
theorem within_conforms {query : Text} {before after : List Token} {u : Tree}
    (hv : isValid query = true) (h : Within (parse query).children before u after) :
    u.Conforms := by
  refine Tree.conforms_within (fun c hc => ?_) h
  have hc : c ∈ (Tree.fillAll (stripped query) (Token.lex query)).1 ++
      (Tree.fillAll (stripped query) (Token.lex query)).2.map .ofToken := hc
  rcases List.mem_append.mp hc with hc | hc
  · exact Tree.fillAll_conforms _ _ (stripped_conforms hv) c hc
  · exact Tree.conforms_trivia _ c hc

end LogQuery
