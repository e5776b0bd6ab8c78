import Mathlib.Data.List.Chain
import LogQuery.Proofs.Lines.Chain
import LogQuery.Proofs.Tree.Spaced

/-! Comparisons of labels with numbers, durations and sizes, and the signs in them. A sign for
regular expressions gets into one just where it stands right ahead of an amount. -/
namespace LogQuery

open Grammar (comparisonOps matcherOps unitKinds production Shape)
open LogQuery.Tree (Within Spot leavesAll stripAll word)

/-- The signs for regular expressions. -/
def regexOps : List Kind := [.re, .nre]

/-- The kind of the amount that a comparison of a kind takes. -/
def Kind.amount? : Kind → Option Kind
  | numberFilter => some number
  | durationFilter => some duration
  | bytesFilter => some bytes
  | _ => none

/-- In the tree of a query a name is compared with an amount. -/
def Compared (query : Text) (name op amount : Token) : Prop :=
  ∃ before k cs after, Within (parse query).children before (.node k cs) after ∧
    k.amount? = some amount.kind ∧ Token.significant (leavesAll cs) = [name, op, amount]

/-- Not a sign for regular expressions right ahead of an amount. -/
def KeepApart (op amount : Token) : Prop := op.kind ∈ regexOps → amount.kind ∉ unitKinds

namespace Grammar

open Shape (one oneOf inOrder opt)

variable {k u : Kind} {w : List Kind}

theorem amount_unit (h : k.amount? = some u) : u ∈ unitKinds := by
  cases k <;> cases h <;> decide

theorem amount_word (h : k.amount? = some u) (hw : w ∈ (production k).matches') :
    ∃ o ∈ comparisonOps ++ matcherOps, w = [.identifier, o, u] := by
  have hw : w ∈ (amountShape u).matches' := by
    cases k <;> cases h <;> exact hw
  obtain ⟨_, rfl, _, hrest, rfl⟩ := Language.mem_mul.mp hw
  obtain ⟨_, ho, _, hu, rfl⟩ := Language.mem_mul.mp hrest
  obtain ⟨o, hmem, rfl⟩ := Shape.mem_oneOf.mp ho
  obtain rfl := @mem_ones [u] _ hu
  exact ⟨o, hmem, rfl⟩

theorem matcher_word (hw : w ∈ (production .matcher).matches') :
    ∃ o ∈ matcherOps, w = [.identifier, o, .string] := by
  obtain ⟨_, rfl, _, hrest, rfl⟩ := Language.mem_mul.mp hw
  obtain ⟨_, ho, _, hs, rfl⟩ := Language.mem_mul.mp hrest
  obtain ⟨o, hmem, rfl⟩ := Shape.mem_oneOf.mp ho
  obtain rfl := @mem_ones [.string] _ hs
  exact ⟨o, hmem, rfl⟩

/-- The last part of a node that ends with a sign for regular expressions. -/
def signHolders : List Kind := .filter :: regexOps

/-- The parts of a node, where one of them may end with a sign for regular expressions. -/
inductive HoldsSign (k : Kind) (w : List Kind) : Prop
  | filter (hk : k = .filter) (o : Kind) (hw : w = [o])
  | matcher (o : Kind) (hw : w = [.identifier, o, .string])
  | amount (u : Kind) (hk : k.amount? = some u) (o : Kind) (ho : o ∈ comparisonOps ++ matcherOps)
    (hw : w = [.identifier, o, u])
  | line (v : List Kind) (hv : v ∈ valueWords) (o : List Kind) (ho : o ∈ [[], [Kind.orFilter]])
    (hw : w = .filter :: (v ++ o))

theorem holdsSign (hw : w ∈ (production k).matches') {a : Kind} (ha : a ∈ signHolders)
    (hm : a ∈ w) : HoldsSign k w := by
  have hletters := mem_letters hw a hm
  have hk : ∀ a ∈ signHolders, a ∈ (production k).letters →
      k ∈ [.filter, .matcher, .numberFilter, .durationFilter, .bytesFilter, .lineFilter] := by
    cases k <;> first | decide | exact fun _ _ h => nomatch h
  have hk := hk a ha hletters
  simp only [List.mem_cons, List.not_mem_nil, or_false] at hk
  rcases hk with rfl | rfl | hk | hk | hk | rfl
  · obtain ⟨o, -, rfl⟩ := Shape.mem_oneOf.mp hw
    exact .filter rfl o rfl
  · obtain ⟨o, -, hw⟩ := matcher_word hw
    exact .matcher o hw
  case inr.inr.inr.inr.inr =>
    obtain ⟨v, hv, o, ho, hw⟩ := chain_word hw
    exact .line v hv o ho hw
  all_goals
    subst hk
    obtain ⟨o, ho, hw⟩ := amount_word rfl hw
    exact .amount _ rfl o ho hw

/-- What comes in a node behind a part that ends with a sign for regular expressions: the value of a
line filter or of a matcher, or the amount of a comparison. -/
def SignNext (k a b : Kind) : Prop :=
  a ∈ signHolders → b ∈ [Kind.string, .filterOp] ∨ (k.amount? = some b ∧ a ∈ regexOps)

theorem sign_next (hw : w ∈ (production k).matches') : w.IsChain (SignNext k) := by
  rw [List.isChain_iff_forall_rel_of_append_cons_cons]
  intro a b front back hsplit ha
  have hname : Kind.identifier ∉ signHolders := by decide
  have hchain : w.IsChain (SignNext k) := by
    cases holdsSign hw ha (hsplit ▸ by simp) with
    | filter _ o hw =>
      rw [hw]
      exact List.isChain_singleton _
    | matcher o hw =>
      rw [hw]
      simp [SignNext, hname]
    | amount u hk o ho hw =>
      have hop : ∀ o ∈ comparisonOps ++ matcherOps, o ∈ signHolders → o ∈ regexOps := by decide
      rw [hw]
      simp only [SignNext, List.isChain_cons_cons, List.isChain_singleton, and_true]
      exact ⟨fun h => absurd h hname, fun h => Or.inr ⟨hk, hop o ho h⟩⟩
    | line v hv o ho hw =>
      have hline : ∀ v ∈ valueWords, ∀ o ∈ [[], [Kind.orFilter]], (Kind.filter :: (v ++ o)).IsChain
          fun a b => a ∈ signHolders → b ∈ [Kind.string, .filterOp] := by decide
      rw [hw]
      exact (hline v hv o ho).imp fun _ _ h ha => Or.inl (h ha)
  exact List.isChain_iff_forall_rel_of_append_cons_cons.mp hchain hsplit ha

end Grammar

namespace Tree

variable {t c d : Tree} {cs xs ys : List Tree} {k : Kind} {o v : Token}

/-- There are no blanks and comments in the tree. -/
def Bare (t : Tree) : Prop := ∀ l ∈ t.leaves, l.isTrivia = false

theorem bare_child (h : (node k cs).Bare) (hc : c ∈ cs) : c.Bare := by
  obtain ⟨xs, ys, rfl⟩ := List.append_of_mem hc
  intro l hl
  refine h l ?_
  simp [leaves, leavesAll_append, leavesAll, hl]

theorem conforms_kind (h : t.Conforms) (hb : t.Bare) : t.kind.isTrivia = false := by
  by_contra hk
  have hletters : (production t.kind).letters = [] := by
    rcases trivia_cases (by simpa using hk) with hk | hk <;> rw [hk] <;> rfl
  obtain ⟨x, hx⟩ := conforms_leaf h hletters
  have hl := hb ⟨t.kind, x⟩ (by rw [hx]; exact .head _)
  exact hk hl

theorem word_bare (hcs : ∀ c ∈ cs, c.Conforms) (hb : (node k cs).Bare) : word cs = cs.map kind := by
  refine List.filter_eq_self.mpr fun l hl => ?_
  obtain ⟨c, hc, rfl⟩ := List.mem_map.mp hl
  simp [conforms_kind (hcs c hc) (bare_child hb hc)]

theorem conforms_leaves (h : t.Conforms) : t.leaves ≠ [] := by
  induction h with
  | leaf k x => exact List.cons_ne_nil _ _
  | node k cs hw _ ih =>
    cases cs with
    | nil => exact (production_nil k hw).elim
    | cons c cs => exact List.append_ne_nil_of_left_ne_nil (ih c (.head _)) _

/-- What a tree ends with that ends with a sign for regular expressions. -/
theorem ends_sign (h : t.Conforms) (hb : t.Bare) (ho : o.kind ∈ regexOps)
    (hl : t.leaves.getLast? = some o) : t.kind ∈ Grammar.signHolders := by
  induction h with
  | leaf k x =>
    obtain rfl : ⟨k, x⟩ = o := Option.some.inj hl
    exact .tail _ ho
  | node k cs hw hcs ih =>
    have hne : cs ≠ [] := by
      rintro rfl
      exact production_nil k hw
    obtain ⟨front, c, rfl⟩ := List.eq_nil_or_concat cs |>.resolve_left hne
    rw [List.concat_eq_append] at *
    have hc : c ∈ front ++ [c] := by simp
    have hlast : c.leaves.getLast? = some o := by
      rw [leaves, leavesAll_append, leavesAll, leavesAll, List.append_nil,
        List.getLast?_append_of_ne_nil _ (conforms_leaves (hcs c hc))] at hl
      exact hl
    have hkind := ih c hc (bare_child hb hc) hlast
    have hword := word_bare hcs hb
    have hend : (word (front ++ [c])).getLast? = some c.kind := by
      rw [hword, List.map_append]
      exact List.getLast?_concat
    cases Grammar.holdsSign hw hkind (List.mem_of_getLast? hend) with
    | filter hk o hw =>
      rw [kind, hk]
      exact .head _
    | matcher o hw =>
      have hs : Kind.string ∉ Grammar.signHolders := by decide
      rw [hw] at hend
      rw [← Option.some.inj hend] at hkind
      exact absurd hkind hs
    | amount u hk o _ hw =>
      rw [hw] at hend
      rw [← Option.some.inj hend] at hkind
      have hu : ∀ u ∈ unitKinds, u ∉ Grammar.signHolders := by decide
      exact absurd hkind (hu u (Grammar.amount_unit hk))
    | line v hv o ho hw =>
      rw [hw] at hend
      have hlast : ∀ v ∈ Grammar.valueWords, ∀ o ∈ [[], [Kind.orFilter]],
          ∀ l ∈ (Kind.filter :: (v ++ o)).getLast?, l ∉ Grammar.signHolders := by decide
      exact absurd hkind (hlast v hv o ho _ hend)

/-- No amount is compared by a sign for regular expressions. -/
def Regular (cs : List Tree) : Prop :=
  ∀ before k ds after, Within cs before (node k ds) after → k.amount?.isSome = true →
    ∀ c ∈ ds, c.kind ∉ regexOps

theorem regular_child (h : Regular [node k cs]) (hc : c ∈ cs) : Regular [c] := by
  obtain ⟨xs, ys, rfl⟩ := List.append_of_mem hc
  intro before l ds after hw
  have hin := within_append_right (within_append_left hw ys) xs
  exact h _ l ds _ (.inside k [] hin)

/-- A value of a line filter does not begin with an amount. -/
theorem value_head (h : d.Conforms) (hk : d.kind = .string ∨ d.kind = .filterOp)
    (hv : d.leaves.head? = some v) : v.kind ∉ unitKinds := by
  have hkinds : ∀ l ∈ d.kinds, l ∈ [.whitespace, .comment, .string, .filterOp, .keyword .ip] := by
    refine conforms_kinds h (by decide) (by decide) (by decide) ?_
    rcases hk with hk | hk <;> rw [hk] <;> decide
  have hm : v.kind ∈ d.kinds := by
    obtain ⟨more, hleaves⟩ := List.head?_eq_some_iff.mp hv
    have hall : leavesAll [d] = [] ++ v :: more := by simpa [leavesAll] using hleaves
    have hw := within_kinds (within_of_leaves [d] hall)
    rw [kindsAll, kindsAll, List.append_nil] at hw
    exact hw
  have hnone : ∀ l ∈ [Kind.whitespace, .comment, .string, .filterOp, .keyword .ip],
      l ∉ unitKinds := by decide
  exact hnone _ (hkinds _ hm)

/-- Of two neighbours in a node, the one does not end with a sign for regular expressions that the
other has an amount behind. -/
theorem children_apart (h : (node k (xs ++ c :: d :: ys)).Conforms)
    (hb : (node k (xs ++ c :: d :: ys)).Bare) (hr : Regular [node k (xs ++ c :: d :: ys)])
    (ho : c.leaves.getLast? = some o) (hv : d.leaves.head? = some v) : KeepApart o v := by
  intro hsign
  obtain ⟨hw, hcs⟩ : word (xs ++ c :: d :: ys) ∈ (production k).matches' ∧
      ∀ e ∈ xs ++ c :: d :: ys, e.Conforms := by
    cases h with
    | node _ _ hw hcs => exact ⟨hw, hcs⟩
  have hc : c ∈ xs ++ c :: d :: ys := by simp
  have hd : d ∈ xs ++ c :: d :: ys := by simp
  have hkind := ends_sign (hcs c hc) (bare_child hb hc) hsign ho
  have hword := word_bare hcs hb
  rw [List.map_append, List.map_cons, List.map_cons] at hword
  have hnext := List.isChain_iff_forall_rel_of_append_cons_cons.mp (Grammar.sign_next hw) hword
  rcases hnext hkind with hvalue | ⟨hk, hregex⟩
  · exact value_head (hcs d hd) (List.mem_pair.mp hvalue) hv
  · exact absurd hregex (hr _ _ _ _ (.head _ []) (by rw [hk]; rfl) c hc)

theorem leavesAll_flatten (cs : List Tree) : leavesAll cs = (cs.map leaves).flatten := by
  induction cs with
  | nil => rfl
  | cons c cs ih => rw [leavesAll, ih, List.map_cons, List.flatten_cons]

/-- In a tree without such comparisons no sign for regular expressions is ahead of an amount. -/
theorem leaves_apart (h : t.Conforms) (hb : t.Bare) (hr : Regular [t]) :
    t.leaves.IsChain KeepApart := by
  induction h with
  | leaf k x => exact List.isChain_singleton _
  | node k cs hw hcs ih =>
    have hne : [] ∉ cs.map leaves := by
      intro hnil
      obtain ⟨c, hc, hleaves⟩ := List.mem_map.mp hnil
      exact conforms_leaves (hcs c hc) hleaves
    rw [leaves, leavesAll_flatten, List.isChain_flatten hne]
    constructor
    · intro ls hls
      obtain ⟨c, hc, rfl⟩ := List.mem_map.mp hls
      exact ih c hc (bare_child hb hc) (regular_child hr hc)
    · rw [List.isChain_map, List.isChain_iff_forall_rel_of_append_cons_cons]
      rintro c d xs ys rfl o ho v hv
      exact children_apart (.node k _ hw hcs) hb hr ho hv

/-- A comparison with an amount is made of three tokens. -/
theorem amount_leaves {u : Kind} (h : (node k cs).Conforms) (hb : (node k cs).Bare)
    (hk : k.amount? = some u) : ∃ (x : Text) (op : Token) (y : Text),
      cs = [leaf .identifier x, ofToken op, leaf u y] ∧ op.kind ∈ comparisonOps ++ matcherOps := by
  obtain ⟨hw, hcs⟩ : word cs ∈ (production k).matches' ∧ ∀ c ∈ cs, c.Conforms := by
    cases h with
    | node _ _ hw hcs => exact ⟨hw, hcs⟩
  obtain ⟨o, ho, hword⟩ := Grammar.amount_word hk hw
  rw [word_bare hcs hb] at hword
  obtain ⟨name, _, rfl, hname, hword⟩ := List.map_eq_cons_iff.mp hword
  obtain ⟨op, _, rfl, hop, hword⟩ := List.map_eq_cons_iff.mp hword
  obtain ⟨amount, rfl, hamount⟩ := List.map_eq_singleton_iff.mp hword
  have hops : ∀ o ∈ comparisonOps ++ matcherOps, (production o).letters = [] := by decide
  have hunits : ∀ u ∈ unitKinds, (production u).letters = [] := by decide
  obtain ⟨x, hx⟩ := conforms_leaf (hcs name (by simp)) (by rw [hname]; rfl)
  obtain ⟨z, hz⟩ := conforms_leaf (hcs op (by simp)) (by rw [hop]; exact hops o ho)
  obtain ⟨y, hy⟩ := conforms_leaf (hcs amount (by simp))
    (by rw [hamount]; exact hunits u (Grammar.amount_unit hk))
  rw [hname] at hx
  rw [hop] at hz
  rw [hamount] at hy
  exact ⟨x, ⟨o, z⟩, y, by rw [hx, hz, hy]; rfl, ho⟩

/-- What stands among some trees or below them has one of the places of its kind. -/
theorem spots_of_within {u : Tree} {before after : List Token} (h : Within cs before u after)
    (place : Nat) (ahead : List Token) : ∃ s ∈ spotsAll u.kind place ahead cs, s.tree = u := by
  induction h generalizing place ahead with
  | head c cs =>
    obtain ⟨s, hs, ht⟩ : ∃ s ∈ c.spots c.kind, s.tree = c :=
      ⟨⟨[], [], c⟩, mem_of_leads (.here c), rfl⟩
    exact ⟨s.under place ahead, List.mem_append_left _ (List.mem_map_of_mem hs), ht⟩
  | inside k cs _ ih =>
    obtain ⟨s, hs, ht⟩ := ih 0 []
    refine ⟨s.under place ahead, List.mem_append_left _ (List.mem_map_of_mem ?_), ht⟩
    exact List.mem_append_right _ hs
  | tail c _ ih =>
    obtain ⟨s, hs, ht⟩ := ih (place + 1) (ahead ++ c.leaves)
    exact ⟨s, List.mem_append_right _ hs, ht⟩

end Tree

section Reads

variable {t l : Token} {ts ls : List Token} {ks : List Kind}

theorem spells_kind {w : Keyword} (h : t.spells w = true) : t.kind = .identifier := by
  simp only [Token.spells, Bool.and_eq_true, decide_eq_true_eq] at h
  exact h.1

/-- A kind that is neither that of names nor a word of the language stays. -/
theorem readAs_kind (h : t.ReadAs l) (hn : .identifier ∉ ks) (hw : ∀ w, .keyword w ∉ ks) :
    t.kind ∈ ks ↔ l.kind ∈ ks := by
  obtain ⟨-, hk | ⟨w, hs, hk⟩⟩ := h
  · rw [hk]
  · rw [hk, spells_kind hs]
    exact iff_of_false hn (hw w)

theorem keepApart_reads (h : List.Forall₂ Token.ReadAs ts ls) :
    ts.IsChain KeepApart ↔ ls.IsChain KeepApart := by
  have hregex : ∀ {t l : Token}, t.ReadAs l → (t.kind ∈ regexOps ↔ l.kind ∈ regexOps) :=
    fun h => readAs_kind h (by decide) (by simp [regexOps])
  have hunit : ∀ {t l : Token}, t.ReadAs l → (t.kind ∈ unitKinds ↔ l.kind ∈ unitKinds) :=
    fun h => readAs_kind h (by decide) (by simp [unitKinds])
  induction h with
  | nil => exact iff_of_true .nil .nil
  | @cons t l ts ls hr hreads ih =>
    rw [List.isChain_cons, List.isChain_cons]
    refine and_congr ?_ ih
    cases hreads with
    | nil => simp
    | cons hr' _ => simp [KeepApart, hregex hr, hunit hr']

/-- Tokens that are not read as words of the language are as they were lexed. -/
theorem reads_plain (h : List.Forall₂ Token.ReadAs ts ls)
    (hk : ∀ l ∈ ls, ∀ w, l.kind ≠ .keyword w) : ts = ls := by
  induction h with
  | nil => rfl
  | @cons t l ts ls hr _ ih =>
    obtain ⟨htext, hkind | ⟨w, -, hw⟩⟩ := hr
    · have hl : t = l := by
        cases t
        cases l
        simp_all
      rw [hl, ih fun m hm => hk m (.tail l hm)]
    · exact absurd hw (hk l (.head _) w)

theorem reads_infix {ms : List Token} (h : List.Forall₂ Token.ReadAs ts ls) (hms : ms <:+: ls)
    (hk : ∀ l ∈ ms, ∀ w, l.kind ≠ .keyword w) : ms <:+: ts := by
  obtain ⟨front, back, rfl⟩ := hms
  rw [List.append_assoc] at h
  have hr := List.forall₂_take_append _ _ _ (List.forall₂_drop_append _ _ _ h)
  rw [← reads_plain hr hk]
  exact (List.take_prefix _ _).isInfix.trans (List.drop_suffix _ _).isInfix

end Reads

section Query

variable {query : Text} {before after : List Token} {k u : Kind} {cs : List Tree}

theorem strip_bare (query : Text) : (parse query).strip.Bare := by
  intro l hl
  rw [Tree.leaves_strip _ rfl] at hl
  simpa using (List.mem_filter.mp hl).2

/-- A comparison with an amount is three tokens, and they stand in a row in the query. -/
theorem amount_tokens (hv : isValid query = true)
    (h : Within (parse query).children before (.node k cs) after) (hk : k.amount? = some u) :
    ∃ name op amount, Token.significant (leavesAll cs) = [name, op, amount] ∧
      name.kind = .identifier ∧ op.kind ∈ comparisonOps ++ matcherOps ∧ amount.kind = u ∧
      [name, op, amount] <:+: significant query := by
  obtain ⟨ahead, ds, behind, hf⟩ := parse_filled h
  have hds := stripped_solid hf.origin
  have hleaves : Token.significant (leavesAll cs) = leavesAll ds := by
    rw [← Tree.leavesAll_strip, hf.children, Tree.stripAll_fillAll, Tree.stripAll_eq_self ds hds]
  obtain ⟨x, op, y, rfl, hop⟩ :=
    Tree.amount_leaves (Tree.conforms_within (stripped_conforms hv) hf.origin) hds hk
  refine ⟨⟨.identifier, x⟩, op, ⟨u, y⟩, hleaves, rfl, hop, rfl, ?_⟩
  refine reads_infix (stripped_reads query) ?_ ?_
  · rw [Tree.within_leaves hf.origin]
    exact List.infix_append _ _ _
  · have hplain : ∀ k ∈ .identifier :: (comparisonOps ++ matcherOps) ++ unitKinds,
        ∀ w, k ≠ .keyword w := by
      simp [comparisonOps, matcherOps, unitKinds]
    have hunit := Grammar.amount_unit hk
    intro l hl
    apply hplain
    simp only [List.mem_cons, List.not_mem_nil, or_false] at hl
    rcases hl with rfl | rfl | rfl
    · exact .head _
    · exact List.mem_append_left _ (.tail _ hop)
    · exact List.mem_append_right _ hunit

/-- A node of the grammar that compares with an amount. -/
theorem compared_of_strip (hv : isValid query = true)
    (h : Within [(parse query).strip] before (.node k cs) after) (hk : k.amount? = some u) :
    ∃ name op amount, Compared query name op amount ∧ name.kind = .identifier ∧
      cs = [.ofToken name, .ofToken op, .ofToken amount] := by
  have hconforms := Tree.conforms_within (by simpa using strip_conforms hv) h
  have hbare : (Tree.node k cs).Bare := by
    intro l hl
    apply strip_bare query l
    have hall := Tree.within_leaves h
    rw [leavesAll, leavesAll, List.append_nil] at hall
    simp [hall, hl]
  obtain ⟨x, op, y, rfl, hop⟩ := Tree.amount_leaves hconforms hbare hk
  refine ⟨⟨.identifier, x⟩, op, ⟨u, y⟩, ?_, rfl, rfl⟩
  have hnode : k.isNode = true ∧ k ≠ .logQl ∧ k.isTrivia = false := by
    cases k <;> cases hk <;> decide
  obtain ⟨q, hq, hqtree⟩ := Tree.spots_of_within h 0 []
  rw [Tree.spotsAll, Tree.spotsAll, List.append_nil] at hq
  obtain ⟨r, hr, rfl⟩ := List.mem_map.mp hq
  obtain ⟨s, hs, hsight⟩ := Tree.spot_strip hnode.2.2 hr
  obtain ⟨gs, after, ht, hw⟩ := spot_node hnode.1 hnode.2.1 hs
  refine ⟨s.ahead, k, gs, after, hw, hk, ?_⟩
  have htree : s.tree.strip = r.tree.strip := congrArg Sight.tree hsight
  have hrtree : r.tree = _ := hqtree
  rw [ht, hrtree, Tree.strip_eq_self _ hbare] at htree
  rw [← Tree.leavesAll_strip, (Tree.node.inj htree).2]
  rfl

end Query

/-- In a valid query a comparison with a number, a duration or a size is a name, a sign and the
amount, in a row in the query, and the sign is one of those for amounts or for regular expressions.
It is always one of those for amounts just if no sign for regular expressions stands right ahead of
an amount. -/
theorem amount_compared (query : Text) (hv : isValid query = true) :
    (∀ before k cs after u, Within (parse query).children before (.node k cs) after →
        k.amount? = some u →
        ∃ name op amount, Token.significant (leavesAll cs) = [name, op, amount] ∧
          name.kind = .identifier ∧ (op.kind ∈ comparisonOps ∨ op.kind ∈ regexOps) ∧
          amount.kind = u ∧
          [name, op, amount] <:+: Token.significant (Token.lex query)) ∧
      ((∀ name op amount, Compared query name op amount → op.kind ∈ comparisonOps) ↔
        (Token.significant (Token.lex query)).IsChain KeepApart) := by
  have hops : ∀ k ∈ comparisonOps ++ matcherOps, k ∈ comparisonOps ∨ k ∈ regexOps := by decide
  have hnone : ∀ k ∈ comparisonOps, k ∉ regexOps := by decide
  refine ⟨?_, ?_, ?_⟩
  · intro before k cs after u h hk
    obtain ⟨name, op, amount, hall, hname, hop, hamount, hrow⟩ := amount_tokens hv h hk
    exact ⟨name, op, amount, hall, hname, hops _ hop, hamount, hrow⟩
  · intro hall
    have hregular : Tree.Regular [(parse query).strip] := by
      intro before k cs after h hk c hc
      obtain ⟨u, hk⟩ := Option.isSome_iff_exists.mp hk
      obtain ⟨name, op, amount, hcompared, hname, rfl⟩ := compared_of_strip hv h hk
      have hop := hnone _ (hall name op amount hcompared)
      have hidentifier : Kind.identifier ∉ regexOps := by decide
      have hunits : ∀ u ∈ unitKinds, u ∉ regexOps := by decide
      obtain ⟨_, _, _, _, _, hamount, _⟩ := hcompared
      simp only [List.mem_cons, List.not_mem_nil, or_false] at hc
      rcases hc with rfl | rfl | rfl
      · exact fun h => hidentifier (hname ▸ h)
      · exact hop
      · exact hunits _ (Grammar.amount_unit hamount)
    have hchain := Tree.leaves_apart (strip_conforms hv) (strip_bare query) hregular
    rw [parse_strip] at hchain
    exact (keepApart_reads (stripped_reads query)).mpr hchain
  · rintro hchain name op amount ⟨before, k, cs, after, h, hk, hall⟩
    obtain ⟨_, _, _, hall', -, hop, -, hrow⟩ := amount_tokens hv h hk
    rw [hall] at hall'
    obtain ⟨rfl, rfl, rfl⟩ : _ ∧ _ ∧ _ := by simpa using hall'
    have hrow : [name, op, amount].IsChain KeepApart := hchain.infix hrow
    have hapart : KeepApart op amount := by
      simpa using (List.isChain_cons_cons.mp hrow).2
    exact (hops _ hop).resolve_right fun hregex => hapart hregex (Grammar.amount_unit hk)

/-- Comparisons with amounts of each kind, next to matchers and line filters with the same signs. -/
def amountText : Text :=
  "\x7ba=~\"b\"\x7d !~ \"x\" | size >= 2KB or took<1h30m, code!=500 | b !~ \"5\"".toList

theorem amount_compared_sample :
    isValid amountText = true ∧
      (∀ before k cs after u, Within (parse amountText).children before (.node k cs) after →
        k.amount? = some u →
        ∃ name op amount, Token.significant (leavesAll cs) = [name, op, amount] ∧
          name.kind = .identifier ∧ (op.kind ∈ comparisonOps ∨ op.kind ∈ regexOps) ∧
          amount.kind = u ∧
          [name, op, amount] <:+: Token.significant (Token.lex amountText)) ∧
      ((∀ name op amount, Compared amountText name op amount → op.kind ∈ comparisonOps) ↔
        (Token.significant (Token.lex amountText)).IsChain KeepApart) := by
  have hv : isValid amountText = true := by decide +kernel
  exact ⟨hv, amount_compared amountText hv⟩

/-- A name, a sign for regular expressions and a number. -/
def regexAmount : Text := "\x7ba=\"b\"\x7d | x =~ 5".toList

/-- The number is taken for one to compare the name with. -/
theorem amount_not_compared :
    isValid regexAmount = true ∧
      ∃ name op amount, Compared regexAmount name op amount ∧ op.kind = .re := by
  have hspots : ((parse regexAmount).spots .numberFilter).map
      (fun s => Token.significant s.tree.leaves) =
        [[⟨.identifier, "x".toList⟩, ⟨.re, "=~".toList⟩, ⟨.number, "5".toList⟩]] := by
    decide +kernel
  obtain ⟨s, hs, hleaves⟩ := List.map_eq_singleton_iff.mp hspots
  have hmem : s ∈ (parse regexAmount).spots .numberFilter := by
    rw [hs]
    exact .head _
  obtain ⟨cs, after, ht, hw⟩ := spot_node rfl (by decide) hmem
  rw [ht] at hleaves
  exact ⟨by decide +kernel, _, _, _, ⟨_, _, cs, after, hw, rfl, hleaves⟩, rfl⟩

end LogQuery
