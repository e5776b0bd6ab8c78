import LogQuery.Event.Recorder
import LogQuery.Proofs.Grammar.QueryShape
import LogQuery.Proofs.Recording.Metric

/-! Expressions, and with them whole queries, are recorded as the grammar finds them. -/
namespace LogQuery.Recording

open Recorder (Recorded Opened)
open Grammar (Rule Found maxLevels parenthesesKind)
open LogQuery.Tree (Ahead enclosingKinds followsFirst)

variable {α : Type} {d limit : Nat} {k : Kind} {r s : Recorder} {cs : List Tree} {us : List Token}
  {f : Found} {q : Rule} {P : α → Tree → Prop}

theorem literal_records : Records d literal Grammar.literal := by
  refine node_records_of_ahead (node_records ?_ (by decide)) (by rintro ts c ⟨⟩; rfl)
  exact andThen_records (when_records bump_records) bump_records

/-- The sort that parentheses around an expression would keep. -/
def HasSort (k : Kind) (t : Tree) : Prop := ∀ l ts, parenthesesKind (l :: t :: ts) = k

/-- What parentheses keep of the expression inside, which may be missing. -/
theorem parenthesesKind_made {x : Option (Nat × Kind)}
    (h : Made .expr HasSort r f.trees x s) (l : Tree) (ts : List Tree) :
    parenthesesKind (l :: ((f.orMissing .expr).trees ++ ts)) =
      (x.map Prod.snd).getD .metricExpr := by
  rw [Grammar.Found.orMissing, made_makes (by decide) h]
  cases x with
  | some x =>
    obtain ⟨es, hes, hs, -⟩ := h
    simp only [Option.isSome_some, if_true, hes]
    exact hs l ts
  | none =>
    obtain h | ⟨es, h⟩ := h
    · simp only [Option.isSome_none, Bool.false_eq_true, if_false, Grammar.Found.followed, h]
      rfl
    · simp only [Option.isSome_none, Bool.false_eq_true, if_false, Grammar.Found.followed, h]
      rfl

theorem metricExpr_ahead (h : Ahead .metricExpr cs) : Ahead .expr [.node .metricExpr cs] := by
  rintro c ⟨⟩
  cases cs with
  | nil => rfl
  | cons c cs =>
    have hc := h c rfl
    unfold followsFirst at hc ⊢
    split <;> simp_all

/-- The contents of parentheses behind the first. -/
theorem enclosed_gives {inner : Recording (Option (Nat × Kind))} (h : Makes d .expr HasSort inner q)
    (hd : r.depth = d) :
    Gives
      (do
        let x ← inner
        when (fun _ => x.isNone) missing
        expect .rParen
        return (x.map Prod.snd).getD .metricExpr) r
      (Grammar.seq [Grammar.orMissing .expr q, Grammar.expect .rParen] r.rest)
      fun x _ => ∀ l, parenthesesKind (l ::
        (Grammar.seq [Grammar.orMissing .expr q, Grammar.expect .rParen] r.rest).trees) = x := by
  obtain ⟨x, s, hs, hr, hx⟩ := h r hd
  obtain ⟨t, ht, hrt⟩ := missingUnless_gives (by decide) hr hx
  obtain ⟨_, u, hu, hru, -⟩ := last_records (expect_records (k := .rParen)) t (hrt.depth.trans hd)
  rw [hrt.rest] at hru
  refine ⟨_, u, ?_, Recorder.recorded_append hrt hru, fun l => parenthesesKind_made hx l _⟩
  have he : expect .rParen t = some ((), u) := hu
  exact (run_bind hs).trans ((run_bind ht).trans (run_bind he))

/-- At some tokens, a recording gives the contents of an expression that a rule finds there, and its
sort. -/
def GivesOperand (a : Recording Kind) (r : Recorder) (f : Found) : Prop :=
  ∃ cs, f.trees = [.node .expr cs] ∧ Ahead .expr cs ∧
    Gives a r { f with trees := cs } fun x _ => HasSort x (.node .expr cs)

theorem literal_gives (hd : r.depth = d) :
    GivesOperand (do literal; return .metricExpr) r (Grammar.node .expr Grammar.literal r.rest) :=
  ⟨_, rfl, by rintro c ⟨⟩; rfl, gives_map (literal_records r hd) fun _ _ _ _ _ _ => rfl⟩

theorem logExpr_gives (hl : Enough limit d) (hd : r.depth = d)
    (hb : Grammar.atKind .lBrace r.rest = true) :
    GivesOperand (do logExpr limit; return .logExpr) r
      (Grammar.node .expr (Grammar.logExpr (maxLevels - d)) r.rest) :=
  ⟨_, rfl, by rintro c ⟨⟩; rfl, gives_map (logExpr_recordsAt hl r hd hb) fun _ _ _ _ _ _ => rfl⟩

/-- Parentheses begin with a token, so that they are recognised before what they enclose. -/
theorem parenthesized_ahead (hk : k = .logExpr ∨ k = .metricExpr) (t : Token) (bs : List Tree) :
    Ahead k (.ofToken t :: bs) ∧ Ahead .expr [.node k (.ofToken t :: bs)] ∧
      HasSort k (.node .expr [.node k (.ofToken t :: bs)]) := by
  rcases hk with rfl | rfl
  · exact ⟨by rintro c ⟨⟩; rfl, by rintro c ⟨⟩; rfl, fun _ _ => rfl⟩
  · exact ⟨by rintro c ⟨⟩; rfl, by rintro c ⟨⟩; rfl, fun _ _ => rfl⟩

theorem parenthesesKind_cases (cs : List Tree) :
    parenthesesKind cs = .logExpr ∨ parenthesesKind cs = .metricExpr := by
  unfold parenthesesKind
  split
  · exact Or.inl rfl
  · exact Or.inr rfl

theorem parentheses_gives {inner : Recording (Option (Nat × Kind))} {t : Token}
    (h : Makes d .expr HasSort inner q) (hd : r.depth = d) (hr : r.rest = t :: us) :
    GivesOperand (parentheses inner) r (Grammar.node .expr (Grammar.parentheses q) r.rest) := by
  obtain ⟨bs, hbs⟩ : ∃ bs, (Grammar.seq [Grammar.bump, Grammar.orMissing .expr q,
      Grammar.expect .rParen] r.rest).trees = .ofToken t :: bs := by
    rw [hr]
    exact ⟨_, rfl⟩
  obtain ⟨hk, he, hs⟩ := parenthesized_ahead (parenthesesKind_cases (.ofToken t :: bs)) t bs
  have hbody : Gives
      (do
        bump
        let x ← inner
        when (fun _ => x.isNone) missing
        expect .rParen
        return (x.map Prod.snd).getD .metricExpr) r.start
      (Grammar.seq [Grammar.bump, Grammar.orMissing .expr q, Grammar.expect .rParen] r.rest)
      fun x _ => x = parenthesesKind (.ofToken t :: bs) := by
    refine gives_bind (bump_records (d := d) r.start hd) fun _ s hs _ => ?_
    obtain ⟨x, u, hu, hru, hx⟩ := enclosed_gives h (hs.depth.trans hd)
    rw [hs.rest] at hru hx
    refine ⟨x, u, hu, hru, (hx (.ofToken t)).symm.trans ?_⟩
    rw [← hbs, hr]
    rfl
  obtain ⟨_, s, ha, hrs, rfl⟩ := nodeBy_gives hbody (by rw [hbs]; exact hk)
  rw [hbs] at hrs
  refine ⟨_, ?_, he, _, s, ha, Recorder.recorded_congr hrs rfl rfl rfl, hs⟩
  rw [← hbs]
  rfl

theorem call_gives {call : Recording Unit} (h : Records d call q)
    (hq : ∀ ts, Ahead .metricExpr (q ts).trees) (hd : r.depth = d) :
    GivesOperand (do node .metricExpr call; return .metricExpr) r
      (Grammar.node .expr (Grammar.node .metricExpr q) r.rest) :=
  ⟨_, rfl, metricExpr_ahead (hq _),
    gives_map (node_records_of_ahead h hq r hd) fun _ _ _ _ _ _ => rfl⟩

theorem operand_none {inner : Recording (Option (Nat × Kind))} (hl : Enough limit d)
    (h : Makes d .expr HasSort inner q) {ts : List Token} (hn : operand limit inner ts = none) :
    Grammar.operand (maxLevels - d) q ts = Grammar.nothing ts := by
  cases ts with
  | nil => rfl
  | cons t ts =>
    have hsign : ¬ Grammar.atKind .number ts = true →
        Grammar.when (fun _ => Grammar.atKind .number ts) (Grammar.node .expr Grammar.literal)
          (t :: ts) = Grammar.nothing (t :: ts) := fun hm => by rw [Grammar.when, if_neg hm]
    simp only [operand] at hn
    split at hn
    · cases hn
    · cases hn
    · cases hn
    · next hk =>
      split_ifs at hn with hm
      simpa only [Grammar.operand, hk] using hsign hm
    · next hk =>
      split_ifs at hn with hm
      simpa only [Grammar.operand, hk] using hsign hm
    · next hk =>
      have hc := call_same hl h t.text
      rw [Option.map_eq_none_iff.mp hn] at hc
      cases hq : Grammar.call? (maxLevels - d) q t.text with
      | none => simp only [Grammar.operand, hk, hq]
      | some b => simp [hq, SameCall] at hc
    · simp only [Grammar.operand]

theorem operand_some {inner : Recording (Option (Nat × Kind))} (hl : Enough limit d)
    (h : Makes d .expr HasSort inner q) {b : Recording Kind} (hd : r.depth = d)
    (hb : operand limit inner r.rest = some b) :
    GivesOperand b r (Grammar.operand (maxLevels - d) q r.rest) := by
  cases hr : r.rest with
  | nil => simp [hr, operand] at hb
  | cons t ts =>
    have hlit := literal_gives hd
    have hlog := fun hb => logExpr_gives hl hd hb
    have hpar := parentheses_gives h hd hr
    rw [hr] at hlit hlog hpar
    have hsign : Grammar.atKind .number ts = true →
        GivesOperand (do literal; return .metricExpr) r (Grammar.when
          (fun _ => Grammar.atKind .number ts) (Grammar.node .expr Grammar.literal) (t :: ts)) :=
      fun hm => by rwa [Grammar.when, if_pos hm]
    simp only [hr, operand] at hb
    split at hb
    · next hk =>
      cases hb
      simpa only [Grammar.operand, hk] using hlog (by simp [Grammar.atKind, hk])
    · next hk =>
      cases hb
      simpa only [Grammar.operand, hk] using hpar
    · next hk =>
      cases hb
      simpa only [Grammar.operand, hk] using hlit
    · next hk =>
      split_ifs at hb with hm
      cases hb
      simpa only [Grammar.operand, hk] using hsign hm
    · next hk =>
      split_ifs at hb with hm
      cases hb
      simpa only [Grammar.operand, hk] using hsign hm
    · next hk =>
      obtain ⟨call, hcall, rfl⟩ := Option.map_eq_some_iff.mp hb
      have hc := call_same hl h t.text
      rw [hcall] at hc
      cases hq : Grammar.call? (maxLevels - d) q t.text with
      | none => simp [hq, SameCall] at hc
      | some p =>
        rw [hq] at hc
        have hg := call_gives hc.1 hc.2 hd
        rw [hr] at hg
        simpa only [Grammar.operand, hk, hq] using hg
    · cases hb

theorem operand_tries {inner : Recording (Option (Nat × Kind))} (hl : Enough limit d)
    (h : Makes d .expr HasSort inner q) :
    Tries d .expr HasSort (attempt .expr (operand limit inner))
      (Grammar.operand (maxLevels - d) q) :=
  attempt_tries (fun _ hn => operand_none hl h hn) fun _ _ hd hb => operand_some hl h hd hb

theorem binaryJoin_alike (ts : List Token) : Alike d (binaryJoin ts) (Grammar.binaryJoin ts) := by
  cases ts with
  | nil => trivial
  | cons t ts =>
    simp only [binaryJoin, Grammar.binaryJoin]
    cases Grammar.operator? t with
    | none => trivial
    | some o =>
      refine ⟨andThen_records bumpAs_records (when_records ?_), rfl, rfl⟩
      exact node_records bumpWord_records (by decide)

theorem enclose_gives {l : Kind} {x : Nat × α} {g : Found} (hr : Recorded r f s)
    (hx : Told k P r f.trees x s) (hl : ∀ ks, f.trees = [.node k ks] → followsFirst l (.node k ks))
    (hg : g.trees = [.node l f.trees]) (hrest : g.rest = f.rest) (hcut : g.cut = f.cut) :
    ∃ c u, enclose x.1 l s = some (c, u) ∧ Recorded r g u ∧
      Told l (fun _ _ => True) r g.trees (c, ()) u := by
  obtain ⟨ks, t, hks, hp, _, ht, htc, ho⟩ := precede_run hr hx
  have hf : followsFirst l (.node k ks) = true := hl ks hks
  obtain ⟨c, u, hc, hu, hcu⟩ := complete_gives (g := g) ho (Recorder.recorded_nil t)
    (Recorder.encloses_first hf r []) (by rw [hg, hks]) (hrest.trans ht.symm) (by
      rw [htc, hcut]
      cases r.refused <;> cases f.cut <;> rfl)
  refine ⟨c, u, (run_bind hp).trans hc, hu, _, hg, trivial, ?_⟩
  rw [hcu, hks, List.length_append, LogQuery.Tree.eventsAt_length, LogQuery.Tree.lead, if_pos hf]

theorem closeBinary_closes : Closes .expr HasSort Grammar.binary closeBinary := by
  intro r s t m ks f g ho hr hg hrest hcut
  have hf : followsFirst .binOpExpr (.node .expr ks) = true := rfl
  obtain ⟨b, u, hb, hru, hcu⟩ :=
    complete_gives (g := { g with trees := [.node .binOpExpr (.node .expr ks :: f.trees)] }) ho hr
      (Recorder.encloses_first hf r f.trees) rfl hrest hcut
  have hbin : Told .binOpExpr (fun _ _ => True) r
      [.node .binOpExpr (.node .expr ks :: f.trees)] (b, ()) u := by
    refine ⟨_, rfl, trivial, ?_⟩
    rw [hcu, List.length_append, LogQuery.Tree.eventsAt_length]
    rfl
  obtain ⟨c, v, hc, hrv, hmetric⟩ := enclose_gives (l := .metricExpr)
    (g := { g with trees := [.node .metricExpr [.node .binOpExpr (.node .expr ks :: f.trees)]] })
    hru hbin (fun _ _ => rfl) rfl rfl rfl
  obtain ⟨e, w, hw, hrw, _, hes, -, hcw⟩ := enclose_gives (l := .expr) (g := g) hrv hmetric
    (by rintro _ ⟨⟩; rfl) hg rfl rfl
  obtain rfl := (LogQuery.Tree.node.inj (List.cons.inj (hes.symm.trans hg)).1).2
  exact ⟨(e, .metricExpr), w, (run_bind hb).trans ((run_bind hc).trans (run_bind hw)), hrw, _, hes,
    fun _ _ => rfl, hcw⟩

/-- Operands joined by signs, where whole expressions are recorded as the grammar finds them. -/
theorem binary_makes {least : Nat} (hl : Enough limit d)
    (h : ∀ least, Makes d .expr HasSort (expr limit least) (Grammar.expr (maxLevels - d) least)) :
    Makes d .expr HasSort
      (chain (attempt .expr (operand limit (expr limit 0))) binaryJoin
        (fun right => orMissing (expr limit right)) closeBinary least)
      (Grammar.chain (Grammar.operand (maxLevels - d) (Grammar.expr (maxLevels - d) 0))
        Grammar.binaryJoin Grammar.binary
        (fun right => Grammar.orMissing .expr (Grammar.expr (maxLevels - d) right)) least) :=
  chain_makes (operand_tries hl (h 0)) binaryJoin_alike
    (fun n => orMissing_records (h n) (by decide)) closeBinary_closes
    fun _ _ hj => Grammar.binaryJoin_shorter _ hj

theorem expr_makes {least : Nat} (h : Enough limit d) :
    Makes d .expr HasSort (expr limit least) (Grammar.expr (maxLevels - d) least) := by
  induction limit generalizing d least with
  | zero => exact absurd h.pos (Nat.not_lt_zero _)
  | succ limit ih =>
    refine nested_makes (f := (Grammar.expr · least)) rfl (fun _ => rfl) fun hd => ?_
    have hi := enough_inside h hd
    exact binary_makes hi fun _ => ih hi

/-- The contents of a query: what an expression leaves is recorded too. -/
theorem contents_gives (hd : r.depth = d) :
    Gives
      (do
        let x ← expr (maxLevels + 1) 0
        when (fun ts => x.isNone && ts.isEmpty) missing
        skipUntil []) r
      (Grammar.contents (maxLevels - d) r.rest) fun _ _ => True := by
  have he : Enough (maxLevels + 1) d := ⟨Nat.succ_pos _, by omega⟩
  have hm : Makes d .expr HasSort (expr (maxLevels + 1) 0) (Grammar.expr (maxLevels - d) 0) :=
    expr_makes he
  obtain ⟨x, s, hs, hr, hx⟩ := hm r hd
  set f := Grammar.expr (maxLevels - d) 0 r.rest
  obtain ⟨t, ht, hrt⟩ : ∃ t, when (fun ts => x.isNone && ts.isEmpty) missing s = some ((), t) ∧
      Recorded r (if f.rest.isEmpty then f.orMissing .expr else f) t := by
    by_cases hf : f.rest.isEmpty
    · obtain ⟨t, ht, hrt⟩ := missingUnless_gives (by decide) hr hx
      have hw : when (fun ts => x.isNone && ts.isEmpty) missing s =
          (if x.isNone then missing else pure ()) s := by
        simp only [when, ahead, hr.rest, hf, Bool.and_true]
      rw [if_pos hf]
      exact ⟨t, hw.trans ht, hrt⟩
    · have hw : when (fun ts => x.isNone && ts.isEmpty) missing s = some ((), s) := by
        simp only [when, ahead, hr.rest, hf, Bool.and_false, Bool.false_eq_true, if_false]
        rfl
      rw [if_neg hf]
      exact ⟨s, hw, hr⟩
  obtain ⟨_, u, hu, hru, -⟩ := skipUntil_records [] t (hrt.depth.trans hd)
  rw [hrt.rest] at hru
  exact ⟨(), u, (run_bind hs).trans ((run_bind ht).trans hu), Recorder.recorded_append hrt hru,
    trivial⟩

/-- A query is recorded as one node. -/
theorem root_gives (hd : r.depth = d) :
    Gives root r (Grammar.node .logQl (Grammar.contents (maxLevels - d)) r.rest) fun _ _ => True :=
  gives_map (closed_gives (contents_gives (r := r.start) hd)
    (LogQuery.Tree.ahead_of_kind (by decide) _)) fun _ _ _ _ => trivial

/-- Whatever the tokens are, a recording of them comes to an end: no marker is used wrongly, and no
rule is entered at tokens that it does not take. Each marker is used up, all tokens are recorded,
the levels that were entered are left, and the events are well-formed. -/
theorem root_wellFormed (ts : List Token) :
    ∃ r, root (Recorder.ofTokens ts) = some ((), r) ∧ Event.WellFormed ts r.events ∧
      r.position = ts.length ∧ r.depth = 0 ∧ ∀ m ∈ r.markers, m = none := by
  obtain ⟨_, r, hr, h, -⟩ := root_gives (r := Recorder.ofTokens ts) rfl
  refine ⟨r, hr, ?_, ?_, h.depth, ?_⟩
  · have he := h.events
    rw [Grammar.node, Grammar.nodeBy, LogQuery.Tree.eventsAtAll_one,
      LogQuery.Tree.eventsAt_node (LogQuery.Tree.ahead_of_kind (by decide) _)] at he
    rw [he]
    exact Event.wellFormed_of_reads (Grammar.queryTree_reads _ ts)
  · have ht : r.tokens = ts := h.tokens
    have hp : r.position ≤ r.tokens.length := h.position (Nat.zero_le _)
    have hl : r.tokens.length ≤ r.position := List.drop_eq_nil_iff.mp
      (h.rest.trans (Grammar.skipUntil_nil_rest _))
    rw [← ht]
    omega
  · obtain ⟨n, hn⟩ := h.markers
    rw [hn]
    exact fun m hm => List.eq_of_mem_replicate hm

end LogQuery.Recording

namespace LogQuery.Recorder

/-- What is left of the tokens is recorded as the tree of a query, also behind other events. -/
theorem recorded_finish (r : Recorder) :
    Recorded r (Grammar.node .logQl (Grammar.contents (Grammar.maxLevels - r.depth)) r.rest)
      r.finish := by
  obtain ⟨_, s, hs, h, -⟩ := Recording.root_gives (r := r) rfl
  rw [finish, hs]
  exact h

end LogQuery.Recorder
