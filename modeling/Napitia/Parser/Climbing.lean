import Napitia.Parser.Operands

/-!
# Precedence climbing

What the parser reads of a sequence of operands with operators between them: the tree that
the specified table allows, and nothing past its last operand.
-/
namespace Napitia.Parser
open Lexer Precedence OperatorTree

variable {r : Rec} {s : ParserState}

theorem binaryLoop_stop {minPower n : ℕ} {left : Expr} {claimed : ℕ}
    (h : ∀ power op, infixBindingPower s.kind = some (power, op) → power < minPower) :
    (binaryLoop r minPower (n + 1) left claimed).run s = some ((left, claimed), s) := by
  unfold binaryLoop
  cases hpower : infixBindingPower s.kind with
  | none => simp [hpower]
  | some binary =>
    obtain ⟨power, op⟩ := binary
    simp [hpower, h power op hpower]

theorem binaryLoop_step {minPower n power claimed : ℕ} {op : BinaryOp} {left right : Expr}
    {s' : ParserState} {token : Token} {rest : List Token} (htokens : s.tokens = token :: rest)
    (hrest : rest ≠ []) (hop : infixBindingPower token.kind = some (power, op))
    (hmin : minPower ≤ power) (hdepth : s.exprDepth < maxExpressionDepth)
    (hright : (r.binary (power + 1)).run { s with tokens := rest, exprDepth := s.exprDepth + 1 } =
      some (right, s')) :
    (binaryLoop r minPower (n + 1) left claimed).run s =
      (binaryLoop r minPower n (.binary op left right) (claimed + 1)).run s' := by
  have hnext : { s with exprDepth := s.exprDepth + 1 }.next =
      { s with tokens := rest, exprDepth := s.exprDepth + 1 } := ParserState.next_eq htokens hrest
  conv_lhs => unfold binaryLoop
  simp [ParserState.kind_eq htokens, hop, Nat.not_lt.mpr hmin, enterExpression_run _ hdepth, hnext,
    hright]

/-! ### Levels that are folded to the left -/

/-- An operand and then the loop over the levels from `minPower` on come, over a tree of
such levels, to the loop past the tree. -/
def Folds (t : OperatorTree) (minPower : ℕ) (s : ParserState) (after : List Token) : Prop :=
  ∀ᶠ n in Filter.atTop, ∀ k,
    ((parser n).unary >>= fun left =>
        binaryLoop (parser n) minPower (k + t.folded) left 0).run s =
      (binaryLoop (parser n) minPower k t.expr t.folded).run
        { s with tokens := after, exprDepth := s.exprDepth + t.folded }

theorem parseBinary_run {minPower n claimed : ℕ} {expr : Expr} {s' : ParserState}
    (h : (r.unary >>= fun left => binaryLoop r minPower n left 0).run s =
      some ((expr, claimed), s')) :
    (parseBinary r n minPower).run s =
      some (expr, { s' with exprDepth := s'.exprDepth - claimed }) := by
  have hbind : parseBinary r n minPower =
      (r.unary >>= fun left => binaryLoop r minPower n left 0) >>= fun folded =>
        leaveExpressions folded.2 >>= fun _ => pure folded.1 := by
    simp [parseBinary]
  rw [hbind, StateT.run_bind, h]
  rfl

/-- What has been folded is the result where the loop then stops, and the levels of nesting
that it claimed are given back. -/
theorem Folds.settles {t : OperatorTree} {minPower : ℕ} {next : Token} {rest : List Token}
    (h : Folds t minPower s (next :: rest))
    (hstop : ∀ power op, infixBindingPower next.kind = some (power, op) → power < minPower) :
    Settles (fun n => (parser n).binary minPower) s t.expr { s with tokens := next :: rest } := by
  obtain ⟨N, hN⟩ := Filter.eventually_atTop.mp h
  refine Filter.eventually_atTop.mpr ⟨N + t.folded + 2, ?_⟩
  intro n hn
  obtain ⟨k, rfl⟩ : ∃ k, n = k + 1 + t.folded + 1 := ⟨n - t.folded - 2, by omega⟩
  have hfold := hN (k + 1 + t.folded) (by omega) (k + 1)
  have hloop : (binaryLoop (parser (k + 1 + t.folded)) minPower (k + 1) t.expr t.folded).run
      { s with tokens := next :: rest, exprDepth := s.exprDepth + t.folded } =
        some ((t.expr, t.folded),
          { s with tokens := next :: rest, exprDepth := s.exprDepth + t.folded }) :=
    binaryLoop_stop hstop
  have hrun := parseBinary_run (hfold.trans hloop)
  rw [Nat.add_sub_cancel] at hrun
  exact hrun

/-- The loop over the levels from `minPower` on folds every tree of such levels that the
table allows, where no tighter operator follows. -/
theorem folds {t : OperatorTree} (ht : t.Allowed specifiedTable) {minPower : ℕ}
    (hmin : 1 ≤ minPower) {next : Token} {rest : List Token}
    (hlevels : ∀ o ∈ t.ops, minPower + 2 ≤ o.level)
    (htokens : s.tokens = t.tokens ++ next :: rest)
    (hread : t.Read s.noStructLiteral (next :: rest))
    (hdepth : s.exprDepth + t.need ≤ maxExpressionDepth)
    (hnext : ∀ power op, infixBindingPower next.kind = some (power, op) →
      ∀ o ∈ t.ops, power + 2 ≤ o.level) :
    Folds t minPower s (next :: rest) := by
  induction t generalizing minPower s next rest with
  | leaf a =>
    refine (hread s htokens rfl hdepth).mono ?_
    intro n hn k
    rw [StateT.run_bind, hn]
    rfl
  | node o l r ihl ihr =>
    obtain ⟨hl, hr, hol, hor⟩ := ht
    have ho : minPower + 2 ≤ o.level := hlevels o (by simp)
    obtain ⟨power, op, hlevel, hop, hpower⟩ := o.binary_of_level (by omega)
    have hright : ∀ p ∈ r.ops, o.level < p.level := by
      intro p hp
      refine (hor p hp).lt ?_
      rw [show specifiedTable.level o = o.level from rfl, Separator.assoc_of_level (by omega)]
      decide
    rw [OperatorTree.read_node] at hread
    rw [need_of_binary (by omega)] at hdepth
    have hrpos := need_pos r
    have hleft : Folds l minPower s (o.token :: (tokens r ++ next :: rest)) := by
      refine ihl hl hmin ?_ ?_ hread.1 (by omega) ?_
      · intro p hp
        exact le_trans ho (hol p hp).le
      · rw [htokens, tokens_node]
        simp
      · intro q op' hq p hp
        rw [hpower] at hq
        cases hq
        rw [← hlevel]
        exact (hol p hp).le
    have hfollow : ∀ q op', infixBindingPower next.kind = some (q, op') → q + 2 ≤ o.level := by
      intro q op' hq
      exact hnext q op' hq o (by simp)
    have hvalue : Folds r (power + 1)
        { s with tokens := tokens r ++ next :: rest, exprDepth := s.exprDepth + folded l + 1 }
        (next :: rest) := by
      refine ihr hr (by omega) ?_ rfl hread.2 ?_ ?_
      · intro p hp
        have := hright p hp
        omega
      · change s.exprDepth + folded l + 1 + need r ≤ maxExpressionDepth
        omega
      · intro q op' hq p hp
        exact le_trans (hfollow q op' hq) (hright p hp).le
    have hsettles := hvalue.settles (by
      intro q op' hq
      have := hfollow q op' hq
      omega)
    filter_upwards [hleft, hsettles] with n hn hr
    intro k
    have hfuel : k + folded (.node o l r) = k + 1 + folded l := by
      simp only [folded]
      omega
    rw [hfuel, hn (k + 1), expr_of_binary hop]
    exact binaryLoop_step rfl (by simp) hpower (by omega)
      (by change s.exprDepth + folded l < _; omega) hr

/-! ### Ranges and assignments -/

/-- A tree whose root binds more tightly than a level that does not group to the left has no
operator of that level. -/
theorem levels_of_root {t : OperatorTree} (ht : t.Allowed specifiedTable) {level : ℕ}
    (h : ∀ o l r, t = .node o l r → level < o.level) : ∀ p ∈ t.ops, level < p.level := by
  intro p hp
  cases t with
  | leaf a => simp at hp
  | node o l r => exact lt_of_lt_of_le (h o l r rfl) (ht.mem_le hp)

theorem binary_settles {t : OperatorTree} (ht : t.Allowed specifiedTable) {next : Token}
    {rest : List Token} (hlevels : ∀ o ∈ t.ops, 2 < o.level)
    (htokens : s.tokens = t.tokens ++ next :: rest)
    (hread : t.Read s.noStructLiteral (next :: rest))
    (hdepth : s.exprDepth + t.need ≤ maxExpressionDepth)
    (hnext : infixBindingPower next.kind = none) :
    Settles (fun n => (parser n).binary 1) s t.expr { s with tokens := next :: rest } := by
  have hnone : ∀ power op, infixBindingPower next.kind ≠ some (power, op) := by
    intro power op hop
    rw [hnext] at hop
    cases hop
  refine (folds ht (le_refl 1) hlevels htokens hread hdepth ?_).settles ?_
  · intro power op hop
    exact absurd hop (hnone power op)
  · intro power op hop
    exact absurd hop (hnone power op)

theorem range_settles {t : OperatorTree} (ht : t.Allowed specifiedTable) {next : Token}
    {rest : List Token} (hlevels : ∀ o ∈ t.ops, 1 < o.level)
    (htokens : s.tokens = t.tokens ++ next :: rest)
    (hread : t.Read s.noStructLiteral (next :: rest))
    (hdepth : s.exprDepth + t.need ≤ maxExpressionDepth)
    (hnext : infixBindingPower next.kind = none)
    (hrange : (∀ o ∈ t.ops, o.level ≠ 2) → rangeOp next.kind = none) :
    Settles (fun n => parseRange (parser n)) s t.expr { s with tokens := next :: rest } := by
  by_cases hroot : ∃ o l r, t = .node o l r ∧ o.level = 2
  · obtain ⟨o, l, r, rfl, ho⟩ := hroot
    obtain ⟨op, hop, hkind, hbinary⟩ := o.range_of_level ho
    obtain ⟨hl, hr, hol, hor⟩ := ht
    have hassoc : specifiedTable.assoc (specifiedTable.level o) = .none := by
      rw [show specifiedTable.level o = 2 from ho]
      rfl
    rw [need_of_range ho] at hdepth
    rw [read_node] at hread
    have hll : ∀ p ∈ l.ops, 2 < p.level := by
      intro p hp
      rw [← ho]
      exact (hol p hp).lt (by rw [hassoc]; decide)
    have hrl : ∀ p ∈ r.ops, 2 < p.level := by
      intro p hp
      rw [← ho]
      exact (hor p hp).lt (by rw [hassoc]; decide)
    have hleft : Settles (fun n => (parser n).binary 1) s (expr l)
        { s with tokens := o.token :: (tokens r ++ next :: rest) } :=
      binary_settles hl hll (by rw [htokens, tokens_node]; simp) hread.1 (by omega) hbinary
    have hright : Settles (fun n => (parser n).binary 1)
        { s with tokens := tokens r ++ next :: rest } (expr r) { s with tokens := next :: rest } :=
      binary_settles hr hrl rfl hread.2
        (by change s.exprDepth + need r ≤ maxExpressionDepth; omega) hnext
    filter_upwards [hleft, hright] with n hn hr'
    have hadvance := ParserState.next_eq
      (s := { s with tokens := o.token :: (tokens r ++ next :: rest) }) rfl (by simp)
    simp [parseRange, hn, ParserState.kind, hkind, hadvance, hr', expr_of_binary hop]
  · have htight : ∀ p ∈ t.ops, 2 < p.level := by
      refine levels_of_root ht ?_
      rintro o l r rfl
      have := hlevels o (by simp)
      have : o.level ≠ 2 := fun ho => hroot ⟨o, l, r, rfl, ho⟩
      omega
    have hkind : rangeOp next.kind = none := hrange fun o ho => (htight o ho).ne'
    filter_upwards [binary_settles ht htight htokens hread hdepth hnext] with n hn
    simp [parseRange, hn, ParserState.kind, hkind]

theorem assignment_stop {e : Expr} {s' : ParserState}
    (hrange : Settles (fun n => parseRange (parser n)) s e s') (hnext : assignOp s'.kind = none) :
    Settles (fun n => (parser n).assignment) s e s' := by
  obtain ⟨N, hN⟩ := Filter.eventually_atTop.mp hrange
  refine Filter.eventually_atTop.mpr ⟨N + 1, ?_⟩
  intro n hn
  obtain ⟨m, rfl⟩ : ∃ m, n = m + 1 := ⟨n - 1, by omega⟩
  change (parseAssignment (parser m)).run s = _
  have hm := hN m (by omega)
  simp only at hm
  simp [parseAssignment, hm, hnext]

theorem assignment_step {e value : Expr} {op : AssignOp} {token : Token} {rest after : List Token}
    (hrange : Settles (fun n => parseRange (parser n)) s e { s with tokens := token :: rest })
    (hrest : rest ≠ []) (hop : assignOp token.kind = some op)
    (hdepth : s.exprDepth < maxExpressionDepth)
    (hvalue : Settles (fun n => (parser n).assignment)
      { s with tokens := rest, exprDepth := s.exprDepth + 1 } value
      { s with tokens := after, exprDepth := s.exprDepth + 1 }) :
    Settles (fun n => (parser n).assignment) s (.assign e op value)
      { s with tokens := after } := by
  obtain ⟨N, hN⟩ := Filter.eventually_atTop.mp (hrange.and hvalue)
  refine Filter.eventually_atTop.mpr ⟨N + 1, ?_⟩
  intro n hn
  obtain ⟨m, rfl⟩ : ∃ m, n = m + 1 := ⟨n - 1, by omega⟩
  change (parseAssignment (parser m)).run s = _
  obtain ⟨hm, hv⟩ := hN m (by omega)
  have henter := enterExpression_run (s := { s with tokens := token :: rest }) token.span hdepth
  have hadvance := ParserState.next_eq
    (s := { s with tokens := token :: rest, exprDepth := s.exprDepth + 1 }) rfl hrest
  simp [parseAssignment, hm, ParserState.kind, hop, ParserState.span, henter, hadvance, hv,
    leaveExpression, leaveExpressions_run]

theorem assignment_settles {t : OperatorTree} (ht : t.Allowed specifiedTable) {next : Token}
    {rest : List Token} (htokens : s.tokens = t.tokens ++ next :: rest)
    (hread : t.Read s.noStructLiteral (next :: rest))
    (hdepth : s.exprDepth + t.need ≤ maxExpressionDepth)
    (hnext : specifiedInfix next.kind = none) :
    Settles (fun n => (parser n).assignment) s t.expr { s with tokens := next :: rest } := by
  obtain ⟨hassign, hrange, hbinary⟩ := specifiedInfix_none hnext
  induction t generalizing s with
  | leaf a =>
    refine assignment_stop ?_ hassign
    exact range_settles ht (by simp) htokens hread hdepth hbinary fun _ => hrange
  | node o l r _ ihr =>
    by_cases ho : o.level = 1
    · obtain ⟨op, hop, hkind, hnorange, hnobinary⟩ := o.assign_of_level ho
      obtain ⟨hl, hr, hol, hor⟩ := ht
      rw [need_of_assign ho] at hdepth
      have hrpos := need_pos r
      rw [read_node] at hread
      have hll : ∀ p ∈ l.ops, 1 < p.level := by
        intro p hp
        rw [← ho]
        refine (hol p hp).lt ?_
        rw [show specifiedTable.level o = 1 from ho]
        decide
      have hleft : Settles (fun n => parseRange (parser n)) s (expr l)
          { s with tokens := o.token :: (tokens r ++ next :: rest) } :=
        range_settles hl hll (by rw [htokens, tokens_node]; simp) hread.1 (by omega) hnobinary
          fun _ => hnorange
      have hvalue := ihr (s := { s with
        tokens := tokens r ++ next :: rest, exprDepth := s.exprDepth + 1 }) hr rfl hread.2
          (by change s.exprDepth + 1 + need r ≤ maxExpressionDepth; omega)
      rw [expr_of_assign hop]
      exact assignment_step hleft (by simp) hkind (by omega) hvalue
    · refine assignment_stop ?_ hassign
      refine range_settles ht ?_ htokens hread hdepth hbinary fun _ => hrange
      refine levels_of_root ht ?_
      intro p l' r' heq
      cases heq
      have := o.level_pos
      omega

/-! ### Sequences -/

/-- Two range operators have an assignment operator between them. -/
def RangesApart (os : List Separator) : Prop :=
  ∀ xs o ys p zs, os = xs ++ o :: (ys ++ p :: zs) → o.level = 2 → p.level = 2 →
    ∃ q ∈ ys, q.level = 1

theorem RangesApart.separated {os : List Separator} (h : RangesApart os) :
    specifiedTable.Separated os := by
  intro xs o ys p zs hos hlevel hassoc
  have ho : o.level = 2 := Separator.level_of_assoc hassoc
  have hp : p.level = 2 := hlevel.symm.trans ho
  obtain ⟨q, hq, hlq⟩ := h xs o ys p zs hos ho hp
  exact ⟨q, hq, by change q.level < o.level; omega⟩

/-- Of a sequence in which ranges are apart the parser of expressions reads all, as the tree
that the specified table allows, and there is one such tree. -/
theorem parseExpression_climbs {a : Operand} {xs : List (Separator × Operand)} {next : Token}
    {rest : List Token} {s : ParserState}
    (htokens : s.tokens = sequenceTokens a xs ++ next :: rest)
    (hread : SequenceRead s.noStructLiteral (next :: rest) a xs)
    (hnext : specifiedInfix next.kind = none) (hranges : RangesApart (xs.map Prod.fst)) :
    ∃ t : OperatorTree, (t.Allowed specifiedTable ∧ t.first = a ∧ t.rest = xs) ∧
      (∀ u : OperatorTree, u.Allowed specifiedTable → u.first = a → u.rest = xs → u = t) ∧
      (s.exprDepth + t.need ≤ maxExpressionDepth →
        Settles (fun n => parseExpression (parser n)) s t.expr
          { s with tokens := next :: rest }) := by
  obtain ⟨t, ht, rfl, rfl⟩ := hranges.separated.exists_tree a
  refine ⟨t, ⟨ht, rfl, rfl⟩, ?_, ?_⟩
  · intro u hu hfirst hrest
    exact hu.unique ht hfirst hrest
  · intro hdepth
    exact assignment_settles ht htokens hread hdepth hnext

theorem rangesApart_of_count {os : List Separator}
    (h : os.countP (fun o => o.level == 2) ≤ 1) : RangesApart os := by
  intro xs o ys p zs hos ho hp
  rw [hos, List.countP_append, List.countP_cons, List.countP_append, List.countP_cons] at h
  simp [ho, hp] at h
  omega

/-- A token that stands somewhere in a file. -/
def tokenAt (start : ℕ) (kind : TokenKind) : Token := ⟨kind, ⟨start, start + 1⟩⟩

def separatorAt (start : ℕ) (kind : TokenKind) {level : ℕ} {op : InfixOp}
    (h : specifiedInfix kind = some (level, op)) : Separator := ⟨tokenAt start kind, level, op, h⟩

def nameAt (start : ℕ) (name : String) : Operand := .ident (tokenAt start (.ident name)) name

theorem nameAt_readAt {start : ℕ} {name : String} {next : Token} {rest : List Token}
    (h : specifiedInfix next.kind ≠ none ∨ next.kind = .eof) :
    (nameAt start name).ReadAt false (next :: rest) := by
  refine Operand.ident_readAt rfl ?_ ?_ (Or.inr ?_)
  all_goals
    obtain h | h := h
    · cases hkind : next.kind <;> simp [hkind, specifiedInfix] at h <;> decide
    · rw [h]
      decide

/-- The words of `x = a + b * c .. d`, after the first one. -/
def assignedRange : List (Separator × Operand) :=
  [(separatorAt 2 .eq rfl, nameAt 4 "a"), (separatorAt 6 .plus rfl, nameAt 8 "b"),
    (separatorAt 10 .star rfl, nameAt 12 "c"), (separatorAt 14 .dotDot rfl, nameAt 17 "d")]

theorem parseExpression_climbs_assignedRange :
    ∃ t : OperatorTree,
      (t.Allowed specifiedTable ∧ t.first = nameAt 0 "x" ∧ t.rest = assignedRange) ∧
      (∀ u : OperatorTree, u.Allowed specifiedTable → u.first = nameAt 0 "x" →
        u.rest = assignedRange → u = t) ∧
      Settles (fun n => parseExpression (parser n))
        { tokens := sequenceTokens (nameAt 0 "x") assignedRange ++ [tokenAt 18 .eof] } t.expr
        { tokens := [tokenAt 18 .eof] } := by
  have hread : SequenceRead false [tokenAt 18 .eof] (nameAt 0 "x") assignedRange := by
    refine ⟨?_, ?_, ?_, ?_, ?_⟩
    · exact nameAt_readAt (Or.inl (by decide))
    · exact nameAt_readAt (Or.inl (by decide))
    · exact nameAt_readAt (Or.inl (by decide))
    · exact nameAt_readAt (Or.inl (by decide))
    · exact nameAt_readAt (Or.inr rfl)
  obtain ⟨t, ht, hunique, hreads⟩ := parseExpression_climbs
    (s := { tokens := sequenceTokens (nameAt 0 "x") assignedRange ++ [tokenAt 18 .eof] })
    rfl hread rfl (rangesApart_of_count (by decide))
  refine ⟨t, ht, hunique, hreads ?_⟩
  have hneed : t.need ≤ 1 + t.rest.length := by
    refine (need_le ?_ ?_).2
    · rw [ht.2.1]
      exact le_refl 1
    · rw [ht.2.2]
      decide
  rw [ht.2.2] at hneed
  exact (Nat.zero_add _).le.trans (hneed.trans (by decide))

/-! ### Ranges that are chained -/

theorem expr_eq_ident {t : OperatorTree} {name : String} (h : t.expr = .ident name) :
    t.rest = [] := by
  cases t with
  | leaf a => rfl
  | node o l r =>
    rw [expr] at h
    cases hop : o.op <;> rw [hop] at h <;> cases h

/-- The words of `a .. b .. c`, after the first one. -/
def chainedRange : List (Separator × Operand) :=
  [(separatorAt 2 .dotDot rfl, nameAt 4 "b"), (separatorAt 6 .dotDot rfl, nameAt 8 "c")]

theorem chainedRange_settles : Settles (fun n => parseExpression (parser n))
    { tokens := sequenceTokens (nameAt 0 "a") chainedRange ++ [tokenAt 9 .eof] }
    (.binary .range (.ident "a") (.ident "b"))
    { tokens := [tokenAt 6 .dotDot, tokenAt 8 (.ident "c"), tokenAt 9 .eof] } := by
  refine assignment_stop ?_ rfl
  refine range_settles (t := .node (separatorAt 2 .dotDot rfl) (.leaf (nameAt 0 "a"))
    (.leaf (nameAt 4 "b"))) ?_ ?_ rfl ?_ (by decide) rfl ?_
  · exact ⟨trivial, trivial, by simp, by simp⟩
  · intro o ho
    simp at ho
    subst ho
    decide
  · exact ⟨nameAt_readAt (Or.inl (by decide)), nameAt_readAt (Or.inl (by decide))⟩
  · intro hno
    exact absurd rfl (hno (separatorAt 2 .dotDot rfl) (by simp))

/-- A chain of ranges within the budget is not read as any tree over its operands. -/
theorem chained_range_unread :
    SequenceRead false [tokenAt 9 .eof] (nameAt 0 "a") chainedRange ∧
      ∀ t : OperatorTree, t.first = nameAt 0 "a" → t.rest = chainedRange →
        t.need ≤ maxExpressionDepth ∧
        ∀ s', ¬Settles (fun n => parseExpression (parser n))
          { tokens := sequenceTokens (nameAt 0 "a") chainedRange ++ [tokenAt 9 .eof] } t.expr s' := by
  refine ⟨⟨nameAt_readAt (Or.inl (by decide)), nameAt_readAt (Or.inl (by decide)),
    nameAt_readAt (Or.inr rfl)⟩, ?_⟩
  intro t hfirst hrest
  refine ⟨?_, ?_⟩
  · have hneed : t.need ≤ 1 + t.rest.length := by
      refine (need_le ?_ ?_).2
      · rw [hfirst]
        exact le_refl 1
      · rw [hrest]
        decide
    rw [hrest] at hneed
    exact hneed.trans (by decide)
  · intro s' hs
    have hexpr := (hs.unique chainedRange_settles).1
    cases t with
    | leaf a => cases hrest
    | node o l r =>
      rw [expr] at hexpr
      cases hop : o.op with
      | assign op =>
        rw [hop] at hexpr
        cases hexpr
      | binary op =>
        rw [hop] at hexpr
        injection hexpr with _ hl hr
        rw [Tree.rest, expr_eq_ident hl, expr_eq_ident hr] at hrest
        have hlen := congrArg List.length hrest
        simp [chainedRange] at hlen

end Napitia.Parser
