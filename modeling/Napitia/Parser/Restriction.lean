import Napitia.Parser.Climbing

/-!
# Where record literals are restricted

What opens a new scope inside the condition of an `if` or a `while`, the scrutinee of a
`match` or the operand of a `handle`, and which of it the restriction on record literals
reaches into.
-/
namespace Napitia.Parser
open Lexer

namespace ParserState

/-- The same state under that restriction. -/
def restrict (restricted : Bool) (s : ParserState) : ParserState :=
  { s with noStructLiteral := restricted }

@[simp] theorem restrict_restrict (b c : Bool) (s : ParserState) :
    (s.restrict b).restrict c = s.restrict c := rfl

@[simp] theorem kind_restrict (b : Bool) (s : ParserState) : (s.restrict b).kind = s.kind := rfl

@[simp] theorem next_restrict (b : Bool) (s : ParserState) :
    (s.restrict b).next = s.next.restrict b := by
  unfold next restrict
  dsimp only
  split <;> rfl

end ParserState

/-- What an expression can be enclosed in. -/
inductive Enclosure where
  | paren | callArguments | block | matchArm | handleArm | ifBranch
  deriving DecidableEq, Repr

/-- What is enclosed, as the parser of its enclosure returns it. -/
def Enclosure.Content : Enclosure → Type
  | .paren => Expr
  | .callArguments => List Expr
  | .block => Block
  | .matchArm => Option MatchArm
  | .handleArm => Option HandleArm
  | .ifBranch => IfExpr

/-- The parser of what is enclosed. -/
def Enclosure.parse (n : ℕ) : (e : Enclosure) → Parser e.Content
  | .paren => parseParenExpr (parser n)
  | .callArguments => parseCallArgs (parser n) n
  | .block => parseBlock (parser n) n
  | .matchArm => parseMatchArm (parser n) n
  | .handleArm => parseHandleArm (parser n) n
  | .ifBranch => parseIfExpr (parser n)

/-- What is read of the enclosure does not depend on a restriction around it. -/
def Enclosure.Unrestricted (e : Enclosure) : Prop :=
  ∀ (s s' : ParserState) (a : e.Content),
    Settles (fun n => e.parse n) (s.restrict true) a (s'.restrict true) ↔
      Settles (fun n => e.parse n) (s.restrict false) a (s'.restrict false)

/-- An enclosure that lifts the restriction while it reads what it encloses. -/
def Enclosure.lifts : Enclosure → Bool
  | .paren | .callArguments => true
  | .block | .matchArm | .handleArm | .ifBranch => false

/-! ### Enclosures in parentheses -/

theorem errorExpected_restrict (what : String) (b : Bool) (s : ParserState) :
    (errorExpected what).run (s.restrict b) =
      ((errorExpected what).run s).map fun x => (x.1, x.2.restrict b) := by
  change some ((), if s.kind = .error ∨ s.reportedExpressionTooDeep = true then s.restrict b
    else (s.report s.span (.expected what s.kind)).restrict b) = some ((), ParserState.restrict b
      (if s.kind = .error ∨ s.reportedExpressionTooDeep = true then s
        else s.report s.span (.expected what s.kind)))
  split <;> rfl

theorem expect_restrict (kind : TokenKind) (what : String) (b : Bool) (s : ParserState) :
    (expect kind what).run (s.restrict b) =
      ((expect kind what).run s).map fun x => (x.1, x.2.restrict b) := by
  by_cases hkind : s.kind = kind
  · simp [expect, hkind]
  · simp only [expect, StateT.run_bind, check_run, ParserState.kind_restrict, hkind, beq_iff_eq,
      Option.bind_eq_bind, Option.bind_some, if_false, errorExpected_restrict]
    cases (errorExpected what).run s with
    | none => rfl
    | some x => rfl

theorem settles_restrict {α : Type} {p : ℕ → Parser α}
    (h : ∀ n b (s : ParserState), (p n).run (s.restrict b) =
      ((p n).run (s.restrict false)).map fun x => (x.1, x.2.restrict b))
    (s s' : ParserState) (a : α) :
    Settles p (s.restrict true) a (s'.restrict true) ↔
      Settles p (s.restrict false) a (s'.restrict false) := by
  refine ⟨fun hs => hs.mono ?_, fun hs => hs.mono ?_⟩
  · intro n hn
    rw [h] at hn
    obtain ⟨x, hx, heq⟩ := Option.map_eq_some_iff.mp hn
    obtain ⟨ha, hleft⟩ := Prod.mk.inj heq
    rw [h n false s, hx]
    refine congrArg some (Prod.ext ha ?_)
    have hfree := congrArg (ParserState.restrict false) hleft
    simpa using hfree
  · intro n hn
    rw [h, hn]
    rfl

theorem lifted_run {α β : Type} (p : Parser α) (f : α → Parser β) (c : Bool) (s : ParserState) :
    (do let previous := (← get).noStructLiteral
        setNoStructLiteral false
        let a ← p
        setNoStructLiteral previous
        f a : Parser β).run (s.restrict c) =
      (p.run (s.restrict false)).bind fun x => (f x.1).run (x.2.restrict c) := by
  change (p.run (s.restrict false)).bind _ = _
  cases p.run (s.restrict false) with
  | none => rfl
  | some x => rfl

/-- What runs with the restriction lifted reads the same under either restriction, where what
follows does. -/
theorem lifted_restrict {α β : Type} (p : Parser α) (f : α → Parser β)
    (hf : ∀ a b (s : ParserState), (f a).run (s.restrict b) =
      ((f a).run (s.restrict false)).map fun x => (x.1, x.2.restrict b))
    (b : Bool) (s : ParserState) :
    (do let previous := (← get).noStructLiteral
        setNoStructLiteral false
        let a ← p
        setNoStructLiteral previous
        f a : Parser β).run (s.restrict b) =
      ((do let previous := (← get).noStructLiteral
           setNoStructLiteral false
           let a ← p
           setNoStructLiteral previous
           f a : Parser β).run (s.restrict false)).map fun x => (x.1, x.2.restrict b) := by
  rw [lifted_run, lifted_run]
  cases p.run (s.restrict false) with
  | none => rfl
  | some x =>
    change (f x.1).run (x.2.restrict b) = ((f x.1).run (x.2.restrict false)).map _
    exact hf x.1 b x.2

theorem parseParenExpr_restrict (r : Rec) (b : Bool) (s : ParserState) :
    (parseParenExpr r).run (s.restrict b) =
      ((parseParenExpr r).run (s.restrict false)).map fun x => (x.1, x.2.restrict b) := by
  unfold parseParenExpr
  rw [StateT.run_bind, StateT.run_bind, advance_run, advance_run, ParserState.next_restrict,
    ParserState.next_restrict]
  refine lifted_restrict (parseExpression r)
    (fun inner => do
      let _ ← expect .rParen "`)`"
      pure (Expr.paren inner)) ?_ b s.next
  intro inner c t
  simp only [StateT.run_bind, expect_restrict _ _ _ t]
  cases (expect .rParen "`)`").run t with
  | none => rfl
  | some x => rfl

theorem parseCallArgs_restrict (r : Rec) (n : ℕ) (b : Bool) (s : ParserState) :
    (parseCallArgs r n).run (s.restrict b) =
      ((parseCallArgs r n).run (s.restrict false)).map fun x => (x.1, x.2.restrict b) := by
  have hargs : parseCallArgs r n = (do
      let previous := (← get).noStructLiteral
      setNoStructLiteral false
      let args ← (do if ← check .rParen then pure [] else parseArgList r n [] : Parser (List Expr))
      setNoStructLiteral previous
      pure args) := by
    refine bind_congr fun state => bind_congr fun _ => ?_
    rw [bind_assoc]
    refine bind_congr fun closed => ?_
    cases closed <;> simp
  rw [hargs]
  exact lifted_restrict _ _ (fun _ _ _ => rfl) b s

/-! ### Enclosures in braces -/

theorem not_blind {α : Type} {p : ℕ → Parser α} {s s₁ s₂ : ParserState} {a b : α}
    (hfree : Settles p (s.restrict false) a (s₁.restrict false))
    (hrestricted : Settles p (s.restrict true) b s₂) (hne : a ≠ b) :
    ¬∀ (s s' : ParserState) (a : α), Settles p (s.restrict true) a (s'.restrict true) ↔
      Settles p (s.restrict false) a (s'.restrict false) := by
  intro hblind
  exact hne (((hblind s s₁ a).mpr hfree).unique hrestricted).1

theorem settles_of_run {α : Type} {p : ℕ → Parser α} {s s' : ParserState} {a : α}
    (h : ∀ m, (p (m + 12)).run s = some (a, s')) : Settles p s a s' := by
  refine Filter.eventually_atTop.mpr ⟨12, ?_⟩
  intro n hn
  obtain ⟨m, rfl⟩ : ∃ m, n = m + 12 := ⟨n - 12, by omega⟩
  exact h m

/-- The words of `Foo {}`, and what they stand before. -/
def emptyLiteral (start : ℕ) (rest : List Token) : List Token :=
  tokenAt start (.ident "Foo") :: tokenAt (start + 4) .lBrace :: tokenAt (start + 5) .rBrace :: rest

/-- The words of `{ Foo {} }`. -/
def literalBlock (start : ℕ) (rest : List Token) : List Token :=
  tokenAt start .lBrace :: emptyLiteral (start + 2) (tokenAt (start + 9) .rBrace :: rest)

/-- The words of `1 => Foo {}`, and the end of the arms. -/
def literalArm (start : ℕ) : List Token :=
  tokenAt start (.int 1 .decimal) :: tokenAt (start + 2) .fatArrow ::
    emptyLiteral (start + 5) [tokenAt (start + 12) .rBrace, tokenAt (start + 13) .eof]

/-- The record literal of these words. -/
def fooLiteral : Expr := .recordLiteral "Foo" [] []

theorem block_restricted : ¬Enclosure.block.Unrestricted := by
  have hfree (m : ℕ) : (Enclosure.block.parse (m + 12)).run
      (ParserState.restrict false { tokens := literalBlock 0 [tokenAt 10 .eof] }) =
        some (Block.mk [] (some fooLiteral),
          ParserState.restrict false { tokens := [tokenAt 10 .eof] }) := rfl
  have hrestricted (m : ℕ) : (Enclosure.block.parse (m + 12)).run
      (ParserState.restrict true { tokens := literalBlock 0 [tokenAt 10 .eof] }) =
        some (Block.mk [] none, ParserState.restrict true {
          tokens := [tokenAt 9 .rBrace, tokenAt 10 .eof],
          diagnostics := [⟨⟨6, 7⟩, .expected "`;`" .lBrace⟩] }) := rfl
  refine not_blind (settles_of_run hfree) (settles_of_run hrestricted) ?_
  intro h
  cases h

theorem matchArm_restricted : ¬Enclosure.matchArm.Unrestricted := by
  have hfree (m : ℕ) : (Enclosure.matchArm.parse (m + 12)).run
      (ParserState.restrict false { tokens := literalArm 0 }) =
        some (some (MatchArm.mk (.int 1) (.expr fooLiteral)),
          ParserState.restrict false { tokens := [tokenAt 12 .rBrace, tokenAt 13 .eof] }) := rfl
  have hrestricted (m : ℕ) : (Enclosure.matchArm.parse (m + 12)).run
      (ParserState.restrict true { tokens := literalArm 0 }) =
        some (some (MatchArm.mk (.int 1) (.expr (.ident "Foo"))), ParserState.restrict true {
          tokens := [tokenAt 9 .lBrace, tokenAt 10 .rBrace, tokenAt 12 .rBrace,
            tokenAt 13 .eof] }) := rfl
  refine not_blind (settles_of_run hfree) (settles_of_run hrestricted) ?_
  intro h
  cases h

theorem handleArm_restricted : ¬Enclosure.handleArm.Unrestricted := by
  have hfree (m : ℕ) : (Enclosure.handleArm.parse (m + 12)).run
      (ParserState.restrict false { tokens := tokenAt 0 .kwSuccess :: literalArm 8 }) =
        some (some (HandleArm.success (.int 1) (.expr fooLiteral)),
          ParserState.restrict false { tokens := [tokenAt 20 .rBrace, tokenAt 21 .eof] }) := rfl
  have hrestricted (m : ℕ) : (Enclosure.handleArm.parse (m + 12)).run
      (ParserState.restrict true { tokens := tokenAt 0 .kwSuccess :: literalArm 8 }) =
        some (some (HandleArm.success (.int 1) (.expr (.ident "Foo"))), ParserState.restrict true {
          tokens := [tokenAt 17 .lBrace, tokenAt 18 .rBrace, tokenAt 20 .rBrace,
            tokenAt 21 .eof] }) := rfl
  refine not_blind (settles_of_run hfree) (settles_of_run hrestricted) ?_
  intro h
  cases h

theorem ifBranch_restricted : ¬Enclosure.ifBranch.Unrestricted := by
  have hfree (m : ℕ) : (Enclosure.ifBranch.parse (m + 12)).run (ParserState.restrict false {
      tokens := tokenAt 0 .kwIf :: tokenAt 3 .kwTrue :: literalBlock 8 [tokenAt 18 .eof] }) =
        some (IfExpr.mk (.bool true) (.mk [] (some fooLiteral)) none,
          ParserState.restrict false { tokens := [tokenAt 18 .eof] }) := rfl
  have hrestricted (m : ℕ) : (Enclosure.ifBranch.parse (m + 12)).run (ParserState.restrict true {
      tokens := tokenAt 0 .kwIf :: tokenAt 3 .kwTrue :: literalBlock 8 [tokenAt 18 .eof] }) =
        some (IfExpr.mk (.bool true) (.mk [] none) none, ParserState.restrict true {
          tokens := [tokenAt 17 .rBrace, tokenAt 18 .eof],
          diagnostics := [⟨⟨14, 15⟩, .expected "`;`" .lBrace⟩] }) := rfl
  refine not_blind (settles_of_run hfree) (settles_of_run hrestricted) ?_
  intro h
  cases h

end Napitia.Parser
