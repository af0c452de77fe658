import Napitia.Parser.Operators

/-!
# Operands

What the parser of operands reads, and how a name is read as one.
-/
namespace Napitia.Parser
open Lexer

/-! ### Single steps -/

theorem ParserState.next_eq {s : ParserState} {token : Token} {rest : List Token}
    (h : s.tokens = token :: rest) (hrest : rest ≠ []) : s.next = { s with tokens := rest } := by
  cases rest with
  | nil => exact absurd rfl hrest
  | cons next rest => simp [ParserState.next, h]

theorem ParserState.kind_eq {s : ParserState} {token : Token} {rest : List Token}
    (h : s.tokens = token :: rest) : s.kind = token.kind := by
  simp [ParserState.kind, h]

@[simp] theorem advance_run (s : ParserState) : advance.run s = some ((), s.next) := rfl

theorem enterExpression_run {s : ParserState} (span : Span) (h : s.exprDepth < maxExpressionDepth) :
    (enterExpression span).run s = some (true, { s with exprDepth := s.exprDepth + 1 }) := by
  simp [enterExpression, Nat.not_le.mpr h]

theorem leaveExpressions_run (s : ParserState) (claimed : ℕ) :
    (leaveExpressions claimed).run s =
      some ((), { s with exprDepth := s.exprDepth - claimed }) := rfl

@[simp] theorem check_run (s : ParserState) (kind : TokenKind) :
    (check kind).run s = some (s.kind == kind, s) := rfl

theorem Settles.unique {α : Type} {p : ℕ → Parser α} {s : ParserState} {a b : α}
    {s₁ s₂ : ParserState} (ha : Settles p s a s₁) (hb : Settles p s b s₂) : a = b ∧ s₁ = s₂ := by
  obtain ⟨n, hna, hnb⟩ := (ha.and hb).exists
  exact Prod.mk.inj (Option.some.inj (hna.symm.trans hnb))

theorem Settles.succ {α : Type} {p q : ℕ → Parser α} {s : ParserState} {a : α}
    {s' : ParserState} (hp : Settles p s a s') (hq : ∀ n, q (n + 1) = p n) : Settles q s a s' := by
  obtain ⟨N, hN⟩ := Filter.eventually_atTop.mp hp
  refine Filter.eventually_atTop.mpr ⟨N + 1, ?_⟩
  intro n hn
  obtain ⟨m, rfl⟩ : ∃ m, n = m + 1 := ⟨n - 1, by omega⟩
  rw [hq]
  exact hN m (by omega)

/-! ### Operands -/

/-- Whether a token of this kind carries an operand on. -/
def continuesOperand : TokenKind → Bool
  | .lParen | .dot | .kwAs | .question => true
  | _ => false

variable {s : ParserState}

theorem postfixLoop_stop {r : Rec} {n : ℕ} {expr : Expr} {claimed : ℕ}
    (h : continuesOperand s.kind = false) :
    (postfixLoop r (n + 1) expr claimed).run s = some ((expr, claimed), s) := by
  obtain ⟨tokens, restricted, depth, reported, diagnostics⟩ := s
  cases tokens with
  | nil => rfl
  | cons token rest =>
    obtain ⟨kind, span⟩ := token
    change continuesOperand kind = false at h
    cases kind <;> first | rfl | cases h

theorem unary_of_primary {e : Expr} {next : Token} {rest : List Token}
    (hop : unaryOp s.kind = none) (hdepth : s.exprDepth < maxExpressionDepth)
    (hnext : continuesOperand next.kind = false)
    (h : Settles (fun n => parsePrimary (parser n) n) { s with exprDepth := s.exprDepth + 1 } e
      { s with tokens := next :: rest, exprDepth := s.exprDepth + 1 }) :
    Settles (fun n => (parser n).unary) s e { s with tokens := next :: rest } := by
  have hpostfix : Settles (fun n => parseUnary (parser n) n) s e
      { s with tokens := next :: rest } := by
    filter_upwards [h, Filter.eventually_ge_atTop 1] with n hn hpos
    obtain ⟨m, rfl⟩ : ∃ m, n = m + 1 := ⟨n - 1, by omega⟩
    have hkind : ParserState.kind { s with exprDepth := s.exprDepth + 1 } = s.kind := rfl
    have hloop : (postfixLoop (parser (m + 1)) (m + 1) e 0).run
        { s with tokens := next :: rest, exprDepth := s.exprDepth + 1 } =
          some ((e, 0), { s with tokens := next :: rest, exprDepth := s.exprDepth + 1 }) :=
      postfixLoop_stop hnext
    simp [parseUnary, enterExpression_run _ hdepth, parseUnaryInner, hkind, hop, parsePostfix, hn,
      hloop, leaveExpression, leaveExpressions_run]
  exact hpostfix.succ fun _ => rfl

theorem parsePrimary_ident {r : Rec} {n : ℕ} {name : String} (h : s.kind = .ident name) :
    (parsePrimary r n).run s = (parseIdentExpr r n name).run s := by
  obtain ⟨tokens, restricted, depth, reported, diagnostics⟩ := s
  cases tokens with
  | nil => cases h
  | cons token rest =>
    obtain ⟨kind, span⟩ := token
    cases h
    rfl

/-- A name, as an operand. -/
def Operand.ident (token : Token) (name : String) : Operand := ⟨[token], .ident name, 1, Nat.one_pos⟩

theorem Operand.ident_readAt {token next : Token} {rest : List Token} {name : String}
    {restricted : Bool} (h : token.kind = .ident name) (hnext : continuesOperand next.kind = false)
    (hbracket : next.kind ≠ .lBracket) (hbrace : restricted = true ∨ next.kind ≠ .lBrace) :
    (Operand.ident token name).ReadAt restricted (next :: rest) := by
  intro s htokens hrestricted hdepth
  subst hrestricted
  have hkind := ParserState.kind_eq htokens
  refine unary_of_primary (by rw [hkind, h]; rfl) (by exact hdepth) hnext ?_
  refine Filter.Eventually.of_forall fun n => ?_
  have hadvance : { s with exprDepth := s.exprDepth + 1 }.next =
      { s with tokens := next :: rest, exprDepth := s.exprDepth + 1 } :=
    ParserState.next_eq htokens (by simp)
  have hprimary : ParserState.kind { s with exprDepth := s.exprDepth + 1 } = .ident name :=
    hkind.trans h
  have hfollow : ParserState.kind
      { s with tokens := next :: rest, exprDepth := s.exprDepth + 1 } = next.kind := rfl
  have hliteral : ¬(s.noStructLiteral = false ∧ next.kind = .lBrace) := by
    rintro ⟨hfree, hopen⟩
    exact hbrace.elim (by simp [hfree]) (absurd hopen)
  rw [parsePrimary_ident hprimary]
  simp [parseIdentExpr, hadvance, hfollow, hbracket, atRecordLiteral, hliteral, Operand.ident]

end Napitia.Parser
