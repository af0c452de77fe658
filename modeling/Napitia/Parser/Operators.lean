import Mathlib.Order.Filter.AtTopBot.Basic
import Napitia.Lib.Precedence
import Napitia.Parser.Expression

/-!
# Operators and sequences of operands

The operators of the language with the level that each is specified to have, sequences of
operands with operators between them, and the trees over such sequences.
-/
namespace Napitia.Parser
open Lexer Precedence

/-! ### The table -/

/-- How an operator joins its operands. -/
inductive InfixOp where
  | assign (op : AssignOp)
  | binary (op : BinaryOp)
  deriving DecidableEq, Repr

def InfixOp.join : InfixOp → Expr → Expr → Expr
  | .assign op, target, value => .assign target op value
  | .binary op, left, right => .binary op left right

/-- The levels of the specification's table that stand between two operands. -/
def specifiedInfix : TokenKind → Option (ℕ × InfixOp)
  | .eq => some (1, .assign .assign)
  | .plusEq => some (1, .assign .add)
  | .minusEq => some (1, .assign .sub)
  | .starEq => some (1, .assign .mul)
  | .slashEq => some (1, .assign .div)
  | .percentEq => some (1, .assign .rem)
  | .ampEq => some (1, .assign .bitAnd)
  | .pipeEq => some (1, .assign .bitOr)
  | .caretEq => some (1, .assign .bitXor)
  | .shlEq => some (1, .assign .shl)
  | .shrEq => some (1, .assign .shr)
  | .dotDot => some (2, .binary .range)
  | .dotDotEq => some (2, .binary .rangeInclusive)
  | .orOr => some (3, .binary .or)
  | .andAnd => some (4, .binary .and)
  | .pipe => some (5, .binary .bitOr)
  | .caret => some (6, .binary .bitXor)
  | .amp => some (7, .binary .bitAnd)
  | .eqEq => some (8, .binary .eq)
  | .notEq => some (8, .binary .ne)
  | .lt => some (9, .binary .lt)
  | .ltEq => some (9, .binary .le)
  | .gt => some (9, .binary .gt)
  | .gtEq => some (9, .binary .ge)
  | .shl => some (10, .binary .shl)
  | .shr => some (10, .binary .shr)
  | .plus => some (11, .binary .add)
  | .minus => some (11, .binary .sub)
  | .star => some (12, .binary .mul)
  | .slash => some (12, .binary .div)
  | .percent => some (12, .binary .rem)
  | _ => none

theorem specifiedInfix_eq (kind : TokenKind) : specifiedInfix kind =
    match assignOp kind, rangeOp kind, infixBindingPower kind with
    | some op, _, _ => some (1, .assign op)
    | none, some op, _ => some (2, .binary op)
    | none, none, some (power, op) => some (power + 2, .binary op)
    | none, none, none => none := by
  cases kind <;> rfl

theorem infixBindingPower_pos {kind : TokenKind} {power : ℕ} {op : BinaryOp}
    (h : infixBindingPower kind = some (power, op)) : 0 < power := by
  cases kind <;> simp [infixBindingPower] at h <;> omega

theorem rangeOp_of_infixBindingPower {kind : TokenKind} {power : ℕ} {op : BinaryOp}
    (h : infixBindingPower kind = some (power, op)) : rangeOp kind = none ∧ assignOp kind = none := by
  cases kind <;> simp [infixBindingPower] at h <;> exact ⟨rfl, rfl⟩

theorem assignOp_of_rangeOp {kind : TokenKind} {op : BinaryOp} (h : rangeOp kind = some op) :
    assignOp kind = none := by
  cases kind <;> simp [rangeOp] at h <;> rfl

theorem specifiedInfix_none {kind : TokenKind} (h : specifiedInfix kind = none) :
    assignOp kind = none ∧ rangeOp kind = none ∧ infixBindingPower kind = none := by
  rw [specifiedInfix_eq] at h
  split at h
  · cases h
  · cases h
  · cases h
  · exact ⟨‹_›, ‹_›, ‹_›⟩

/-- An operator that was written between two operands. -/
structure Separator where
  token : Token
  level : ℕ
  op : InfixOp
  specified : specifiedInfix token.kind = some (level, op)

/-- The specification's table: an assignment groups to the right, a range does not group, and
every other level groups to the left. -/
def specifiedTable : Table Separator where
  level := Separator.level
  assoc
    | 1 => .right
    | 2 => .none
    | _ => .left

namespace Separator
variable (o : Separator)

theorem tables :
    (∃ op, o.level = 1 ∧ o.op = .assign op ∧ assignOp o.token.kind = some op ∧
      rangeOp o.token.kind = none ∧ infixBindingPower o.token.kind = none) ∨
    (∃ op, o.level = 2 ∧ o.op = .binary op ∧ rangeOp o.token.kind = some op ∧
      infixBindingPower o.token.kind = none) ∨
    ∃ power op, 0 < power ∧ o.level = power + 2 ∧ o.op = .binary op ∧
      infixBindingPower o.token.kind = some (power, op) := by
  have h := o.specified
  rw [specifiedInfix_eq] at h
  cases hpower : infixBindingPower o.token.kind with
  | some binary =>
    obtain ⟨power, op⟩ := binary
    obtain ⟨hrange, hassign⟩ := rangeOp_of_infixBindingPower hpower
    rw [hpower, hrange, hassign] at h
    obtain ⟨hlevel, hop⟩ := Prod.mk.inj (Option.some.inj h)
    exact Or.inr (Or.inr ⟨power, op, infixBindingPower_pos hpower, hlevel.symm, hop.symm, rfl⟩)
  | none =>
    cases hrange : rangeOp o.token.kind with
    | some op =>
      rw [hpower, hrange, assignOp_of_rangeOp hrange] at h
      obtain ⟨hlevel, hop⟩ := Prod.mk.inj (Option.some.inj h)
      exact Or.inr (Or.inl ⟨op, hlevel.symm, hop.symm, rfl, rfl⟩)
    | none =>
      cases hassign : assignOp o.token.kind with
      | some op =>
        rw [hpower, hrange, hassign] at h
        obtain ⟨hlevel, hop⟩ := Prod.mk.inj (Option.some.inj h)
        exact Or.inl ⟨op, hlevel.symm, hop.symm, rfl, rfl, rfl⟩
      | none =>
        rw [hpower, hrange, hassign] at h
        cases h

theorem level_pos : 1 ≤ o.level := by
  obtain ⟨_, h, -⟩ | ⟨_, h, -⟩ | ⟨_, _, _, h, -⟩ := o.tables <;> omega

theorem assign_of_level (h : o.level = 1) : ∃ op, o.op = .assign op ∧
    assignOp o.token.kind = some op ∧ rangeOp o.token.kind = none ∧
    infixBindingPower o.token.kind = none := by
  obtain ⟨op, -, ho⟩ | ⟨op, hlevel, -⟩ | ⟨power, op, hpos, hlevel, -⟩ := o.tables
  · exact ⟨op, ho⟩
  · omega
  · omega

theorem range_of_level (h : o.level = 2) : ∃ op, o.op = .binary op ∧
    rangeOp o.token.kind = some op ∧ infixBindingPower o.token.kind = none := by
  obtain ⟨op, hlevel, -⟩ | ⟨op, -, ho⟩ | ⟨power, op, hpos, hlevel, -⟩ := o.tables
  · omega
  · exact ⟨op, ho⟩
  · omega

theorem binary_of_level (h : 2 < o.level) : ∃ power op, o.level = power + 2 ∧ o.op = .binary op ∧
    infixBindingPower o.token.kind = some (power, op) := by
  obtain ⟨op, hlevel, -⟩ | ⟨op, hlevel, -⟩ | ⟨power, op, -, ho⟩ := o.tables
  · omega
  · omega
  · exact ⟨power, op, ho⟩

theorem assoc_of_level {level : ℕ} (h : 2 < level) : specifiedTable.assoc level = .left := by
  obtain ⟨above, rfl⟩ : ∃ above, level = above + 3 := ⟨level - 3, by omega⟩
  rfl

theorem level_of_assoc {level : ℕ} (h : specifiedTable.assoc level = .none) : level = 2 := by
  have hlow : level ≤ 2 := by
    by_contra hhigh
    rw [assoc_of_level (by omega)] at h
    cases h
  interval_cases level
  · cases h
  · cases h
  · rfl

end Separator

/-! ### Sequences of operands -/

/-- With enough fuel the parsers come to that result. -/
def Settles {α : Type} (p : ℕ → Parser α) (s : ParserState) (a : α) (s' : ParserState) : Prop :=
  ∀ᶠ n in Filter.atTop, (p n).run s = some (a, s')

/-- An operand: its tokens, what they are read as, and how many levels of nesting that takes. -/
structure Operand where
  tokens : List Token
  expr : Expr
  need : ℕ
  need_pos : 0 < need

/-- The parser of operands reads just these tokens where those others follow. -/
def Operand.ReadAt (a : Operand) (restricted : Bool) (after : List Token) : Prop :=
  ∀ s : ParserState, s.tokens = a.tokens ++ after → s.noStructLiteral = restricted →
    s.exprDepth + a.need ≤ maxExpressionDepth →
    Settles (fun n => (parser n).unary) s a.expr { s with tokens := after }

def sequenceTokens (a : Operand) : List (Separator × Operand) → List Token
  | [] => a.tokens
  | (o, b) :: xs => a.tokens ++ o.token :: sequenceTokens b xs

/-- Every operand of the sequence is read as itself at its place. -/
def SequenceRead (restricted : Bool) (after : List Token) (a : Operand) :
    List (Separator × Operand) → Prop
  | [] => a.ReadAt restricted after
  | (o, b) :: xs => a.ReadAt restricted (o.token :: sequenceTokens b xs ++ after) ∧
      SequenceRead restricted after b xs

theorem sequenceTokens_append (a : Operand) (xs : List (Separator × Operand)) (o : Separator)
    (b : Operand) (ys : List (Separator × Operand)) :
    sequenceTokens a (xs ++ (o, b) :: ys) =
      sequenceTokens a xs ++ o.token :: sequenceTokens b ys := by
  induction xs generalizing a with
  | nil => rfl
  | cons x xs ih =>
    obtain ⟨p, c⟩ := x
    simp [sequenceTokens, ih]

theorem sequenceRead_append {restricted : Bool} {after : List Token} {a : Operand}
    {xs : List (Separator × Operand)} {o : Separator} {b : Operand}
    {ys : List (Separator × Operand)} :
    SequenceRead restricted after a (xs ++ (o, b) :: ys) ↔
      SequenceRead restricted (o.token :: sequenceTokens b ys ++ after) a xs ∧
        SequenceRead restricted after b ys := by
  induction xs generalizing a with
  | nil => rfl
  | cons x xs ih =>
    obtain ⟨p, c⟩ := x
    simp [SequenceRead, sequenceTokens_append, ih, and_assoc]

abbrev OperatorTree := Tree Separator Operand

namespace OperatorTree

/-- The expression that the tree stands for. -/
def expr : OperatorTree → Expr
  | .leaf a => a.expr
  | .node o l r => o.op.join (expr l) (expr r)

/-- How many operators were folded to the left on the way to the root. -/
def folded : OperatorTree → ℕ
  | .leaf _ => 0
  | .node _ l _ => folded l + 1

/-- How many levels of nesting the parser claims for the tree. A level is held for every
operator folded so far while the next right operand is read, and for an assignment while
its value is. -/
def need : OperatorTree → ℕ
  | .leaf a => a.need
  | .node o l r =>
    match o.level with
    | 1 => max (need l) (need r + 1)
    | 2 => max (need l) (need r)
    | _ => max (need l) (folded l + 1 + need r)

def tokens (t : OperatorTree) : List Token := sequenceTokens t.first t.rest

/-- Every operand of the tree is read as itself where those tokens follow the last one. -/
def Read (restricted : Bool) (after : List Token) (t : OperatorTree) : Prop :=
  SequenceRead restricted after t.first t.rest

@[simp] theorem tokens_node (o : Separator) (l r : OperatorTree) :
    tokens (.node o l r) = tokens l ++ o.token :: tokens r :=
  sequenceTokens_append _ _ _ _ _

theorem read_node {restricted : Bool} {after : List Token} {o : Separator} {l r : OperatorTree} :
    Read restricted after (.node o l r) ↔
      Read restricted (o.token :: tokens r ++ after) l ∧ Read restricted after r :=
  sequenceRead_append

theorem need_of_assign {o : Separator} {l r : OperatorTree} (h : o.level = 1) :
    need (.node o l r) = max (need l) (need r + 1) := by
  simp only [need, h]

theorem need_of_range {o : Separator} {l r : OperatorTree} (h : o.level = 2) :
    need (.node o l r) = max (need l) (need r) := by
  simp only [need, h]

theorem need_of_binary {o : Separator} {l r : OperatorTree} (h : 2 < o.level) :
    need (.node o l r) = max (need l) (folded l + 1 + need r) := by
  rw [need]
  split
  · omega
  · omega
  · rfl

theorem expr_of_assign {o : Separator} {l r : OperatorTree} {op : AssignOp}
    (h : o.op = .assign op) : expr (.node o l r) = .assign (expr l) op (expr r) := by
  rw [expr, h]
  rfl

theorem expr_of_binary {o : Separator} {l r : OperatorTree} {op : BinaryOp}
    (h : o.op = .binary op) : expr (.node o l r) = .binary op (expr l) (expr r) := by
  rw [expr, h]
  rfl

theorem need_pos : ∀ t : OperatorTree, 0 < need t
  | .leaf a => a.need_pos
  | .node o l r => by
    have hl := need_pos l
    unfold need
    split <;> omega

theorem need_le {t : OperatorTree} {bound : ℕ} (hfirst : t.first.need ≤ bound)
    (hrest : ∀ x ∈ t.rest, x.2.need ≤ bound) :
    folded t ≤ t.rest.length ∧ need t ≤ bound + t.rest.length := by
  induction t with
  | leaf a => exact ⟨Nat.zero_le _, hfirst⟩
  | node o l r ihl ihr =>
    rw [Tree.rest] at hrest
    obtain ⟨hlf, hln⟩ := ihl hfirst fun x hx => hrest x (by simp [hx])
    obtain ⟨-, hrn⟩ := ihr (hrest (o, r.first) (by simp)) fun x hx => hrest x (by simp [hx])
    rw [Tree.rest, List.length_append, List.length_cons]
    refine ⟨?_, ?_⟩
    · rw [folded]
      omega
    · rw [need]
      split <;> omega

end OperatorTree

end Napitia.Parser
