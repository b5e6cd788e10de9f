import WhileCompiler.Expr.Parser

/-!
# The grammar of expressions

Which tokens spell which expression, as derivations: a phrase is made of the phrases in it, laid end
to end.  Nothing here says how a derivation is found.
-/

namespace WhileCompiler.Expr

mutual

/-- Tokens that spell an operation of a tier, or a single operand of it. -/
inductive SpellsOperation : Tier → List Token → Expr → Prop
  | operand {tier : Tier} {tokens : List Token} {value : Expr} :
      SpellsOperand tier tokens value → SpellsOperation tier tokens value
  /-- Sums and products associate to the left. -/
  | chain {tier : Tier} {before after : List Token} {operator : Token} {left right : Expr} :
      tier ≠ .comparison → SpellsOperation tier before left → tier.includes operator.kind →
      SpellsOperand tier after right →
      SpellsOperation tier (before ++ operator :: after) (.binary operator.text left right)
  /-- Comparisons do not associate. -/
  | comparison {before after : List Token} {operator : Token} {left right : Expr} :
      SpellsOperand .comparison before left → Tier.includes .comparison operator.kind →
      SpellsOperand .comparison after right →
      SpellsOperation .comparison (before ++ operator :: after)
        (.binary operator.text left right)

/-- Tokens that spell an operand of an operator of a tier. -/
inductive SpellsOperand : Tier → List Token → Expr → Prop
  | ofSum {tokens : List Token} {value : Expr} :
      SpellsOperation .sum tokens value → SpellsOperand .comparison tokens value
  | ofProduct {tokens : List Token} {value : Expr} :
      SpellsOperation .product tokens value → SpellsOperand .sum tokens value
  | ofAtom {tokens : List Token} {value : Expr} :
      SpellsAtom tokens value → SpellsOperand .product tokens value

inductive SpellsAtom : List Token → Expr → Prop
  | parentheses {opening closing : Token} {inner : List Token} {value : Expr} :
      opening.kind = .leftParenthesis → SpellsOperation .comparison inner value →
      closing.kind = .rightParenthesis → SpellsAtom (opening :: inner ++ [closing]) value
  | unary {operator : Token} {inner : List Token} {operand : Expr} :
      operator.kind = .minus ∨ operator.kind = .not → SpellsAtom inner operand →
      SpellsAtom (operator :: inner) (.unary operator.text operand)
  | integer {token : Token} {value : Int32} :
      token.kind = .integer → Text.readInt32 token.text.toList = .ok value →
      SpellsAtom [token] (.int value)
  | boolean {token : Token} :
      token.kind = .boolean → SpellsAtom [token] (.bool (token.text = "true"))
  | name {token : Token} : token.kind = .identifier → SpellsAtom [token] (.var token.text)
  | call {token opening closing : Token} {inner : List Token} {arguments : List Expr} :
      token.kind = .identifier → opening.kind = .leftParenthesis →
      SpellsArguments inner arguments → closing.kind = .rightParenthesis →
      SpellsAtom (token :: opening :: inner ++ [closing]) (.call token.text arguments)

/-- Tokens that spell the arguments of a call, without the parentheses. -/
inductive SpellsArguments : List Token → List Expr → Prop
  | none : SpellsArguments [] []
  | some {tokens : List Token} {arguments : List Expr} :
      SpellsSomeArguments tokens arguments → SpellsArguments tokens arguments

/-- Tokens that spell at least one argument. -/
inductive SpellsSomeArguments : List Token → List Expr → Prop
  | one {tokens : List Token} {argument : Expr} :
      SpellsOperation .comparison tokens argument → SpellsSomeArguments tokens [argument]
  | more {first rest : List Token} {comma : Token} {argument : Expr} {others : List Expr} :
      SpellsOperation .comparison first argument → comma.kind = .comma →
      SpellsSomeArguments rest others →
      SpellsSomeArguments (first ++ comma :: rest) (argument :: others)

end

/-- Tokens that spell an expression. -/
abbrev Spells (tokens : List Token) (expression : Expr) : Prop :=
  SpellsOperation .comparison tokens expression

end WhileCompiler.Expr
