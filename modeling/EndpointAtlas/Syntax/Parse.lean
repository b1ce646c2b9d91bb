import EndpointAtlas.Syntax.Grammar.Statement

/-!
From source text to its syntax tree: the rules of all phrases together, and the comments put into
the tree where they stand.
-/

set_option autoImplicit false

namespace EndpointAtlas

namespace Grammar

/-- The rule of a phrase, in terms of the readings of all phrases. -/
def rule (sub : Rules) : Rules
  | .statement => statementRule sub
  | .block => blockRule sub
  | .expression noIn => expressionRule sub noIn
  | .assignment noIn plainArrow => assignmentRule sub noIn plainArrow
  | .operand joined => operandRule sub joined
  | .newCallee => chain sub false false
  | .target => targetRule sub
  | .binding => bindingRule sub
  | .parameters => parametersRule sub
  | .arguments => argumentsRule sub
  | .classBody => classBodyRule sub
  | .decorator => decoratorRule sub
  | .type => typeRule sub
  | .typeOperand => typeOperand sub
  | .typeParameters => typeParameters sub
  | .typeArguments => typeArguments sub
  | .element => elementRule sub

def rules : Nat → Rules
  | 0 => fun _ => Reading.fail
  | depth + 1 => rule (rules depth)

/-- The reading of a whole text. Every phrase inside another starts after it by a few steps at most,
so a bound in proportion to the text's length is never reached. -/
def program (length : Nat) : Reading (List Tree) :=
  statementsUntil (rules (8 * length + 16)) (pure false)

end Grammar

namespace Tree

def comment (span : Span) : Tree := .node .comment .plain span []

def splitComments (offset : Nat) : List Span → List Span × List Span
  | [] => ([], [])
  | span :: rest =>
    if span.start < offset then
      let (before, after) := splitComments offset rest
      (span :: before, after)
    else ([], span :: rest)

mutual

/-- A tree with the comments inside its span as nodes. -/
def weave (comments : List Span) : Tree → Tree
  | .node kind role span children => .node kind role span (weaveAmong comments children)

def weaveAmong (comments : List Span) : List Tree → List Tree
  | [] => comments.map comment
  | first :: rest =>
    let (before, others) := splitComments first.span.start comments
    let (inside, after) := splitComments first.span.stop others
    before.map comment ++ weave inside first :: weaveAmong after rest

end

end Tree

def parse (dialect : Dialect) (source : List Char) : Tree :=
  let mark := match source with
    | '#' :: '!' :: rest => (rest.takeWhile fun c => !Token.isLineEnd c).length + 2
    | _ => 0
  let (comments, token) := Token.scan (Text.units (source.take mark)) (source.drop mark)
  let start : Cursor := ⟨dialect, source.length, token, 0, source, comments⟩
  let whole := Span.between 0 (Text.units source)
  match Grammar.program source.length start with
  | some (statements, final) =>
    Tree.weave final.comments.reverse (.node .program .plain whole statements)
  | none => .node .program .plain whole [.node .error .plain whole []]

end EndpointAtlas
