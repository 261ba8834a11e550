import FilterQuery.Grammar.Rule

/-!
The grammar of queries. From the tightest binding to the loosest: primaries, ranges, tests for
null and the truth values, membership, comparisons, negation, and the chain of `and` and `or`,
which have no precedence over each other. Each layer is a rule over the next tighter one.

A primary can hold expressions inside brackets. It takes the expression one level deeper, if the
nesting limit leaves one.
-/
namespace FilterQuery.Grammar

open Scanner Rule

def numeralAction : Terminal.Numeral → Action
  | .integer text => .integer (String.ofList text)
  | .decimal text => .decimal (String.ofList text)

def exactly (word : String) (a : Action) : Rule := capture (Terminal.exactWord word) fun _ => a

def literal : Rule :=
  named "Literal" (choice
    [exactly "null" .null, exactly "NULL" .null,
      exactly "true" (.boolean "true"), exactly "TRUE" (.boolean "TRUE"),
      exactly "false" (.boolean "false"), exactly "FALSE" (.boolean "FALSE"),
      capture Terminal.quoted .string, capture Terminal.number numeralAction])

def bracketed (opening closing : String) : Rule :=
  attempt (seq
    [text opening, act .mark, gap, commaList literal, gap, text closing, act .array])

def array : Rule := named "Array" (choice [bracketed "[" "]", bracketed "(" ")"])

def value : Rule := named "Value" (choice [literal, array])

def identifier : Rule := named "Identifier" (capture Terminal.identifier .name)

/-- Dots come before arrows. -/
def reference : Rule :=
  named "Reference" (seq
    [act .mark, identifier,
      tally (seq [text ".", identifier]) (seq [text "->", identifier]) fun dots arrows =>
        .reference (List.replicate dots .dot ++ List.replicate arrows .arrow)])

def compareOperator : Rule := named "Compare" (seq [gap, operator .compare, gap])

def logicOperator : Rule := named "Logic" (seq [gap, operator .logic, gap])

def testOperator : Rule := named "Match" (seq [expect Terminal.someGap, operator .test, gap])

def argumentList (deeper : Option Rule) : Rule :=
  named "ArgumentList" (seq
    [text "(", gap, act .mark, nested deeper fun e => commaList (named "Argument" e), gap,
      text ")", act .arguments])

def primary (deeper : Option Rule) : Rule :=
  named "PrimaryExpression" (choice
    [attempt (seq [text "(", gap, nested deeper id, gap, text ")", act .parentheses]),
      value,
      attempt (seq [identifier, argumentList deeper, act .function]),
      reference])

/-- Two values with `and` between them, or a pair in square brackets. -/
def rangeBounds : Rule :=
  choice
    [attempt (seq [value, gap, expect (Terminal.keyword "and"), gap, value]),
      attempt (seq [text "[", gap, value, gap, text ",", gap, value, gap, text "]"])]

def between (operand : Rule) : Rule :=
  named "BetweenExpression" (seq
    [operand, optional (seq [gap, operator .between, gap, rangeBounds, act .between])])

def predicate (operand : Rule) : Rule :=
  named "PredicateExpression" (seq [operand, optional (seq [testOperator, act .predicate])])

def membership (operand : Rule) : Rule :=
  named "CompareInExpression" (seq
    [operand, optional (seq [gap, operator .oneOf, gap, array, act .compare])])

def comparison (operand : Rule) : Rule :=
  named "CompareExpression" (chain operand compareOperator .compare)

def negation (operand : Rule) : Rule :=
  named "NotExpression" (choice
    [operand, attempt (seq [gap, expect (Terminal.keyword "not"), gap, operand, act .not])])

def logic (operand : Rule) : Rule :=
  named "LogicExpression" (chain operand logicOperator .logic)

def expressionOver (deeper : Option Rule) : Rule :=
  named "Expression"
    (logic (negation (comparison (membership (predicate (between (primary deeper)))))))

/-- An expression with room for so many levels of brackets inside it. -/
def expression : Nat → Rule
  | 0 => expressionOver none
  | room + 1 => expressionOver (some (expression room))

/-- A whole query, with the nesting limit. -/
def query (limit : Nat) : Rule :=
  named "Grammar" (seq [gap, expression limit, gap, expect Terminal.endOfText])

end FilterQuery.Grammar
