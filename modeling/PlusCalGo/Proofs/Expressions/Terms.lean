import PlusCalGo.Proofs.Expressions.Tokens

/-!
# Go expressions as trees

Go expressions read from their tokens, one token after the other. A stack holds what the expression
being read stands in; an operator takes the operand in front of it as far as its precedence reaches.
-/

namespace PlusCalGo.Go

/-- An expression of Go, of the forms that come up. -/
inductive Term where
  | int (value : Nat)
  | text (value : String)
  | name (name : String)
  | unary (op : String) (operand : Term)
  | binary (op : String) (lhs rhs : Term)
  | index (function key : Term)
  /-- All elements from a position on, as in `s[1:]`. -/
  | slice (function low : Term)
  | call (function : Term) (args : List Term)
  /-- The literal `[]int{..}`. -/
  | ints (elements : List Term)
  /-- A function literal that returns one of two values, and is called at once. -/
  | choose (condition yes no : Term)

/-- How tightly a binary operator binds. -/
def precedence : String → Option Nat
  | "*" | "/" | "%" | "<<" | ">>" | "&" | "&^" => some 5
  | "+" | "-" | "|" | "^" => some 4
  | "==" | "!=" | "<" | "<=" | ">" | ">=" => some 3
  | "&&" => some 2
  | "||" => some 1
  | _ => none

def unaryOperators : List String := ["+", "-", "!", "^", "*", "&", "<-"]

/-! ## Reading -/

/-- What an expression stands in, and what comes before it there. -/
inductive Enclosing where
  | unary (op : String)
  | binary (op : String) (lhs : Term)
  | parentheses
  | key (function : Term)
  | arguments (function : Term) (args : List Term)
  | elements (elements : List Term)
  | condition
  | yes (condition : Term)
  | no (condition yes : Term)

/-- Where the reader is. The innermost enclosing construct comes first. -/
inductive Reading where
  /-- In front of an operand. -/
  | operand (around : List Enclosing)
  /-- Behind an operand. -/
  | behind (around : List Enclosing) (term : Term)
  /-- In front of tokens that have to come here. -/
  | expects (token : Token) (rest : List Token) (next : Reading)

/-- Puts an operand and the operators in front of it together, if they bind at least so tightly. -/
def reduce (tightness : Nat) : List Enclosing → Term → List Enclosing × Term
  | .unary op :: around, term => reduce tightness around (.unary op term)
  | .binary op lhs :: around, term =>
    if tightness ≤ (precedence op).getD 0 then reduce tightness around (.binary op lhs term)
    else (.binary op lhs :: around, term)
  | around, term => (around, term)

namespace Reading

/-- A token that goes on behind a whole expression. -/
def punctuate (sign : String) (around : List Enclosing) (term : Term) : Option Reading :=
  match sign, around with
  | ")", .parentheses :: around => some (behind around term)
  | ")", .arguments function args :: around =>
    some (behind around (.call function (args ++ [term])))
  | ",", .arguments function args :: around =>
    some (operand (.arguments function (args ++ [term]) :: around))
  | ",", .elements elements :: around => some (operand (.elements (elements ++ [term]) :: around))
  | "\x7d", .elements elements :: around => some (behind around (.ints (elements ++ [term])))
  | "]", .key function :: around => some (behind around (.index function term))
  | ":", .key function :: around =>
    some (expects (.sign "]") [] (behind around (.slice function term)))
  | "\x7b", .condition :: around =>
    some (expects (.word "return") [] (operand (.yes term :: around)))
  | "\x7d", .yes condition :: around =>
    some (expects (.sign ";") [.word "return"] (operand (.no condition term :: around)))
  | "\x7d", .no condition yes :: around =>
    some (expects (.sign "(") [.sign ")"] (behind around (.choose condition yes term)))
  | _, _ => none

/-- A token that begins an operand, or closes an empty list. -/
def begin (around : List Enclosing) : Token → Option Reading
  | .number value => some (behind around (.int value))
  | .text value => some (behind around (.text value))
  | .word name =>
    if name = "func" then
      some (expects (.sign "(") [.sign ")", .word "int", .sign "\x7b", .word "if"]
        (operand (.condition :: around)))
    else if name ∈ keywords then none
    else some (behind around (.name name))
  | .sign sign =>
    if sign ∈ unaryOperators then some (operand (.unary sign :: around))
    else
      match sign, around with
      | "(", around => some (operand (.parentheses :: around))
      | "[", around =>
        some (expects (.sign "]") [.word "int", .sign "\x7b"] (operand (.elements [] :: around)))
      | ")", .arguments function [] :: around => some (behind around (.call function []))
      | "\x7d", .elements [] :: around => some (behind around (.ints []))
      | _, _ => none

/-- A token behind an operand. -/
def carryOn (around : List Enclosing) (term : Term) : Token → Option Reading
  | .sign "[" => some (operand (.key term :: around))
  | .sign "(" => some (operand (.arguments term [] :: around))
  | .sign sign =>
    match precedence sign with
    | some tightness =>
      let (around, lhs) := reduce tightness around term
      some (operand (.binary sign lhs :: around))
    | none =>
      let (around, term) := reduce 0 around term
      punctuate sign around term
  | _ => none

def step : Reading → Token → Option Reading
  | operand around, token => begin around token
  | behind around term, token => carryOn around term token
  | expects expected rest next, token =>
    if token = expected then
      match rest with
      | [] => some next
      | second :: others => some (expects second others next)
    else none

def run (reading : Reading) (tokens : List Token) : Option Reading := tokens.foldlM step reading

/-- The expression, if it is complete. -/
def finish : Reading → Option Term
  | behind around term =>
    match reduce 0 around term with
    | ([], term) => some term
    | _ => none
  | _ => none

end Reading

/-- The expression that some tokens are. -/
def parse (tokens : List Token) : Option Term :=
  ((Reading.operand []).run tokens).bind Reading.finish

/-- The expression in a line. -/
def read (line : String) : Option Term := (tokens line).bind parse

/-- Products bind more tightly than sums, and sums than comparisons. -/
example : read "a[i-1] == -b * 2+f(x, 3)" =
    some (.binary "==" (.index (.name "a") (.binary "-" (.name "i") (.int 1)))
      (.binary "+" (.binary "*" (.unary "-" (.name "b")) (.int 2))
        (.call (.name "f") [.name "x", .int 3]))) := by
  rfl

/-! ## Signs in front of an expression -/

namespace Term

def isSigned : Term → Bool
  | unary .. => true
  | _ => false

def isNegative : Term → Bool
  | unary "-" _ => true
  | _ => false

/-- The unary operators in front of an expression, the innermost first. -/
def signs : Term → List Enclosing
  | unary op operand => operand.signs ++ [.unary op]
  | _ => []

/-- The expression behind the unary operators in front of it. -/
def core : Term → Term
  | unary _ operand => operand.core
  | term => term

theorem signs_of_unsigned {term : Term} (h : term.isSigned = false) :
    term.signs = [] ∧ term.core = term := by
  cases term with
  | unary op operand => cases h
  | _ => exact ⟨rfl, rfl⟩

theorem isNegative_of_unsigned {term : Term} (h : term.isSigned = false) :
    term.isNegative = false := by
  cases term with
  | unary op operand => cases h
  | _ => rfl

/-- The tree with another expression behind the unary operators in front of it. -/
def onCore (change : Term → Term) : Term → Term
  | unary op operand => unary op (operand.onCore change)
  | term => change term

theorem onCore_of_unsigned {term : Term} (h : term.isSigned = false) (change : Term → Term) :
    term.onCore change = change term := by
  cases term with
  | unary op operand => cases h
  | _ => rfl

section OnCore

variable {change : Term → Term} (hchange : ∀ term, (change term).isSigned = false)
include hchange

theorem signs_onCore : (term : Term) →
    (term.onCore change).signs = term.signs ∧ (term.onCore change).core = change term.core
  | unary op operand => by
    obtain ⟨hsigns, hcore⟩ := signs_onCore operand
    rw [onCore, signs, signs, core, core, hsigns]
    exact ⟨rfl, hcore⟩
  | int _ | text _ | name _ | binary .. | index .. | slice .. | call .. | ints _ | choose .. =>
    signs_of_unsigned (hchange _)

theorem isSigned_onCore (term : Term) : (term.onCore change).isSigned = term.isSigned := by
  cases term with
  | unary op operand => rfl
  | _ => exact hchange _

theorem isNegative_onCore (term : Term) : (term.onCore change).isNegative = term.isNegative := by
  cases term with
  | unary op operand =>
    by_cases hminus : op = "-"
    · rw [onCore, hminus]
      rfl
    · simp [onCore, isNegative, hminus]
  | _ => exact isNegative_of_unsigned (hchange _)

end OnCore

end Term

theorem reduce_signs (tightness : Nat) (around : List Enclosing) : (term : Term) →
    reduce tightness (term.signs ++ around) term.core = reduce tightness around term
  | .unary op operand => by
    rw [Term.signs, Term.core, List.append_assoc, List.singleton_append,
      reduce_signs tightness (.unary op :: around) operand, reduce]
  | .int _ | .text _ | .name _ | .binary .. | .index .. | .slice .. | .call .. | .ints _
  | .choose .. => rfl

namespace Reading

theorem run_append (reading : Reading) (first second : List Token) :
    reading.run (first ++ second) = (reading.run first).bind (·.run second) :=
  List.foldlM_append

theorem run_operator {op : String} {tightness : Nat} (h : precedence op = some tightness)
    (around : List Enclosing) (term : Term) :
    (behind (term.signs ++ around) term.core).run [.sign op] =
      some (operand (.binary op (reduce tightness around term).2 ::
        (reduce tightness around term).1)) := by
  have hindex : op ≠ "[" := by
    rintro rfl
    cases h
  have hcall : op ≠ "(" := by
    rintro rfl
    cases h
  simp [run, step, carryOn, h, reduce_signs]

/-- Behind an expression that stands in something that no operator reaches out of. -/
theorem run_punctuation {sign : String} (hnone : precedence sign = none) (hindex : sign ≠ "[")
    (hcall : sign ≠ "(") {around rest : List Enclosing} {term whole : Term}
    (hreduce : reduce 0 around term = (rest, whole)) :
    (behind (term.signs ++ around) term.core).run [.sign sign] = punctuate sign rest whole := by
  simp [run, step, carryOn, hnone, reduce_signs, hreduce]

end Reading

end PlusCalGo.Go
