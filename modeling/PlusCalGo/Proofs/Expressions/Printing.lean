import Mathlib.Data.List.Forall2
import PlusCalGo.Go.Expression
import PlusCalGo.Proofs.Expressions.Terms

/-!
# Printed expressions

The tree that the Go text of an expression stands for, and when the text reads as that tree. Unary
operators are put in front of a text and subscripts behind it without parentheses, which is wrong if
two minus signs meet, or if the subscripted text has a sign in front.
-/

namespace PlusCalGo

open Go

/-! ## Trees -/

namespace Expression

/-- A number with its sign. -/
def numberTerm (value : Int) : Term :=
  if value < 0 then .unary "-" (.int value.natAbs) else .int value.natAbs

/-- An operator with its arguments. -/
def applyTerm (name : String) (args : List Term) : Term :=
  match name, args with
  | "Len", [sequence] => .call (.name "len") [sequence]
  | "Append", [sequence, element] => .call (.name "append") [sequence, element]
  | "Head", [sequence] => .index sequence (.int 0)
  | "Tail", [sequence] => .slice sequence (.int 1)
  | name, args => .call (.name name) args

def subscriptTerm (oneBased : Bool) (function key : Term) : Term :=
  .index function (if oneBased then .binary "-" key (.int 1) else key)

/-- The operator has no form of its own for so many arguments. -/
structure Ordinary (name : String) (count : Nat) : Prop where
  noLen : name = "Len" → count ≠ 1
  noAppend : name = "Append" → count ≠ 2
  noHead : name = "Head" → count ≠ 1
  noTail : name = "Tail" → count ≠ 1

theorem ordinary_of_unmatched {name : String} {args : List Term}
    (hlen : ∀ sequence, name = "Len" → args = [sequence] → False)
    (happend : ∀ sequence element, name = "Append" → args = [sequence, element] → False)
    (hhead : ∀ sequence, name = "Head" → args = [sequence] → False)
    (htail : ∀ sequence, name = "Tail" → args = [sequence] → False) :
    Ordinary name args.length := by
  constructor
  · intro hname hone
    obtain ⟨sequence, hargs⟩ := List.length_eq_one_iff.1 hone
    exact hlen sequence hname hargs
  · intro hname htwo
    obtain ⟨sequence, element, hargs⟩ := List.length_eq_two.1 htwo
    exact happend sequence element hname hargs
  · intro hname hone
    obtain ⟨sequence, hargs⟩ := List.length_eq_one_iff.1 hone
    exact hhead sequence hname hargs
  · intro hname hone
    obtain ⟨sequence, hargs⟩ := List.length_eq_one_iff.1 hone
    exact htail sequence hname hargs

theorem Ordinary.applyTerm {name : String} {args : List Term} (h : Ordinary name args.length) :
    applyTerm name args = .call (.name name) args := by
  unfold Expression.applyTerm
  split
  · exact (h.noLen rfl rfl).elim
  · exact (h.noAppend rfl rfl).elim
  · exact (h.noHead rfl rfl).elim
  · exact (h.noTail rfl rfl).elim
  · rfl

/-- What a subscript behind the text of a function is read as. -/
def readSubscript (oneBased : Bool) (function key : Term) : Term :=
  function.onCore fun core => subscriptTerm oneBased core key

/-- What the text of an operator with its arguments is read as. -/
def readApply (name : String) (args : List Term) : Term :=
  match name, args with
  | "Head", [sequence] => sequence.onCore fun core => .index core (.int 0)
  | "Tail", [sequence] => sequence.onCore fun core => .slice core (.int 1)
  | name, args => applyTerm name args

theorem Ordinary.readApply {name : String} {args : List Term} (h : Ordinary name args.length) :
    readApply name args = .call (.name name) args := by
  unfold Expression.readApply
  split
  · exact (h.noHead rfl rfl).elim
  · exact (h.noTail rfl rfl).elim
  · exact h.applyTerm

mutual

/-- The tree of an expression. -/
def term (definitions : Definitions) : Expression → Term
  | number _ value => numberTerm value.toInt
  | bool _ value => .name (if value then "true" else "false")
  | string _ value => .text value
  | identifier _ name => .name name
  | index _ function params =>
    (listTerms definitions params).foldl
      (subscriptTerm (function.rootResource definitions = .ok .slice)) (function.term definitions)
  | binary _ op lhs rhs => .binary op.goText (lhs.term definitions) (rhs.term definitions)
  | unary _ op operand => .unary op.goText (operand.term definitions)
  | tuple _ elements => .ints (listTerms definitions elements)
  | ifElse _ condition yes no =>
    .choose (condition.term definitions) (yes.term definitions) (no.term definitions)
  | apply _ name args => applyTerm name (listTerms definitions args)

def listTerms (definitions : Definitions) : List Expression → List Term
  | [] => []
  | expression :: rest => expression.term definitions :: listTerms definitions rest

end

/-- The operator can be applied to expressions with these trees. -/
def Applicable (name : String) (args : List Term) : Prop :=
  match name, args with
  | "Len", [_] | "Append", [_, _] => True
  | "Head", [sequence] | "Tail", [sequence] => sequence.isSigned = false
  | name, _ => IsName name

theorem Applicable.isName {name : String} {args : List Term} (h : Applicable name args) :
    IsName name := by
  unfold Applicable at h
  split at h
  · exact ⟨⟨'L', rfl, by decide⟩, by decide, by decide⟩
  · exact ⟨⟨'A', rfl, by decide⟩, by decide, by decide⟩
  · exact ⟨⟨'H', rfl, by decide⟩, by decide, by decide⟩
  · exact ⟨⟨'T', rfl, by decide⟩, by decide, by decide⟩
  · exact h

mutual

/-- The names are names of Go, the strings need no escapes that Go has not, no two minus signs meet,
and nothing with a sign in front is subscripted. -/
def Printable (definitions : Definitions) : Expression → Prop
  | number .. | bool .. => True
  | string _ value => ∀ c ∈ value.toList, isWritable c = true
  | identifier _ name => IsName name
  | index _ function params =>
    function.Printable definitions ∧ ListPrintable definitions params ∧
      (params ≠ [] → (function.term definitions).isSigned = false)
  | binary _ _ lhs rhs => lhs.Printable definitions ∧ rhs.Printable definitions
  | unary _ op operand =>
    operand.Printable definitions ∧
      (op = .negate → (operand.term definitions).isNegative = false)
  | tuple _ elements => ListPrintable definitions elements
  | ifElse _ condition yes no =>
    condition.Printable definitions ∧ yes.Printable definitions ∧ no.Printable definitions
  | apply _ name args =>
    ListPrintable definitions args ∧ Applicable name (listTerms definitions args)

def ListPrintable (definitions : Definitions) : List Expression → Prop
  | [] => True
  | expression :: rest => expression.Printable definitions ∧ ListPrintable definitions rest

end

end Expression

namespace Go

/-! ## Texts that read as a tree -/

/-- Reading the text leads from one place to another, if the character behind it is one of some. -/
def Leads (follow : Char → Bool) (text : String) (before after : Reading) : Prop :=
  ∃ tokens, Cut follow text tokens ∧ before.run tokens = some after

/-- Wherever an operand may stand, the text is read as the expression. -/
structure Prints (text : String) (term : Term) : Prop where
  /-- What the text begins with goes on with no sign, but for a minus. -/
  head : ∃ c ∈ text.toList.head?, c ≠ '=' ∧ (c = '-' ↔ term.isNegative = true)
  leads : ∀ around,
    Leads isEnd text (.operand around) (.behind (term.signs ++ around) term.core)

theorem Prints.exists_tokens {text : String} {term : Term} (h : Prints text term) :
    ∃ tokens, Cut isEnd text tokens ∧ parse tokens = some term := by
  obtain ⟨tokens, hcut, hrun⟩ := h.leads []
  have hreduce : reduce 0 (term.signs ++ []) term.core = ([], term) := reduce_signs 0 [] term
  exact ⟨tokens, hcut, by rw [parse, hrun, Option.bind_some, Reading.finish, hreduce]⟩

theorem Prints.read {text : String} {term : Term} (h : Prints text term) :
    read text = some term := by
  obtain ⟨tokens, hcut, hparse⟩ := h.exists_tokens
  rw [Go.read, hcut.tokens_eq, Option.bind_some, hparse]

section Leads

variable {text first second : String} {before between after : Reading} {follow near : Char → Bool}

theorem Leads.append (hfirst : Leads near first before between)
    (hsecond : Leads follow second between after)
    (hhead : ∃ c ∈ second.toList.head?, near c = true) :
    Leads follow (first ++ second) before after := by
  obtain ⟨front, hfront, hrunFront⟩ := hfirst
  obtain ⟨back, hback, hrunBack⟩ := hsecond
  refine ⟨front ++ back, hfront.append hback hhead, ?_⟩
  rw [Reading.run_append, hrunFront, Option.bind_some, hrunBack]

theorem Leads.mono (h : Leads follow text before after)
    (hmono : ∀ c, near c = true → follow c = true) : Leads near text before after := by
  obtain ⟨tokens, hcut, hrun⟩ := h
  exact ⟨tokens, hcut.mono hmono, hrun⟩

theorem Leads.toEnd (h : Leads anywhere text before after) : Leads isEnd text before after :=
  h.mono fun _ _ => rfl

theorem head?_append {c : Char} (h : c ∈ first.toList.head?) :
    c ∈ (first ++ second).toList.head? := by
  obtain ⟨rest, hfirst⟩ := List.head?_eq_some_iff.1 h
  simp [hfirst]

end Leads

theorem Prints.nonempty {text : String} {term : Term} (h : Prints text term) :
    ∃ c ∈ text.toList.head?, anywhere c = true := by
  obtain ⟨c, hc, _⟩ := h.head
  exact ⟨c, hc, rfl⟩

theorem prints_of_unsigned {text : String} {term : Term} (hunsigned : term.isSigned = false)
    (hhead : ∃ c ∈ text.toList.head?, c ≠ '=' ∧ c ≠ '-')
    (h : ∀ around, Leads isEnd text (.operand around) (.behind around term)) :
    Prints text term := by
  obtain ⟨hsigns, hcore⟩ := Term.signs_of_unsigned hunsigned
  obtain ⟨c, hc, hequal, hminus⟩ := hhead
  have hpositive : term.isNegative = false := Term.isNegative_of_unsigned hunsigned
  refine ⟨⟨c, hc, hequal, by simp [hminus, hpositive]⟩, fun around => ?_⟩
  rw [hsigns, hcore]
  exact h around

/-- Signs in front of a text are left of what stands behind it. -/
theorem Prints.suffix {text suffix : String} {function : Term} {change : Term → Term}
    (h : Prints text function) (hchange : ∀ term, (change term).isSigned = false)
    (hhead : ∃ c ∈ suffix.toList.head?, isEnd c = true)
    (hsuffix : ∀ around term,
      Leads isEnd suffix (.behind around term) (.behind around (change term))) :
    Prints (text ++ suffix) (function.onCore change) := by
  obtain ⟨c, hc, hequal, hminus⟩ := h.head
  refine ⟨⟨c, head?_append hc, hequal, ?_⟩, fun around => ?_⟩
  · rwa [Term.isNegative_onCore hchange]
  · obtain ⟨hsigns, hcore⟩ := Term.signs_onCore hchange function
    rw [hsigns, hcore]
    exact (h.leads around).append (hsuffix _ _) hhead

section Operators

variable {lhs rhs op operand : String} {left right term : Term} {around : List Enclosing}

open Reading

/-- The text of a binary operation before its left operand. -/
theorem leads_open (around : List Enclosing) :
    Leads anywhere "(" (.operand around) (.operand (.parentheses :: around)) :=
  ⟨[.sign "("], cut_of_run_bracket '(' (by decide) rfl rfl, rfl⟩

/-- The text of a binary operation before its right operand. -/
theorem leads_left (hlhs : Prints lhs left) (hop : (precedence op).isSome = true)
    (hcut : Cut anywhere (" " ++ op ++ " ") [.sign op]) (around : List Enclosing) :
    Leads anywhere ("(" ++ lhs ++ " " ++ op ++ " ") (.operand around)
      (.operand (.binary op left :: .parentheses :: around)) := by
  obtain ⟨tightness, hop⟩ := Option.isSome_iff_exists.1 hop
  have hoperator : Leads anywhere (" " ++ op ++ " ")
      (.behind (left.signs ++ .parentheses :: around) left.core)
      (.operand (.binary op left :: .parentheses :: around)) :=
    ⟨_, hcut, run_operator hop _ left⟩
  have hfront := (leads_open around).append (hlhs.leads _) hlhs.nonempty
  have hwhole := hfront.append hoperator ⟨' ', by simp, by decide⟩
  simpa only [String.append_assoc] using hwhole

/-- A binary operation in parentheses. -/
theorem Prints.binary (hlhs : Prints lhs left) (hrhs : Prints rhs right)
    (hop : (precedence op).isSome = true) (hcut : Cut anywhere (" " ++ op ++ " ") [.sign op]) :
    Prints ("(" ++ lhs ++ " " ++ op ++ " " ++ rhs ++ ")") (.binary op left right) := by
  refine prints_of_unsigned rfl ⟨'(', by simp, by decide⟩ fun around => ?_
  have hreduce : reduce 0 (.binary op left :: .parentheses :: around) right =
      (.parentheses :: around, .binary op left right) := by
    simp [reduce]
  have hclose : Leads anywhere ")"
      (.behind (right.signs ++ .binary op left :: .parentheses :: around) right.core)
      (.behind around (.binary op left right)) :=
    ⟨[.sign ")"], cut_of_run_bracket ')' (by decide) rfl rfl,
      run_punctuation rfl (by decide) (by decide) hreduce⟩
  have hboth := (leads_left hlhs hop hcut around).append (hrhs.leads _) hrhs.nonempty
  have hwhole := hboth.append hclose ⟨')', by simp, by decide⟩
  exact hwhole.toEnd

/-- An operator in front of an operand. -/
theorem Prints.unary (h : Prints operand term) (sign : Char) (hsign : sign ∈ ['!', '-'])
    (hminus : sign = '-' → term.isNegative = false) :
    Prints (String.ofList [sign] ++ operand) (.unary (String.ofList [sign]) term) := by
  obtain ⟨c, hc, hequal, hnegative⟩ := h.head
  obtain ⟨hrun, hvalid, hunary, hdistinct⟩ :
      Pending.nothing.run [sign] = some ([], .sign [sign]) ∧
        (String.ofList [sign] ∈ signs ∧ [sign] ≠ ['/']) ∧
        String.ofList [sign] ∈ unaryOperators ∧ sign ≠ '=' := by
    rcases List.mem_pair.1 hsign with rfl | rfl <;> decide
  have hnext : c ∉ Pending.extensions [sign] := by
    rcases List.mem_pair.1 hsign with rfl | rfl
    · have hbang : Pending.extensions ['!'] = ['='] := by decide
      simpa [hbang] using hequal
    · have hdash : Pending.extensions ['-'] = ['=', '-'] := by decide
      have hpositive : c ≠ '-' := by
        intro h
        rw [hnegative.1 h] at hminus
        exact absurd (hminus rfl) (by decide)
      simp [hdash, hequal, hpositive]
  refine ⟨⟨sign, by simp, hdistinct, ?_⟩, fun around => ?_⟩
  · rcases List.mem_pair.1 hsign with rfl | rfl
    · exact ⟨fun h => absurd h (by decide), fun h => absurd h (by simp [Term.isNegative])⟩
    · exact ⟨fun _ => rfl, fun _ => rfl⟩
  · have hfirst : Leads (fun d => d ∉ Pending.extensions [sign]) (String.ofList [sign])
        (.operand around) (.operand (.unary (String.ofList [sign]) :: around)) := by
      refine ⟨[] ++ [.sign (String.ofList [sign])], cut_of_run_sign (by simpa using hrun) hvalid
        fun d hd => by simpa using hd, ?_⟩
      simp only [List.nil_append, run, List.foldlM, step, begin, if_pos hunary, pure]
      rfl
    have hwhole := hfirst.append (h.leads _) ⟨c, hc, by simpa using hnext⟩
    simpa [Term.signs, Term.core] using hwhole

end Operators

section Subscripts

variable {text key : String} {function index : Term}

open Reading

/-- The text of a subscript before the key. -/
theorem leads_key (around : List Enclosing) (function : Term) :
    Leads anywhere "[" (.behind around function) (.operand (.key function :: around)) :=
  ⟨[.sign "["], cut_of_run_bracket '[' (by decide) rfl rfl, rfl⟩

private theorem leads_subscript (oneBased : Bool) (hkey : Prints key index)
    (around : List Enclosing) (function : Term) :
    Leads isEnd (Expression.goSubscript oneBased key) (.behind around function)
      (.behind around (Expression.subscriptTerm oneBased function index)) := by
  have hopen : Leads isEnd ("[" ++ key) (.behind around function)
      (.behind (index.signs ++ .key function :: around) index.core) :=
    (leads_key around function).append (hkey.leads _) hkey.nonempty
  cases oneBased with
  | false =>
    have hclose : Leads anywhere "]"
        (.behind (index.signs ++ .key function :: around) index.core)
        (.behind around (.index function index)) :=
      ⟨[.sign "]"], cut_of_run_bracket ']' (by decide) rfl rfl,
        run_punctuation rfl (by decide) (by decide) rfl⟩
    exact (hopen.append hclose ⟨']', by simp, by decide⟩).toEnd
  | true =>
    have hclose : Leads anywhere "-1]"
        (.behind (index.signs ++ .key function :: around) index.core)
        (.behind around (.index function (.binary "-" index (.int 1)))) := by
      have hminus : (behind (index.signs ++ .key function :: around) index.core).run [.sign "-"] =
          some (operand (.binary "-" index :: .key function :: around)) := run_operator rfl _ _
      refine ⟨[.sign "-"] ++ [.number 1, .sign "]"],
        cut_of_run_bracket ']' (by decide) rfl rfl, ?_⟩
      rw [run_append, hminus]
      rfl
    exact (hopen.append hclose ⟨'-', by simp, by decide⟩).toEnd

theorem head?_goSubscript (oneBased : Bool) (key : String) :
    ∃ c ∈ (Expression.goSubscript oneBased key).toList.head?, isEnd c = true :=
  ⟨'[', by cases oneBased <;> simp [Expression.goSubscript], by decide⟩

/-- A subscript behind an operand. -/
theorem Prints.subscript (h : Prints text function) (oneBased : Bool) (hkey : Prints key index) :
    Prints (text ++ Expression.goSubscript oneBased key)
      (Expression.readSubscript oneBased function index) :=
  h.suffix (fun _ => rfl) (head?_goSubscript oneBased key) (leads_subscript oneBased hkey)

/-- The suffix for the first element. -/
theorem Prints.first (h : Prints text function) :
    Prints (text ++ "[0]") (function.onCore (.index · (.int 0))) :=
  h.suffix (fun _ => rfl) ⟨'[', by simp, by decide⟩ fun _ _ =>
    Leads.toEnd ⟨[.sign "[", .number 0, .sign "]"], cut_of_run_bracket ']' (by decide) rfl rfl, rfl⟩

/-- The suffix for all elements but the first. -/
theorem Prints.others (h : Prints text function) :
    Prints (text ++ "[1:]") (function.onCore (.slice · (.int 1))) :=
  h.suffix (fun _ => rfl) ⟨'[', by simp, by decide⟩ fun _ _ =>
    Leads.toEnd ⟨[.sign "[", .number 1, .sign ":", .sign "]"],
      cut_of_run_bracket ']' (by decide) rfl rfl, rfl⟩

end Subscripts

section Leaves

theorem prints_name {name : String} (h : IsName name) : Prints name (.name name) := by
  obtain ⟨c, hc, hletter⟩ := h.first
  have hsign : c ≠ '=' ∧ c ≠ '-' := by
    constructor <;> (rintro rfl; revert hletter; decide)
  have hfunc : name ≠ "func" := by
    rintro rfl
    exact h.noKeyword (by decide)
  refine prints_of_unsigned rfl ⟨c, hc, hsign⟩ fun around => ⟨_, cut_name h, ?_⟩
  simp [Reading.run, Reading.step, Reading.begin, hfunc, h.noKeyword]

theorem prints_bool (value : Bool) :
    Prints (if value then "true" else "false") (.name (if value then "true" else "false")) := by
  refine prints_name ?_
  cases value with
  | false => exact ⟨⟨'f', rfl, by decide⟩, by decide, by decide⟩
  | true => exact ⟨⟨'t', rfl, by decide⟩, by decide, by decide⟩

theorem prints_text {value : String} (h : ∀ c ∈ value.toList, isWritable c = true) :
    Prints (Text.quoted value) (.text value) :=
  prints_of_unsigned rfl ⟨'\"', by simp [Text.quoted], by decide⟩
    fun _ => ⟨_, cut_quoted h, rfl⟩

theorem prints_nat (n : Nat) : Prints (Nat.repr n) (.int n) := by
  obtain ⟨c, rest, hdigits⟩ := List.exists_cons_of_ne_nil (Json.toDigits_ne_nil n)
  have hdigit : c.isDigit = true := Json.isDigit_of_mem_toDigits (by rw [hdigits]; simp)
  have hsign : c ≠ '=' ∧ c ≠ '-' := by
    constructor <;> (rintro rfl; revert hdigit; decide)
  refine prints_of_unsigned rfl ⟨c, ?_, hsign⟩ fun _ => ⟨_, cut_number n, rfl⟩
  rw [Nat.toList_repr, hdigits]
  rfl

theorem prints_number (value : Int) :
    Prints (toString value) (Expression.numberTerm value) := by
  cases value with
  | ofNat n => exact prints_nat n
  | negSucc n =>
    have hsigned : Prints (String.ofList ['-'] ++ Nat.repr (n + 1))
        (.unary (String.ofList ['-']) (.int (n + 1))) :=
      (prints_nat (n + 1)).unary '-' (by decide) fun _ => rfl
    rw [Expression.numberTerm, if_pos (Int.negSucc_lt_zero n)]
    exact hsigned

end Leaves

section Lists

open Reading

/-- Lists between a frame and a closing sign. -/
structure Listing (frame : List Term → Enclosing) (whole : List Term → Term) (closer : String) :
    Prop where
  cut : Cut anywhere closer [.sign closer]
  ends : ∃ c ∈ closer.toList.head?, isEnd c = true
  none : precedence closer = none ∧ closer ≠ "[" ∧ closer ≠ "("
  empty : ∀ around, (operand (frame [] :: around)).run [.sign closer] =
    some (behind around (whole []))
  comma : ∀ around read term, punctuate "," (frame read :: around) term =
    some (operand (frame (read ++ [term]) :: around))
  close : ∀ around read term, punctuate closer (frame read :: around) term =
    some (behind around (whole (read ++ [term])))
  alone : ∀ around read term, reduce 0 (frame read :: around) term = (frame read :: around, term)

theorem listing_arguments (function : Term) :
    Listing (.arguments function) (.call function) ")" where
  cut := cut_of_run_bracket ')' (by decide) rfl rfl
  ends := ⟨')', rfl, by decide⟩
  none := by decide
  empty _ := rfl
  comma _ _ _ := rfl
  close _ _ _ := rfl
  alone _ _ _ := rfl

theorem listing_elements : Listing .elements .ints "\x7d" where
  cut := cut_of_run_bracket '\x7d' (by decide) rfl rfl
  ends := ⟨'\x7d', rfl, by decide⟩
  none := by decide
  empty _ := rfl
  comma _ _ _ := rfl
  close _ _ _ := rfl
  alone _ _ _ := rfl

variable {frame : List Term → Enclosing} {whole : List Term → Term} {closer : String}

/-- The text between two items. -/
theorem Listing.leads_comma (h : Listing frame whole closer) (around : List Enclosing)
    (read : List Term) (term : Term) :
    Leads anywhere ", " (.behind (term.signs ++ frame read :: around) term.core)
      (.operand (frame (read ++ [term]) :: around)) := by
  refine ⟨[.sign ","], cut_of_run_nothing rfl, ?_⟩
  rw [run_punctuation rfl (by decide) (by decide) (h.alone around read term), h.comma]

theorem head?_intercalate {first : String} {c : Char} (h : c ∈ first.toList.head?)
    (rest : List String) : c ∈ (", ".intercalate (first :: rest)).toList.head? := by
  cases rest with
  | nil => rwa [String.intercalate_singleton]
  | cons second rest =>
    rw [String.intercalate_cons_of_ne_nil (by simp), String.append_assoc]
    exact head?_append h

private theorem leads_items (h : Listing frame whole closer) {text : String} {term : Term}
    {texts : List String} {terms : List Term} (hfirst : Prints text term)
    (hrest : List.Forall₂ Prints texts terms) (read : List Term) (around : List Enclosing) :
    Leads anywhere (", ".intercalate (text :: texts) ++ closer)
      (.operand (frame read :: around)) (.behind around (whole (read ++ term :: terms))) := by
  induction hrest generalizing text term read with
  | nil =>
    have hclose : Leads anywhere closer (.behind (term.signs ++ frame read :: around) term.core)
        (.behind around (whole (read ++ [term]))) := by
      refine ⟨_, h.cut, ?_⟩
      rw [run_punctuation h.none.1 h.none.2.1 h.none.2.2 (h.alone around read term), h.close]
    rw [String.intercalate_singleton]
    exact (hfirst.leads _).append hclose h.ends
  | @cons second next texts terms hsecond hrest ih =>
    have hcomma := h.leads_comma around read term
    have hothers := ih hsecond (read ++ [term])
    rw [List.append_assoc, List.singleton_append] at hothers
    obtain ⟨c, hc, _⟩ := hsecond.head
    have hwhole := ((hfirst.leads _).append hcomma ⟨',', rfl, by decide⟩).append hothers
      ⟨c, head?_append (head?_intercalate hc texts), rfl⟩
    rw [String.intercalate_cons_of_ne_nil (by simp)]
    simpa only [String.append_assoc] using hwhole

/-- Items between commas, up to the closing sign. -/
theorem leads_list (h : Listing frame whole closer) {texts : List String} {terms : List Term}
    (hitems : List.Forall₂ Prints texts terms) (around : List Enclosing) :
    Leads anywhere (", ".intercalate texts ++ closer) (.operand (frame [] :: around))
      (.behind around (whole terms)) := by
  cases hitems with
  | nil => exact ⟨_, by simpa using h.cut, h.empty around⟩
  | cons hfirst hrest => exact leads_items h hfirst hrest [] around

end Lists

section Forms

open Reading

private theorem nonempty_append (first : String) {second : String} {near : Char → Bool}
    (h : ∃ c ∈ second.toList.head?, near c = true) :
    ∃ c ∈ (first ++ second).toList.head?, anywhere c = true := by
  obtain ⟨c, hc, _⟩ := h
  obtain ⟨rest, hsecond⟩ := List.head?_eq_some_iff.1 hc
  cases hfirst : first.toList with
  | nil => exact ⟨c, by simp [hfirst, hsecond], rfl⟩
  | cons d others => exact ⟨d, by simp [hfirst], rfl⟩

variable {name text : String} {texts : List String} {function term : Term} {terms : List Term}

/-- The text of a call before its arguments. -/
theorem leads_call (hname : IsName name) (around : List Enclosing) :
    Leads anywhere (name ++ "(") (.operand around)
      (.operand (.arguments (.name name) [] :: around)) := by
  have hopen : Leads anywhere "(" (.behind around (.name name))
      (.operand (.arguments (.name name) [] :: around)) :=
    ⟨[.sign "("], cut_of_run_bracket '(' (by decide) rfl rfl, rfl⟩
  exact ((prints_name hname).leads around).append hopen ⟨'(', rfl, by decide⟩

/-- A call of a function that has a name. -/
theorem prints_call (hname : IsName name) (hargs : List.Forall₂ Prints texts terms) :
    Prints (name ++ "(" ++ ", ".intercalate texts ++ ")") (.call (.name name) terms) := by
  obtain ⟨c, hc, hequal, hminus⟩ := (prints_name hname).head
  have hpositive : c ≠ '-' := fun h => Bool.false_ne_true (hminus.1 h)
  refine prints_of_unsigned rfl ⟨c, ?_, hequal, hpositive⟩ fun around => ?_
  · rw [String.append_assoc, String.append_assoc]
    exact head?_append hc
  · have hlist := leads_list (listing_arguments (.name name)) hargs around
    have hwhole := (leads_call hname around).append hlist
      (nonempty_append _ (listing_arguments (.name name)).ends)
    simpa only [String.append_assoc] using hwhole.toEnd

/-- The text of a literal before its elements. -/
theorem leads_ints (around : List Enclosing) :
    Leads anywhere "[]int\x7b" (.operand around) (.operand (.elements [] :: around)) :=
  ⟨[.sign "[", .sign "]", .word "int", .sign "\x7b"],
    cut_of_run_bracket '\x7b' (by decide) rfl rfl, rfl⟩

theorem prints_ints (helements : List.Forall₂ Prints texts terms) :
    Prints ("[]int\x7b" ++ ", ".intercalate texts ++ "\x7d") (.ints terms) := by
  refine prints_of_unsigned rfl ⟨'[', by simp, by decide⟩ fun around => ?_
  have hwhole := (leads_ints around).append (leads_list listing_elements helements around)
    (nonempty_append _ listing_elements.ends)
  simpa only [String.append_assoc] using hwhole.toEnd

section Choices

variable {condition yes no : String} {ifTerm yesTerm noTerm : Term}

/-- The text of a choice before its condition. -/
theorem leads_choose (around : List Enclosing) :
    Leads anywhere "func() int \x7b if " (.operand around) (.operand (.condition :: around)) :=
  ⟨_, cut_of_run_nothing rfl, rfl⟩

/-- The text of a choice before its first value. -/
theorem leads_yes (hcondition : Prints condition ifTerm) (around : List Enclosing) :
    Leads anywhere ("func() int \x7b if " ++ condition ++ " \x7b return ") (.operand around)
      (.operand (.yes ifTerm :: around)) := by
  have hthen : Leads anywhere " \x7b return "
      (.behind (ifTerm.signs ++ .condition :: around) ifTerm.core)
      (.operand (.yes ifTerm :: around)) := by
    refine ⟨[.sign "\x7b"] ++ [.word "return"], cut_of_run_nothing rfl, ?_⟩
    rw [run_append, run_punctuation rfl (by decide) (by decide) rfl]
    rfl
  exact ((leads_choose around).append (hcondition.leads _) hcondition.nonempty).append hthen
    ⟨' ', by simp, by decide⟩

/-- The text of a choice before its second value. -/
theorem leads_no (hcondition : Prints condition ifTerm) (hyes : Prints yes yesTerm)
    (around : List Enclosing) :
    Leads anywhere ("func() int \x7b if " ++ condition ++ " \x7b return " ++ yes ++
      " \x7d; return ") (.operand around) (.operand (.no ifTerm yesTerm :: around)) := by
  have helse : Leads anywhere " \x7d; return "
      (.behind (yesTerm.signs ++ .yes ifTerm :: around) yesTerm.core)
      (.operand (.no ifTerm yesTerm :: around)) := by
    refine ⟨[.sign "\x7d"] ++ [.sign ";", .word "return"], cut_of_run_nothing rfl, ?_⟩
    rw [run_append, run_punctuation rfl (by decide) (by decide) rfl]
    rfl
  exact ((leads_yes hcondition around).append (hyes.leads _) hyes.nonempty).append helse
    ⟨' ', by simp, by decide⟩

/-- A choice between two values. -/
theorem prints_choose (hcondition : Prints condition ifTerm) (hyes : Prints yes yesTerm)
    (hno : Prints no noTerm) :
    Prints ("func() int \x7b if " ++ condition ++ " \x7b return " ++ yes ++ " \x7d; return " ++
      no ++ " \x7d()") (.choose ifTerm yesTerm noTerm) := by
  refine prints_of_unsigned rfl ⟨'f', by simp, by decide⟩ fun around => ?_
  have hcalled : Leads anywhere " \x7d()"
      (.behind (noTerm.signs ++ .no ifTerm yesTerm :: around) noTerm.core)
      (.behind around (.choose ifTerm yesTerm noTerm)) := by
    refine ⟨[.sign "\x7d"] ++ [.sign "(", .sign ")"],
      cut_of_run_bracket ')' (by decide) rfl rfl, ?_⟩
    rw [run_append, run_punctuation rfl (by decide) (by decide) rfl]
    rfl
  have hfront := leads_no hcondition hyes around
  exact ((hfront.append (hno.leads _) hno.nonempty).append hcalled ⟨' ', by simp, by decide⟩).toEnd

end Choices

/-- An operator without a form of its own is called by its name. -/
private theorem prints_other (hargs : List.Forall₂ Prints texts terms) (hname : IsName name)
    (h : Expression.Ordinary name terms.length) :
    Prints (Expression.goApply name texts) (.call (.name name) terms) := by
  rw [← hargs.length_eq] at h
  have hcall : Expression.goApply name texts = name ++ "(" ++ ", ".intercalate texts ++ ")" := by
    simp only [Expression.goApply]
    rw [if_neg fun hlen => h.noLen hlen.1 hlen.2,
      if_neg fun happend => h.noAppend happend.1 happend.2,
      if_neg fun hhead => h.noHead hhead.1 hhead.2, if_neg fun htail => h.noTail htail.1 htail.2]
  rw [hcall]
  exact prints_call hname hargs

theorem prints_apply (hargs : List.Forall₂ Prints texts terms) (hname : IsName name) :
    Prints (Expression.goApply name texts) (Expression.readApply name terms) := by
  unfold Expression.readApply
  split
  · obtain ⟨sequence, _, hsequence, hrest, rfl⟩ := List.forall₂_cons_right_iff.1 hargs
    cases List.forall₂_nil_right_iff.1 hrest
    exact hsequence.first
  · obtain ⟨sequence, _, hsequence, hrest, rfl⟩ := List.forall₂_cons_right_iff.1 hargs
    cases List.forall₂_nil_right_iff.1 hrest
    exact hsequence.others
  · rename_i hhead htail
    unfold Expression.applyTerm
    split
    · have hlen : IsName "len" := ⟨⟨'l', rfl, by decide⟩, by decide, by decide⟩
      obtain ⟨sequence, _, _, hrest, rfl⟩ := List.forall₂_cons_right_iff.1 hargs
      cases List.forall₂_nil_right_iff.1 hrest
      exact prints_call hlen hargs
    · have happend : IsName "append" := ⟨⟨'a', rfl, by decide⟩, by decide, by decide⟩
      obtain ⟨sequence, _, _, hrest, rfl⟩ := List.forall₂_cons_right_iff.1 hargs
      obtain ⟨element, _, _, hlast, rfl⟩ := List.forall₂_cons_right_iff.1 hrest
      cases List.forall₂_nil_right_iff.1 hlast
      exact prints_call happend hargs
    · exact (hhead _ rfl rfl).elim
    · exact (htail _ rfl rfl).elim
    · rename_i hlen happend _ _
      exact prints_other hargs hname (Expression.ordinary_of_unmatched hlen happend hhead htail)

/-- Subscripts one behind the other. -/
theorem prints_subscripts (oneBased : Bool) {function : Term} (hfunction : Prints text function)
    (hkeys : List.Forall₂ Prints texts terms) :
    Prints (texts.foldl (fun go key => go ++ Expression.goSubscript oneBased key) text)
      (terms.foldl (Expression.readSubscript oneBased) function) := by
  induction hkeys generalizing text function with
  | nil => exact hfunction
  | cons hkey _ ih => exact ih (hfunction.subscript oneBased hkey)

end Forms

end Go

namespace Expression

theorem binary_sign (op : BinaryOperator) :
    (precedence op.goText).isSome = true ∧
      Cut anywhere (" " ++ op.goText ++ " ") [.sign op.goText] := by
  cases op <;> exact ⟨rfl, cut_of_run_nothing rfl⟩

end Expression

end PlusCalGo
