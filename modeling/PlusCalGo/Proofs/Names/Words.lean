import Mathlib.Tactic.SplitIfs
import PlusCalGo.Go.Expression
import PlusCalGo.Proofs.Names.Code
import PlusCalGo.Proofs.Resolution.Occurrences

/-!
# Names in expressions and calls

The words of expressions and of the calls of sections. Their spelling is the text without names.
-/

namespace PlusCalGo

open Go

/-! ## Expressions -/

namespace Expression

def subscriptWords (oneBased : Bool) (index : List Word) : List Word :=
  if oneBased then .text "[" :: index ++ [.text "-1]"] else .text "[" :: index ++ [.text "]"]

def applyWords (name : String) (args : List (List Word)) : List Word :=
  let rendered := Word.listed args
  if name = "Len" ∧ args.length = 1 then .text "len(" :: rendered ++ [.text ")"]
  else if name = "Append" ∧ args.length = 2 then .text "append(" :: rendered ++ [.text ")"]
  else if name = "Head" ∧ args.length = 1 then rendered ++ [.text "[0]"]
  else if name = "Tail" ∧ args.length = 1 then rendered ++ [.text "[1:]"]
  else .text (name ++ "(") :: rendered ++ [.text ")"]

mutual

/-- The words of an expression in Go. -/
def words (definitions : Definitions) : Expression → Except Diagnostic (List Word)
  | number _ value => .ok [.text (toString value.toInt)]
  | bool _ value => .ok [.text (if value then "true" else "false")]
  | string _ value => .ok [.text (Text.quoted value)]
  | identifier uid name => .ok [.identifier uid name]
  | index _ function params => do
    let oneBased := (← function.rootResource definitions) = .slice
    let function ← function.words definitions
    let params ← listWords definitions params
    pure (function ++ params.flatMap (subscriptWords oneBased))
  | binary _ op lhs rhs => do
    let lhs ← lhs.words definitions
    let rhs ← rhs.words definitions
    pure (.text "(" :: lhs ++ .text (" " ++ op.goText ++ " ") :: rhs ++ [.text ")"])
  | unary _ op operand => do pure (.text op.goText :: (← operand.words definitions))
  | tuple _ elements => do
    pure (.text "[]int\x7b" :: Word.listed (← listWords definitions elements) ++ [.text "\x7d"])
  | ifElse _ condition yes no => do
    let condition ← condition.words definitions
    let yes ← yes.words definitions
    let no ← no.words definitions
    pure (.text "func() int \x7b if " :: condition ++ .text " \x7b return " :: yes ++
      .text " \x7d; return " :: no ++ [.text " \x7d()"])
  | apply _ name args => do pure (applyWords name (← listWords definitions args))

def listWords (definitions : Definitions) :
    List Expression → Except Diagnostic (List (List Word))
  | [] => .ok []
  | expression :: rest => do
    let first ← expression.words definitions
    pure (first :: (← listWords definitions rest))

end

private theorem spell_subscripts (oneBased : Bool) (params : List (List Word))
    (function : List Word) :
    Word.spell (function ++ params.flatMap (subscriptWords oneBased)) =
      (params.map Word.spell).foldl (fun go param => go ++ goSubscript oneBased param)
        (Word.spell function) := by
  induction params generalizing function with
  | nil => simp
  | cons param rest ih =>
    rw [List.flatMap_cons, ← List.append_assoc, ih, List.map_cons, List.foldl_cons]
    cases oneBased <;> simp [subscriptWords, goSubscript, String.append_assoc]

private theorem spell_applyWords (name : String) (args : List (List Word)) :
    Word.spell (applyWords name args) = goApply name (args.map Word.spell) := by
  simp only [applyWords, goApply, List.length_map]
  split_ifs <;> simp [Word.spell_listed, String.append_assoc]

mutual

theorem spell_words (definitions : Definitions) (expression : Expression) :
    (expression.words definitions).map Word.spell = expression.toGo definitions := by
  cases expression with
  | number uid value => simp [words, toGo, Except.map]
  | bool uid value => simp [words, toGo, Except.map]
  | string uid value => simp [words, toGo, Except.map]
  | identifier uid name => simp [words, toGo, Except.map]
  | index uid function params =>
    rw [words, toGo, ← spell_words definitions function, ← spell_listWords definitions params]
    cases function.rootResource definitions <;> cases function.words definitions <;>
      cases listWords definitions params <;>
      simp only [Except.map, bind, Except.bind, pure, Except.pure, spell_subscripts]
  | binary uid op lhs rhs =>
    rw [words, toGo, ← spell_words definitions lhs, ← spell_words definitions rhs]
    cases lhs.words definitions <;> cases rhs.words definitions <;>
      simp [Except.map, bind, Except.bind, pure, Except.pure, String.append_assoc]
  | unary uid op operand =>
    rw [words, toGo, ← spell_words definitions operand]
    cases operand.words definitions <;> simp [Except.map, bind, Except.bind, pure, Except.pure]
  | tuple uid elements =>
    rw [words, toGo, ← spell_listWords definitions elements]
    cases listWords definitions elements <;>
      simp [Except.map, bind, Except.bind, pure, Except.pure, Word.spell_listed,
        String.append_assoc]
  | ifElse uid condition yes no =>
    rw [words, toGo, ← spell_words definitions condition, ← spell_words definitions yes,
      ← spell_words definitions no]
    cases condition.words definitions <;> cases yes.words definitions <;>
      cases no.words definitions <;>
      simp [Except.map, bind, Except.bind, pure, Except.pure, String.append_assoc]
  | apply uid name args =>
    rw [words, toGo, ← spell_listWords definitions args]
    cases listWords definitions args <;>
      simp [Except.map, bind, Except.bind, pure, Except.pure, spell_applyWords]

theorem spell_listWords (definitions : Definitions) (expressions : List Expression) :
    (listWords definitions expressions).map (List.map Word.spell) =
      listToGo definitions expressions := by
  cases expressions with
  | nil => rfl
  | cons expression rest =>
    rw [listWords, listToGo, ← spell_words definitions expression,
      ← spell_listWords definitions rest]
    cases expression.words definitions <;> cases listWords definitions rest <;>
      simp [Except.map, bind, Except.bind, pure, Except.pure]

end

end Expression

/-! ## Identifiers of expressions -/

/-- The word is a text or one of some identifiers. -/
def Go.Word.Among (named : List (Uid × String)) : Word → Prop
  | text _ => True
  | identifier uid name => (uid, name) ∈ named
  | own .. => False

theorem Go.Word.Among.mono {named more : List (Uid × String)} (h : named ⊆ more) {word : Word}
    (hword : word.Among named) : word.Among more := by
  cases word with
  | text string => trivial
  | identifier uid name => exact h hword
  | own name declared => exact hword

namespace Expression

private theorem among_listed {named : List (Uid × String)} {texts : List (List Word)}
    (h : ∀ words ∈ texts, ∀ word ∈ words, word.Among named) :
    ∀ word ∈ Word.listed texts, word.Among named := by
  induction texts using Word.listed.induct with
  | case1 => simp [Word.listed]
  | case2 words => simpa [Word.listed] using h
  | case3 words rest hrest ih =>
    obtain ⟨hfirst, hothers⟩ := List.forall_mem_cons.1 h
    rw [Word.listed.eq_3 words rest hrest]
    intro word hmem
    rcases List.mem_append.1 hmem with hmem | hmem
    · exact hfirst word hmem
    · rcases List.mem_cons.1 hmem with rfl | hmem
      · trivial
      · exact ih hothers word hmem

private theorem among_append {named : List (Uid × String)} {first second : List Word}
    (hfirst : ∀ word ∈ first, word.Among named) (hsecond : ∀ word ∈ second, word.Among named) :
    ∀ word ∈ first ++ second, word.Among named := by
  intro word hmem
  rcases List.mem_append.1 hmem with hmem | hmem
  · exact hfirst word hmem
  · exact hsecond word hmem

private theorem among_text {named : List (Uid × String)} (string : String) {words : List Word}
    (h : ∀ word ∈ words, word.Among named) : ∀ word ∈ .text string :: words, word.Among named :=
  List.forall_mem_cons.2 ⟨trivial, h⟩

private theorem among_last {named : List (Uid × String)} (string : String) :
    ∀ word ∈ [Word.text string], word.Among named :=
  List.forall_mem_singleton.2 trivial

private theorem among_subscripts {named : List (Uid × String)} (oneBased : Bool)
    {params : List (List Word)} (h : ∀ words ∈ params, ∀ word ∈ words, word.Among named) :
    ∀ word ∈ params.flatMap (subscriptWords oneBased), word.Among named := by
  intro word hmem
  obtain ⟨words, hwords, hmem⟩ := List.mem_flatMap.1 hmem
  have hall := among_append (h words hwords) (among_last "-1]")
  have hplain := among_append (h words hwords) (among_last "]")
  cases oneBased with
  | true => exact among_text "[" hall word hmem
  | false => exact among_text "[" hplain word hmem

private theorem among_applyWords {named : List (Uid × String)} (name : String)
    {args : List (List Word)} (h : ∀ words ∈ args, ∀ word ∈ words, word.Among named) :
    ∀ word ∈ applyWords name args, word.Among named := by
  have hlisted := among_listed h
  unfold applyWords
  split_ifs
  · exact among_text _ (among_append hlisted (among_last _))
  · exact among_text _ (among_append hlisted (among_last _))
  · exact among_append hlisted (among_last _)
  · exact among_append hlisted (among_last _)
  · exact among_text _ (among_append hlisted (among_last _))

mutual

theorem words_among (definitions : Definitions) (expression : Expression) {words : List Word}
    (h : expression.words definitions = .ok words) :
    ∀ word ∈ words, word.Among expression.named := by
  cases expression with
  | number uid value =>
    cases h
    exact among_last _
  | bool uid value =>
    cases h
    exact among_last _
  | string uid value =>
    cases h
    exact among_last _
  | identifier uid name =>
    cases h
    exact List.forall_mem_singleton.2 (List.mem_singleton.2 rfl)
  | index uid function params =>
    obtain ⟨resource, _, h⟩ := ok_of_bind h
    obtain ⟨root, hfunction, h⟩ := ok_of_bind h
    obtain ⟨subscripts, hparams, h⟩ := ok_of_bind h
    cases h
    have hfunction := words_among definitions function hfunction
    have hparams := listWords_among definitions params hparams
    exact among_append
      (fun word hmem => (hfunction word hmem).mono (List.subset_append_left _ _))
      (among_subscripts _ fun words hwords word hmem =>
        (hparams words hwords word hmem).mono (List.subset_append_right _ _))
  | binary uid op lhs rhs =>
    obtain ⟨first, hlhs, h⟩ := ok_of_bind h
    obtain ⟨second, hrhs, h⟩ := ok_of_bind h
    cases h
    have hlhs := words_among definitions lhs hlhs
    have hrhs := words_among definitions rhs hrhs
    refine among_text _ (among_append ?_ (among_last _))
    exact among_append
      (fun word hmem => (hlhs word hmem).mono (List.subset_append_left _ _))
      (among_text _ fun word hmem => (hrhs word hmem).mono (List.subset_append_right _ _))
  | unary uid op operand =>
    obtain ⟨inner, hoperand, h⟩ := ok_of_bind h
    cases h
    exact among_text _ (words_among definitions operand hoperand)
  | tuple uid elements =>
    obtain ⟨inner, helements, h⟩ := ok_of_bind h
    cases h
    exact among_text _ (among_append
      (among_listed (listWords_among definitions elements helements)) (among_last _))
  | ifElse uid condition yes no =>
    obtain ⟨first, hcondition, h⟩ := ok_of_bind h
    obtain ⟨second, hyes, h⟩ := ok_of_bind h
    obtain ⟨third, hno, h⟩ := ok_of_bind h
    cases h
    have hcondition := words_among definitions condition hcondition
    have hyes := words_among definitions yes hyes
    have hno := words_among definitions no hno
    have hfront := among_append
      (among_text "func() int \x7b if " fun word hmem =>
        (hcondition word hmem).mono (List.subset_append_left _ yes.named))
      (among_text " \x7b return " fun word hmem =>
        (hyes word hmem).mono (List.subset_append_right condition.named _))
    refine among_append (among_append ?_ ?_) (among_last _)
    · exact fun word hmem => (hfront word hmem).mono (List.subset_append_left _ _)
    · exact among_text _ fun word hmem => (hno word hmem).mono (List.subset_append_right _ _)
  | apply uid name args =>
    obtain ⟨inner, hargs, h⟩ := ok_of_bind h
    cases h
    exact among_applyWords name (listWords_among definitions args hargs)

theorem listWords_among (definitions : Definitions) (expressions : List Expression)
    {texts : List (List Word)} (h : listWords definitions expressions = .ok texts) :
    ∀ words ∈ texts, ∀ word ∈ words, word.Among (listNamed expressions) := by
  cases expressions with
  | nil =>
    cases h
    exact List.forall_mem_nil _
  | cons expression rest =>
    obtain ⟨first, hfirst, h⟩ := ok_of_bind h
    obtain ⟨others, hrest, h⟩ := ok_of_bind h
    cases h
    have hfirst := words_among definitions expression hfirst
    have hrest := listWords_among definitions rest hrest
    refine List.forall_mem_cons.2 ⟨?_, ?_⟩
    · exact fun word hmem => (hfirst word hmem).mono (List.subset_append_left _ _)
    · exact fun words hwords word hmem =>
        (hrest words hwords word hmem).mono (List.subset_append_right _ _)

end

end Expression

namespace Go.Word

/-- The identifiers among some words, in their order. -/
def identifiers (words : List Word) : List (Uid × String) :=
  words.filterMap fun word =>
    match word with
    | identifier uid name => some (uid, name)
    | text _ | own .. => none

@[simp] theorem identifiers_append (first second : List Word) :
    identifiers (first ++ second) = identifiers first ++ identifiers second :=
  List.filterMap_append

@[simp] theorem identifiers_text (string : String) (words : List Word) :
    identifiers (.text string :: words) = identifiers words := rfl

@[simp] theorem identifiers_nil : identifiers [] = [] := rfl

end Go.Word

namespace Expression

open Go.Word (identifiers_append)

private theorem identifiers_listed (texts : List (List Word)) :
    Word.identifiers (Word.listed texts) = texts.flatMap Word.identifiers := by
  induction texts using Word.listed.induct with
  | case1 => rfl
  | case2 words => simp [Word.listed]
  | case3 words rest hrest ih =>
    rw [Word.listed.eq_3 words rest hrest]
    simp [ih]

private theorem identifiers_subscripts (oneBased : Bool) (params : List (List Word)) :
    Word.identifiers (params.flatMap (subscriptWords oneBased)) =
      params.flatMap Word.identifiers := by
  induction params with
  | nil => rfl
  | cons param rest ih => cases oneBased <;> simp [subscriptWords, ih]

private theorem identifiers_applyWords (name : String) (args : List (List Word)) :
    Word.identifiers (applyWords name args) = args.flatMap Word.identifiers := by
  unfold applyWords
  split_ifs <;> simp [identifiers_listed]

mutual

/-- The words of an expression name its identifiers, in their order. -/
theorem identifiers_words (definitions : Definitions) (expression : Expression)
    {words : List Word} (h : expression.words definitions = .ok words) :
    Word.identifiers words = expression.named := by
  cases expression with
  | number uid value =>
    cases h
    rfl
  | bool uid value =>
    cases h
    rfl
  | string uid value =>
    cases h
    rfl
  | identifier uid name =>
    cases h
    rfl
  | index uid function params =>
    obtain ⟨resource, _, h⟩ := ok_of_bind h
    obtain ⟨root, hfunction, h⟩ := ok_of_bind h
    obtain ⟨subscripts, hparams, h⟩ := ok_of_bind h
    cases h
    rw [identifiers_append, identifiers_subscripts,
      identifiers_words definitions function hfunction,
      identifiers_listWords definitions params hparams, named]
  | binary uid op lhs rhs =>
    obtain ⟨first, hlhs, h⟩ := ok_of_bind h
    obtain ⟨second, hrhs, h⟩ := ok_of_bind h
    cases h
    simp [identifiers_words definitions lhs hlhs, identifiers_words definitions rhs hrhs, named]
  | unary uid op operand =>
    obtain ⟨inner, hoperand, h⟩ := ok_of_bind h
    cases h
    simp [identifiers_words definitions operand hoperand, named]
  | tuple uid elements =>
    obtain ⟨inner, helements, h⟩ := ok_of_bind h
    cases h
    simp [identifiers_listed, identifiers_listWords definitions elements helements, named]
  | ifElse uid condition yes no =>
    obtain ⟨first, hcondition, h⟩ := ok_of_bind h
    obtain ⟨second, hyes, h⟩ := ok_of_bind h
    obtain ⟨third, hno, h⟩ := ok_of_bind h
    cases h
    simp [identifiers_words definitions condition hcondition,
      identifiers_words definitions yes hyes, identifiers_words definitions no hno, named]
  | apply uid name args =>
    obtain ⟨inner, hargs, h⟩ := ok_of_bind h
    cases h
    rw [identifiers_applyWords, identifiers_listWords definitions args hargs, named]

theorem identifiers_listWords (definitions : Definitions) (expressions : List Expression)
    {texts : List (List Word)} (h : listWords definitions expressions = .ok texts) :
    texts.flatMap Word.identifiers = listNamed expressions := by
  cases expressions with
  | nil =>
    cases h
    rfl
  | cons expression rest =>
    obtain ⟨first, hfirst, h⟩ := ok_of_bind h
    obtain ⟨others, hrest, h⟩ := ok_of_bind h
    cases h
    rw [List.flatMap_cons, identifiers_words definitions expression hfirst,
      identifiers_listWords definitions rest hrest, listNamed]

end

end Expression

end PlusCalGo
