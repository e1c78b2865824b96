import PlusCalGo.Proofs.Expressions.Printing

/-!
# Readings of printed expressions

What Go reads the text of an expression as. Signs in front of a text are taken last, so subscripts
behind it belong to the expression without them; two minus signs that meet are one token, which
begins no expression. Everything else is read as it was meant.
-/

namespace PlusCalGo

open Go

/-! ## Trees that are read -/

namespace Expression

mutual

/-- The tree that the text of an expression is read as, if it is read. -/
def readTerm (definitions : Definitions) : Expression → Option Term
  | number _ value => some (numberTerm value.toInt)
  | bool _ value => some (.name (if value then "true" else "false"))
  | string _ value => if value.toList.all isWritable = true then some (.text value) else none
  | identifier _ name => some (.name name)
  | index _ function params => do
    let root ← function.readTerm definitions
    let keys ← listReadTerms definitions params
    pure (keys.foldl (readSubscript (function.rootResource definitions = .ok .slice)) root)
  | binary _ op lhs rhs => do
    let left ← lhs.readTerm definitions
    let right ← rhs.readTerm definitions
    pure (.binary op.goText left right)
  | unary _ .not operand => (operand.readTerm definitions).map (.unary "!")
  | unary _ .negate operand => do
    let inner ← operand.readTerm definitions
    if inner.isNegative = true then none else pure (.unary "-" inner)
  | tuple _ elements => (listReadTerms definitions elements).map .ints
  | ifElse _ condition yes no => do
    let first ← condition.readTerm definitions
    let second ← yes.readTerm definitions
    let third ← no.readTerm definitions
    pure (.choose first second third)
  | apply _ name args => (listReadTerms definitions args).map (readApply name)

def listReadTerms (definitions : Definitions) : List Expression → Option (List Term)
  | [] => some []
  | expression :: rest => do
    let first ← expression.readTerm definitions
    let others ← listReadTerms definitions rest
    pure (first :: others)

end

mutual

/-- The names of the identifiers and operators in an expression. -/
def names : Expression → List String
  | number .. | bool .. | string .. => []
  | identifier _ name => [name]
  | index _ function params => function.names ++ listNames params
  | binary _ _ lhs rhs => lhs.names ++ rhs.names
  | unary _ _ operand => operand.names
  | tuple _ elements => listNames elements
  | ifElse _ condition yes no => condition.names ++ yes.names ++ no.names
  | apply _ name args => name :: listNames args

def listNames : List Expression → List String
  | [] => []
  | expression :: rest => expression.names ++ listNames rest

end

mutual

/-- The strings in an expression. -/
def strings : Expression → List String
  | number .. | bool .. | identifier .. => []
  | string _ value => [value]
  | index _ function params => function.strings ++ listStrings params
  | binary _ _ lhs rhs => lhs.strings ++ rhs.strings
  | unary _ _ operand => operand.strings
  | tuple _ elements => listStrings elements
  | ifElse _ condition yes no => condition.strings ++ yes.strings ++ no.strings
  | apply _ _ args => listStrings args

def listStrings : List Expression → List String
  | [] => []
  | expression :: rest => expression.strings ++ listStrings rest

end

end Expression

namespace Go

/-! ## Texts that cannot be read -/

/-- Whatever stands behind the text, it cannot be read from here. -/
def Stops (before : Reading) (text : String) : Prop :=
  ∀ rest, (Pending.nothing.scan (text.toList ++ rest)).bind before.run = none

/-- Wherever an operand may stand, the text cannot be read. -/
structure Stuck (text : String) : Prop where
  head : ∃ c ∈ text.toList.head?, c ≠ '='
  stops : ∀ around, Stops (.operand around) text

section Stops

variable {text first second : String} {before between : Reading} {near : Char → Bool}

theorem Stops.append (h : Stops before first) (second : String) :
    Stops before (first ++ second) := by
  intro rest
  rw [String.toList_append, List.append_assoc]
  exact h (second.toList ++ rest)

theorem Leads.stops (hfirst : Leads near first before between) (hsecond : Stops between second)
    (hhead : ∃ c ∈ second.toList.head?, near c = true) : Stops before (first ++ second) := by
  obtain ⟨tokens, hcut, hrun⟩ := hfirst
  obtain ⟨c, hc, hnear⟩ := hhead
  obtain ⟨tail, hsecondText⟩ := List.head?_eq_some_iff.1 hc
  intro rest
  have hscan := hcut (second.toList ++ rest) (by simpa [hsecondText] using hnear)
  have hstops := hsecond rest
  rw [String.toList_append, List.append_assoc, hscan]
  cases hothers : Pending.nothing.scan (second.toList ++ rest) with
  | none => rfl
  | some others =>
    rw [hothers] at hstops
    rw [Option.map_some, Option.bind_some, Reading.run_append, hrun]
    exact hstops

theorem Stuck.nonempty (h : Stuck text) : ∃ c ∈ text.toList.head?, anywhere c = true := by
  obtain ⟨c, hc, _⟩ := h.head
  exact ⟨c, hc, rfl⟩

theorem Stuck.append (h : Stuck first) (second : String) : Stuck (first ++ second) := by
  obtain ⟨c, hc, hequal⟩ := h.head
  exact ⟨⟨c, head?_append hc, hequal⟩, fun around => (h.stops around).append second⟩

/-- A part of a text stops its reader, if the text in front of it leads there. -/
theorem Stuck.within (h : Stuck second) {inner : List Enclosing → List Enclosing}
    (hhead : ∃ c ∈ first.toList.head?, c ≠ '=')
    (hfirst : ∀ around, Leads anywhere first (.operand around) (.operand (inner around))) :
    Stuck (first ++ second) := by
  obtain ⟨c, hc, hequal⟩ := hhead
  refine ⟨⟨c, head?_append hc, hequal⟩, fun around => ?_⟩
  exact (hfirst around).stops (h.stops _) h.nonempty

theorem not_read_of_stuck (h : Stuck text) : read text = none := by
  have hstops := h.stops [] []
  rw [List.append_nil] at hstops
  rw [read, tokens]
  cases hscan : Pending.nothing.scan text.toList with
  | none => rfl
  | some tokens =>
    rw [hscan] at hstops
    have hrun : (Reading.operand []).run tokens = none := hstops
    rw [Option.bind_some, parse, hrun, Option.bind_none]

end Stops

/-- The text is read as the expression, or cannot be read. -/
def ReadAs (text : String) : Option Term → Prop
  | some term => Prints text term
  | none => Stuck text

theorem ReadAs.read {text : String} {term? : Option Term} (h : ReadAs text term?) :
    read text = term? := by
  cases term? with
  | none => exact not_read_of_stuck h
  | some term => exact Prints.read h

/-- The texts are read as the expressions, or one of them cannot be read. -/
def AllReadAs (texts : List String) : Option (List Term) → Prop
  | some terms => List.Forall₂ Prints texts terms
  | none => ∃ before terms text after, texts = before ++ text :: after ∧
      List.Forall₂ Prints before terms ∧ Stuck text

theorem AllReadAs.cons {text : String} {texts : List String} {term? : Option Term}
    {terms? : Option (List Term)} (hfirst : ReadAs text term?) (hrest : AllReadAs texts terms?) :
    AllReadAs (text :: texts) (do
      let first ← term?
      let others ← terms?
      pure (first :: others)) := by
  cases term? with
  | none => exact ⟨[], [], text, texts, rfl, .nil, hfirst⟩
  | some term =>
    cases terms? with
    | some terms => exact List.Forall₂.cons hfirst hrest
    | none =>
      obtain ⟨before, terms, stuck, after, rfl, hbefore, hstuck⟩ := hrest
      exact ⟨text :: before, term :: terms, stuck, after, rfl, .cons hfirst hbefore, hstuck⟩

/-! ## Strings -/

section Strings

open Pending

/-- The escapes that Go has not. -/
private theorem run_unwritable {c : Char} (h : isWritable c = false) (read rest : List Char) :
    (Pending.text read).run (Text.escapeChar c ++ rest) = none := by
  by_cases hzero : c = '\x00'
  · rw [hzero]
    rfl
  · rw [escapeChar_of_unwritable h hzero]
    rfl

private theorem run_unreadable {chars : List Char} (h : ¬∀ c ∈ chars, isWritable c = true)
    (read rest : List Char) :
    (Pending.text read).run (chars.flatMap Text.escapeChar ++ rest) = none := by
  induction chars generalizing read with
  | nil => exact absurd (List.forall_mem_nil _) h
  | cons c chars ih =>
    rw [List.flatMap_cons, List.append_assoc]
    by_cases hc : isWritable c = true
    · have hchars : ¬∀ d ∈ chars, isWritable d = true := by
        intro hchars
        exact h (List.forall_mem_cons.2 ⟨hc, hchars⟩)
      rw [run_append (run_escapeChar hc read), ih hchars, Option.map_none]
    · exact run_unwritable (Bool.not_eq_true _ ▸ hc) read _

theorem readAs_text (value : String) :
    ReadAs (Text.quoted value)
      (if value.toList.all isWritable = true then some (.text value) else none) := by
  by_cases h : value.toList.all isWritable = true
  · rw [if_pos h]
    exact prints_text (List.all_eq_true.1 h)
  · rw [if_neg h]
    refine ⟨⟨'\"', by simp [Text.quoted], by decide⟩, fun around rest => ?_⟩
    have hopen : nothing.run ['\"'] = some ([], .text []) := rfl
    have hrun : nothing.run ((Text.quoted value).toList ++ rest) = none := by
      rw [Text.quoted, String.toList_ofList, ← List.singleton_append, List.append_assoc,
        run_append hopen, List.append_assoc, run_unreadable fun hall => h (List.all_eq_true.2 hall),
        Option.map_none]
    rw [scan, hrun, Option.bind_none, Option.bind_none]

end Strings

/-! ## Operators -/

section Operators

variable {lhs rhs op operand : String} {left? right? term? : Option Term}

theorem readAs_binary (hlhs : ReadAs lhs left?) (hrhs : ReadAs rhs right?)
    (hop : (precedence op).isSome = true) (hcut : Cut anywhere (" " ++ op ++ " ") [.sign op]) :
    ReadAs ("(" ++ lhs ++ " " ++ op ++ " " ++ rhs ++ ")") (do
      let left ← left?
      let right ← right?
      pure (.binary op left right)) := by
  cases left? with
  | none =>
    have hfront : Stuck ("(" ++ lhs) :=
      hlhs.within ⟨'(', by simp, by decide⟩ leads_open
    show Stuck _
    simpa only [String.append_assoc] using hfront.append (" " ++ op ++ " " ++ rhs ++ ")")
  | some left =>
    cases right? with
    | none =>
      have hfront : Stuck ("(" ++ lhs ++ " " ++ op ++ " " ++ rhs) :=
        hrhs.within ⟨'(', by simp, by decide⟩ (leads_left hlhs hop hcut)
      exact hfront.append ")"
    | some right => exact hlhs.binary hrhs hop hcut

/-- Two minus signs are one token, which begins no expression. -/
private theorem stuck_decrement (h : '-' ∈ operand.toList.head?) : Stuck ("-" ++ operand) := by
  obtain ⟨rest, hoperand⟩ := List.head?_eq_some_iff.1 h
  have htext : "-" ++ operand = "--" ++ String.ofList rest := by
    rw [← String.toList_inj]
    simp [hoperand]
  have hcut : Cut anywhere "--" ([] ++ [.sign (String.ofList ['-', '-'])]) := by
    have hnone : Pending.extensions ['-', '-'] = [] := by decide
    refine cut_of_run_sign rfl (by decide) fun c _ => ?_
    rw [hnone]
    exact List.not_mem_nil
  rw [htext]
  refine ⟨⟨'-', by simp, by decide⟩, fun around others => ?_⟩
  rw [String.toList_append, List.append_assoc, hcut _ fun _ _ => rfl]
  cases Pending.nothing.scan ((String.ofList rest).toList ++ others) <;> rfl

theorem readAs_not (h : ReadAs operand term?) :
    ReadAs ("!" ++ operand) (term?.map (.unary "!")) := by
  cases term? with
  | some term => exact h.unary '!' (by decide) fun hsign => absurd hsign (by decide)
  | none =>
    obtain ⟨c, hc, hequal⟩ := h.head
    refine ⟨⟨'!', by simp, by decide⟩, fun around => ?_⟩
    have hbang : Leads (fun d => d ∉ Pending.extensions ['!']) "!" (.operand around)
        (.operand (.unary "!" :: around)) :=
      ⟨[] ++ [.sign (String.ofList ['!'])], cut_of_run_sign rfl (by decide) (by simp), rfl⟩
    have hextensions : Pending.extensions ['!'] = ['='] := by decide
    exact hbang.stops (h.stops _) ⟨c, hc, by simp [hextensions, hequal]⟩

theorem readAs_minus (h : ReadAs operand term?) :
    ReadAs ("-" ++ operand) (do
      let term ← term?
      if term.isNegative = true then none else pure (.unary "-" term)) := by
  cases term? with
  | some term =>
    obtain ⟨c, hc, hequal, hminus⟩ := h.head
    by_cases hnegative : term.isNegative = true
    · have hstuck : Stuck ("-" ++ operand) := stuck_decrement (hminus.2 hnegative ▸ hc)
      simpa [ReadAs, hnegative] using hstuck
    · have hprints := h.unary '-' (by decide) fun _ => Bool.not_eq_true _ ▸ hnegative
      simpa [ReadAs, hnegative] using hprints
  | none =>
    obtain ⟨c, hc, hequal⟩ := h.head
    by_cases hminus : c = '-'
    · exact stuck_decrement (hminus ▸ hc)
    · refine ⟨⟨'-', by simp, by decide⟩, fun around => ?_⟩
      have hdash : Leads (fun d => d ∉ Pending.extensions ['-']) "-" (.operand around)
          (.operand (.unary "-" :: around)) :=
        ⟨[] ++ [.sign (String.ofList ['-'])], cut_of_run_sign rfl (by decide) (by simp), rfl⟩
      have hextensions : Pending.extensions ['-'] = ['=', '-'] := by decide
      exact hdash.stops (h.stops _) ⟨c, hc, by simp [hextensions, hequal, hminus]⟩

end Operators

/-! ## Lists -/

section Lists

variable {frame : List Term → Enclosing} {whole : List Term → Term} {closer text : String}
  {texts before after : List String} {terms : List Term}

private theorem nonempty_items (hbefore : List.Forall₂ Prints before terms) (hstuck : Stuck text)
    (after : List String) :
    ∃ c ∈ (", ".intercalate (before ++ text :: after)).toList.head?, anywhere c = true := by
  cases hbefore with
  | nil =>
    obtain ⟨c, hc, _⟩ := hstuck.head
    exact ⟨c, head?_intercalate hc after, rfl⟩
  | cons hfirst hrest =>
    obtain ⟨c, hc, _⟩ := hfirst.head
    exact ⟨c, head?_intercalate hc _, rfl⟩

/-- An item that cannot be read stops the reader of a list. -/
theorem stops_items (h : Listing frame whole closer) (hbefore : List.Forall₂ Prints before terms)
    (hstuck : Stuck text) (after : List String) (read : List Term) (around : List Enclosing) :
    Stops (.operand (frame read :: around)) (", ".intercalate (before ++ text :: after)) := by
  induction hbefore generalizing read with
  | nil =>
    cases after with
    | nil =>
      rw [List.nil_append, String.intercalate_singleton]
      exact hstuck.stops _
    | cons next after =>
      rw [List.nil_append, String.intercalate_cons_of_ne_nil (by simp), String.append_assoc]
      exact (hstuck.stops _).append _
  | @cons first term before terms hfirst hbefore ih =>
    have hothers := ih (read ++ [term])
    have hcomma := (hfirst.leads _).append (h.leads_comma around read term) ⟨',', rfl, by decide⟩
    rw [List.cons_append, String.intercalate_cons_of_ne_nil (by simp)]
    exact hcomma.stops hothers (nonempty_items hbefore hstuck after)

/-- Items between a text that leads into a list and the closing sign. -/
theorem readAs_list {front : String} {terms? : Option (List Term)} (h : Listing frame whole closer)
    (hwhole : ∀ {terms}, List.Forall₂ Prints texts terms →
      Prints (front ++ ", ".intercalate texts ++ closer) (whole terms))
    (hhead : ∃ c ∈ front.toList.head?, c ≠ '=')
    (hfront : ∀ around, Leads anywhere front (.operand around) (.operand (frame [] :: around)))
    (hitems : AllReadAs texts terms?) :
    ReadAs (front ++ ", ".intercalate texts ++ closer) (terms?.map whole) := by
  cases terms? with
  | some terms => exact hwhole hitems
  | none =>
    obtain ⟨before, terms, text, after, rfl, hbefore, hstuck⟩ := hitems
    obtain ⟨c, hc, hequal⟩ := hhead
    refine Stuck.append ⟨⟨c, head?_append hc, hequal⟩, fun around => ?_⟩ closer
    have hnonempty : ∃ c ∈ (", ".intercalate (before ++ text :: after)).toList.head?,
        anywhere c = true := nonempty_items hbefore hstuck after
    exact (hfront around).stops (stops_items h hbefore hstuck after [] around) hnonempty

theorem readAs_ints {terms? : Option (List Term)} (h : AllReadAs texts terms?) :
    ReadAs ("[]int\x7b" ++ ", ".intercalate texts ++ "\x7d") (terms?.map .ints) :=
  readAs_list listing_elements prints_ints ⟨'[', by simp, by decide⟩ leads_ints h

theorem readAs_call {name : String} {terms? : Option (List Term)} (hname : IsName name)
    (h : AllReadAs texts terms?) :
    ReadAs (name ++ "(" ++ ", ".intercalate texts ++ ")") (terms?.map (.call (.name name))) := by
  obtain ⟨c, hc, hequal, _⟩ := (prints_name hname).head
  exact readAs_list (listing_arguments (.name name)) (prints_call hname)
    ⟨c, head?_append hc, hequal⟩ (leads_call hname) h

end Lists

/-! ## Other forms -/

section Forms

variable {name text : String} {texts : List String} {terms? : Option (List Term)}

theorem readAs_choose {condition yes no : String} {if? yes? no? : Option Term}
    (hcondition : ReadAs condition if?) (hyes : ReadAs yes yes?) (hno : ReadAs no no?) :
    ReadAs ("func() int \x7b if " ++ condition ++ " \x7b return " ++ yes ++ " \x7d; return " ++
      no ++ " \x7d()") (do
        let ifTerm ← if?
        let yesTerm ← yes?
        let noTerm ← no?
        pure (.choose ifTerm yesTerm noTerm)) := by
  cases if? with
  | none =>
    have hfront : Stuck ("func() int \x7b if " ++ condition) :=
      hcondition.within ⟨'f', by simp, by decide⟩
        leads_choose
    show Stuck _
    simpa only [String.append_assoc] using
      hfront.append (" \x7b return " ++ yes ++ " \x7d; return " ++ no ++ " \x7d()")
  | some ifTerm =>
    cases yes? with
    | none =>
      have hfront : Stuck ("func() int \x7b if " ++ condition ++ " \x7b return " ++ yes) :=
        hyes.within ⟨'f', by simp, by decide⟩ (leads_yes hcondition)
      show Stuck _
      simpa only [String.append_assoc] using
        hfront.append (" \x7d; return " ++ no ++ " \x7d()")
    | some yesTerm =>
      cases no? with
      | none =>
        have hfront : Stuck ("func() int \x7b if " ++ condition ++ " \x7b return " ++ yes ++
            " \x7d; return " ++ no) :=
          hno.within ⟨'f', by simp, by decide⟩ (leads_no hcondition hyes)
        exact hfront.append " \x7d()"
      | some noTerm => exact prints_choose hcondition hyes hno

theorem readAs_apply (hname : IsName name) (h : AllReadAs texts terms?) :
    ReadAs (Expression.goApply name texts) (terms?.map (Expression.readApply name)) := by
  cases terms? with
  | some terms => exact prints_apply h hname
  | none =>
    have hsingle (hone : texts.length = 1) (suffix : String) :
        Stuck (", ".intercalate texts ++ suffix) := by
      obtain ⟨text, rfl⟩ := List.length_eq_one_iff.1 hone
      obtain ⟨before, terms, stuck, after, htexts, -, hstuck⟩ := h
      have hmem : stuck ∈ [text] := by simp [htexts]
      rw [List.mem_singleton.1 hmem] at hstuck
      rw [String.intercalate_singleton]
      exact hstuck.append suffix
    have hlen : IsName "len" := ⟨⟨'l', rfl, by decide⟩, by decide, by decide⟩
    have happend : IsName "append" := ⟨⟨'a', rfl, by decide⟩, by decide, by decide⟩
    show Stuck _
    dsimp only [Expression.goApply]
    split_ifs with hone htwo hhead htail
    · exact readAs_call hlen h
    · exact readAs_call happend h
    · exact hsingle hhead.2 "[0]"
    · exact hsingle htail.2 "[1:]"
    · exact readAs_call hname h

private theorem stuck_subscripts (oneBased : Bool) (h : Stuck text) (keys : List String) :
    Stuck (keys.foldl (fun go key => go ++ Expression.goSubscript oneBased key) text) := by
  induction keys generalizing text with
  | nil => exact h
  | cons key keys ih => exact ih (h.append _)

private theorem stuck_key (oneBased : Bool) {key : String} {function : Term}
    (hfunction : Prints text function) (h : Stuck key) :
    Stuck (text ++ Expression.goSubscript oneBased key) := by
  obtain ⟨c, hc, hequal, _⟩ := hfunction.head
  have hopen (around : List Enclosing) : Leads anywhere (text ++ "[") (.operand around)
      (.operand (.key function.core :: (function.signs ++ around))) :=
    (hfunction.leads around).append (leads_key _ _) ⟨'[', by simp, by decide⟩
  have hfront : Stuck (text ++ "[" ++ key) :=
    h.within ⟨c, head?_append hc, hequal⟩ hopen
  cases oneBased with
  | false => simpa [Expression.goSubscript, String.append_assoc] using hfront.append "]"
  | true => simpa [Expression.goSubscript, String.append_assoc] using hfront.append "-1]"

theorem readAs_subscripts (oneBased : Bool) {function? : Option Term}
    (hfunction : ReadAs text function?) (hkeys : AllReadAs texts terms?) :
    ReadAs (texts.foldl (fun go key => go ++ Expression.goSubscript oneBased key) text) (do
      let function ← function?
      let keys ← terms?
      pure (keys.foldl (Expression.readSubscript oneBased) function)) := by
  cases function? with
  | none => exact stuck_subscripts oneBased hfunction texts
  | some function =>
    cases terms? with
    | some keys => exact prints_subscripts oneBased hfunction hkeys
    | none =>
      obtain ⟨before, terms, key, after, rfl, hbefore, hstuck⟩ := hkeys
      have hfront := prints_subscripts oneBased hfunction hbefore
      show Stuck _
      rw [List.foldl_append, List.foldl_cons]
      exact stuck_subscripts oneBased (stuck_key oneBased hfront hstuck) after

end Forms

end Go

namespace Expression

variable {definitions : Definitions}

/-! ## All expressions -/

mutual

/-- The text of an expression is read as its tree for reading. -/
theorem readAs_toGo (expression : Expression) (hnames : ∀ name ∈ expression.names, IsName name)
    {text : String} (htext : expression.toGo definitions = .ok text) :
    ReadAs text (expression.readTerm definitions) := by
  cases expression with
  | number uid value =>
    cases htext
    exact prints_number value.toInt
  | bool uid value =>
    cases htext
    exact prints_bool value
  | string uid value =>
    cases htext
    exact readAs_text value
  | identifier uid name =>
    cases htext
    exact prints_name (hnames _ List.mem_cons_self)
  | index uid function params =>
    obtain ⟨hfunction, hparams⟩ := List.forall_mem_append.1 hnames
    obtain ⟨resource, hresource, htext⟩ := ok_of_bind htext
    obtain ⟨root, hroot, htext⟩ := ok_of_bind htext
    obtain ⟨keys, hkeys, htext⟩ := ok_of_bind htext
    cases htext
    have hwhole := readAs_subscripts (resource = .slice) (readAs_toGo function hfunction hroot)
      (allReadAs_listToGo params hparams hkeys)
    rw [readTerm, hresource]
    simpa using hwhole
  | binary uid op lhs rhs =>
    obtain ⟨hleft, hright⟩ := List.forall_mem_append.1 hnames
    obtain ⟨first, hlhs, htext⟩ := ok_of_bind htext
    obtain ⟨second, hrhs, htext⟩ := ok_of_bind htext
    cases htext
    obtain ⟨hop, hcut⟩ := binary_sign op
    exact readAs_binary (readAs_toGo lhs hleft hlhs) (readAs_toGo rhs hright hrhs) hop hcut
  | unary uid op operand =>
    obtain ⟨inner, hoperand, htext⟩ := ok_of_bind htext
    cases htext
    have hinner := readAs_toGo operand hnames hoperand
    cases op with
    | not => exact readAs_not hinner
    | negate => exact readAs_minus hinner
  | tuple uid elements =>
    obtain ⟨inner, helements, htext⟩ := ok_of_bind htext
    cases htext
    exact readAs_ints (allReadAs_listToGo elements hnames helements)
  | ifElse uid condition yes no =>
    obtain ⟨hfront, hthird⟩ := List.forall_mem_append.1 hnames
    obtain ⟨hfirst, hsecond⟩ := List.forall_mem_append.1 hfront
    obtain ⟨first, hcondition, htext⟩ := ok_of_bind htext
    obtain ⟨second, hyes, htext⟩ := ok_of_bind htext
    obtain ⟨third, hno, htext⟩ := ok_of_bind htext
    cases htext
    exact readAs_choose (readAs_toGo condition hfirst hcondition) (readAs_toGo yes hsecond hyes)
      (readAs_toGo no hthird hno)
  | apply uid name args =>
    obtain ⟨hname, hothers⟩ := List.forall_mem_cons.1 hnames
    obtain ⟨inner, hargs, htext⟩ := ok_of_bind htext
    cases htext
    exact readAs_apply hname (allReadAs_listToGo args hothers hargs)

theorem allReadAs_listToGo (expressions : List Expression)
    (hnames : ∀ name ∈ listNames expressions, IsName name) {texts : List String}
    (htexts : listToGo definitions expressions = .ok texts) :
    AllReadAs texts (listReadTerms definitions expressions) := by
  cases expressions with
  | nil =>
    cases htexts
    exact List.Forall₂.nil
  | cons expression rest =>
    obtain ⟨hexpression, hothers⟩ := List.forall_mem_append.1 hnames
    obtain ⟨first, hfirst, htexts⟩ := ok_of_bind htexts
    obtain ⟨others, hrest, htexts⟩ := ok_of_bind htexts
    cases htexts
    exact AllReadAs.cons (readAs_toGo expression hexpression hfirst)
      (allReadAs_listToGo rest hothers hrest)

end

end Expression

end PlusCalGo
