import PlusCalGo.Proofs.Expressions.Readings
import PlusCalGo.Proofs.Resolution.Texts

/-!
# Expressions that are read as they were meant

The text of an expression is read as its tree if and only if the expression is printable.
-/

namespace PlusCalGo

open Go

namespace Expression

/-! ## Trees that are read as they were meant -/

section Subscripts

variable {oneBased : Bool} {function other : Term} {keys others : List Term}

theorem foldl_readSubscript (hunsigned : keys ≠ [] → function.isSigned = false) :
    keys.foldl (readSubscript oneBased) function =
      keys.foldl (subscriptTerm oneBased) function := by
  induction keys generalizing function with
  | nil => rfl
  | cons key keys ih =>
    have hcore : readSubscript oneBased function key = subscriptTerm oneBased function key :=
      Term.onCore_of_unsigned (hunsigned (by simp)) _
    rw [List.foldl_cons, List.foldl_cons, hcore]
    exact ih fun _ => rfl

theorem isSigned_foldl_readSubscript :
    (keys.foldl (readSubscript oneBased) function).isSigned = function.isSigned := by
  induction keys generalizing function with
  | nil => rfl
  | cons key keys ih =>
    rw [List.foldl_cons, ih]
    exact Term.isSigned_onCore (fun _ => rfl) function

theorem isSigned_foldl_subscriptTerm (h : keys ≠ []) :
    (keys.foldl (subscriptTerm oneBased) function).isSigned = false := by
  rw [← List.dropLast_append_getLast h, List.foldl_append]
  rfl

theorem subscriptTerm_inj {key second : Term}
    (h : subscriptTerm oneBased function key = subscriptTerm oneBased other second) :
    function = other ∧ key = second := by
  cases oneBased with
  | false => exact Term.index.inj h
  | true =>
    obtain ⟨hfunction, hkey⟩ := Term.index.inj h
    exact ⟨hfunction, (Term.binary.inj hkey).2.1⟩

theorem foldl_subscriptTerm_inj (hlength : keys.length = others.length)
    (h : keys.foldl (subscriptTerm oneBased) function =
      others.foldl (subscriptTerm oneBased) other) : function = other ∧ keys = others := by
  induction keys generalizing function other others with
  | nil =>
    cases List.length_eq_zero_iff.1 hlength.symm
    exact ⟨h, rfl⟩
  | cons key keys ih =>
    cases others with
    | nil => cases hlength
    | cons second others =>
      obtain ⟨hfirst, hkeys⟩ := ih (Nat.succ.inj hlength) h
      obtain ⟨hfunction, hkey⟩ := subscriptTerm_inj hfirst
      exact ⟨hfunction, by rw [hkey, hkeys]⟩

theorem foldl_readSubscript_inj (hlength : keys.length = others.length)
    (h : keys.foldl (readSubscript oneBased) function =
      others.foldl (subscriptTerm oneBased) other) :
    function = other ∧ keys = others ∧ (others ≠ [] → other.isSigned = false) := by
  have hunsigned : keys ≠ [] → function.isSigned = false := by
    intro hkeys
    have hothers : others ≠ [] := by
      intro hnil
      rw [hnil] at hlength
      exact hkeys (List.length_eq_zero_iff.1 hlength)
    have hsigned := congrArg Term.isSigned h
    rwa [isSigned_foldl_readSubscript, isSigned_foldl_subscriptTerm hothers] at hsigned
  rw [foldl_readSubscript hunsigned] at h
  obtain ⟨rfl, rfl⟩ := foldl_subscriptTerm_inj hlength h
  exact ⟨rfl, rfl, hunsigned⟩

end Subscripts

section Applications

variable {name : String} {args others : List Term}

theorem readApply_of_applicable (h : Applicable name args) :
    readApply name args = applyTerm name args := by
  unfold readApply
  split
  · exact Term.onCore_of_unsigned h _
  · exact Term.onCore_of_unsigned h _
  · rfl

private theorem suffix_inj {change : Term → Term} {function other : Term}
    (hchange : ∀ term, (change term).isSigned = false)
    (hinjective : ∀ first second, change first = change second → first = second)
    (h : function.onCore change = change other) :
    [function] = [other] ∧ other.isSigned = false := by
  have hunsigned : function.isSigned = false := by
    rw [← Term.isSigned_onCore hchange, h]
    exact hchange other
  rw [Term.onCore_of_unsigned hunsigned] at h
  obtain rfl := hinjective function other h
  exact ⟨rfl, hunsigned⟩

theorem readApply_inj (hname : IsName name) (hlength : args.length = others.length)
    (h : readApply name args = applyTerm name others) :
    args = others ∧ Applicable name others := by
  unfold Applicable
  split
  · obtain ⟨argument, rfl⟩ := List.length_eq_one_iff.1 hlength
    exact ⟨(Term.call.inj h).2, trivial⟩
  · obtain ⟨first, second, rfl⟩ := List.length_eq_two.1 hlength
    exact ⟨(Term.call.inj h).2, trivial⟩
  · obtain ⟨argument, rfl⟩ := List.length_eq_one_iff.1 hlength
    exact suffix_inj (fun _ => rfl) (fun _ _ h => (Term.index.inj h).1) h
  · obtain ⟨argument, rfl⟩ := List.length_eq_one_iff.1 hlength
    exact suffix_inj (fun _ => rfl) (fun _ _ h => (Term.slice.inj h).1) h
  · rename_i hlen happend hhead htail
    have hordinary : Ordinary name others.length :=
      ordinary_of_unmatched hlen happend hhead htail
    have hothers : applyTerm name others = .call (.name name) others := hordinary.applyTerm
    have hargs : readApply name args = .call (.name name) args :=
      Ordinary.readApply (hlength ▸ hordinary)
    rw [hargs, hothers] at h
    exact ⟨(Term.call.inj h).2, hname⟩

end Applications

/-! ## Printable expressions -/

variable {definitions : Definitions}

mutual

theorem names_of_printable (expression : Expression) (h : expression.Printable definitions) :
    ∀ name ∈ expression.names, IsName name := by
  cases expression with
  | number | bool | string => exact List.forall_mem_nil _
  | identifier uid name => exact List.forall_mem_singleton.2 h
  | index uid function params =>
    exact List.forall_mem_append.2
      ⟨names_of_printable function h.1, names_of_listPrintable params h.2.1⟩
  | binary uid op lhs rhs =>
    exact List.forall_mem_append.2 ⟨names_of_printable lhs h.1, names_of_printable rhs h.2⟩
  | unary uid op operand => exact names_of_printable operand h.1
  | tuple uid elements => exact names_of_listPrintable elements h
  | ifElse uid condition yes no =>
    have hfront := List.forall_mem_append.2
      ⟨names_of_printable condition h.1, names_of_printable yes h.2.1⟩
    exact List.forall_mem_append.2 ⟨hfront, names_of_printable no h.2.2⟩
  | apply uid name args =>
    exact List.forall_mem_cons.2 ⟨h.2.isName, names_of_listPrintable args h.1⟩

theorem names_of_listPrintable (expressions : List Expression)
    (h : ListPrintable definitions expressions) : ∀ name ∈ listNames expressions, IsName name := by
  cases expressions with
  | nil => exact List.forall_mem_nil _
  | cons expression rest =>
    exact List.forall_mem_append.2
      ⟨names_of_printable expression h.1, names_of_listPrintable rest h.2⟩

end

theorem length_listTerms (expressions : List Expression) :
    (listTerms definitions expressions).length = expressions.length := by
  induction expressions with
  | nil => rfl
  | cons expression rest ih => rw [listTerms, List.length_cons, List.length_cons, ih]

theorem length_listReadTerms {expressions : List Expression} {terms : List Term}
    (h : listReadTerms definitions expressions = some terms) :
    terms.length = expressions.length := by
  induction expressions generalizing terms with
  | nil =>
    cases h
    rfl
  | cons expression rest ih =>
    obtain ⟨first, -, h⟩ := Option.bind_eq_some_iff.1 h
    obtain ⟨others, hothers, h⟩ := Option.bind_eq_some_iff.1 h
    cases h
    rw [List.length_cons, List.length_cons, ih hothers]

theorem listTerms_eq_nil_iff {expressions : List Expression} :
    listTerms definitions expressions = [] ↔ expressions = [] := by
  rw [← List.length_eq_zero_iff, length_listTerms, List.length_eq_zero_iff]

mutual

theorem readTerm_of_printable (expression : Expression) (h : expression.Printable definitions) :
    expression.readTerm definitions = some (expression.term definitions) := by
  cases expression with
  | number | bool | identifier => rfl
  | string uid value => exact if_pos (List.all_eq_true.2 h)
  | index uid function params =>
    obtain ⟨hfunction, hparams, hunsigned⟩ := h
    have hroot := readTerm_of_printable function hfunction
    have hkeys := listReadTerms_of_printable params hparams
    have hterms : listTerms definitions params ≠ [] →
        (function.term definitions).isSigned = false :=
      fun hsome => hunsigned fun hnil => hsome (listTerms_eq_nil_iff.2 hnil)
    rw [readTerm, term, hroot, hkeys, ← foldl_readSubscript hterms]
    rfl
  | binary uid op lhs rhs =>
    rw [readTerm, readTerm_of_printable lhs h.1, readTerm_of_printable rhs h.2]
    rfl
  | unary uid op operand =>
    have hoperand := readTerm_of_printable operand h.1
    cases op with
    | not =>
      rw [readTerm, hoperand]
      rfl
    | negate =>
      have hpositive := h.2 rfl
      rw [readTerm, hoperand, Option.bind_eq_bind, Option.bind_some, if_neg (by simp [hpositive])]
      rfl
  | tuple uid elements =>
    rw [readTerm, listReadTerms_of_printable elements h]
    rfl
  | ifElse uid condition yes no =>
    rw [readTerm, readTerm_of_printable condition h.1, readTerm_of_printable yes h.2.1,
      readTerm_of_printable no h.2.2]
    rfl
  | apply uid name args =>
    rw [readTerm, term, listReadTerms_of_printable args h.1, Option.map_some,
      readApply_of_applicable h.2]

theorem listReadTerms_of_printable (expressions : List Expression)
    (h : ListPrintable definitions expressions) :
    listReadTerms definitions expressions = some (listTerms definitions expressions) := by
  cases expressions with
  | nil => rfl
  | cons expression rest =>
    rw [listReadTerms, readTerm_of_printable expression h.1, listReadTerms_of_printable rest h.2]
    rfl

end

mutual

/-- An expression that is read as its tree is printable. -/
theorem printable_of_readTerm (expression : Expression)
    (hnames : ∀ name ∈ expression.names, IsName name)
    (h : expression.readTerm definitions = some (expression.term definitions)) :
    expression.Printable definitions := by
  cases expression with
  | number | bool => trivial
  | string uid value => exact List.all_eq_true.1 (Option.ite_none_right_eq_some.1 h).1
  | identifier uid name => exact hnames _ List.mem_cons_self
  | index uid function params =>
    obtain ⟨hfunction, hparams⟩ := List.forall_mem_append.1 hnames
    obtain ⟨root, hroot, h⟩ := Option.bind_eq_some_iff.1 h
    obtain ⟨keys, hkeys, h⟩ := Option.bind_eq_some_iff.1 h
    have hlength : keys.length = (listTerms definitions params).length := by
      rw [length_listReadTerms hkeys, length_listTerms]
    obtain ⟨rfl, rfl, hunsigned⟩ := foldl_readSubscript_inj hlength (Option.some.inj h)
    refine ⟨printable_of_readTerm function hfunction hroot,
      listPrintable_of_listReadTerms params hparams hkeys, fun hsome => hunsigned ?_⟩
    exact fun hnil => hsome (listTerms_eq_nil_iff.1 hnil)
  | binary uid op lhs rhs =>
    obtain ⟨hleft, hright⟩ := List.forall_mem_append.1 hnames
    obtain ⟨left, hlhs, h⟩ := Option.bind_eq_some_iff.1 h
    obtain ⟨right, hrhs, h⟩ := Option.bind_eq_some_iff.1 h
    obtain ⟨-, rfl, rfl⟩ := Term.binary.inj (Option.some.inj h)
    exact ⟨printable_of_readTerm lhs hleft hlhs, printable_of_readTerm rhs hright hrhs⟩
  | unary uid op operand =>
    cases op with
    | not =>
      obtain ⟨inner, hinner, h⟩ := Option.map_eq_some_iff.1 h
      obtain ⟨-, rfl⟩ := Term.unary.inj h
      exact ⟨printable_of_readTerm operand hnames hinner, fun hop => by cases hop⟩
    | negate =>
      obtain ⟨inner, hinner, h⟩ := Option.bind_eq_some_iff.1 h
      obtain ⟨hpositive, h⟩ := Option.ite_none_left_eq_some.1 h
      obtain ⟨-, rfl⟩ := Term.unary.inj (Option.some.inj h)
      exact ⟨printable_of_readTerm operand hnames hinner, fun _ => by simpa using hpositive⟩
  | tuple uid elements =>
    obtain ⟨inner, hinner, h⟩ := Option.map_eq_some_iff.1 h
    obtain rfl := Term.ints.inj h
    exact listPrintable_of_listReadTerms elements hnames hinner
  | ifElse uid condition yes no =>
    obtain ⟨hfront, hthird⟩ := List.forall_mem_append.1 hnames
    obtain ⟨hfirst, hsecond⟩ := List.forall_mem_append.1 hfront
    obtain ⟨first, hcondition, h⟩ := Option.bind_eq_some_iff.1 h
    obtain ⟨second, hyes, h⟩ := Option.bind_eq_some_iff.1 h
    obtain ⟨third, hno, h⟩ := Option.bind_eq_some_iff.1 h
    obtain ⟨rfl, rfl, rfl⟩ := Term.choose.inj (Option.some.inj h)
    exact ⟨printable_of_readTerm condition hfirst hcondition,
      printable_of_readTerm yes hsecond hyes, printable_of_readTerm no hthird hno⟩
  | apply uid name args =>
    obtain ⟨hname, hothers⟩ := List.forall_mem_cons.1 hnames
    obtain ⟨inner, hinner, h⟩ := Option.map_eq_some_iff.1 h
    have hlength : inner.length = (listTerms definitions args).length := by
      rw [length_listReadTerms hinner, length_listTerms]
    obtain ⟨rfl, happlicable⟩ := readApply_inj hname hlength h
    exact ⟨listPrintable_of_listReadTerms args hothers hinner, happlicable⟩

theorem listPrintable_of_listReadTerms (expressions : List Expression)
    (hnames : ∀ name ∈ listNames expressions, IsName name)
    (h : listReadTerms definitions expressions = some (listTerms definitions expressions)) :
    ListPrintable definitions expressions := by
  cases expressions with
  | nil => trivial
  | cons expression rest =>
    obtain ⟨hexpression, hothers⟩ := List.forall_mem_append.1 hnames
    obtain ⟨first, hfirst, h⟩ := Option.bind_eq_some_iff.1 h
    obtain ⟨others, hrest, h⟩ := Option.bind_eq_some_iff.1 h
    obtain ⟨rfl, rfl⟩ := List.cons.inj (Option.some.inj h)
    exact ⟨printable_of_readTerm expression hexpression hfirst,
      listPrintable_of_listReadTerms rest hothers hrest⟩

end

/-- A printable expression reads as its tree. -/
theorem prints_toGo (expression : Expression) (h : expression.Printable definitions) {text : String}
    (htext : expression.toGo definitions = .ok text) :
    Prints text (expression.term definitions) := by
  have hreads := readAs_toGo expression (names_of_printable expression h) htext
  rwa [readTerm_of_printable expression h] at hreads

/-! ## The text as a whole -/

variable (definitions) in
/-- An expression has a text, if its names are names of Go and its references resolve. The text is
read as its tree exactly if the expression is printable, and just then an exclamation mark in front
of the text negates the whole tree. In every other case it is known what is read instead, as long as
no string needs an escape that Go has not. The tokens leave escapes by number out, which Go may take
for other characters, so of a text with such a string it is known only that it is not read as its
tree. -/
theorem toGo_read (expression : Expression) (hnames : ∀ name ∈ expression.names, IsName name)
    (hreferences : ∀ identifier ∈ expression.identifiers,
      ∃ definition, definitions.resolve identifier = .ok definition) :
    ∃ text, expression.toGo definitions = .ok text ∧
      (read text = some (expression.term definitions) ↔ expression.Printable definitions) ∧
      (read ("!" ++ text) = some (.unary "!" (expression.term definitions)) ↔
        expression.Printable definitions) ∧
      ((∀ string ∈ expression.strings, ∀ c ∈ string.toList, isWritable c = true) →
        read text = expression.readTerm definitions ∧
          read ("!" ++ text) = (expression.readTerm definitions).map (.unary "!")) := by
  obtain ⟨text, htext⟩ := toGo_ok expression hreferences
  have hreads := readAs_toGo expression hnames htext
  have hwhole : read text = expression.readTerm definitions := hreads.read
  have hnegated : read ("!" ++ text) = (expression.readTerm definitions).map (.unary "!") :=
    (readAs_not hreads).read
  have hexact : expression.readTerm definitions = some (expression.term definitions) ↔
      expression.Printable definitions :=
    ⟨printable_of_readTerm expression hnames, readTerm_of_printable expression⟩
  refine ⟨text, htext, ?_, ?_, fun _ => ⟨hwhole, hnegated⟩⟩
  · rw [hwhole, hexact]
  · rw [hnegated, ← hexact]
    cases expression.readTerm definitions <;> simp

/-- A negative subscript of a slice. -/
theorem toGo_read_subscript :
    let definitions : Definitions :=
      ⟨[⟨⟨1⟩, "q", .global .slice, .unknown⟩, ⟨⟨2⟩, "i", .global .plain, .unknown⟩],
        [(⟨4⟩, ⟨1⟩), (⟨6⟩, ⟨2⟩)]⟩
    let last := index ⟨3⟩ (identifier ⟨4⟩ "q") [unary ⟨5⟩ .negate (identifier ⟨6⟩ "i")]
    let tree := Term.index (.name "q") (.binary "-" (.unary "-" (.name "i")) (.int 1))
    ((∀ name ∈ last.names, IsName name) ∧
        ∀ identifier ∈ last.identifiers,
          ∃ definition, definitions.resolve identifier = .ok definition) ∧
      last.toGo definitions = .ok "q[-i-1]" ∧ read "q[-i-1]" = some tree ∧
      read "!q[-i-1]" = some (.unary "!" tree) := by
  intro definitions last tree
  have hq : IsName "q" := ⟨⟨'q', rfl, by decide⟩, by decide, by decide⟩
  have hi : IsName "i" := ⟨⟨'i', rfl, by decide⟩, by decide, by decide⟩
  have hnames : ∀ name ∈ last.names, IsName name := by
    simp [last, names, listNames, hq, hi]
  have hreferences : ∀ identifier ∈ last.identifiers,
      ∃ definition, definitions.resolve identifier = .ok definition := by
    intro identifier hmem
    have hcases : identifier = ⟨4⟩ ∨ identifier = ⟨6⟩ := by
      simpa [last, identifiers, listIdentifiers] using hmem
    rcases hcases with rfl | rfl
    · exact ⟨_, rfl⟩
    · exact ⟨_, rfl⟩
  have hprintable : last.Printable definitions :=
    ⟨hq, ⟨⟨hi, fun _ => rfl⟩, trivial⟩, fun _ => rfl⟩
  obtain ⟨text, htext, hread, hnegated, -⟩ := toGo_read definitions last hnames hreferences
  have hcomputed : last.toGo definitions = .ok "q[-i-1]" := rfl
  obtain rfl : "q[-i-1]" = text := Except.ok.inj (hcomputed.symm.trans htext)
  exact ⟨⟨hnames, hreferences⟩, htext, hread.2 hprintable, hnegated.2 hprintable⟩

/-- A negation in front of a negation is read as a decrement, and a negated function as a negated
element of it. -/
theorem minus_signs_meet :
    let twice := unary ⟨1⟩ .negate (unary ⟨2⟩ .negate (number ⟨3⟩ 5))
    let element := index ⟨4⟩ (unary ⟨5⟩ .negate (identifier ⟨6⟩ "x")) [number ⟨7⟩ 1]
    let definitions : Definitions := ⟨[⟨⟨8⟩, "x", .global .plain, .unknown⟩], [(⟨6⟩, ⟨8⟩)]⟩
    twice.toGo definitions = .ok "--5" ∧ read "--5" = none ∧ read "!--5" = none ∧
      element.toGo definitions = .ok "-x[1]" ∧
      element.term definitions = .index (.unary "-" (.name "x")) (.int 1) ∧
      read "-x[1]" = some (.unary "-" (.index (.name "x") (.int 1))) ∧
      read "-x[1]" ≠ some (element.term definitions) := by
  intro twice element definitions
  have hread : read "-x[1]" = some (.unary "-" (.index (.name "x") (.int 1))) := rfl
  refine ⟨rfl, rfl, rfl, rfl, rfl, hread, ?_⟩
  rw [hread]
  intro hsame
  cases Option.some.inj hsame

end Expression

end PlusCalGo
