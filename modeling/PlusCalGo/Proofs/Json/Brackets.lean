import PlusCalGo.Proofs.Json.Scalars
import Mathlib.Data.List.Forall2

/-!
# Reading brackets back

Lists, records and choices are taken back from the text of a layout as soon as their parts are. A
record is taken back from an object whose members are fields of the record in any order.
-/

namespace PlusCalGo.Json

open Reader

variable {α σ : Type} {layout : Layout}

theorem blank_nil : Blank [] := by simp [Blank]

theorem peek_cons {c : Char} (hc : isBlank c = false) (text : List Char) :
    peek (c :: text) = .ok (some c, c :: text) := peek_of_blank blank_nil hc

theorem openBracket_cons {depth : Nat} (hd : 0 < depth) (c : Char) (text : List Char) :
    openBracket depth (c :: text) = .ok ((), text) := by
  rw [openBracket, if_neg (by omega), advance_cons]

theorem within_of_ok {close : List Char → Option Failure × List Char} {body : Reader α}
    {text inner rest : List Char} {value : α} (hbody : body text = .ok (value, inner))
    (hclose : close inner = (none, rest)) : within close body text = .ok (value, rest) := by
  simp only [within, hbody, hclose]

/-! ## Lists -/

theorem hasElement_closing (first : Bool) {blanks : List Char} (hb : Blank blanks)
    (rest : List Char) : hasElement first (blanks ++ ']' :: rest) = .ok (false, ']' :: rest) := by
  rw [hasElement, bind_of_ok (peek_of_blank hb (by decide))]
  simp only [if_true, pure_run]

theorem hasElement_first {blanks : List Char} (hb : Blank blanks) (inside : Nat) (value : Json)
    (rest : List Char) : hasElement true (blanks ++ (layout.write inside value ++ rest)) =
      .ok (true, layout.write inside value ++ rest) := by
  obtain ⟨c, text, htext, hc⟩ := layout.write_starts inside value
  rw [htext, List.cons_append, hasElement, bind_of_ok (peek_of_blank hb hc.notBlank)]
  simp only [if_neg hc.notClosing, if_true, pure_run]

theorem hasElement_comma {blanks : List Char} (hb : Blank blanks) (inside : Nat) (value : Json)
    (rest : List Char) : hasElement false (',' :: (blanks ++ (layout.write inside value ++ rest))) =
      .ok (true, layout.write inside value ++ rest) := by
  obtain ⟨c, text, htext, hc⟩ := layout.write_starts inside value
  rw [htext, List.cons_append, hasElement, bind_of_ok (peek_cons (by decide) _)]
  simp only [if_neg (show ',' ≠ ']' by decide), Bool.false_eq_true, if_false, if_true]
  rw [bind_of_ok (advance_cons _ _), bind_of_ok (peek_of_blank hb hc.notBlank)]
  simp only [if_neg hc.notClosing, pure_run]

/-- One element and those after it. -/
theorem elements_cons {item : Reader α} {value : Json} {result : α} {results : List α}
    {first : Bool} {inside steps : Nat} {text more rest : List Char}
    (hnext : hasElement first text = .ok (true, layout.write inside value ++ more))
    (hvalue : Reads layout item value result) (he : Ends more)
    (hmore : elements item false steps more = .ok (results, rest)) :
    elements item first (steps + 1) text = .ok (result :: results, rest) := by
  have hitem : item (layout.write inside value ++ more) = .ok (result, more) :=
    hvalue [] inside more blank_nil he
  rw [elements, bind_of_ok hnext, if_pos rfl, bind_of_ok hitem, bind_of_ok hmore, pure_run]

theorem length_le_writeElements (inside : Nat) (values : List Json) :
    values.length ≤ (layout.writeElements inside values).length := by
  induction values with
  | nil => simp
  | cons value values ih =>
    simp only [Layout.writeElements, List.length_cons, List.length_append]
    omega

theorem elements_writeElements {item : Reader α} {values : List Json} {results : List α}
    (h : List.Forall₂ (Reads layout item) values results) (inside : Nat) (rest : List Char)
    {steps : Nat} (hsteps : values.length < steps) :
    elements item false steps (layout.writeElements inside values ++ rest) =
      .ok (results, ']' :: rest) := by
  induction h generalizing steps with
  | nil =>
    obtain ⟨steps, rfl⟩ := Nat.exists_eq_succ_of_ne_zero (show steps ≠ 0 by omega)
    rw [Layout.writeElements, List.append_assoc, List.singleton_append, elements,
      bind_of_ok (hasElement_closing false (layout.line_blank inside) rest)]
    rfl
  | @cons value result values results hvalue hvalues ih =>
    obtain ⟨steps, rfl⟩ := Nat.exists_eq_succ_of_ne_zero (show steps ≠ 0 by omega)
    have hmore := ih (Nat.lt_of_succ_lt_succ hsteps)
    rw [Layout.writeElements, List.cons_append, List.append_assoc, List.append_assoc]
    exact elements_cons (hasElement_comma (layout.line_blank _) (inside + 1) value _) hvalue
      (layout.ends_writeElements inside values rest) hmore

/-- The elements of a whole list, after its opening bracket. -/
theorem elements_of_reads {item : Reader α} {values : List Json} {results : List α}
    (h : List.Forall₂ (Reads layout item) values results) (inside : Nat) (rest : List Char) :
    ∃ text, layout.write inside (.array values) ++ rest = '[' :: text ∧
      elements item true (text.length + 1) text = .ok (results, ']' :: rest) := by
  cases h with
  | nil =>
    have hnone : hasElement true (']' :: rest) = .ok (false, ']' :: rest) :=
      hasElement_closing true blank_nil rest
    refine ⟨']' :: rest, by simp [Layout.write], ?_⟩
    rw [elements, bind_of_ok hnone]
    rfl
  | @cons value result values results hvalue hvalues =>
    let more := layout.writeElements inside values ++ rest
    refine ⟨layout.line (inside + 1) ++ (layout.write (inside + 1) value ++ more),
      by simp [Layout.write, more], ?_⟩
    refine elements_cons (hasElement_first (layout.line_blank _) (inside + 1) value more) hvalue
      (layout.ends_writeElements inside values rest)
      (elements_writeElements hvalues inside rest ?_)
    have hvalues := @length_le_writeElements layout inside values
    obtain ⟨c, chars, hc, -⟩ := layout.write_starts (inside + 1) value
    simp only [more, hc, List.length_append, List.length_cons]
    omega

theorem reads_list {depth : Nat} {item : Reader α} {values : List Json} {results : List α}
    (hd : 0 < depth) (h : List.Forall₂ (Reads layout item) values results) :
    Reads layout (list depth item) (.array values) results := by
  intro blanks inside rest hb he
  obtain ⟨text, htext, helements⟩ := elements_of_reads h inside rest
  rw [htext, list, bind_of_ok (peekValue_of_blank hb (by decide)), if_pos rfl,
    bind_of_ok (openBracket_cons hd _ _)]
  exact within_of_ok helements rfl

/-! ## Records -/

theorem memberName_closing (first : Bool) {blanks : List Char} (hb : Blank blanks)
    (rest : List Char) :
    memberName first (blanks ++ '\x7d' :: rest) = .ok (none, '\x7d' :: rest) := by
  rw [memberName, bind_of_ok (peek_of_blank hb (by decide))]
  simp only [if_true, pure_run]

theorem writeString_append (text : String) (rest : List Char) :
    writeString text ++ rest = '\"' :: (text.toList.flatMap escapeChar ++ '\"' :: rest) := by
  simp [writeString]

theorem memberName_first {blanks : List Char} (hb : Blank blanks) (name : String)
    (rest : List Char) :
    memberName true (blanks ++ (writeString name ++ rest)) = .ok (some name, rest) := by
  rw [writeString_append, memberName, bind_of_ok (peek_of_blank hb (by decide))]
  simp only [if_neg (show '\"' ≠ '\x7d' by decide), if_true]
  rw [bind_of_ok (advance_cons _ _), ← bind_pure_comp, bind_of_ok (stringBody_write name rest),
    pure_run]

theorem memberName_comma {blanks : List Char} (hb : Blank blanks) (name : String)
    (rest : List Char) :
    memberName false (',' :: (blanks ++ (writeString name ++ rest))) = .ok (some name, rest) := by
  rw [writeString_append, memberName, bind_of_ok (peek_cons (by decide) _)]
  simp only [if_neg (show ',' ≠ '\x7d' by decide), Bool.false_eq_true, if_false, if_true]
  rw [bind_of_ok (advance_cons _ _), bind_of_ok (peek_of_blank hb (by decide))]
  simp only [if_true]
  rw [bind_of_ok (advance_cons _ _), ← bind_pure_comp, bind_of_ok (stringBody_write name rest),
    pure_run]

theorem colon_cons (rest : List Char) : colon (':' :: rest) = .ok ((), rest) := by
  rw [colon, bind_of_ok (peek_cons (by decide) _)]
  rfl

/-- Under the layout, the members are fields not read before, and reading them in turn leads from
the first state to the last one. -/
inductive MembersRead (layout : Layout) (fields : List (Reader.Field σ)) :
    σ → List (String × Json) → σ → Prop where
  | nil (state : σ) : MembersRead layout fields state [] state
  | cons {state next last : σ} {field : Reader.Field σ} {name : String} {value : Json}
      {more : List (String × Json)} (hfield : fields.find? (·.name = name) = some field)
      (hnew : field.isRead state = false) (hvalue : Reads layout (field.read state) value next)
      (hmore : MembersRead layout fields next more last) :
      MembersRead layout fields state ((name, value) :: more) last

/-- One member and those after it. -/
theorem members_cons {fields : List (Reader.Field σ)} {state next : σ} {field : Reader.Field σ}
    {name : String} {value : Json} {first : Bool} {inside steps : Nat} {text more : List Char}
    (hnext : memberName first text =
      .ok (some name, ':' :: (layout.space ++ (layout.write inside value ++ more))))
    (hfield : fields.find? (·.name = name) = some field) (hnew : field.isRead state = false)
    (hvalue : Reads layout (field.read state) value next) (he : Ends more) :
    members fields first (steps + 1) state text = members fields false steps next more := by
  rw [members, bind_of_ok hnext]
  simp only [hfield, hnew, Bool.false_eq_true, if_false]
  rw [bind_of_ok (colon_cons _), bind_of_ok (hvalue _ inside more layout.space_blank he)]

theorem length_le_writeMembers (inside : Nat) (values : List (String × Json)) :
    values.length ≤ (layout.writeMembers inside values).length := by
  induction values with
  | nil => simp
  | cons value values ih =>
    simp only [Layout.writeMembers, List.length_cons, List.length_append]
    omega

theorem members_writeMembers {fields : List (Reader.Field σ)} {state last : σ}
    {values : List (String × Json)} (h : MembersRead layout fields state values last)
    (inside : Nat) (rest : List Char) {steps : Nat} (hsteps : values.length < steps) :
    members fields false steps state (layout.writeMembers inside values ++ rest) =
      .ok (last, '\x7d' :: rest) := by
  induction h generalizing steps with
  | nil state =>
    obtain ⟨steps, rfl⟩ := Nat.exists_eq_succ_of_ne_zero (show steps ≠ 0 by omega)
    rw [Layout.writeMembers, List.append_assoc, List.singleton_append, members,
      bind_of_ok (memberName_closing false (layout.line_blank inside) rest)]
    rfl
  | @cons state next last field name value more hfield hnew hvalue hmore ih =>
    obtain ⟨steps, rfl⟩ := Nat.exists_eq_succ_of_ne_zero (show steps ≠ 0 by omega)
    have hname := memberName_comma (layout.line_blank (inside + 1)) name (':' ::
      (layout.space ++ (layout.write (inside + 1) value ++
        (layout.writeMembers inside more ++ rest))))
    have hstep := @members_cons _ _ fields _ _ _ _ _ _ _ steps _ _ hname hfield hnew hvalue
      (layout.ends_writeMembers inside more rest)
    rw [← ih (Nat.lt_of_succ_lt_succ hsteps), ← hstep]
    simp only [Layout.writeMembers, List.cons_append, List.append_assoc]

/-- The members of a whole object, after its opening brace. -/
theorem members_of_read {fields : List (Reader.Field σ)} {state last : σ}
    {values : List (String × Json)} (h : MembersRead layout fields state values last)
    (inside : Nat) (rest : List Char) :
    ∃ text, layout.write inside (.object values) ++ rest = '\x7b' :: text ∧
      members fields true (text.length + 1) state text = .ok (last, '\x7d' :: rest) := by
  cases h with
  | nil =>
    have hnone : memberName true ('\x7d' :: rest) = .ok (none, '\x7d' :: rest) :=
      memberName_closing true blank_nil rest
    refine ⟨'\x7d' :: rest, by simp [Layout.write], ?_⟩
    rw [members, bind_of_ok hnone]
    rfl
  | @cons _ next _ field name value values hfield hnew hvalue hmore =>
    let more := layout.writeMembers inside values ++ rest
    let content := layout.space ++ (layout.write (inside + 1) value ++ more)
    refine ⟨layout.line (inside + 1) ++ (writeString name ++ ':' :: content),
      by simp [Layout.write, content, more], ?_⟩
    rw [members_cons (memberName_first (layout.line_blank _) name (':' :: content)) hfield hnew
      hvalue (layout.ends_writeMembers inside values rest)]
    refine members_writeMembers hmore inside rest ?_
    have hvalues := @length_le_writeMembers layout inside values
    simp only [more, content, List.length_append, List.length_cons]
    omega

theorem reads_record {depth : Nat} {shape : Record σ α} {values : List (String × Json)} {last : σ}
    {result : α} (hd : 0 < depth) (h : MembersRead layout shape.fields shape.start values last)
    (hfinish : shape.finish last = .ok result) :
    Reads layout (record depth shape) (.object values) result := by
  intro blanks inside rest hb he
  obtain ⟨text, htext, hmembers⟩ := members_of_read h inside rest
  rw [htext, record, bind_of_ok (peekValue_of_blank hb (by decide)), if_neg (by decide),
    if_pos rfl, bind_of_ok (openBracket_cons hd _ _)]
  refine within_of_ok ?_ (show closeObject ('\x7d' :: rest) = (none, rest) from rfl)
  rw [get_bind, bind_of_ok hmembers, finishRecord, hfinish]
  rfl

/-! ## Choices -/

/-- The reader of what a name of a choice stands for, if something is read after the name. -/
def Reader.Payload.reader? : Payload α → Option (Reader α)
  | .unit _ => none
  | .value reader | .fields reader => some reader

theorem choiceName_write {choices : List (String × Payload α)} {name : String}
    {choice : String × Payload α} (h : choices.find? (·.1 = name) = some choice)
    (rest : List Char) : choiceName choices (writeString name ++ rest) = .ok (choice.2, rest) := by
  rw [writeString_append, choiceName, bind_of_ok (advance_cons _ _),
    bind_of_ok (stringBody_write name rest)]
  simp only [h, pure_run]

/-- A choice that is a name only. -/
theorem reads_unit {depth : Nat} {choices : List (String × Payload α)} {name key : String}
    {result : α} (h : choices.find? (·.1 = name) = some (key, .unit result)) :
    Reads layout (choice depth choices) (.string name) result := by
  intro blanks inside rest hb he
  have hname := choiceName_write h rest
  rw [writeString_append] at hname
  rw [Layout.write, writeString_append, choice, bind_of_ok (peek_of_blank hb (by decide))]
  simp only [if_neg (show '\"' ≠ '\x7b' by decide), if_true]
  rw [bind_of_ok hname]
  rfl

theorem choiceKey_write {choices : List (String × Payload α)} {name : String}
    {choice : String × Payload α} (h : choices.find? (·.1 = name) = some choice)
    {blanks : List Char} (hb : Blank blanks) (rest : List Char) :
    choiceKey choices (blanks ++ (writeString name ++ rest)) = .ok (choice.2, rest) := by
  have hname := choiceName_write h rest
  rw [writeString_append] at hname ⊢
  rw [choiceKey, bind_of_ok (peek_of_blank hb (by decide))]
  simp only [if_true, hname]

/-- A choice with a value or fields. -/
theorem reads_choice {depth : Nat} {choices : List (String × Payload α)} {name : String}
    {reader : Reader α} {value : Json} {result : α} (hd : 0 < depth)
    (h : (choices.find? (·.1 = name)).bind (·.2.reader?) = some reader)
    (hvalue : Reads layout reader value result) :
    Reads layout (choice depth choices) (.object [(name, value)]) result := by
  intro blanks inside rest hb he
  obtain ⟨⟨key, payload⟩, hfind, hreader⟩ := Option.bind_eq_some_iff.mp h
  let close := layout.line inside ++ '\x7d' :: rest
  have hends : Ends close := ends_of_blank (layout.line_blank inside) (by simp [Ends])
  have hkey := choiceKey_write hfind (layout.line_blank (inside + 1))
    (':' :: (layout.space ++ (layout.write (inside + 1) value ++ close)))
  have hcontent := hvalue _ (inside + 1) close layout.space_blank hends
  have htext : layout.write inside (.object [(name, value)]) ++ rest =
      '\x7b' :: (layout.line (inside + 1) ++ (writeString name ++ ':' ::
        (layout.space ++ (layout.write (inside + 1) value ++ close)))) := by
    simp [Layout.write, Layout.writeMembers, close]
  rw [htext, choice, bind_of_ok (peek_of_blank hb (by decide))]
  simp only [if_true]
  rw [bind_of_ok (openBracket_cons hd _ _), bind_of_ok hkey, bind_of_ok (colon_cons _)]
  cases payload with
  | unit result => cases hreader
  | value _ | fields _ =>
    obtain rfl := Option.some.inj hreader
    have hclosing : peek close = .ok (some '\x7d', '\x7d' :: rest) :=
      peek_of_blank (layout.line_blank inside) (by decide)
    simp only
    rw [bind_of_ok hcontent, bind_of_ok hclosing]
    simp only [if_true]
    rw [bind_of_ok (advance_cons _ _), pure_run]

end PlusCalGo.Json
