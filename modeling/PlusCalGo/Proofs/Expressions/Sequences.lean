import PlusCalGo.Proofs.Expressions.Rereading
import PlusCalGo.Proofs.Expressions.Slices

/-!
# Elements of sequences

Which element of a sequence a subscript selects in Go. The elements of TLA+ sequences are counted
from one; subscripts of declared slices make up for that, those of all other sequences do not.
-/

namespace PlusCalGo

open Go

theorem DefinitionKind.resource_eq_slice {kind : DefinitionKind} : kind.resource = .slice ↔
    kind ∈ [.global .slice, .localVariable .slice, .parameter .slice] := by
  cases kind <;> simp [DefinitionKind.resource]

namespace Expression

/-! ## Sequences -/

/-- The forms of expressions for sequences. Names stand for variables, parameters and bindings. -/
inductive IsSequence : Expression → Prop where
  | named (uid : Uid) (name : String) : IsSequence (identifier uid name)
  | tuple (uid : Uid) (elements : List Expression) : IsSequence (tuple uid elements)
  | append (uid : Uid) {front : Expression} (last : Expression) :
    IsSequence front → IsSequence (apply uid "Append" [front, last])
  | tail (uid : Uid) {whole : Expression} : IsSequence whole → IsSequence (apply uid "Tail" [whole])

/-- By how much the number of the element that a subscript of the sequence selects is too large. -/
def shift (definitions : Definitions) (sequence : Expression) : Int :=
  if sequence.rootResource definitions = .ok .slice then 0 else 1

/-- The variable or parameter is declared as a slice. -/
def DeclaredSlice (definitions : Definitions) (sequence : Expression) : Prop :=
  ∃ uid name definition, sequence = identifier uid name ∧
    definitions.resolve uid = .ok definition ∧
      definition.kind ∈ [.global .slice, .localVariable .slice, .parameter .slice]

section Sequences

variable {definitions : Definitions} {sequence : Expression}

theorem shift_eq_zero_or_one (definitions : Definitions) (sequence : Expression) :
    sequence.shift definitions = 0 ∨ sequence.shift definitions = 1 := by
  unfold shift
  split
  · exact .inl rfl
  · exact .inr rfl

theorem shift_tail (sequence : Expression) (uid : Uid) :
    (apply uid "Tail" [sequence]).shift definitions = 1 := rfl

theorem shift_eq_zero_iff (h : sequence.IsSequence) :
    sequence.shift definitions = 0 ↔ sequence.DeclaredSlice definitions := by
  have hshift : sequence.shift definitions = 0 ↔
      sequence.rootResource definitions = .ok .slice := by
    unfold shift
    split <;> simp_all
  rw [hshift]
  cases h with
  | named uid name =>
    constructor
    · intro hroot
      obtain ⟨definition, hdefinition, hresource⟩ := ok_of_bind hroot
      refine ⟨uid, name, definition, rfl, hdefinition, DefinitionKind.resource_eq_slice.1 ?_⟩
      exact Except.ok.inj hresource
    · rintro ⟨_, _, definition, hsame, hdefinition, hkind⟩
      cases hsame
      rw [rootResource, hdefinition]
      exact congrArg Except.ok (DefinitionKind.resource_eq_slice.2 hkind)
  | tuple | append | tail =>
    constructor
    · intro hroot
      cases hroot
    · rintro ⟨_, _, _, hsame, _⟩
      cases hsame

/-- There is no sign in front of the text of a sequence. -/
theorem isSigned_of_sequence (h : sequence.IsSequence) {root : Term}
    (hroot : sequence.readTerm definitions = some root) : root.isSigned = false := by
  induction h generalizing root with
  | named uid name =>
    cases hroot
    rfl
  | tuple uid elements =>
    obtain ⟨_, _, rfl⟩ := Option.map_eq_some_iff.1 hroot
    rfl
  | append uid last _ _ =>
    obtain ⟨args, hargs, rfl⟩ := Option.map_eq_some_iff.1 hroot
    obtain ⟨first, second, rfl⟩ := List.length_eq_two.1 (length_listReadTerms hargs)
    rfl
  | tail uid _ ih =>
    obtain ⟨args, hargs, rfl⟩ := Option.map_eq_some_iff.1 hroot
    obtain ⟨inner, hinner, hargs⟩ := Option.bind_eq_some_iff.1 hargs
    cases hargs
    exact (Term.isSigned_onCore (fun _ => rfl) inner).trans (ih hinner)

end Sequences

/-! ## Texts of subscripts -/

section Texts

variable {definitions : Definitions} {sequence key : Expression} {root subscript : Term}

theorem listReadTerms_singleton (hkey : key.readTerm definitions = some subscript) :
    listReadTerms definitions [key] = some [subscript] := by
  rw [listReadTerms, hkey]
  rfl

/-- A subscript behind a sequence. -/
theorem readTerm_index (h : sequence.IsSequence)
    (hroot : sequence.readTerm definitions = some root)
    (hkey : key.readTerm definitions = some subscript) (uid : Uid) :
    (index uid sequence [key]).readTerm definitions =
      some (subscriptTerm (sequence.rootResource definitions = .ok .slice) root subscript) := by
  have hfold (oneBased : Bool) : [subscript].foldl (readSubscript oneBased) root =
      subscriptTerm oneBased root subscript :=
    foldl_readSubscript fun _ => isSigned_of_sequence h hroot
  rw [readTerm, hroot, listReadTerms_singleton hkey]
  exact congrArg some (hfold _)

theorem readTerm_next (hkey : key.readTerm definitions = some subscript) (uid one : Uid) :
    (binary uid .add key (number one 1)).readTerm definitions =
      some (.binary "+" subscript (.int 1)) := by
  rw [readTerm, hkey]
  rfl

theorem readTerm_head (h : sequence.IsSequence)
    (hroot : sequence.readTerm definitions = some root) (uid : Uid) :
    (apply uid "Head" [sequence]).readTerm definitions = some (.index root (.int 0)) := by
  rw [readTerm, listReadTerms_singleton hroot, Option.map_some]
  exact congrArg some (Term.onCore_of_unsigned (isSigned_of_sequence h hroot) _)

theorem readTerm_tail (h : sequence.IsSequence)
    (hroot : sequence.readTerm definitions = some root) (uid : Uid) :
    (apply uid "Tail" [sequence]).readTerm definitions = some (.slice root (.int 1)) := by
  rw [readTerm, listReadTerms_singleton hroot, Option.map_some]
  exact congrArg some (Term.onCore_of_unsigned (isSigned_of_sequence h hroot) _)

end Texts

/-! ## Values of subscripts -/

/-- All names in the expression are names of Go, and all its references resolve. -/
structure WellNamed (definitions : Definitions) (expression : Expression) : Prop where
  names : ∀ name ∈ expression.names, IsName name
  references : ∀ identifier ∈ expression.identifiers,
    ∃ definition, definitions.resolve identifier = .ok definition

/-- The value of the text of an expression in Go, and the memory behind it. -/
def goEval (definitions : Definitions) (functions : Functions)
    (temporaries : functions.runtime.Temporaries) (expression : Expression) (memory : Memory) :
    Option (Datum × Memory) :=
  match expression.toGo definitions with
  | .ok text => (read text).bind fun term => functions.runtime.eval temporaries term memory
  | .error _ => none

section Values

variable {definitions : Definitions} {functions : Functions}
  {temporaries : functions.runtime.Temporaries} {sequence key expression : Expression}
  {memory between after : Memory}

theorem WellNamed.exists_text (h : expression.WellNamed definitions) :
    ∃ text, expression.toGo definitions = .ok text := toGo_ok expression h.references

theorem WellNamed.goEval_eq (h : expression.WellNamed definitions) (memory : Memory) :
    expression.goEval definitions functions temporaries memory =
      (expression.readTerm definitions).bind fun term =>
        functions.runtime.eval temporaries term memory := by
  obtain ⟨text, htext⟩ := h.exists_text
  have hread : read text = expression.readTerm definitions :=
    (readAs_toGo expression h.names htext).read
  rw [goEval, htext, ← hread]
  rfl

/-- A value comes from the tree that is read. -/
theorem WellNamed.exists_term (h : expression.WellNamed definitions) {result : Datum × Memory}
    (hvalue : expression.goEval definitions functions temporaries memory = some result) :
    ∃ term, expression.readTerm definitions = some term ∧
      functions.runtime.eval temporaries term memory = some result := by
  rw [h.goEval_eq] at hvalue
  exact Option.bind_eq_some_iff.1 hvalue

theorem isName_head : IsName "Head" := ⟨⟨'H', rfl, by decide⟩, by decide, by decide⟩

theorem isName_tail : IsName "Tail" := ⟨⟨'T', rfl, by decide⟩, by decide, by decide⟩

theorem WellNamed.index (hsequence : sequence.WellNamed definitions)
    (hkey : key.WellNamed definitions) (uid : Uid) :
    (index uid sequence [key]).WellNamed definitions where
  names := by
    rw [Expression.names, listNames, listNames, List.append_nil]
    exact List.forall_mem_append.2 ⟨hsequence.names, hkey.names⟩
  references := by
    rw [identifiers, listIdentifiers, listIdentifiers, List.append_nil]
    exact List.forall_mem_append.2 ⟨hsequence.references, hkey.references⟩

theorem WellNamed.apply (h : sequence.WellNamed definitions) {name : String} (hname : IsName name)
    (uid : Uid) : (apply uid name [sequence]).WellNamed definitions where
  names := by
    rw [Expression.names, listNames, listNames, List.append_nil]
    exact List.forall_mem_cons.2 ⟨hname, h.names⟩
  references := by
    rw [identifiers, listIdentifiers, listIdentifiers, List.append_nil]
    exact h.references

theorem WellNamed.next (h : key.WellNamed definitions) (uid second : Uid) :
    (binary uid .add key (number second 1)).WellNamed definitions where
  names := by
    rw [Expression.names, Expression.names, List.append_nil]
    exact h.names
  references := by
    rw [identifiers, identifiers, List.append_nil]
    exact h.references

/-- Where the sequence has no value, none of its elements has one. -/
theorem goEval_index_eq_none (h : sequence.IsSequence) (hnamed : sequence.WellNamed definitions)
    (hsequence : sequence.goEval definitions functions temporaries memory = none)
    (hkeyNamed : key.WellNamed definitions) {subscript : Term}
    (hsubscript : key.readTerm definitions = some subscript) (uid : Uid) :
    (index uid sequence [key]).goEval definitions functions temporaries memory = none := by
  rw [hnamed.goEval_eq] at hsequence
  rw [(hnamed.index hkeyNamed uid).goEval_eq]
  cases hroot : sequence.readTerm definitions with
  | none =>
    rw [Expression.readTerm, hroot]
    rfl
  | some root =>
    rw [hroot, Option.bind_some] at hsequence
    rw [readTerm_index h hroot hsubscript uid]
    exact Runtime.eval_index_eq_none hsequence

section Elements

variable {slice : Slice} {value : Value} {n : Int} (h : sequence.IsSequence)
  (hnamed : sequence.WellNamed definitions)
  (hsequence : sequence.goEval definitions functions temporaries memory =
    some (.slice slice, between))

include h hnamed hsequence

/-- `Head` selects the first element. -/
theorem goEval_head (uid : Uid) :
    (apply uid "Head" [sequence]).goEval definitions functions temporaries memory =
      slice.select between 1 := by
  obtain ⟨root, hroot, hsequence⟩ := hnamed.exists_term hsequence
  have hzero : functions.runtime.eval temporaries (.int 0) between =
      some (.scalar (.constant 0), between) := rfl
  rw [(hnamed.apply isName_head uid).goEval_eq, readTerm_head h hroot uid, Option.bind_some]
  exact Functions.eval_index hsequence hzero rfl

/-- `Tail` leaves the first element out. -/
theorem goEval_tail (uid : Uid) :
    (apply uid "Tail" [sequence]).goEval definitions functions temporaries memory =
      (slice.from? 1).map fun others => (.slice others, between) := by
  obtain ⟨root, hroot, hsequence⟩ := hnamed.exists_term hsequence
  rw [(hnamed.apply isName_tail uid).goEval_eq, readTerm_tail h hroot uid, Option.bind_some]
  exact Functions.eval_others hsequence

variable (hkeyNamed : key.WellNamed definitions)
  (hkey : key.goEval definitions functions temporaries between = some (.scalar value, after))
  (hvalue : value.toInt? = some n)

include hkeyNamed hkey hvalue

/-- A subscript of a sequence selects the element with its number, or the one behind it. -/
theorem goEval_index (uid : Uid) :
    (index uid sequence [key]).goEval definitions functions temporaries memory =
      slice.select after (n + sequence.shift definitions) := by
  obtain ⟨root, hroot, hsequence⟩ := hnamed.exists_term hsequence
  obtain ⟨subscript, hsubscript, hkey⟩ := hkeyNamed.exists_term hkey
  rw [(hnamed.index hkeyNamed uid).goEval_eq, readTerm_index h hroot hsubscript uid,
    Option.bind_some, shift]
  by_cases hslice : sequence.rootResource definitions = .ok .slice
  · rw [if_pos hslice, Int.add_zero, subscriptTerm, decide_eq_true hslice, if_pos rfl]
    exact Functions.eval_reduced hsequence hkey hvalue
  · rw [if_neg hslice, subscriptTerm, decide_eq_false hslice, if_neg Bool.false_ne_true]
    exact Functions.eval_index hsequence hkey hvalue

/-- The next key selects the next element. -/
theorem goEval_next (uid sum one : Uid) :
    (index uid sequence [binary sum .add key (number one 1)]).goEval definitions functions
        temporaries memory =
      slice.select after (n + 1 + sequence.shift definitions) := by
  have hlength := slice.length_lt
  obtain ⟨result, m, hresult, hm, hstep⟩ : ∃ result m,
      (binary sum .add key (number one 1)).goEval definitions functions temporaries between =
        some (.scalar result, after) ∧ result.toInt? = some m ∧
      (m = n + 1 ∨ Fits n ∧ Fits m ∧ (m = n + 1 + 2 ^ 64 ∨ m = n + 1 - 2 ^ 64)) := by
    obtain ⟨subscript, hsubscript, hkey⟩ := hkeyNamed.exists_term hkey
    rw [(hkeyNamed.next sum one).goEval_eq, readTerm_next hsubscript sum one, Option.bind_some]
    exact Functions.eval_step (.inl ⟨rfl, rfl⟩) hkey hvalue
  rw [goEval_index h hnamed hsequence (hkeyNamed.next sum one) hresult hm uid]
  rcases hstep with rfl | ⟨hn, hfits, hwrapped⟩
  · rfl
  · -- After the largest integer comes the smallest one. No slice has an element for either.
    have hshift := shift_eq_zero_or_one definitions sequence
    simp only [Fits] at hn hfits
    rw [Slice.select, Slice.number?_eq_none (by omega), Slice.select,
      Slice.number?_eq_none (by omega)]

/-- Among the elements behind the first one, a key selects the element behind the next one. -/
theorem goEval_rest (uid tail : Uid) :
    (index uid (apply tail "Tail" [sequence]) [key]).goEval definitions functions temporaries
        memory =
      if 0 ≤ n then slice.select after (n + 2) else none := by
  have htail := goEval_tail h hnamed hsequence tail
  have htailNamed := hnamed.apply isName_tail tail
  cases hothers : slice.from? 1 with
  | none =>
    have hempty : slice.length = 0 := Slice.length_eq_zero_of_from? hothers
    obtain ⟨subscript, hsubscript, -⟩ := hkeyNamed.exists_term hkey
    rw [hothers, Option.map_none] at htail
    rw [goEval_index_eq_none (h.tail tail) htailNamed htail hkeyNamed hsubscript uid]
    split
    · next hpositive => rw [Slice.select, Slice.number?_eq_none (by omega), Option.map_none]
    · rfl
  | some others =>
    rw [hothers, Option.map_some] at htail
    rw [goEval_index (h.tail tail) htailNamed htail hkeyNamed hkey hvalue uid,
      shift_tail, Slice.select]
    split
    · next hpositive =>
      rw [Slice.number?_of_from? hothers (by omega), Int.add_assoc]
      rfl
    · next hnegative => rw [Slice.number?_eq_none (by omega), Option.map_none]

end Elements

end Values

/-- The elements of a declared slice are counted from one, those of any other sequence from zero:
the key selects the element with its number from a declared slice, and the one behind it from any
other sequence, so from what `Tail` leaves it selects the second one behind it. `Head` always
selects the first element. Where the element is missing, there is no value. -/
theorem sequence_elements {definitions : Definitions} {sequence key : Expression}
    (hsequence : sequence.IsSequence) (hnamed : sequence.WellNamed definitions)
    (hkeyNamed : key.WellNamed definitions) (uid inner one : Uid) :
    let head := apply uid "Head" [sequence]
    let element := index uid sequence [key]
    let next := index uid sequence [binary inner .add key (number one 1)]
    let rest := index uid (apply inner "Tail" [sequence]) [key]
    let shift := sequence.shift definitions
    (∀ expression ∈ [head, element, next, rest],
        ∃ text, expression.toGo definitions = .ok text) ∧
      (sequence.DeclaredSlice definitions ∧ shift = 0 ∨
        ¬sequence.DeclaredSlice definitions ∧ shift = 1) ∧
      ∀ (functions : Functions) (temporaries : functions.runtime.Temporaries)
        (memory between : Memory) (slice : Slice),
        sequence.goEval definitions functions temporaries memory = some (.slice slice, between) →
          head.goEval definitions functions temporaries memory = slice.select between 1 ∧
          ∀ (value : Value) (n : Int) (after : Memory),
            key.goEval definitions functions temporaries between = some (.scalar value, after) →
            value.toInt? = some n →
              element.goEval definitions functions temporaries memory =
                slice.select after (n + shift) ∧
              next.goEval definitions functions temporaries memory =
                slice.select after (n + 1 + shift) ∧
              rest.goEval definitions functions temporaries memory =
                if 0 ≤ n then slice.select after (n + 2) else none := by
  intro head element next rest shift
  have htexts : ∀ expression ∈ [head, element, next, rest], expression.WellNamed definitions := by
    simp only [List.forall_mem_cons]
    exact ⟨hnamed.apply isName_head uid, hnamed.index hkeyNamed uid,
      hnamed.index (hkeyNamed.next inner one) uid,
      (hnamed.apply isName_tail inner).index hkeyNamed uid, List.forall_mem_nil _⟩
  have hshift : sequence.DeclaredSlice definitions ∧ shift = 0 ∨
      ¬sequence.DeclaredSlice definitions ∧ shift = 1 := by
    rw [← shift_eq_zero_iff hsequence]
    rcases shift_eq_zero_or_one definitions sequence with hzero | hone
    · exact .inl ⟨hzero, hzero⟩
    · exact .inr ⟨by omega, hone⟩
  refine ⟨fun expression hmem => (htexts expression hmem).exists_text, hshift, ?_⟩
  intro functions temporaries memory between slice hslice
  refine ⟨goEval_head hsequence hnamed hslice uid, ?_⟩
  intro value n after hkey hvalue
  exact ⟨goEval_index hsequence hnamed hslice hkeyNamed hkey hvalue uid,
    goEval_next hsequence hnamed hslice hkeyNamed hkey hvalue uid inner one,
    goEval_rest hsequence hnamed hslice hkeyNamed hkey hvalue uid inner⟩

/-- A declared slice with the elements four, five and six. -/
theorem sequence_elements_declared :
    let definitions : Definitions := ⟨[⟨⟨1⟩, "q", .global .slice, .unknown⟩], [(⟨2⟩, ⟨1⟩)]⟩
    let sequence := identifier ⟨2⟩ "q"
    let key := number ⟨3⟩ 1
    let slice : Slice := ⟨0, 0, 3, 3, Nat.le_refl 3, by decide⟩
    let memory : Memory := fun cell =>
      match cell with
      | .element (.position 0 place) => .scalar (.constant (4 + place))
      | _ => .slice slice
    (sequence.IsSequence ∧ sequence.WellNamed definitions ∧ key.WellNamed definitions ∧
        sequence.goEval definitions .literals [] memory = some (.slice slice, memory) ∧
        key.goEval definitions .literals [] memory = some (.scalar (.constant 1), memory) ∧
        (Value.constant 1).toInt? = some 1) ∧
      (apply ⟨4⟩ "Head" [sequence]).goEval definitions .literals [] memory =
        some (.scalar (.constant 4), memory) ∧
      (index ⟨4⟩ sequence [key]).goEval definitions .literals [] memory =
        some (.scalar (.constant 4), memory) ∧
      (index ⟨4⟩ sequence [binary ⟨5⟩ .add key (number ⟨6⟩ 1)]).goEval definitions .literals []
          memory = some (.scalar (.constant 5), memory) ∧
      (index ⟨4⟩ (apply ⟨5⟩ "Tail" [sequence]) [key]).goEval definitions .literals [] memory =
        some (.scalar (.constant 6), memory) := by
  intro definitions sequence key slice memory
  have hq : IsName "q" := ⟨⟨'q', rfl, by decide⟩, by decide, by decide⟩
  have hsequence : sequence.IsSequence := .named ⟨2⟩ "q"
  have hnamed : sequence.WellNamed definitions :=
    ⟨by simp [sequence, names, hq], by simp [sequence, identifiers, definitions]; exact ⟨_, rfl⟩⟩
  have hkeyNamed : key.WellNamed definitions :=
    ⟨by simp [key, names], by simp [key, identifiers]⟩
  have hslice : sequence.goEval definitions .literals [] memory = some (.slice slice, memory) := by
    rw [hnamed.goEval_eq]
    rfl
  have hkey : key.goEval definitions .literals [] memory =
      some (.scalar (.constant 1), memory) := by
    rw [hkeyNamed.goEval_eq]
    rfl
  obtain ⟨-, -, hvalues⟩ := sequence_elements hsequence hnamed hkeyNamed ⟨4⟩ ⟨5⟩ ⟨6⟩
  obtain ⟨hhead, hsubscripts⟩ := hvalues .literals [] memory memory slice hslice
  obtain ⟨helement, hnext, hrest⟩ := hsubscripts (.constant 1) 1 memory hkey rfl
  exact ⟨⟨hsequence, hnamed, hkeyNamed, hslice, hkey, rfl⟩, hhead, helement, hnext, hrest⟩

/-- The first element of a literal is its `Head`, but its subscript with one selects the second one.
The first element of what `Tail` leaves is the second element of the whole, but a subscript with one
selects the third one. -/
theorem literals_counted_from_zero :
    let definitions : Definitions := ⟨[⟨⟨1⟩, "q", .global .slice, .unknown⟩], [(⟨2⟩, ⟨1⟩)]⟩
    let pair := tuple ⟨3⟩ [number ⟨4⟩ 4, number ⟨5⟩ 5]
    let first := index ⟨6⟩ pair [number ⟨7⟩ 1]
    let queue := identifier ⟨2⟩ "q"
    let next := index ⟨8⟩ queue [binary ⟨9⟩ .add (number ⟨10⟩ 1) (number ⟨11⟩ 1)]
    let rest := index ⟨12⟩ (apply ⟨13⟩ "Tail" [queue]) [number ⟨14⟩ 1]
    let slice : Slice := ⟨0, 0, 2, 2, Nat.le_refl 2, by decide⟩
    let memory : Memory := fun cell =>
      match cell with
      | .element (.position 1 place) => .scalar (.constant (7 + place))
      | _ => .slice ⟨1, 0, 3, 3, Nat.le_refl 3, by decide⟩
    (pair.IsSequence ∧ first.toGo definitions = .ok "[]int\x7b4, 5\x7d[1]" ∧
      ∃ filled : Memory,
        pair.goEval definitions .literals [] memory = some (.slice slice, filled) ∧
        slice.select filled 1 = some (.scalar (.constant 4), filled) ∧
        (apply ⟨6⟩ "Head" [pair]).goEval definitions .literals [] memory =
          some (.scalar (.constant 4), filled) ∧
        first.goEval definitions .literals [] memory = some (.scalar (.constant 5), filled)) ∧
      queue.IsSequence ∧ next.toGo definitions = .ok "q[(1 + 1)-1]" ∧
      rest.toGo definitions = .ok "q[1:][1]" ∧
      next.goEval definitions .literals [] memory = some (.scalar (.constant 8), memory) ∧
      rest.goEval definitions .literals [] memory = some (.scalar (.constant 9), memory) := by
  intro definitions pair first queue next rest slice memory
  exact ⟨⟨.tuple _ _, rfl, _, rfl, rfl, rfl, rfl⟩, .named _ _, rfl, rfl, rfl, rfl⟩

end Expression

end PlusCalGo
