import PlusCalGo.Json.Basic
import PlusCalGo.Json.Reader
import Mathlib.Data.List.Basic

/-!
# Layouts of written values

The two written forms of a value differ only in the blanks between their tokens. A layout says
where blanks stand; what holds of the text under every layout holds of both forms. Here are also
the facts about a written value that its readers look at: its first character, what may follow it,
and how many of its brackets are open at once.
-/

namespace PlusCalGo.Json

open Reader (isBlank)

/-- Nothing but blanks. -/
def Blank (text : List Char) : Prop := ∀ c ∈ text, isBlank c = true

/-- Where blanks stand: before an element, a member or a closing bracket, by the number of
brackets open there, and after a colon. -/
structure Layout where
  line : Nat → List Char
  space : List Char
  line_blank : ∀ n, Blank (line n)
  space_blank : Blank space

namespace Layout

variable (layout : Layout)

mutual

/-- The characters of a value inside of `inside` open brackets. -/
def write (inside : Nat) : Json → List Char
  | null => ['n', 'u', 'l', 'l']
  | bool true => ['t', 'r', 'u', 'e']
  | bool false => ['f', 'a', 'l', 's', 'e']
  | integer n => writeInteger n
  | string text => writeString text
  | array [] => ['[', ']']
  | array (element :: rest) =>
    '[' :: (layout.line (inside + 1) ++ write (inside + 1) element ++ writeElements inside rest)
  | object [] => ['\x7b', '\x7d']
  | object ((name, value) :: rest) =>
    '\x7b' :: (layout.line (inside + 1) ++ writeString name ++ ':' ::
      (layout.space ++ write (inside + 1) value ++ writeMembers inside rest))

def writeElements (inside : Nat) : List Json → List Char
  | [] => layout.line inside ++ [']']
  | element :: rest =>
    ',' :: (layout.line (inside + 1) ++ write (inside + 1) element ++ writeElements inside rest)

def writeMembers (inside : Nat) : List (String × Json) → List Char
  | [] => layout.line inside ++ ['\x7d']
  | (name, value) :: rest =>
    ',' :: (layout.line (inside + 1) ++ writeString name ++ ':' ::
      (layout.space ++ write (inside + 1) value ++ writeMembers inside rest))

end

/-! ## The two written forms -/

def oneLine : Layout where
  line _ := []
  space := []
  line_blank := by simp [Blank]
  space_blank := by simp [Blank]

def indented : Layout where
  line := newline
  space := [' ']
  line_blank n c hc := by
    simp only [newline, List.mem_cons, List.mem_replicate] at hc
    rcases hc with rfl | ⟨_, rfl⟩ <;> decide
  space_blank := by simp [Blank, isBlank]

@[simp] theorem oneLine_line (inside : Nat) : oneLine.line inside = [] := rfl

@[simp] theorem oneLine_space : oneLine.space = [] := rfl

@[simp] theorem indented_line (inside : Nat) : indented.line inside = newline inside := rfl

@[simp] theorem indented_space : indented.space = [' '] := rfl

mutual

theorem write_oneLine (inside : Nat) : ∀ value : Json, oneLine.write inside value = value.write
  | null | integer _ | string _ | array [] | object [] | bool true | bool false => by
    simp [write, Json.write]
  | array (element :: rest) => by
    have he := write_oneLine (inside + 1) element
    have hr := writeElements_oneLine inside rest
    simp [write, Json.write, he, hr]
  | object ((name, value) :: rest) => by
    have hv := write_oneLine (inside + 1) value
    have hr := writeMembers_oneLine inside rest
    simp [write, Json.write, hv, hr]

theorem writeElements_oneLine (inside : Nat) :
    ∀ elements : List Json, oneLine.writeElements inside elements = Json.writeElements elements
  | [] => by simp [writeElements, Json.writeElements]
  | element :: rest => by
    have he := write_oneLine (inside + 1) element
    have hr := writeElements_oneLine inside rest
    simp [writeElements, Json.writeElements, he, hr]

theorem writeMembers_oneLine (inside : Nat) : ∀ members : List (String × Json),
    oneLine.writeMembers inside members = Json.writeMembers members
  | [] => by simp [writeMembers, Json.writeMembers]
  | (name, value) :: rest => by
    have hv := write_oneLine (inside + 1) value
    have hr := writeMembers_oneLine inside rest
    simp [writeMembers, Json.writeMembers, hv, hr]

end

mutual

theorem write_indented (inside : Nat) :
    ∀ value : Json, indented.write inside value = value.writeIndented inside
  | null | integer _ | string _ | array [] | object [] | bool true | bool false => by
    simp [write, writeIndented]
  | array (element :: rest) => by
    have he := write_indented (inside + 1) element
    have hr := writeElements_indented inside rest
    simp [write, writeIndented, he, hr]
  | object ((name, value) :: rest) => by
    have hv := write_indented (inside + 1) value
    have hr := writeMembers_indented inside rest
    simp [write, writeIndented, hv, hr]

theorem writeElements_indented (inside : Nat) : ∀ elements : List Json,
    indented.writeElements inside elements = writeIndentedElements inside elements
  | [] => by simp [writeElements, writeIndentedElements]
  | element :: rest => by
    have he := write_indented (inside + 1) element
    have hr := writeElements_indented inside rest
    simp [writeElements, writeIndentedElements, he, hr]

theorem writeMembers_indented (inside : Nat) : ∀ members : List (String × Json),
    indented.writeMembers inside members = writeIndentedMembers inside members
  | [] => by simp [writeMembers, writeIndentedMembers]
  | (name, value) :: rest => by
    have hv := write_indented (inside + 1) value
    have hr := writeMembers_indented inside rest
    simp [writeMembers, writeIndentedMembers, hv, hr]

end

end Layout

/-! ## Depth -/

mutual

/-- How many brackets of the value are open at once. -/
def depth : Json → Nat
  | null | bool _ | integer _ | string _ => 0
  | array elements => elementsDepth elements + 1
  | object members => membersDepth members + 1

def elementsDepth : List Json → Nat
  | [] => 0
  | element :: rest => max element.depth (elementsDepth rest)

def membersDepth : List (String × Json) → Nat
  | [] => 0
  | (_, value) :: rest => max value.depth (membersDepth rest)

end

/-! ## The ends of a written value -/

theorem toDigits_ne_nil (n : Nat) : Nat.toDigits 10 n ≠ [] := Nat.toDigits_ne_nil

theorem isDigit_of_mem_toDigits {n : Nat} {c : Char} (hc : c ∈ Nat.toDigits 10 n) :
    c.isDigit = true :=
  Nat.isDigit_of_mem_toDigits (by decide) (by decide) hc

/-- A written value starts with a character that is no blank and closes no list, and with the `n`
of `null` only if it is that. -/
structure Starts (value : Json) (c : Char) : Prop where
  notBlank : isBlank c = false
  notClosing : c ≠ ']'
  isNull : c = 'n' → value = null

theorem starts_of_isDigit {value : Json} {c : Char} (hc : c.isDigit = true) : Starts value c := by
  refine ⟨?_, ?_, ?_⟩
  · by_contra hblank
    simp only [isBlank, Bool.not_eq_false, Bool.or_eq_true, decide_eq_true_eq] at hblank
    rcases hblank with ((rfl | rfl) | rfl) | rfl <;> simp at hc
  · rintro rfl
    simp at hc
  · rintro rfl
    simp at hc

theorem Layout.write_starts (layout : Layout) (inside : Nat) (value : Json) :
    ∃ c text, layout.write inside value = c :: text ∧ Starts value c := by
  cases value with
  | integer n =>
    obtain ⟨c, digits, hd⟩ := List.exists_cons_of_ne_nil (toDigits_ne_nil n.natAbs)
    have hc : c.isDigit = true := isDigit_of_mem_toDigits (by rw [hd]; simp)
    by_cases hn : n < 0
    · exact ⟨'-', _, by rw [write, writeInteger, if_pos hn], by decide, by decide, by simp⟩
    · exact ⟨c, digits, by rw [write, writeInteger, if_neg hn, hd], starts_of_isDigit hc⟩
  | null => exact ⟨_, _, by rw [write], by decide, by decide, fun _ => rfl⟩
  | bool b => cases b <;> exact ⟨_, _, by rw [write], by decide, by decide, by simp⟩
  | string text => exact ⟨_, _, by rw [write, writeString], by decide, by decide, by simp⟩
  | array elements =>
    cases elements <;> exact ⟨_, _, by rw [write], by decide, by decide, by simp⟩
  | object members =>
    rcases members with _ | ⟨⟨name, value⟩, rest⟩ <;>
      exact ⟨_, _, by rw [write], by decide, by decide, by simp⟩

/-- The text does not go on a number that stands before it. -/
def Ends (text : List Char) : Prop :=
  ∀ c ∈ text.head?, c.isDigit = false ∧ c ≠ '.' ∧ c ≠ 'e' ∧ c ≠ 'E'

theorem ends_nil : Ends [] := by simp [Ends]

theorem ends_of_blank {blanks text : List Char} (hb : Blank blanks) (ht : Ends text) :
    Ends (blanks ++ text) := by
  cases blanks with
  | nil => exact ht
  | cons c more =>
    have hc := hb c (by simp)
    simp only [isBlank, Bool.or_eq_true, decide_eq_true_eq] at hc
    intro d hd
    obtain rfl : c = d := by simpa using hd
    rcases hc with ((rfl | rfl) | rfl) | rfl <;> decide

theorem Layout.ends_writeElements (layout : Layout) (inside : Nat) (elements : List Json)
    (rest : List Char) : Ends (layout.writeElements inside elements ++ rest) := by
  cases elements with
  | nil =>
    rw [writeElements, List.append_assoc]
    exact ends_of_blank (layout.line_blank inside) (by simp [Ends])
  | cons element more => simp [writeElements, Ends]

theorem Layout.ends_writeMembers (layout : Layout) (inside : Nat) (members : List (String × Json))
    (rest : List Char) : Ends (layout.writeMembers inside members ++ rest) := by
  cases members with
  | nil =>
    rw [writeMembers, List.append_assoc]
    exact ends_of_blank (layout.line_blank inside) (by simp [Ends])
  | cons member more => simp [writeMembers, Ends]

end PlusCalGo.Json
