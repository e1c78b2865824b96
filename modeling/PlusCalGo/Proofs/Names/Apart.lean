import PlusCalGo.Proofs.Names.Denotations

/-!
# Names that are kept apart

Around the code of a function stand the names of variables, copies and functions, and names that the
back end takes for itself. If these are kept apart, no name is taken from what it stands for.
-/

namespace PlusCalGo

namespace Go

/-! ## Names that belong to something -/

/-- The names that the back end takes for itself, besides `self`. -/
def Internal (name : String) : Prop :=
  name ∈ ["err", "fmt", "rand", "sync"] ∨ "pgo".toList <+: name.toList

def Reserved (name : String) : Prop := name = "self" ∨ Internal name

instance (name : String) : Decidable (Internal name) := inferInstanceAs (Decidable (_ ∨ _))

instance (name : String) : Decidable (Reserved name) := inferInstanceAs (Decidable (_ ∨ _))

/-- What the names stand for that are declared around the code of a function. -/
def Declared.Belongs (sources copies functions : List String) (name : String) : Declared → Prop
  | source _ => name ∈ sources
  | copy global => name = global ∧ name ∈ copies
  | function => name ∈ functions
  | self => name = "self"
  | _ => Internal name

/-- No name has two sorts of things to stand for. -/
structure Apart (sources copies functions : List String) : Prop where
  reserved : ∀ name ∈ sources ++ (copies ++ functions), ¬ Reserved name
  copied : ∀ name ∈ copies, name ∉ sources
  called : ∀ name ∈ functions, name ∉ sources ++ copies

instance (sources copies functions : List String) :
    Decidable (Apart sources copies functions) :=
  decidable_of_iff ((∀ name ∈ sources ++ (copies ++ functions), ¬ Reserved name) ∧
      (∀ name ∈ copies, name ∉ sources) ∧ ∀ name ∈ functions, name ∉ sources ++ copies)
    ⟨fun ⟨hreserved, hcopied, hcalled⟩ => ⟨hreserved, hcopied, hcalled⟩,
      fun h => ⟨h.reserved, h.copied, h.called⟩⟩

theorem not_internal_self : ¬ Internal "self" := by decide

theorem internal_temporary (number : Nat) : Internal (temporaryName number) := by
  refine .inr ?_
  rw [temporaryName, String.toList_append]
  exact (by decide : "pgo".toList <+: "pgoTmp".toList).trans (List.prefix_append _ _)

section Apart

variable {sources copies functions : List String} {name : String} {declared other : Declared}

/-- A rival of one name is of another sort. -/
theorem Apart.not_rivals (h : Apart sources copies functions)
    (hdeclared : declared.Belongs sources copies functions name)
    (hother : other.Belongs sources copies functions name) : ¬ declared.Rivals other := by
  have hreserved := h.reserved name
  have hcopied := h.copied name
  have hcalled := h.called name
  simp only [List.mem_append, Reserved] at hreserved hcalled
  cases declared <;> cases other <;>
    simp only [Declared.Belongs, Declared.Rivals, Declared.isSource, Declared.isCopy,
      Declared.isNamed] at hdeclared hother ⊢ <;> grind

/-- Only another variable of the algorithm could hide one. -/
theorem Apart.not_hides (h : Apart sources copies functions) {strategy : Strategy}
    {definition : Definition}
    (hdeclared : (variableOf strategy definition).Belongs sources copies functions name)
    (hother : other.Belongs sources copies functions name) :
    ¬ (variableOf strategy definition).Hides other := by
  have hreserved := h.reserved name
  have hcopied := h.copied name
  have hcalled := h.called name
  have hself := not_internal_self
  simp only [List.mem_append, Reserved] at hreserved hcalled
  rcases variableOf_cases strategy definition with hvariable | hvariable | hvariable <;>
    rw [hvariable] at hdeclared ⊢ <;> cases other <;>
    simp only [Declared.Belongs, Declared.Hides, Declared.isSource] at hdeclared hother ⊢ <;> grind

end Apart

/-! ## Names around code -/

namespace Blocks

variable {blocks : Blocks} {block : Block} {property : String × Declared → Prop} {name : String}
  {declared other : Declared}

/-- All that is declared around the code has the property. -/
def Only (property : String × Declared → Prop) (blocks : Blocks) : Prop :=
  ∀ block ∈ blocks, ∀ entry ∈ block, property entry

theorem Only.cons (h : blocks.Only property) (hblock : ∀ entry ∈ block, property entry) :
    Only property (block :: blocks) :=
  List.forall_mem_cons.2 ⟨hblock, h⟩

theorem Only.nest (h : blocks.Only property) : Only property ([] :: blocks) :=
  h.cons (List.forall_mem_nil _)

theorem declares_of_others (h : other ∈ blocks.others name declared) :
    blocks.Declares name other := by
  induction blocks with
  | nil => cases h
  | cons block rest ih =>
    rw [declares_cons]
    unfold others at h
    split at h
    · exact .inl (List.mem_of_mem_erase h)
    · exact (List.mem_append.1 h).imp_right ih

/-- If no rival can have the name, it denotes what it is declared for. -/
theorem Hosts.lookup {rival : Declared → Prop} (h : blocks.Hosts name declared rival)
    (honly : blocks.Only property)
    (hnone : ∀ other, property (name, declared) → property (name, other) → ¬ rival other) :
    blocks.lookup name = some declared := by
  refine h.denotes.2 fun other hother => ?_
  obtain ⟨block, hblock, hmem⟩ := h.declares
  obtain ⟨further, hfurther, hfound⟩ := declares_of_others hother
  exact hnone other (honly block hblock _ hmem) (honly further hfurther _ hfound)

end Blocks

namespace NamedCode

mutual

/-- What code declares, at any depth. -/
def declarations : NamedCode → Block
  | line _ | label _ | goto _ => []
  | declare _ name declared => [(name, declared)]
  | branch condition yes no =>
    condition.declares ++ (listDeclarations yes ++ listDeclarations no)
  | loop body | block body => listDeclarations body
  | switch _ cases => casesDeclarations cases

def listDeclarations : List NamedCode → Block
  | [] => []
  | code :: rest => code.declarations ++ listDeclarations rest

def casesDeclarations : List (List NamedCode) → Block
  | [] => []
  | body :: rest => listDeclarations body ++ casesDeclarations rest

end

theorem listDeclarations_append (first second : List NamedCode) :
    listDeclarations (first ++ second) = listDeclarations first ++ listDeclarations second := by
  induction first with
  | nil => rfl
  | cons code rest ih =>
    rw [List.cons_append, listDeclarations, ih, listDeclarations, List.append_assoc]

section Uses

variable {property : String × Declared → Prop} {blocks : Blocks}

private theorem only_words (h : blocks.Only property) (words : List Word) :
    ∀ use ∈ words.map (·, blocks), use.2.Only property := by
  intro use hmem
  obtain ⟨word, _, rfl⟩ := List.mem_map.1 hmem
  exact h

private theorem only_after (h : blocks.Only property) (code : NamedCode)
    (hcode : ∀ entry ∈ code.declarations, property entry) : (code.after blocks).Only property := by
  cases code with
  | declare words name declared =>
    have hentry := hcode _ List.mem_cons_self
    cases blocks with
    | nil => exact h.cons (List.forall_mem_singleton.2 hentry)
    | cons inner outer =>
      obtain ⟨hinner, houter⟩ := List.forall_mem_cons.1 h
      exact List.forall_mem_cons.2 ⟨List.forall_mem_cons.2 ⟨hentry, hinner⟩, houter⟩
  | _ => exact h

mutual

/-- Around the names of code nothing is declared but what was around the code or is in it. -/
theorem only_uses {blocks : Blocks} (h : blocks.Only property) (code : NamedCode)
    (hcode : ∀ entry ∈ code.declarations, property entry) :
    ∀ use ∈ code.uses blocks, use.2.Only property := by
  cases code with
  | line words => exact only_words h words
  | declare words name declared => exact only_words h words
  | label name => exact List.forall_mem_nil _
  | goto name => exact List.forall_mem_nil _
  | branch condition yes no =>
    obtain ⟨hdeclares, hbranches⟩ := List.forall_mem_append.1 hcode
    obtain ⟨hyes, hno⟩ := List.forall_mem_append.1 hbranches
    have hinner := h.cons hdeclares
    rw [uses]
    exact List.forall_mem_append.2 ⟨only_words h _, List.forall_mem_append.2 ⟨only_words hinner _,
      List.forall_mem_append.2 ⟨only_listUses hinner.nest yes hyes,
        only_listUses hinner.nest no hno⟩⟩⟩
  | loop body => exact only_listUses h.nest body hcode
  | block body => exact only_listUses h.nest body hcode
  | switch subject cases => exact only_casesUses h cases hcode

theorem only_listUses {blocks : Blocks} (h : blocks.Only property) (code : List NamedCode)
    (hcode : ∀ entry ∈ listDeclarations code, property entry) :
    ∀ use ∈ listUses blocks code, use.2.Only property := by
  cases code with
  | nil => exact List.forall_mem_nil _
  | cons first rest =>
    obtain ⟨hfirst, hrest⟩ := List.forall_mem_append.1 hcode
    exact List.forall_mem_append.2 ⟨only_uses h first hfirst,
      only_listUses (only_after h first hfirst) rest hrest⟩

theorem only_casesUses {blocks : Blocks} (h : blocks.Only property)
    (cases : List (List NamedCode))
    (hcases : ∀ entry ∈ casesDeclarations cases, property entry) :
    ∀ use ∈ casesUses blocks cases, use.2.Only property := by
  cases cases with
  | nil => exact List.forall_mem_nil _
  | cons body rest =>
    obtain ⟨hbody, hrest⟩ := List.forall_mem_append.1 hcases
    exact List.forall_mem_append.2 ⟨only_listUses h.nest body hbody, only_casesUses h rest hrest⟩

end

end Uses

end NamedCode

/-! ## Names that denote -/

/-- The name denotes what it stands for. -/
def Word.Denotes (definitions : Definitions) (strategy : Strategy) (word : Word)
    (blocks : Blocks) : Prop :=
  match word with
  | text _ => True
  | identifier uid name => ∃ definition, definitions.resolve uid = .ok definition ∧
      definition.name = name ∧ blocks.lookup name = some (variableOf strategy definition)
  | own name declared => blocks.lookup name = some declared

/-- All names in the code do so. -/
def NamedCode.Denotes (definitions : Definitions) (strategy : Strategy) (blocks : Blocks)
    (code : List NamedCode) : Prop :=
  ∀ use ∈ NamedCode.listUses blocks code, use.1.Denotes definitions strategy use.2

section Denotes

variable {definitions : Definitions} {strategy : Strategy} {blocks : Blocks}
  {sources copies functions : List String}

theorem Word.Hosted.denotes {word : Word} (h : word.Hosted definitions strategy blocks)
    (hapart : Apart sources copies functions)
    (honly : blocks.Only fun entry => entry.2.Belongs sources copies functions entry.1) :
    word.Denotes definitions strategy blocks := by
  cases word with
  | text string => trivial
  | identifier uid name =>
    obtain ⟨definition, hresolve, hname, hhosts⟩ := h
    exact ⟨definition, hresolve, hname, hhosts.lookup honly fun _ => hapart.not_hides⟩
  | own name declared => exact Blocks.Hosts.lookup h honly fun _ => hapart.not_rivals

/-- If what is declared around the code and in it is kept apart, all names denote. -/
theorem NamedCode.Hosted.denotes {code : List NamedCode}
    (h : NamedCode.Hosted definitions strategy blocks code)
    (hapart : Apart sources copies functions)
    (honly : blocks.Only fun entry => entry.2.Belongs sources copies functions entry.1)
    (hcode : ∀ entry ∈ NamedCode.listDeclarations code,
      entry.2.Belongs sources copies functions entry.1) :
    NamedCode.Denotes definitions strategy blocks code :=
  fun use hmem => (h use hmem).denotes hapart (NamedCode.only_listUses honly code hcode use hmem)

end Denotes

end Go

end PlusCalGo
