import PlusCalGo.Proofs.Go.Path

/-!
# Properties of every place

A property of what is left of a block holds everywhere in a body if it holds at each place of each
block in it. Then it holds wherever a path comes to.
-/

namespace PlusCalGo.Go

variable {κ : Type}

namespace Code

mutual

/-- The property holds everywhere in the blocks of a statement. -/
def Everywhere (property : List (Code κ) → Prop) : Code κ → Prop
  | line _ | label _ | goto _ | leaf _ => True
  | branch _ yes no => ListEverywhere property yes ∧ ListEverywhere property no
  | loop body | block body => ListEverywhere property body
  | switch _ cases => CasesEverywhere property cases

def ListEverywhere (property : List (Code κ) → Prop) : List (Code κ) → Prop
  | [] => property []
  | code :: rest =>
    property (code :: rest) ∧ code.Everywhere property ∧ ListEverywhere property rest

def CasesEverywhere (property : List (Code κ) → Prop) : List (List (Code κ)) → Prop
  | [] => True
  | body :: rest => ListEverywhere property body ∧ CasesEverywhere property rest

end

variable {property : List (Code κ) → Prop}

theorem ListEverywhere.here {code : List (Code κ)} (h : ListEverywhere property code) :
    property code := by
  cases code with
  | nil => exact h
  | cons code rest => exact h.1

theorem CasesEverywhere.mem {cases : List (List (Code κ))} (h : CasesEverywhere property cases)
    {body : List (Code κ)} (hbody : body ∈ cases) : ListEverywhere property body := by
  induction cases with
  | nil => simp at hbody
  | cons first rest ih =>
    rcases List.mem_cons.1 hbody with rfl | hbody
    · exact h.1
    · exact ih h.2 hbody

/-- A property that more code behind does not change holds in both parts of a block or in none. -/
theorem listEverywhere_append {first second : List (Code κ)}
    (hmore : ∀ code rest, property (code :: rest) → property (code :: rest ++ second))
    (hfirst : ListEverywhere property first) (hsecond : ListEverywhere property second) :
    ListEverywhere property (first ++ second) := by
  induction first with
  | nil => exact hsecond
  | cons code rest ih => exact ⟨hmore code rest hfirst.1, hfirst.2.1, ih hfirst.2.2⟩

mutual

private theorem Everywhere.leaf {content : κ} (code : Code κ) {rest : List (Code κ)}
    (hhere : property (code :: rest)) (h : code.Everywhere property)
    (hmem : content ∈ code.leaves) : ∃ more, property (.leaf content :: more) := by
  cases code with
  | line text => simp [leaves] at hmem
  | label name => simp [leaves] at hmem
  | goto name => simp [leaves] at hmem
  | branch condition yes no =>
    rcases List.mem_append.1 hmem with hmem | hmem
    · exact ListEverywhere.leaf yes h.1 hmem
    · exact ListEverywhere.leaf no h.2 hmem
  | loop body => exact ListEverywhere.leaf body h hmem
  | switch subject cases => exact CasesEverywhere.leaf cases h hmem
  | block body => exact ListEverywhere.leaf body h hmem
  | leaf other =>
    rw [List.mem_singleton.1 hmem]
    exact ⟨rest, hhere⟩

/-- Each leaf stands somewhere. -/
theorem ListEverywhere.leaf {content : κ} (code : List (Code κ))
    (h : ListEverywhere property code) (hmem : content ∈ listLeaves code) :
    ∃ more, property (.leaf content :: more) := by
  cases code with
  | nil => simp [listLeaves] at hmem
  | cons code rest =>
    rcases List.mem_append.1 hmem with hmem | hmem
    · exact Everywhere.leaf code h.1 h.2.1 hmem
    · exact ListEverywhere.leaf rest h.2.2 hmem

private theorem CasesEverywhere.leaf {content : κ} (cases : List (List (Code κ)))
    (h : CasesEverywhere property cases) (hmem : content ∈ casesLeaves cases) :
    ∃ more, property (.leaf content :: more) := by
  cases cases with
  | nil => simp [casesLeaves] at hmem
  | cons body rest =>
    rcases List.mem_append.1 hmem with hmem | hmem
    · exact ListEverywhere.leaf body h.1 hmem
    · exact CasesEverywhere.leaf rest h.2 hmem

end

/-- What stands first is a leaf with the property, or no leaf. -/
def Leads (property : κ → Prop) : List (Code κ) → Prop
  | leaf content :: _ => property content
  | _ => True

section Leads

variable {property : κ → Prop}

mutual

private theorem everywhere_of_leaves (code : Code κ)
    (h : ∀ content ∈ code.leaves, property content) : code.Everywhere (Leads property) := by
  cases code with
  | line text => trivial
  | label name => trivial
  | goto name => trivial
  | branch condition yes no =>
    obtain ⟨hyes, hno⟩ := List.forall_mem_append.1 h
    exact ⟨listEverywhere_of_leaves yes hyes, listEverywhere_of_leaves no hno⟩
  | loop body => exact listEverywhere_of_leaves body h
  | switch subject cases => exact casesEverywhere_of_leaves cases h
  | block body => exact listEverywhere_of_leaves body h
  | leaf content => trivial

/-- What holds of all leaves holds of a leaf wherever it stands first. -/
theorem listEverywhere_of_leaves (code : List (Code κ))
    (h : ∀ content ∈ listLeaves code, property content) :
    ListEverywhere (Leads property) code := by
  cases code with
  | nil => trivial
  | cons code rest =>
    obtain ⟨hcode, hrest⟩ := List.forall_mem_append.1 h
    refine ⟨?_, everywhere_of_leaves code hcode, listEverywhere_of_leaves rest hrest⟩
    cases code with
    | leaf content => exact hcode content List.mem_cons_self
    | line text => trivial
    | label name => trivial
    | goto name => trivial
    | branch condition yes no => trivial
    | loop body => trivial
    | switch subject cases => trivial
    | block body => trivial

private theorem casesEverywhere_of_leaves (cases : List (List (Code κ)))
    (h : ∀ content ∈ casesLeaves cases, property content) :
    CasesEverywhere (Leads property) cases := by
  cases cases with
  | nil => trivial
  | cons body rest =>
    obtain ⟨hbody, hrest⟩ := List.forall_mem_append.1 h
    exact ⟨listEverywhere_of_leaves body hbody, casesEverywhere_of_leaves rest hrest⟩

end

end Leads

end Code

def Frame.Everywhere (property : List (Code κ) → Prop) : Frame κ → Prop
  | .rest code => Code.ListEverywhere property code
  | .again body after => Code.ListEverywhere property body ∧ Code.ListEverywhere property after

/-- The property holds everywhere in what is left to do. -/
def Point.Everywhere (property : List (Code κ) → Prop) (point : Point κ) : Prop :=
  Code.ListEverywhere property point.code ∧ ∀ frame ∈ point.frames, frame.Everywhere property

section Paths

variable {property : List (Code κ) → Prop}

theorem leaveLoop_everywhere {frames : List (Frame κ)} {point : Point κ}
    (hframes : ∀ frame ∈ frames, frame.Everywhere property)
    (hleave : leaveLoop frames = some point) : point.Everywhere property := by
  induction frames with
  | nil => simp [leaveLoop] at hleave
  | cons frame frames ih =>
    have hrest : ∀ frame ∈ frames, frame.Everywhere property :=
      fun other hother => hframes other (List.mem_cons_of_mem frame hother)
    cases frame with
    | rest code => exact ih hrest hleave
    | again body after =>
      cases hleave
      exact ⟨(hframes _ List.mem_cons_self).2, hrest⟩

private theorem everywhere_rest {code : List (Code κ)} {frames : List (Frame κ)}
    (hcode : Code.ListEverywhere property code)
    (hframes : ∀ frame ∈ frames, frame.Everywhere property) :
    ∀ frame ∈ .rest code :: frames, frame.Everywhere property := by
  intro frame hframe
  rcases List.mem_cons.1 hframe with rfl | hframe
  · exact hcode
  · exact hframes frame hframe

private theorem everywhere_again {body after : List (Code κ)} {frames : List (Frame κ)}
    (hbody : Code.ListEverywhere property body) (hafter : Code.ListEverywhere property after)
    (hframes : ∀ frame ∈ frames, frame.Everywhere property) :
    ∀ frame ∈ .again body after :: frames, frame.Everywhere property := by
  intro frame hframe
  rcases List.mem_cons.1 hframe with rfl | hframe
  · exact ⟨hbody, hafter⟩
  · exact hframes frame hframe

mutual

private theorem seek_everywhere {name : String} (code : Code κ) {rest : List (Code κ)}
    {frames : List (Frame κ)} {point : Point κ}
    (hcode : Code.ListEverywhere property (code :: rest))
    (hframes : ∀ frame ∈ frames, frame.Everywhere property)
    (hseek : code.seek name rest frames = some point) : point.Everywhere property := by
  cases code with
  | line text => simp [Code.seek] at hseek
  | goto other => simp [Code.seek] at hseek
  | leaf content => simp [Code.seek] at hseek
  | label other =>
    simp only [Code.seek] at hseek
    split at hseek
    · cases hseek
      exact ⟨hcode, hframes⟩
    · simp at hseek
  | branch condition yes no =>
    obtain ⟨_, ⟨hyes, hno⟩, hrest⟩ := hcode
    have hpushed := everywhere_rest hrest hframes
    rcases Option.or_eq_some_iff.1 hseek with hseek | ⟨_, hseek⟩
    · exact listSeek_everywhere yes hyes hpushed hseek
    · exact listSeek_everywhere no hno hpushed hseek
  | loop body =>
    obtain ⟨_, hbody, hrest⟩ := hcode
    exact listSeek_everywhere body hbody (everywhere_again hbody hrest hframes) hseek
  | switch subject cases =>
    obtain ⟨_, hcases, hrest⟩ := hcode
    exact casesSeek_everywhere cases hcases (everywhere_rest hrest hframes) hseek
  | block body =>
    obtain ⟨_, hbody, hrest⟩ := hcode
    exact listSeek_everywhere body hbody (everywhere_rest hrest hframes) hseek

theorem listSeek_everywhere {name : String} (code : List (Code κ)) {frames : List (Frame κ)}
    {point : Point κ} (hcode : Code.ListEverywhere property code)
    (hframes : ∀ frame ∈ frames, frame.Everywhere property)
    (hseek : Code.listSeek name frames code = some point) : point.Everywhere property := by
  cases code with
  | nil => simp [Code.listSeek] at hseek
  | cons code rest =>
    rcases Option.or_eq_some_iff.1 hseek with hseek | ⟨_, hseek⟩
    · exact seek_everywhere code hcode hframes hseek
    · exact listSeek_everywhere rest hcode.2.2 hframes hseek

private theorem casesSeek_everywhere {name : String} (cases : List (List (Code κ)))
    {frames : List (Frame κ)} {point : Point κ} (hcases : Code.CasesEverywhere property cases)
    (hframes : ∀ frame ∈ frames, frame.Everywhere property)
    (hseek : Code.casesSeek name frames cases = some point) : point.Everywhere property := by
  cases cases with
  | nil => simp [Code.casesSeek] at hseek
  | cons body rest =>
    rcases Option.or_eq_some_iff.1 hseek with hseek | ⟨_, hseek⟩
    · exact listSeek_everywhere body hcases.1 hframes hseek
    · exact casesSeek_everywhere rest hcases.2 hframes hseek

end

variable {lands : String → Prop} {body : List (Code κ)}

theorem Step.everywhere {leaf : Option κ} {before after : Point κ}
    (hbody : Code.ListEverywhere property body) (hbefore : before.Everywhere property)
    (hstep : Step lands body before leaf after) : after.Everywhere property := by
  obtain ⟨hcode, hframes⟩ := hbefore
  cases hstep with
  | line => exact ⟨hcode.2.2, hframes⟩
  | «break» hleave => exact leaveLoop_everywhere hframes hleave
  | label => exact ⟨hcode.2.2, hframes⟩
  | jump _ hseek => exact listSeek_everywhere body hbody (by simp) hseek
  | yes => exact ⟨hcode.2.1.1, everywhere_rest hcode.2.2 hframes⟩
  | no => exact ⟨hcode.2.1.2, everywhere_rest hcode.2.2 hframes⟩
  | loop => exact ⟨hcode.2.1, everywhere_again hcode.2.1 hcode.2.2 hframes⟩
  | switch hmem => exact ⟨hcode.2.1.mem hmem, everywhere_rest hcode.2.2 hframes⟩
  | block => exact ⟨hcode.2.1, everywhere_rest hcode.2.2 hframes⟩
  | leaf => exact ⟨hcode.2.2, hframes⟩
  | rest =>
    exact ⟨hframes _ List.mem_cons_self, fun frame h => hframes frame (List.mem_cons_of_mem _ h)⟩
  | again => exact ⟨(hframes _ List.mem_cons_self).1, hframes⟩

/-- What holds everywhere in a body holds wherever a path comes to. -/
theorem Path.everywhere {passed : List κ} {point : Point κ}
    (hbody : Code.ListEverywhere property body) (hpath : Path lands body passed point) :
    property point.code := by
  have hpoint : point.Everywhere property := by
    induction hpath with
    | start => exact ⟨hbody, by simp⟩
    | step _ hstep ih => exact hstep.everywhere hbody ih
  exact hpoint.1.here

end Paths

end PlusCalGo.Go
