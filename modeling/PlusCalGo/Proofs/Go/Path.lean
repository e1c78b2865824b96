import PlusCalGo.Go.Code

/-!
# Paths through Go code

The ways control can take through a function body when every condition and every choice is left
open. A point holds the statements still to run; blocks are entered by putting the statements after
them on a stack.
-/

namespace PlusCalGo.Go

/-- What is left to do after the current block. -/
inductive Frame (κ : Type) where
  | rest (code : List (Code κ))
  /-- Another round of the loop; `break` goes on with `rest`. -/
  | again (body rest : List (Code κ))

/-- A place in a running body: the rest of the current block and what comes after it. -/
structure Point (κ : Type) where
  code : List (Code κ)
  frames : List (Frame κ)

variable {κ : Type}

/-- Where `break` goes. -/
def leaveLoop : List (Frame κ) → Option (Point κ)
  | [] => none
  | .rest _ :: frames => leaveLoop frames
  | .again _ rest :: frames => some ⟨rest, frames⟩

namespace Code

mutual

/-- The place of the first label of a name in a statement with the given code after it. -/
def seek (name : String) (rest : List (Code κ)) (frames : List (Frame κ)) :
    Code κ → Option (Point κ)
  | label other => if other = name then some ⟨label other :: rest, frames⟩ else none
  | branch _ yes no =>
    (listSeek name (.rest rest :: frames) yes).or (listSeek name (.rest rest :: frames) no)
  | loop body => listSeek name (.again body rest :: frames) body
  | switch _ cases => casesSeek name (.rest rest :: frames) cases
  | block body => listSeek name (.rest rest :: frames) body
  | line _ | goto _ | leaf _ => none

def listSeek (name : String) (frames : List (Frame κ)) : List (Code κ) → Option (Point κ)
  | [] => none
  | code :: rest => (code.seek name rest frames).or (listSeek name frames rest)

def casesSeek (name : String) (frames : List (Frame κ)) : List (List (Code κ)) → Option (Point κ)
  | [] => none
  | body :: rest => (listSeek name frames body).or (casesSeek name frames rest)

end

mutual

/-- The leaves of a statement in their order. -/
def leaves : Code κ → List κ
  | line _ | label _ | goto _ => []
  | branch _ yes no => listLeaves yes ++ listLeaves no
  | loop body | block body => listLeaves body
  | switch _ cases => casesLeaves cases
  | leaf content => [content]

def listLeaves : List (Code κ) → List κ
  | [] => []
  | code :: rest => code.leaves ++ listLeaves rest

def casesLeaves : List (List (Code κ)) → List κ
  | [] => []
  | body :: rest => listLeaves body ++ casesLeaves rest

end

@[simp] theorem listLeaves_append (first second : List (Code κ)) :
    listLeaves (first ++ second) = listLeaves first ++ listLeaves second := by
  induction first with
  | nil => rfl
  | cons code rest ih => simp only [List.cons_append, listLeaves, ih, List.append_assoc]

theorem listLeaves_flatten (cases : List (List (Code κ))) :
    listLeaves cases.flatten = casesLeaves cases := by
  induction cases with
  | nil => rfl
  | cons body rest ih => rw [List.flatten_cons, listLeaves_append, ih, casesLeaves]

theorem mem_casesLeaves {cases : List (List (Code κ))} {body : List (Code κ)} {content : κ}
    (hbody : body ∈ cases) (hmem : content ∈ listLeaves body) : content ∈ casesLeaves cases := by
  induction cases with
  | nil => simp at hbody
  | cons first rest ih =>
    rw [casesLeaves, List.mem_append]
    rcases List.mem_cons.1 hbody with rfl | hbody
    · exact .inl hmem
    · exact .inr (ih hbody)

end Code

/-! ## Names of labels -/

namespace Code

mutual

/-- The names of the labels in a statement, in their order. -/
def labelNames : Code κ → List String
  | label name => [name]
  | line _ | goto _ | leaf _ => []
  | branch _ yes no => listLabelNames yes ++ listLabelNames no
  | loop body | block body => listLabelNames body
  | switch _ cases => casesLabelNames cases

def listLabelNames : List (Code κ) → List String
  | [] => []
  | code :: rest => code.labelNames ++ listLabelNames rest

def casesLabelNames : List (List (Code κ)) → List String
  | [] => []
  | body :: rest => listLabelNames body ++ casesLabelNames rest

end

@[simp] theorem listLabelNames_append (first second : List (Code κ)) :
    listLabelNames (first ++ second) = listLabelNames first ++ listLabelNames second := by
  induction first with
  | nil => rfl
  | cons code rest ih => simp only [List.cons_append, listLabelNames, ih, List.append_assoc]

theorem listLabelNames_flatten (cases : List (List (Code κ))) :
    listLabelNames cases.flatten = casesLabelNames cases := by
  induction cases with
  | nil => rfl
  | cons body rest ih => rw [List.flatten_cons, listLabelNames_append, ih, casesLabelNames]

mutual

private theorem seek_ne_none {name : String} (code : Code κ) {rest : List (Code κ)}
    {frames : List (Frame κ)} (h : name ∈ code.labelNames) :
    code.seek name rest frames ≠ none := by
  cases code with
  | line text => simp [labelNames] at h
  | goto other => simp [labelNames] at h
  | leaf content => simp [labelNames] at h
  | label other =>
    have hname : name = other := List.mem_singleton.1 h
    simp [seek, hname]
  | branch condition yes no =>
    simp only [seek, ne_eq, Option.or_eq_none_iff, not_and]
    rcases List.mem_append.1 h with h | h
    · exact fun hyes => absurd hyes (listSeek_ne_none yes h)
    · exact fun _ => listSeek_ne_none no h
  | loop body => exact listSeek_ne_none body h
  | switch subject cases => exact casesSeek_ne_none cases h
  | block body => exact listSeek_ne_none body h

/-- A label that stands in some code is found. -/
theorem listSeek_ne_none {name : String} (code : List (Code κ)) {frames : List (Frame κ)}
    (h : name ∈ listLabelNames code) : listSeek name frames code ≠ none := by
  cases code with
  | nil => simp [listLabelNames] at h
  | cons code rest =>
    simp only [listSeek, ne_eq, Option.or_eq_none_iff, not_and]
    rcases List.mem_append.1 h with h | h
    · exact fun hcode => absurd hcode (seek_ne_none code h)
    · exact fun _ => listSeek_ne_none rest h

private theorem casesSeek_ne_none {name : String} (cases : List (List (Code κ)))
    {frames : List (Frame κ)} (h : name ∈ casesLabelNames cases) :
    casesSeek name frames cases ≠ none := by
  cases cases with
  | nil => simp [casesLabelNames] at h
  | cons body rest =>
    simp only [casesSeek, ne_eq, Option.or_eq_none_iff, not_and]
    rcases List.mem_append.1 h with h | h
    · exact fun hbody => absurd hbody (listSeek_ne_none body h)
    · exact fun _ => casesSeek_ne_none rest h

end

mutual

private theorem seek_label {name : String} (code : Code κ) {rest : List (Code κ)}
    {frames : List (Frame κ)} {point : Point κ} (h : code.seek name rest frames = some point) :
    ∃ more, point.code = .label name :: more := by
  cases code with
  | line text => simp [seek] at h
  | goto other => simp [seek] at h
  | leaf content => simp [seek] at h
  | label other =>
    simp only [seek] at h
    split at h
    · rename_i hname
      cases h
      exact ⟨rest, by rw [hname]⟩
    · simp at h
  | branch condition yes no =>
    rcases Option.or_eq_some_iff.1 h with h | ⟨_, h⟩
    · exact listSeek_label yes h
    · exact listSeek_label no h
  | loop body => exact listSeek_label body h
  | switch subject cases => exact casesSeek_label cases h
  | block body => exact listSeek_label body h

theorem listSeek_label {name : String} (code : List (Code κ)) {frames : List (Frame κ)}
    {point : Point κ} (h : listSeek name frames code = some point) :
    ∃ more, point.code = .label name :: more := by
  cases code with
  | nil => simp [listSeek] at h
  | cons code rest =>
    rcases Option.or_eq_some_iff.1 h with h | ⟨_, h⟩
    · exact seek_label code h
    · exact listSeek_label rest h

private theorem casesSeek_label {name : String} (cases : List (List (Code κ)))
    {frames : List (Frame κ)} {point : Point κ} (h : casesSeek name frames cases = some point) :
    ∃ more, point.code = .label name :: more := by
  cases cases with
  | nil => simp [casesSeek] at h
  | cons body rest =>
    rcases Option.or_eq_some_iff.1 h with h | ⟨_, h⟩
    · exact listSeek_label body h
    · exact casesSeek_label rest h

end

end Code

/-! ## Paths -/

/-- One step in a body, with the leaf it passes. Jumps are taken to the names in `lands` only, and a
`return` ends the path. -/
inductive Step (lands : String → Prop) (body : List (Code κ)) :
    Point κ → Option κ → Point κ → Prop where
  | line {text : String} {code : List (Code κ)} {frames : List (Frame κ)} :
      text ≠ "return" → text ≠ "break" →
      Step lands body ⟨.line text :: code, frames⟩ none ⟨code, frames⟩
  | break {code : List (Code κ)} {frames : List (Frame κ)} {after : Point κ} :
      leaveLoop frames = some after →
      Step lands body ⟨.line "break" :: code, frames⟩ none after
  | label {name : String} {code : List (Code κ)} {frames : List (Frame κ)} :
      Step lands body ⟨.label name :: code, frames⟩ none ⟨code, frames⟩
  | jump {name : String} {code : List (Code κ)} {frames : List (Frame κ)} {target : Point κ} :
      lands name → Code.listSeek name [] body = some target →
      Step lands body ⟨.goto name :: code, frames⟩ none target
  | yes {condition : String} {yes no code : List (Code κ)} {frames : List (Frame κ)} :
      Step lands body ⟨.branch condition yes no :: code, frames⟩ none ⟨yes, .rest code :: frames⟩
  | no {condition : String} {yes no code : List (Code κ)} {frames : List (Frame κ)} :
      Step lands body ⟨.branch condition yes no :: code, frames⟩ none ⟨no, .rest code :: frames⟩
  | loop {inner code : List (Code κ)} {frames : List (Frame κ)} :
      Step lands body ⟨.loop inner :: code, frames⟩ none ⟨inner, .again inner code :: frames⟩
  | switch {subject : String} {cases : List (List (Code κ))} {chosen code : List (Code κ)}
      {frames : List (Frame κ)} :
      chosen ∈ cases →
      Step lands body ⟨.switch subject cases :: code, frames⟩ none ⟨chosen, .rest code :: frames⟩
  | block {inner code : List (Code κ)} {frames : List (Frame κ)} :
      Step lands body ⟨.block inner :: code, frames⟩ none ⟨inner, .rest code :: frames⟩
  | leaf {content : κ} {code : List (Code κ)} {frames : List (Frame κ)} :
      Step lands body ⟨.leaf content :: code, frames⟩ (some content) ⟨code, frames⟩
  | rest {code : List (Code κ)} {frames : List (Frame κ)} :
      Step lands body ⟨[], .rest code :: frames⟩ none ⟨code, frames⟩
  | again {inner code : List (Code κ)} {frames : List (Frame κ)} :
      Step lands body ⟨[], .again inner code :: frames⟩ none ⟨inner, .again inner code :: frames⟩

/-- A path from the top of a body, with the leaves it passes in order. -/
inductive Path (lands : String → Prop) (body : List (Code κ)) : List κ → Point κ → Prop where
  | start : Path lands body [] ⟨body, []⟩
  | step {passed : List κ} {leaf : Option κ} {before after : Point κ} :
      Path lands body passed before → Step lands body before leaf after →
      Path lands body (passed ++ leaf.toList) after

theorem Step.mono {lands others : String → Prop} {body : List (Code κ)} {leaf : Option κ}
    {before after : Point κ} (h : ∀ name, lands name → others name)
    (hstep : Step lands body before leaf after) : Step others body before leaf after := by
  cases hstep with
  | line hreturn hbreak => exact .line hreturn hbreak
  | «break» hleave => exact .break hleave
  | label => exact .label
  | jump hlands hseek => exact .jump (h _ hlands) hseek
  | yes => exact .yes
  | no => exact .no
  | loop => exact .loop
  | switch hmem => exact .switch hmem
  | block => exact .block
  | leaf => exact .leaf
  | rest => exact .rest
  | again => exact .again

theorem Path.mono {lands others : String → Prop} {body : List (Code κ)} {passed : List κ}
    {point : Point κ} (h : ∀ name, lands name → others name)
    (hpath : Path lands body passed point) : Path others body passed point := by
  induction hpath with
  | start => exact .start
  | step _ hstep ih => exact .step ih (hstep.mono h)

end PlusCalGo.Go
