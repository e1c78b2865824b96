import PlusCalGo.Proofs.Go.Agreement
import PlusCalGo.Proofs.Go.Path

/-!
# Paths with fewer leaves

Code of which some leaves are left out takes the paths that it takes with them. So code with
remarks takes every path that it takes without them.
-/

namespace PlusCalGo.Go

variable {κ ι : Type}

/-! ## Leaves that are kept -/

namespace Code

/-- The code with the leaves that are kept, under other names. -/
def listFilterMap (keep : κ → Option ι) (code : List (Code κ)) : List (Code ι) :=
  listExpand (fun content => ((keep content).map leaf).toList) code

theorem listFilterMap_switch (keep : κ → Option ι) (subject : String)
    (cases : List (List (Code κ))) (rest : List (Code κ)) :
    listFilterMap keep (.switch subject cases :: rest) =
      .switch subject (cases.map (listFilterMap keep)) :: listFilterMap keep rest := by
  rw [listFilterMap, listExpand, expand, casesExpand_eq_map]
  rfl

theorem listFilterMap_leaf (keep : κ → Option ι) (content : κ) (rest : List (Code κ)) :
    listFilterMap keep (.leaf content :: rest) =
      ((keep content).map leaf).toList ++ listFilterMap keep rest := rfl

end Code

def Frame.filterMap (keep : κ → Option ι) : Frame κ → Frame ι
  | .rest code => .rest (Code.listFilterMap keep code)
  | .again body after => .again (Code.listFilterMap keep body) (Code.listFilterMap keep after)

def Point.filterMap (keep : κ → Option ι) (point : Point κ) : Point ι :=
  ⟨Code.listFilterMap keep point.code, point.frames.map (Frame.filterMap keep)⟩

/-- The code at the point begins with nothing that is left out. -/
def Point.Shows (keep : κ → Option ι) (point : Point κ) : Prop :=
  ∀ content rest, point.code = .leaf content :: rest → keep content ≠ none

section Labels

variable (keep : κ → Option ι) (name : String) (frames : List (Frame κ))

theorem leaveLoop_filterMap :
    leaveLoop (frames.map (Frame.filterMap keep)) =
      (leaveLoop frames).map (Point.filterMap keep) := by
  induction frames with
  | nil => rfl
  | cons frame frames ih =>
    cases frame with
    | rest code => exact ih
    | again body rest => rfl

mutual

private theorem seek_filterMap (frames : List (Frame κ)) (code : Code κ) (rest : List (Code κ)) :
    Code.listSeek name (frames.map (Frame.filterMap keep))
        (Code.listFilterMap keep (code :: rest)) =
      ((code.seek name rest frames).map (Point.filterMap keep)).or
        (Code.listSeek name (frames.map (Frame.filterMap keep))
          (Code.listFilterMap keep rest)) := by
  cases code with
  | line text => rfl
  | goto other => rfl
  | leaf content =>
    rw [Code.listFilterMap_leaf]
    cases keep content <;> rfl
  | label other =>
    have hhere (stands : String) : Code.listFilterMap keep (.label stands :: rest) =
        .label stands :: Code.listFilterMap keep rest := rfl
    by_cases h : other = name
    · simp [Code.listSeek, Code.seek, h, Point.filterMap, hhere]
    · simp [Code.listSeek, Code.seek, h, hhere]
  | branch condition yes no =>
    have hyes := listSeek_filterMap (.rest rest :: frames) yes
    have hno := listSeek_filterMap (.rest rest :: frames) no
    rw [Code.seek, Option.map_or, ← hyes, ← hno]
    rfl
  | loop body =>
    have hbody := listSeek_filterMap (.again body rest :: frames) body
    rw [Code.seek, ← hbody]
    rfl
  | switch subject cases =>
    have hcases := casesSeek_filterMap (.rest rest :: frames) cases
    rw [Code.listFilterMap_switch, Code.seek, ← hcases]
    rfl
  | block body =>
    have hbody := listSeek_filterMap (.rest rest :: frames) body
    rw [Code.seek, ← hbody]
    rfl

theorem listSeek_filterMap (frames : List (Frame κ)) (code : List (Code κ)) :
    Code.listSeek name (frames.map (Frame.filterMap keep)) (Code.listFilterMap keep code) =
      (Code.listSeek name frames code).map (Point.filterMap keep) := by
  cases code with
  | nil => rfl
  | cons code rest =>
    rw [seek_filterMap frames code rest, listSeek_filterMap frames rest, Code.listSeek,
      Option.map_or]

private theorem casesSeek_filterMap (frames : List (Frame κ)) (cases : List (List (Code κ))) :
    Code.casesSeek name (frames.map (Frame.filterMap keep))
        (cases.map (Code.listFilterMap keep)) =
      (Code.casesSeek name frames cases).map (Point.filterMap keep) := by
  cases cases with
  | nil => rfl
  | cons body rest =>
    rw [List.map_cons, Code.casesSeek, listSeek_filterMap frames body,
      casesSeek_filterMap frames rest, Code.casesSeek, Option.map_or]

end

end Labels

/-! ## Paths -/

section Paths

variable {keep : κ → Option ι} {lands : String → Prop} {body : List (Code κ)}

/-- Leaves that are left out can be passed. -/
private theorem exists_past_dropped (keep : κ → Option ι) {passed : List κ}
    {code : List (Code κ)} {frames : List (Frame κ)} (h : Path lands body passed ⟨code, frames⟩) :
    ∃ further rest, Path lands body (passed ++ further) ⟨rest, frames⟩ ∧
      further.filterMap keep = [] ∧
      Code.listFilterMap keep rest = Code.listFilterMap keep code ∧
      (⟨rest, frames⟩ : Point κ).Shows keep := by
  induction code generalizing passed with
  | nil => exact ⟨[], [], by simpa using h, rfl, rfl, nofun⟩
  | cons code rest ih =>
    -- What is left out at the front is passed before the next real step.
    by_cases hdropped : ∃ content, code = .leaf content ∧ keep content = none
    · obtain ⟨content, rfl, hnone⟩ := hdropped
      obtain ⟨further, after, hpath, hpassed, hcode, hshows⟩ := ih (h.step .leaf)
      refine ⟨content :: further, after, by simpa using hpath, ?_, ?_, hshows⟩
      · rw [List.filterMap_cons_none hnone, hpassed]
      · rw [hcode, Code.listFilterMap_leaf, hnone]
        rfl
    · refine ⟨[], code :: rest, by simpa using h, rfl, rfl, ?_⟩
      rintro content after heq hnone
      exact hdropped ⟨content, (List.cons.inj heq).1, hnone⟩

/-- A step that can be taken with fewer leaves can be taken with all, where none that is left out
stands first. -/
private theorem exists_step {before : Point κ} {leaf : Option ι} {after : Point ι}
    (hshows : before.Shows keep)
    (hstep : Step lands (Code.listFilterMap keep body) (before.filterMap keep) leaf after) :
    ∃ content next, Step lands body before content next ∧
      content.toList.filterMap keep = leaf.toList ∧ next.filterMap keep = after := by
  obtain ⟨code, frames⟩ := before
  rcases code with _ | ⟨code, rest⟩
  · rcases frames with _ | ⟨frame, frames⟩
    · cases hstep
    · cases frame with
      | rest code =>
        cases hstep with
        | rest => exact ⟨none, ⟨code, frames⟩, .rest, rfl, rfl⟩
      | again inner code =>
        cases hstep with
        | again => exact ⟨none, ⟨inner, .again inner code :: frames⟩, .again, rfl, rfl⟩
  · cases code with
    | line text =>
      cases hstep with
      | line hreturn hbreak =>
        exact ⟨none, ⟨rest, frames⟩, .line hreturn hbreak, rfl, rfl⟩
      | «break» hleave =>
        have hmap := leaveLoop_filterMap keep frames
        rw [hleave] at hmap
        obtain ⟨next, hnext, hafter⟩ := Option.map_eq_some_iff.1 hmap.symm
        exact ⟨none, next, .break hnext, rfl, hafter⟩
    | label name =>
      cases hstep with
      | label => exact ⟨none, ⟨rest, frames⟩, .label, rfl, rfl⟩
    | goto name =>
      cases hstep with
      | jump hlands hseek =>
        have hmap := listSeek_filterMap keep name [] body
        rw [List.map_nil, hseek] at hmap
        obtain ⟨next, hnext, hafter⟩ := Option.map_eq_some_iff.1 hmap.symm
        exact ⟨none, next, .jump hlands hnext, rfl, hafter⟩
    | branch condition yes no =>
      cases hstep with
      | yes => exact ⟨none, ⟨yes, .rest rest :: frames⟩, .yes, rfl, rfl⟩
      | no => exact ⟨none, ⟨no, .rest rest :: frames⟩, .no, rfl, rfl⟩
    | loop inner =>
      cases hstep with
      | loop => exact ⟨none, ⟨inner, .again inner rest :: frames⟩, .loop, rfl, rfl⟩
    | switch subject cases =>
      rw [Point.filterMap, Code.listFilterMap_switch] at hstep
      cases hstep with
      | switch hmem =>
        obtain ⟨chosen, hchosen, rfl⟩ := List.mem_map.1 hmem
        exact ⟨none, ⟨chosen, .rest rest :: frames⟩, .switch hchosen, rfl, rfl⟩
    | block inner =>
      cases hstep with
      | block => exact ⟨none, ⟨inner, .rest rest :: frames⟩, .block, rfl, rfl⟩
    | leaf content =>
      rw [Point.filterMap, Code.listFilterMap_leaf] at hstep
      cases hkeep : keep content with
      | none => exact (hshows content rest rfl hkeep).elim
      | some kept =>
        rw [hkeep] at hstep
        cases hstep with
        | leaf => exact ⟨some content, ⟨rest, frames⟩, .leaf, by simp [hkeep], rfl⟩

/-- Wherever a path has come to, it goes on the way that a step with fewer leaves goes. -/
theorem Path.follow_filterMap {passed : List κ} {full : Point κ} {leaf : Option ι}
    {point : Point ι} (h : Path lands body passed full)
    (hstep : Step lands (Code.listFilterMap keep body) (full.filterMap keep) leaf point) :
    ∃ further next, Path lands body (passed ++ further) next ∧
      further.filterMap keep = leaf.toList ∧ next.filterMap keep = point := by
  obtain ⟨dropped, rest, hpath, hdropped, hcode, hshows⟩ := exists_past_dropped keep h
  rw [Point.filterMap, ← hcode] at hstep
  obtain ⟨content, next, hnext, hcontent, hpoint⟩ := exists_step hshows hstep
  have hlonger := hpath.step hnext
  rw [List.append_assoc] at hlonger
  refine ⟨_, next, hlonger, ?_, hpoint⟩
  rw [List.filterMap_append, hdropped, hcontent, List.nil_append]

/-- Every path with fewer leaves is a path with all of which some are left out. -/
theorem Path.lift_filterMap {passed : List ι} {point : Point ι}
    (h : Path lands (Code.listFilterMap keep body) passed point) :
    ∃ contents full, Path lands body contents full ∧ contents.filterMap keep = passed ∧
      full.filterMap keep = point ∧ full.Shows keep := by
  have hlift : ∃ contents full, Path lands body contents full ∧
      contents.filterMap keep = passed ∧ full.filterMap keep = point := by
    induction h with
    | start => exact ⟨[], ⟨body, []⟩, .start, rfl, rfl⟩
    | step _ hstep ih =>
      obtain ⟨contents, full, hpath, rfl, rfl⟩ := ih
      obtain ⟨further, next, hnext, hfurther, hpoint⟩ := hpath.follow_filterMap hstep
      exact ⟨_, next, hnext, by rw [List.filterMap_append, hfurther], hpoint⟩
  obtain ⟨contents, full, hpath, rfl, rfl⟩ := hlift
  obtain ⟨dropped, rest, hpath, hdropped, hcode, hshows⟩ := exists_past_dropped keep hpath
  refine ⟨_, ⟨rest, full.frames⟩, hpath, ?_, ?_, hshows⟩
  · rw [List.filterMap_append, hdropped, List.append_nil]
  · rw [Point.filterMap, hcode]
    rfl

/-- A step is one with fewer leaves, or passes a leaf that is left out. -/
private theorem Step.filterMap (keep : κ → Option ι) {before after : Point κ} {content : Option κ}
    (hstep : Step lands body before content after) :
    (∃ leaf, Step lands (Code.listFilterMap keep body) (before.filterMap keep) leaf
      (after.filterMap keep) ∧ leaf.toList = content.toList.filterMap keep) ∨
      (before.filterMap keep = after.filterMap keep ∧ content.toList.filterMap keep = []) := by
  cases hstep with
  | line hreturn hbreak => exact .inl ⟨none, .line hreturn hbreak, rfl⟩
  | @«break» code frames after hleave =>
    have hmap := leaveLoop_filterMap keep frames
    rw [hleave] at hmap
    exact .inl ⟨none, .break hmap, rfl⟩
  | label => exact .inl ⟨none, .label, rfl⟩
  | @jump name code frames target hlands hseek =>
    have hmap := listSeek_filterMap keep name [] body
    rw [List.map_nil, hseek] at hmap
    exact .inl ⟨none, .jump hlands hmap, rfl⟩
  | yes => exact .inl ⟨none, .yes, rfl⟩
  | no => exact .inl ⟨none, .no, rfl⟩
  | loop => exact .inl ⟨none, .loop, rfl⟩
  | @switch subject cases chosen code frames hmem =>
    refine .inl ⟨none, ?_, rfl⟩
    rw [Point.filterMap, Code.listFilterMap_switch]
    exact .switch (List.mem_map_of_mem hmem)
  | block => exact .inl ⟨none, .block, rfl⟩
  | @leaf content code frames =>
    cases hkeep : keep content with
    | none =>
      refine .inr ⟨?_, by simp [hkeep]⟩
      rw [Point.filterMap, Code.listFilterMap_leaf, hkeep]
      rfl
    | some kept =>
      refine .inl ⟨some kept, ?_, by simp [hkeep]⟩
      rw [Point.filterMap, Code.listFilterMap_leaf, hkeep]
      exact .leaf
  | rest => exact .inl ⟨none, .rest, rfl⟩
  | again => exact .inl ⟨none, .again, rfl⟩

/-- Every path is one with fewer leaves. -/
theorem Path.filterMap (keep : κ → Option ι) {passed : List κ} {point : Point κ}
    (h : Path lands body passed point) :
    Path lands (Code.listFilterMap keep body) (passed.filterMap keep) (point.filterMap keep) := by
  induction h with
  | start => exact .start
  | step _ hstep ih =>
    rw [List.filterMap_append]
    rcases hstep.filterMap keep with ⟨leaf, hstep, hleaf⟩ | ⟨hsame, hleaf⟩
    · rw [← hleaf]
      exact ih.step hstep
    · rw [hleaf, List.append_nil, ← hsame]
      exact ih

end Paths

/-! ## Code with remarks -/

def Frame.erase : Frame Note → Frame SectionCall
  | .rest code => .rest (NotedCode.erase code)
  | .again body after => .again (NotedCode.erase body) (NotedCode.erase after)

def Point.erase (point : Point Note) : Point SectionCall :=
  ⟨NotedCode.erase point.code, point.frames.map Frame.erase⟩

def Note.call? : Note → Option SectionCall
  | .call made => some made
  | .remark _ => none

/-- The calls among some leaves. -/
def callsOf : List Note → List SectionCall
  | [] => []
  | .call call :: rest => call :: callsOf rest
  | .remark _ :: rest => callsOf rest

@[simp] theorem callsOf_append (first second : List Note) :
    callsOf (first ++ second) = callsOf first ++ callsOf second := by
  induction first with
  | nil => rfl
  | cons note rest ih => cases note <;> simp [callsOf, ih]

theorem callsOf_eq (notes : List Note) : callsOf notes = notes.filterMap Note.call? := by
  induction notes with
  | nil => rfl
  | cons note rest ih =>
    rw [List.filterMap_cons, ← ih]
    cases note <;> rfl

theorem NotedCode.erase_eq (code : NotedCode) :
    code.erase = Code.listFilterMap Note.call? code := by
  rw [erase, Code.listFilterMap]
  congr 1
  funext note
  cases note <;> rfl

theorem Point.erase_eq (point : Point Note) : point.erase = point.filterMap Note.call? := by
  have hframe : Frame.erase = Frame.filterMap Note.call? := by
    funext frame
    cases frame <;> simp [Frame.erase, Frame.filterMap, NotedCode.erase_eq]
  rw [erase, Point.filterMap, hframe, NotedCode.erase_eq]

variable {lands : String → Prop} {body : NotedCode}

/-- Every path without remarks is a path with remarks that are left out. -/
theorem Path.lift {passed : List SectionCall} {point : Point SectionCall}
    (h : Path lands body.erase passed point) :
    ∃ notes noted, Path lands body notes noted ∧ callsOf notes = passed ∧
      noted.erase = point ∧ ∀ remark rest, noted.code ≠ .leaf (.remark remark) :: rest := by
  rw [NotedCode.erase_eq] at h
  obtain ⟨notes, noted, hpath, rfl, rfl, hshows⟩ := h.lift_filterMap
  exact ⟨notes, noted, hpath, callsOf_eq notes, noted.erase_eq,
    fun remark rest hcode => hshows (.remark remark) rest hcode rfl⟩

/-- Every path with remarks is one without them. -/
theorem Path.erase {notes : List Note} {point : Point Note} (h : Path lands body notes point) :
    Path lands body.erase (callsOf notes) point.erase := by
  rw [NotedCode.erase_eq, callsOf_eq, Point.erase_eq]
  exact h.filterMap Note.call?

end PlusCalGo.Go
