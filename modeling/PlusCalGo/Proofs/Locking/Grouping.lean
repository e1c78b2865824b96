import Mathlib.Logic.Relation
import PlusCalGo.Proofs.Locking.Forest

/-!
# Chains of conflicts

After all labels have been joined, two of them are in one tree if and only if a chain of conflicts
leads from one to the other. Only writers with later writers and readers with the first writer are
joined one by one; the rest follows since trees are joined as a whole.
-/

namespace PlusCalGo

/-- One of the two writes a variable that the other reads or writes. -/
def Conflicting {α : Type} (touches : α → Bool → Uid → Prop) (a b : α) : Prop :=
  ∃ isWrite global, (touches a true global ∧ touches b isWrite global) ∨
    (touches b true global ∧ touches a isWrite global)

theorem Conflicting.symm {α : Type} {touches : α → Bool → Uid → Prop} {a b : α}
    (h : Conflicting touches a b) : Conflicting touches b a := by
  obtain ⟨isWrite, global, h⟩ := h
  exact ⟨isWrite, global, h.symm⟩

/-- A chain of conflicts leads from the one to the other. -/
def Chained {α : Type} (touches : α → Bool → Uid → Prop) : α → α → Prop :=
  Relation.ReflTransGen (Conflicting touches)

theorem Chained.symm {α : Type} {touches : α → Bool → Uid → Prop} {a b : α}
    (h : Chained touches a b) : Chained touches b a := by
  induction h with
  | refl => exact .refl
  | tail _ hlast ih => exact .head hlast.symm ih

/-- What a label writes, or what it reads. -/
def LabelAccesses.touched (isWrite : Bool) (accesses : LabelAccesses) : UidSet :=
  if isWrite then accesses.writes else accesses.reads

/-- The label at an index writes or reads a variable. -/
def TouchedAt (labels : List LabelAccesses) (index : Nat) (isWrite : Bool) (global : Uid) : Prop :=
  ∃ accesses, labels[index]? = some accesses ∧ global ∈ accesses.touched isWrite

theorem TouchedAt.lt {labels : List LabelAccesses} {index : Nat} {isWrite : Bool} {global : Uid}
    (h : TouchedAt labels index isWrite global) : index < labels.length := by
  obtain ⟨accesses, hlabel, _⟩ := h
  exact (List.getElem?_eq_some_iff.1 hlabel).1

/-- The labels with the variables they write or read. -/
def touchesOf (isWrite : Bool) (labels : List LabelAccesses) : List (Nat × Uid) :=
  labels.zipIdx.flatMap fun (accesses, index) =>
    (accesses.touched isWrite).toList.map fun global => (index, global)

theorem mem_touchesOf {isWrite : Bool} {labels : List LabelAccesses} {index : Nat} {global : Uid} :
    (index, global) ∈ touchesOf isWrite labels ↔ TouchedAt labels index isWrite global := by
  simp only [touchesOf, List.mem_flatMap, Prod.exists, List.mem_map, Prod.mk.injEq,
    List.mem_zipIdx_iff_getElem?]
  constructor
  · intro h
    rcases h with ⟨accesses, other, hlabel, _, hmem, rfl, rfl⟩
    exact ⟨accesses, hlabel, hmem⟩
  · intro h
    rcases h with ⟨accesses, hlabel, hmem⟩
    exact ⟨accesses, index, hlabel, global, hmem, rfl, rfl⟩

namespace Conflicts

/-- One touch after the other. -/
theorem foldl_labels (step : Conflicts → Nat → Uid → Conflicts) (isWrite : Bool)
    (labels : List LabelAccesses) (start : Conflicts) :
    labels.zipIdx.foldl (fun conflicts (accesses, index) =>
      (accesses.touched isWrite).toList.foldl (fun conflicts global => step conflicts index global)
        conflicts) start =
      (touchesOf isWrite labels).foldl (fun conflicts touch => step conflicts touch.1 touch.2)
        start := by
  simp only [touchesOf, List.foldl_flatMap, List.foldl_map]

theorem ofLabels_eq (labels : List LabelAccesses) :
    ofLabels labels = (touchesOf false labels).foldl
      (fun conflicts touch => conflicts.addRead touch.1 touch.2)
      ((touchesOf true labels).foldl (fun conflicts touch => conflicts.addWrite touch.1 touch.2)
        ⟨.singletons labels.length, []⟩) := by
  rw [← foldl_labels addRead, ← foldl_labels addWrite]
  rfl

/-! ## What is joined -/

/-- Whatever is joined is chained, and first writers are writers. -/
structure Sound (labels : List LabelAccesses) (conflicts : Conflicts) : Prop where
  descends : conflicts.forest.Descends
  length : conflicts.forest.parents.length = labels.length
  chained : ∀ m n, conflicts.forest.Joined m n → Chained (TouchedAt labels) m n
  writes : ∀ global writer, conflicts.firstWriter? global = some writer →
    TouchedAt labels writer true global

section Joining

variable {labels : List LabelAccesses} {conflicts : Conflicts} {index : Nat} {isWrite : Bool}
  {global : Uid}

/-- The label joins the first writer of what it touches. -/
theorem Sound.union {writer : Nat} (h : Sound labels conflicts)
    (hwriter : conflicts.firstWriter? global = some writer)
    (htouch : TouchedAt labels index isWrite global) :
    Sound labels { conflicts with forest := conflicts.forest.union writer index } ∧
      conflicts.forest.Unites (conflicts.forest.union writer index) writer index := by
  have hwrites := h.writes global writer hwriter
  have hwriterLt : writer < conflicts.forest.parents.length := by
    rw [h.length]
    exact hwrites.lt
  have hindexLt : index < conflicts.forest.parents.length := by
    rw [h.length]
    exact htouch.lt
  have hunites := Forest.union_spec h.descends hwriterLt hindexLt
  have hconflict : Chained (TouchedAt labels) writer index :=
    .single ⟨isWrite, global, .inl ⟨hwrites, htouch⟩⟩
  refine ⟨⟨hunites.descends, hunites.length.trans h.length, ?_, h.writes⟩, hunites⟩
  intro m n hjoined
  rcases hunites.only m n hjoined with hmn | ⟨hm, hn⟩ | ⟨hm, hn⟩
  · exact h.chained m n hmn
  · exact ((h.chained m writer hm).trans hconflict).trans (h.chained n index hn).symm
  · exact ((h.chained m index hm).trans hconflict.symm).trans (h.chained n writer hn).symm

/-- The label is in one tree with the first writer, if there is one. -/
def JoinedTo (conflicts : Conflicts) (index : Nat) (global : Uid) : Prop :=
  ∀ writer, conflicts.firstWriter? global = some writer → conflicts.forest.Joined writer index

theorem firstWriter?_cons (entry : Uid × Nat) (forest : Forest) (writers : List (Uid × Nat))
    (global : Uid) :
    firstWriter? ⟨forest, entry :: writers⟩ global =
      if entry.1 = global then some entry.2 else firstWriter? ⟨forest, writers⟩ global := by
  simp only [firstWriter?, List.find?_cons]
  by_cases h : entry.1 = global <;> simp [h]

/-- One more write keeps first writers and what is joined. -/
theorem addWrite_spec (h : Sound labels conflicts) (htouch : TouchedAt labels index true global) :
    Sound labels (conflicts.addWrite index global) ∧
      (∀ m n, conflicts.forest.Joined m n →
        (conflicts.addWrite index global).forest.Joined m n) ∧
      (∀ other writer, conflicts.firstWriter? other = some writer →
        (conflicts.addWrite index global).firstWriter? other = some writer) ∧
      ∃ writer, (conflicts.addWrite index global).firstWriter? global = some writer ∧
        (conflicts.addWrite index global).forest.Joined writer index := by
  unfold addWrite
  cases hwriter : conflicts.firstWriter? global with
  | some writer =>
    obtain ⟨hsound, hunites⟩ := h.union hwriter htouch
    exact ⟨hsound, hunites.keeps, fun _ _ hother => hother, writer, hwriter, hunites.joins⟩
  | none =>
    have hkeeps : ∀ other writer, conflicts.firstWriter? other = some writer →
        firstWriter? ⟨conflicts.forest, (global, index) :: conflicts.firstWriters⟩ other =
          some writer := by
      intro other writer hother
      rw [firstWriter?_cons, if_neg]
      · exact hother
      · rintro rfl
        rw [hwriter] at hother
        simp at hother
    have hself : firstWriter? ⟨conflicts.forest, (global, index) :: conflicts.firstWriters⟩ global =
        some index := by
      rw [firstWriter?_cons, if_pos rfl]
    refine ⟨⟨h.descends, h.length, h.chained, ?_⟩, fun _ _ hjoined => hjoined, hkeeps, index, hself,
      Forest.Joined.refl h.descends index⟩
    intro other writer hother
    rw [firstWriter?_cons] at hother
    split at hother
    · rename_i hsame
      cases hother
      rw [← hsame]
      exact htouch
    · exact h.writes other writer hother

/-- One more read changes no first writer and keeps what is joined. -/
theorem addRead_spec (h : Sound labels conflicts) (htouch : TouchedAt labels index false global) :
    Sound labels (conflicts.addRead index global) ∧
      (∀ m n, conflicts.forest.Joined m n → (conflicts.addRead index global).forest.Joined m n) ∧
      (∀ other, (conflicts.addRead index global).firstWriter? other =
        conflicts.firstWriter? other) ∧
      JoinedTo (conflicts.addRead index global) index global := by
  unfold addRead
  cases hwriter : conflicts.firstWriter? global with
  | some writer =>
    obtain ⟨hsound, hunites⟩ := h.union hwriter htouch
    refine ⟨hsound, hunites.keeps, fun _ => rfl, ?_⟩
    intro other hother
    have hsame : conflicts.firstWriter? global = some other := hother
    rw [hwriter] at hsame
    cases hsame
    exact hunites.joins
  | none =>
    refine ⟨h, fun _ _ hjoined => hjoined, fun _ => rfl, ?_⟩
    intro other hother
    rw [hwriter] at hother
    simp at hother

theorem addWrites_spec (touches : List (Nat × Uid)) (h : Sound labels conflicts)
    (htouches : ∀ touch ∈ touches, TouchedAt labels touch.1 true touch.2) {after : Conflicts}
    (hafter : touches.foldl (fun conflicts touch => conflicts.addWrite touch.1 touch.2) conflicts =
      after) :
    Sound labels after ∧
      (∀ m n, conflicts.forest.Joined m n → after.forest.Joined m n) ∧
      (∀ other writer, conflicts.firstWriter? other = some writer →
        after.firstWriter? other = some writer) ∧
      ∀ touch ∈ touches, ∃ writer, after.firstWriter? touch.2 = some writer ∧
        after.forest.Joined writer touch.1 := by
  induction touches generalizing conflicts with
  | nil =>
    subst hafter
    exact ⟨h, fun _ _ hjoined => hjoined, fun _ _ hother => hother, by simp⟩
  | cons touch rest ih =>
    obtain ⟨hsound, hkeeps, hwriters, writer, hwriter, hjoined⟩ :=
      addWrite_spec h (htouches touch List.mem_cons_self)
    obtain ⟨hsoundAfter, hkeepsAfter, hwritersAfter, hrest⟩ :=
      ih hsound (fun other hother => htouches other (List.mem_cons_of_mem touch hother)) hafter
    refine ⟨hsoundAfter, fun m n hmn => hkeepsAfter m n (hkeeps m n hmn),
      fun other first hother => hwritersAfter other first (hwriters other first hother), ?_⟩
    intro other hother
    rcases List.mem_cons.1 hother with rfl | hother
    · exact ⟨writer, hwritersAfter _ _ hwriter, hkeepsAfter _ _ hjoined⟩
    · exact hrest other hother

theorem addReads_spec (touches : List (Nat × Uid)) (h : Sound labels conflicts)
    (htouches : ∀ touch ∈ touches, TouchedAt labels touch.1 false touch.2) {after : Conflicts}
    (hafter : touches.foldl (fun conflicts touch => conflicts.addRead touch.1 touch.2) conflicts =
      after) :
    Sound labels after ∧
      (∀ m n, conflicts.forest.Joined m n → after.forest.Joined m n) ∧
      (∀ other, after.firstWriter? other = conflicts.firstWriter? other) ∧
      ∀ touch ∈ touches, JoinedTo after touch.1 touch.2 := by
  induction touches generalizing conflicts with
  | nil =>
    subst hafter
    exact ⟨h, fun _ _ hjoined => hjoined, fun _ => rfl, by simp⟩
  | cons touch rest ih =>
    obtain ⟨hsound, hkeeps, hwriters, hjoined⟩ :=
      addRead_spec h (htouches touch List.mem_cons_self)
    obtain ⟨hsoundAfter, hkeepsAfter, hwritersAfter, hrest⟩ :=
      ih hsound (fun other hother => htouches other (List.mem_cons_of_mem touch hother)) hafter
    refine ⟨hsoundAfter, fun m n hmn => hkeepsAfter m n (hkeeps m n hmn),
      fun other => (hwritersAfter other).trans (hwriters other), ?_⟩
    intro other hother
    rcases List.mem_cons.1 hother with rfl | hother
    · intro writer hwriter
      rw [hwritersAfter] at hwriter
      exact hkeepsAfter _ _ (hjoined writer hwriter)
    · exact hrest other hother

end Joining

theorem sound_start (labels : List LabelAccesses) :
    Sound labels ⟨.singletons labels.length, []⟩ where
  descends := Forest.singletons_descends _
  length := by simp [Forest.singletons]
  chained := by
    intro m n hjoined
    rw [Forest.joined_singletons.1 hjoined]
    exact .refl
  writes := by simp [firstWriter?]

/-- Two labels are in one tree exactly if a chain of conflicts leads from one to the other. -/
theorem joined_ofLabels (labels : List LabelAccesses) :
    (ofLabels labels).forest.Descends ∧
      ∀ m n, (ofLabels labels).forest.Joined m n ↔ Chained (TouchedAt labels) m n := by
  have hwrites : ∀ touch ∈ touchesOf true labels, TouchedAt labels touch.1 true touch.2 :=
    fun _ => mem_touchesOf.1
  have hreads : ∀ touch ∈ touchesOf false labels, TouchedAt labels touch.1 false touch.2 :=
    fun _ => mem_touchesOf.1
  obtain ⟨hwritten, _, _, hwriters⟩ := addWrites_spec _ (sound_start labels) hwrites rfl
  obtain ⟨hsound, hkeeps, hsame, hreaders⟩ :=
    addReads_spec _ hwritten hreads (ofLabels_eq labels).symm
  -- All writes are added before the first read, so a reader in front of all writers is joined too.
  have htouch : ∀ index isWrite global writer, TouchedAt labels index isWrite global →
      (ofLabels labels).firstWriter? global = some writer →
        (ofLabels labels).forest.Joined writer index := by
    intro index isWrite global writer htouched hwriter
    cases isWrite with
    | false => exact hreaders (index, global) (mem_touchesOf.2 htouched) writer hwriter
    | true =>
      obtain ⟨first, hfirst, hjoined⟩ := hwriters (index, global) (mem_touchesOf.2 htouched)
      rw [hsame, hfirst] at hwriter
      cases hwriter
      exact hkeeps _ _ hjoined
  -- Two labels in conflict meet at the first writer of the variable.
  have hconflict : ∀ m n, Conflicting (TouchedAt labels) m n →
      (ofLabels labels).forest.Joined m n := by
    have hordered : ∀ m n isWrite global, TouchedAt labels m true global →
        TouchedAt labels n isWrite global → (ofLabels labels).forest.Joined m n := by
      intro m n isWrite global hm hn
      obtain ⟨writer, hwriter, _⟩ := hwriters (m, global) (mem_touchesOf.2 hm)
      rw [← hsame] at hwriter
      exact (htouch m true global writer hm hwriter).symm.trans
        (htouch n isWrite global writer hn hwriter)
    intro m n hconflict
    rcases hconflict with ⟨isWrite, global, ⟨hm, hn⟩ | ⟨hn, hm⟩⟩
    · exact hordered m n isWrite global hm hn
    · exact (hordered n m isWrite global hn hm).symm
  refine ⟨hsound.descends, fun m n => ⟨hsound.chained m n, ?_⟩⟩
  intro hchain
  induction hchain with
  | refl => exact Forest.Joined.refl hsound.descends m
  | tail _ hlast ih => exact ih.trans (hconflict _ _ hlast)

end Conflicts

end PlusCalGo
