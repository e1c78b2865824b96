import Mathlib.Data.List.Range
import PlusCalGo.Locking.Atomicity
import PlusCalGo.Proofs.Expressions.Assignments
import PlusCalGo.Proofs.Expressions.Surroundings
import PlusCalGo.Proofs.Go.Functions
import PlusCalGo.Resolution.Basic

/-!
# Launches

The loop of `main` that starts a process once for each number of a range, run. Before every round
the bound of the range is computed again, where the variable of the loop hides other variables that
are called `i`.
-/

namespace PlusCalGo

/-- The integers of a range, in ascending order. -/
def span (low high : Int) : List Int :=
  (List.range (high + 1 - low).toNat).map fun (offset : Nat) => low + offset

section Span

variable {low high k : Int}

theorem mem_span : k ∈ span low high ↔ low ≤ k ∧ k ≤ high := by
  simp only [span, List.mem_map, List.mem_range]
  constructor
  · rintro ⟨offset, hoffset, rfl⟩
    omega
  · intro hk
    exact ⟨(k - low).toNat, by omega, by omega⟩

theorem span_of_lt (h : high < low) : span low high = [] := by
  rw [span, Int.toNat_of_nonpos (by omega)]
  rfl

theorem span_of_le (h : low ≤ high) : span low high = low :: span (low + 1) high := by
  have hlength : (high + 1 - low).toNat = (high + 1 - (low + 1)).toNat + 1 := by omega
  rw [span, hlength, List.range_succ_eq_map, List.map_cons, List.map_map, span]
  congr 1
  · simp
  · refine List.map_congr_left fun offset _ => ?_
    simp only [Function.comp_apply]
    omega

end Span

namespace Go

/-! ## The loop -/

/-- A loop whose variable `i` grows by one after every round, and that starts a process with its
value in each. -/
structure LaunchLoop where
  first : String
  condition : String
  process : String

namespace LaunchLoop

def lines (loop : LaunchLoop) : List String :=
  ["\tfor " ++ loop.first ++ "; " ++ loop.condition ++ "; i++ \x7b",
    "\t\twg.Add(1)", "\t\tgo func(self int) \x7b", "\t\t\tdefer wg.Done()",
    "\t\t\t" ++ loop.process ++ "(self)", "\t\t\x7d(i)", "\t\x7d"]

/-- The variables around the call of the process: of the function literal, the loop and `main`. -/
def callScope : List String := ["self", "i", "wg"]

section Runs

variable (functions : Functions) (outer : functions.runtime.Temporaries) (loop : LaunchLoop)

/-- The variables that the test of the loop can see, those of functions that are around it. -/
def scope (counter : Int64) : functions.runtime.Temporaries :=
  ("i", .scalar (.int counter)) :: outer

/-- Whether there is one more round, and the memory behind the test. -/
def test (counter : Int64) (memory : Memory) : Option (Bool × Memory) := do
  let condition ← read loop.condition
  let (result, memory) ← functions.runtime.eval (scope functions outer counter) condition memory
  pure (← functions.runtime.isTrue? result, memory)

/-- From a value of its variable on, the loop starts the process with some values and ends. -/
inductive Runs : Int64 → Memory → List Int64 → Prop where
  | ends {counter : Int64} {memory after : Memory} :
    loop.test functions outer counter memory = some (false, after) → Runs counter memory []
  | starts {counter : Int64} {memory after : Memory} {rest : List Int64} :
    loop.test functions outer counter memory = some (true, after) →
      Runs (counter + 1) after rest → Runs counter memory (counter :: rest)

/-- The loop starts the process with some values and ends. No variable may hide the process. -/
def Starts (memory : Memory) (started : List Int64) : Prop :=
  loop.process ∉ callScope ∧ ∃ term value counter after,
    command loop.first = some (.define "i" term) ∧
      functions.runtime.eval outer term memory = some (.scalar value, after) ∧
      value.toInt64? = some counter ∧ loop.Runs functions outer counter after started

/-- The loop ends, and starts the process once with each number of a range. -/
def StartsSpan (memory : Memory) (low high : Int) : Prop :=
  ∃ started, loop.Starts functions outer memory started ∧ started.map Int64.toInt = span low high

end Runs

section Runs

variable {functions : Functions} {outer : functions.runtime.Temporaries} {loop : LaunchLoop}
  {counter : Int64} {memory : Memory} {started others : List Int64}

theorem lookup_scope {name : String} (hname : name ≠ "i") :
    (scope functions outer counter).lookup name = outer.lookup name :=
  List.lookup_cons.trans (by rw [beq_false_of_ne hname])

theorem Runs.unique (h : loop.Runs functions outer counter memory started)
    (hothers : loop.Runs functions outer counter memory others) : started = others := by
  induction h generalizing others with
  | ends htest =>
    cases hothers with
    | ends => rfl
    | starts hgoes => cases htest.symm.trans hgoes
  | starts htest _ ih =>
    cases hothers with
    | ends hstops => cases htest.symm.trans hstops
    | starts hgoes hrest =>
      cases htest.symm.trans hgoes
      rw [ih hrest]

/-- A loop ends in one way only. -/
theorem Starts.unique (h : loop.Starts functions outer memory started)
    (hothers : loop.Starts functions outer memory others) : started = others := by
  obtain ⟨_, term, value, counter, after, hfirst, hvalue, hcounter, hruns⟩ := h
  obtain ⟨_, _, _, _, _, hfirst', hvalue', hcounter', hruns'⟩ := hothers
  cases hfirst.symm.trans hfirst'
  cases hvalue.symm.trans hvalue'
  cases hcounter.symm.trans hcounter'
  exact hruns.unique hruns'

/-! ## Rounds -/

/-- In stable memories, the value of the variable decides whether there is one more round. -/
structure Decides (functions : Functions) (outer : functions.runtime.Temporaries)
    (loop : LaunchLoop) (stable : Memory → Prop) (goes : Int → Option Bool) : Prop where
  decided : ∀ {counter memory result}, stable memory → goes counter.toInt = some result →
    ∃ after, loop.test functions outer counter memory = some (result, after) ∧ stable after
  fails : ∀ {counter memory}, stable memory → goes counter.toInt = none →
    loop.test functions outer counter memory = none

variable {stable : Memory → Prop} {goes : Int → Option Bool} {after : Memory} {a b : Int}

theorem Decides.of_test (hdecides : Decides functions outer loop stable goes)
    (hmemory : stable memory) {result : Bool}
    (h : loop.test functions outer counter memory = some (result, after)) :
    goes counter.toInt = some result ∧ stable after := by
  cases hgoes : goes counter.toInt with
  | none => cases (hdecides.fails hmemory hgoes).symm.trans h
  | some decision =>
    obtain ⟨last, htest, hlast⟩ := hdecides.decided hmemory hgoes
    cases htest.symm.trans h
    exact ⟨rfl, hlast⟩

theorem toInt_succ (h : counter.toInt + 1 < 2 ^ 63) : (counter + 1).toInt = counter.toInt + 1 := by
  have hone : (1 : Int64).toInt = 1 := rfl
  have hlow := Int64.le_toInt counter
  rw [Int64.toInt_add, hone, bmod_of_fits ⟨by omega, h⟩]

/-- After the largest integer comes the smallest one. -/
theorem toInt_wrap (h : counter.toInt + 1 = 2 ^ 63) : (counter + 1).toInt = -2 ^ 63 := by
  have hone : (1 : Int64).toInt = 1 := rfl
  rw [Int64.toInt_add, hone, h]
  rfl

/-- The test holds for each number of the range, and fails for the next one. -/
structure Passes (goes : Int → Option Bool) (a b : Int) : Prop where
  inside : ∀ k ∈ span a b, goes k = some true
  bound : max a (b + 1) < 2 ^ 63
  stops : goes (max a (b + 1)) = some false

theorem passes_of_lt (h : b < a) : Passes goes a b ↔ a < 2 ^ 63 ∧ goes a = some false := by
  have hend : max a (b + 1) = a := by omega
  constructor
  · rintro ⟨-, hbound, hstops⟩
    exact ⟨hend ▸ hbound, hend ▸ hstops⟩
  · rintro ⟨hbound, hstops⟩
    refine ⟨?_, hend.symm ▸ hbound, hend.symm ▸ hstops⟩
    rw [span_of_lt h]
    exact List.forall_mem_nil _

theorem passes_of_le (h : a ≤ b) :
    Passes goes a b ↔ goes a = some true ∧ Passes goes (a + 1) b := by
  have hend : max (a + 1) (b + 1) = max a (b + 1) := by omega
  constructor
  · rintro ⟨hinside, hbound, hstops⟩
    rw [span_of_le h, List.forall_mem_cons] at hinside
    exact ⟨hinside.1, hinside.2, hend ▸ hbound, hend ▸ hstops⟩
  · rintro ⟨hgoes, hinside, hbound, hstops⟩
    refine ⟨?_, hend ▸ hbound, hend ▸ hstops⟩
    rw [span_of_le h]
    exact List.forall_mem_cons.2 ⟨hgoes, hinside⟩

/-- A loop that ends has failed its test. -/
theorem exists_stops (hdecides : Decides functions outer loop stable goes) (hmemory : stable memory)
    (h : loop.Runs functions outer counter memory started) : ∃ k, goes k = some false := by
  induction h with
  | ends htest => exact ⟨_, (hdecides.of_test hmemory htest).1⟩
  | starts htest _ ih => exact ih (hdecides.of_test hmemory htest).2

theorem runs_span (hdecides : Decides functions outer loop stable goes) (hmemory : stable memory)
    (h : Passes goes counter.toInt b) :
    ∃ started, loop.Runs functions outer counter memory started ∧
      started.map Int64.toInt = span counter.toInt b := by
  -- The induction is on the rounds that are left.
  obtain ⟨rounds, hrounds⟩ : ∃ rounds, (b + 1 - counter.toInt).toNat = rounds := ⟨_, rfl⟩
  induction rounds generalizing counter memory with
  | zero =>
    have hlt : b < counter.toInt := by omega
    obtain ⟨-, hstops⟩ := (passes_of_lt hlt).1 h
    obtain ⟨after, htest, -⟩ := hdecides.decided hmemory hstops
    exact ⟨[], .ends htest, (span_of_lt hlt).symm⟩
  | succ rounds ih =>
    have hle : counter.toInt ≤ b := by omega
    obtain ⟨hgoes, hrest⟩ := (passes_of_le hle).1 h
    obtain ⟨after, htest, hafter⟩ := hdecides.decided hmemory hgoes
    have hbound := hrest.bound
    have hnext : (counter + 1).toInt = counter.toInt + 1 := toInt_succ (by omega)
    obtain ⟨started, hruns, hstarted⟩ := ih hafter (hnext ▸ hrest) (by omega)
    refine ⟨counter :: started, .starts htest hruns, ?_⟩
    rw [List.map_cons, hstarted, hnext, span_of_le hle]

/-- Behind the largest integer a loop is at the smallest one, which is outside of the range. -/
theorem ne_span_of_wrap (hdecides : Decides functions outer loop stable goes)
    (hsmallest : goes (-2 ^ 63) ≠ some false) (hmemory : stable memory)
    (hlast : counter.toInt + 1 = 2 ^ 63)
    (h : loop.Runs functions outer (counter + 1) memory started) :
    started.map Int64.toInt ≠ span (counter.toInt + 1) b := by
  intro hstarted
  cases h with
  | ends htest =>
    obtain ⟨hstops, -⟩ := hdecides.of_test hmemory htest
    exact hsmallest (toInt_wrap hlast ▸ hstops)
  | @starts _ _ _ rest htest hruns =>
    have hhead : (counter + 1).toInt ∈ span (counter.toInt + 1) b := by
      rw [← hstarted]
      exact List.mem_cons_self
    have hbelow : counter.toInt + 1 ≤ (counter + 1).toInt := (mem_span.1 hhead).1
    have hword := Int64.toInt_lt (counter + 1)
    omega

/-- A loop that goes through a range and ends passes it. The smallest integer must not fail the
test, or the loop would end behind the largest one. -/
theorem passes_of_runs (hdecides : Decides functions outer loop stable goes)
    (hsmallest : goes (-2 ^ 63) ≠ some false) (hmemory : stable memory)
    (h : loop.Runs functions outer counter memory started)
    (hstarted : started.map Int64.toInt = span counter.toInt b) :
    Passes goes counter.toInt b := by
  induction h with
  | @ends counter memory after htest =>
    obtain ⟨hstops, -⟩ := hdecides.of_test hmemory htest
    have hlt : b < counter.toInt := by
      by_contra hle
      rw [span_of_le (by omega)] at hstarted
      cases hstarted
    exact (passes_of_lt hlt).2 ⟨Int64.toInt_lt counter, hstops⟩
  | @starts counter memory after rest htest hruns ih =>
    obtain ⟨hgoes, hafter⟩ := hdecides.of_test hmemory htest
    have hle : counter.toInt ≤ b := by
      by_contra hlt
      rw [span_of_lt (by omega)] at hstarted
      cases hstarted
    rw [span_of_le hle, List.map_cons, List.cons.injEq] at hstarted
    have hword := Int64.toInt_lt counter
    by_cases hlast : counter.toInt + 1 = 2 ^ 63
    · exact absurd hstarted.2 (ne_span_of_wrap hdecides hsmallest hafter hlast hruns)
    · have hnext : (counter + 1).toInt = counter.toInt + 1 := toInt_succ (by omega)
      have hrest := ih hafter (hnext ▸ hstarted.2)
      exact (passes_of_le hle).2 ⟨hgoes, hnext ▸ hrest⟩

end Runs

end LaunchLoop

/-! ## Texts -/

/-- A comparison of the variable of a loop with an expression. -/
theorem read_condition {text : String} {term : Term} (h : Prints text term) :
    read ("i <= " ++ text) = some (.binary "<=" (.name "i") term) := by
  have hfront : Leads anywhere "i <= " (.operand [])
      (.operand [.binary "<=" (.name "i")]) :=
    ⟨[.word "i", .sign "<="], cut_of_run_nothing rfl, rfl⟩
  obtain ⟨tokens, hcut, hrun⟩ := hfront.append (h.leads _) h.nonempty
  have hreduce : reduce 0 (term.signs ++ [.binary "<=" (.name "i")]) term.core =
      ([], .binary "<=" (.name "i") term) := reduce_signs 0 _ term
  rw [read, hcut.tokens_eq, Option.bind_some, parse, hrun, Option.bind_some, Reading.finish,
    hreduce]

theorem Value.eq_of_toInt64? {value : Value} {n : Int} {word : Int64} (h : value.Is (.int n))
    (hword : value.toInt64? = some word) : word.toInt = n := by
  cases value with
  | constant a =>
    obtain rfl : a = n := h
    obtain ⟨hfits, hword⟩ := Option.ite_none_right_eq_some.1 hword
    cases hword
    exact toInt_ofInt hfits
  | int other =>
    cases hword
    exact h
  | bool b => cases hword

/-- Go compares an integer with another value, if this is an integer of Go. -/
theorem Value.binary_atMost {value : Value} {n : Int} (h : value.Is (.int n)) (counter : Int64) :
    (Value.int counter).binary "<=" value =
      if Fits n then some (.bool (counter.toInt ≤ n)) else none := by
  by_cases hfits : Fits n
  · obtain ⟨word, hword, rfl⟩ := toInt64?_of_is h hfits
    have hints : (Value.int counter).binary "<=" value = ofInts "<=" (.int counter) value := by
      cases value with
      | bool b => exact h.elim
      | _ => rfl
    rw [hints, ofInts, hword, if_pos hfits]
    rfl
  · cases value with
    | constant a =>
      obtain rfl : a = n := h
      simp [binary, ofInts, toInt64?, hfits]
    | int word =>
      obtain rfl : word.toInt = n := h
      exact absurd (fits_toInt word) hfits
    | bool b => exact h.elim

theorem Launch.lines_range (process low high : String) :
    (Launch.range process low high).lines =
      LaunchLoop.lines ⟨"i := " ++ low, "i <= " ++ high, process⟩ := by
  have hheader : "\tfor i := " ++ low ++ "; i <= " ++ high ++ "; i++ \x7b" =
      "\tfor " ++ ("i := " ++ low) ++ "; " ++ ("i <= " ++ high) ++ "; i++ \x7b" := by
    rw [← String.toList_inj]
    simp
  rw [Launch.lines, LaunchLoop.lines, hheader]

/-! ## The bound -/

namespace LaunchLoop

/-- The test of a loop whose bound has an integer value for each value of the variable: it compares
the two, if the value is an integer of Go. -/
def within (bound : Int → Int) (k : Int) : Option Bool :=
  if Fits (bound k) then some (k ≤ bound k) else none

section Bound

variable {functions : Functions} {outer : functions.runtime.Temporaries} {loop : LaunchLoop}
  {definitions : Definitions} {low high : Expression} {text : String} {term : Term} {value : Value}
  {stable : Memory → Prop} {counter : Int64} {memory after : Memory} {goes : Int → Option Bool}
  {bound : Int → Int} {a b n : Int}

theorem test_eq (hcondition : loop.condition = "i <= " ++ text) (hprints : Prints text term)
    (hvalue : functions.runtime.eval (scope functions outer counter) term memory =
      some (.scalar value, after)) (hamount : value.Is (.int n)) :
    loop.test functions outer counter memory =
      if Fits n then some (decide (counter.toInt ≤ n), after) else none := by
  have hvariable : functions.runtime.eval (scope functions outer counter) (.name "i") memory =
      some (.scalar (.int counter), memory) := rfl
  rw [test, hcondition, read_condition hprints, Option.bind_eq_bind, Option.bind_some,
    Functions.eval_binary hvariable rfl hvalue, Value.binary_atMost hamount]
  split <;> rfl

/-- Where the bound has integer values, they decide. -/
theorem decides_within (hnames : ∀ name ∈ high.names, IsName name)
    (htext : high.toGo definitions = .ok text) (hcondition : loop.condition = "i <= " ++ text)
    (hbound : ∀ k, Fits k →
      high.Amounts definitions functions (scope functions outer (.ofInt k)) stable (bound k)) :
    Decides functions outer loop stable (within bound) := by
  have htest (counter : Int64) (memory : Memory) (hmemory : stable memory) : ∃ after,
      loop.test functions outer counter memory = (if Fits (bound counter.toInt) then
        some (decide (counter.toInt ≤ bound counter.toInt), after) else none) ∧ stable after := by
    have hamounts := hbound counter.toInt (Value.fits_toInt counter)
    rw [Int64.ofInt_toInt] at hamounts
    obtain ⟨term, value, after, hprints, hvalue, hamount, hafter⟩ :=
      hamounts.exists_term hnames htext hmemory
    exact ⟨after, test_eq hcondition hprints hvalue hamount, hafter⟩
  constructor
  · intro counter memory result hmemory hgoes
    obtain ⟨after, heq, hafter⟩ := htest counter memory hmemory
    obtain ⟨hfits, hresult⟩ := Option.ite_none_right_eq_some.1 hgoes
    rw [if_pos hfits] at heq
    cases hresult
    exact ⟨after, heq, hafter⟩
  · intro counter memory hmemory hgoes
    obtain ⟨after, heq, -⟩ := htest counter memory hmemory
    have hfits : ¬Fits (bound counter.toInt) := by
      intro hfits
      rw [within, if_pos hfits] at hgoes
      cases hgoes
    rw [heq, if_neg hfits]

/-- No bound is below the smallest integer. -/
theorem within_smallest : within bound (-2 ^ 63) ≠ some false := by
  intro h
  obtain ⟨hfits, hresult⟩ := Option.ite_none_right_eq_some.1 h
  exact absurd hfits.1 (by simpa using hresult)

/-- A bound that does not change is passed behind the range that it ends. -/
theorem passes_within (ha : Fits a) :
    Passes (within fun _ => b) a b ↔ Fits b ∧ b + 1 < 2 ^ 63 := by
  constructor
  · rintro ⟨-, hend, hstops⟩
    obtain ⟨hfits, -⟩ := Option.ite_none_right_eq_some.1 hstops
    exact ⟨hfits, by omega⟩
  · rintro ⟨hfits, hend⟩
    have hupper := ha.2
    refine ⟨fun k hk => ?_, by omega, ?_⟩
    · obtain ⟨-, hle⟩ := mem_span.1 hk
      simp [within, hfits, hle]
    · have hlt : ¬max a (b + 1) ≤ b := by omega
      simp [within, hfits, hlt]

theorem starts_iff (hdecides : Decides functions outer loop stable goes)
    (hsmallest : goes (-2 ^ 63) ≠ some false) (hfirst : loop.first = "i := " ++ text)
    (hprints : Prints text term)
    (hvalue : functions.runtime.eval outer term memory = some (.scalar value, after))
    (hamount : value.Is (.int a)) (hafter : stable after) :
    loop.StartsSpan functions outer memory a b ↔
      loop.process ∉ callScope ∧ Fits a ∧ Passes goes a b := by
  have hname : IsName "i" := ⟨⟨'i', rfl, by decide⟩, by decide, by decide⟩
  have hcommand : command loop.first = some (.define "i" term) := by
    have hsplit : "i := " = "i" ++ " := " := rfl
    rw [hfirst, hsplit]
    exact command_declare hname hprints
  constructor
  · rintro ⟨started, ⟨hprocess, _, _, counter, _, hdefine, hstart, hcounter, hruns⟩, hstarted⟩
    cases hcommand.symm.trans hdefine
    cases hvalue.symm.trans hstart
    obtain rfl := Value.eq_of_toInt64? hamount hcounter
    exact ⟨hprocess, Value.fits_toInt counter,
      passes_of_runs hdecides hsmallest hafter hruns hstarted⟩
  · rintro ⟨hprocess, hfits, hpasses⟩
    obtain ⟨counter, hcounter, rfl⟩ := Value.toInt64?_of_is hamount hfits
    obtain ⟨started, hruns, hstarted⟩ := runs_span hdecides hafter hpasses
    exact ⟨started, ⟨hprocess, term, value, counter, after, hcommand, hvalue, hcounter, hruns⟩,
      hstarted⟩

end Bound

/-! ## The variables of main -/

section Main

variable {functions : Functions} {outer : functions.runtime.Temporaries}
  {definitions : Definitions} {expression : Expression} {stable : Memory → Prop} {amount : Int}

private theorem ownNames_apart : ∀ name ∈ ownNames, name ≠ "wg" ∧ name ≠ "i" := by decide

private theorem lookup_outer (houter : ∀ entry ∈ outer, entry.1 = "wg") {name : String}
    (hname : name ≠ "wg") : outer.lookup name = none := by
  refine List.lookup_eq_none_iff.2 fun entry hentry => ?_
  rw [houter entry hentry]
  simpa using hname

/-- An expression has its value ahead of the loop. -/
theorem amounts_outer (h : expression.Amounts definitions functions [] stable amount)
    (hnames : ∀ name ∈ expression.names, IsName name ∧ name ≠ "wg")
    (houter : ∀ entry ∈ outer, entry.1 = "wg") :
    expression.Amounts definitions functions outer stable amount := by
  refine h.of_unnamed (fun name hname => (hnames name hname).1) fun name hname => ?_
  rcases List.mem_append.1 hname with hname | hown
  · exact lookup_outer houter (hnames name hname).2
  · exact lookup_outer houter (ownNames_apart name hown).1

/-- An expression that does not name the variable of the loop has its value in the loop, too. -/
theorem amounts_scope (h : expression.Amounts definitions functions [] stable amount)
    (hnames : ∀ name ∈ expression.names, IsName name ∧ name ≠ "wg")
    (houter : ∀ entry ∈ outer, entry.1 = "wg") (hfree : "i" ∉ expression.names)
    (counter : Int64) :
    expression.Amounts definitions functions (scope functions outer counter) stable amount := by
  refine h.of_unnamed (fun name hname => (hnames name hname).1) fun name hname => ?_
  have hapart : name ≠ "wg" ∧ name ≠ "i" := by
    rcases List.mem_append.1 hname with hname | hown
    · exact ⟨(hnames name hname).2, ne_of_mem_of_not_mem hname hfree⟩
    · exact ownNames_apart name hown
  exact (lookup_scope hapart.2).trans (lookup_outer houter hapart.1)

end Main

end LaunchLoop

/-! ## Programs -/

theorem mapM_middle {α β : Type} {make : α → Except Diagnostic β} {before after : List α} {item : α}
    {all : List β} (h : (before ++ item :: after).mapM make = .ok all) :
    ∃ first made last, before.mapM make = .ok first ∧ make item = .ok made ∧
      after.mapM make = .ok last ∧ all = first ++ made :: last := by
  rw [List.mapM_append] at h
  obtain ⟨first, hfirst, h⟩ := ok_of_bind h
  obtain ⟨others, hothers, h⟩ := ok_of_bind h
  rw [List.mapM_cons] at hothers
  obtain ⟨made, hmade, hothers⟩ := ok_of_bind hothers
  obtain ⟨last, hlast, hothers⟩ := ok_of_bind hothers
  cases hothers
  cases h
  exact ⟨first, made, last, hfirst, hmade, hlast, rfl⟩

/-- In `main` the loop stands once, between the launches of the processes before and after. -/
def Program.HasLoop (program : Program) (definitions : Definitions) (before after : List Process)
    (loop : LaunchLoop) : Prop :=
  ∃ first last, before.mapM (launchOf definitions) = .ok first ∧
    after.mapM (launchOf definitions) = .ok last ∧
    program.mainLines = ["func main() \x7b", "\tvar wg sync.WaitGroup"] ++
      first.flatMap Launch.lines ++ loop.lines ++ last.flatMap Launch.lines ++
      ["\twg.Wait()", "\x7d"]

end Go

open Go

namespace Algorithm

variable {algorithm : Algorithm} {definitions : Definitions} {groups : LockGroups}
  {settings : Settings} {program : Program} {before after : List Process} {process : Process}
  {low high : Expression}

/-- The loop of a process and the texts of its bounds. -/
theorem toGo_hasLoop (h : algorithm.toGo definitions groups settings = .ok program)
    (hlocking : settings.locking = .inProcess)
    (hprocesses : algorithm.processes = before ++ process :: after)
    (hrange : process.selfValue = .range low high) :
    ∃ first last, low.toGo definitions = .ok first ∧ high.toGo definitions = .ok last ∧
      program.HasLoop definitions before after
        ⟨"i := " ++ first, "i <= " ++ last, process.name⟩ := by
  obtain ⟨_, _, _, _, _, hlocks, hlaunches⟩ := toGo_parts h
  rw [lockHome, hlocking] at hlocks
  have hlocks : program.locks = .mutexes groups.count := (Except.ok.inj hlocks).symm
  rw [hprocesses] at hlaunches
  obtain ⟨front, launch, back, hfront, hlaunch, hback, hall⟩ := mapM_middle hlaunches
  rw [launchOf, hrange] at hlaunch
  obtain ⟨first, hfirst, hlaunch⟩ := ok_of_bind hlaunch
  obtain ⟨last, hlast, hlaunch⟩ := ok_of_bind hlaunch
  cases hlaunch
  refine ⟨first, last, hfirst, hlast, front, back, hfront, hback, ?_⟩
  rw [Program.mainLines, hlocks, hall, List.flatMap_append, List.flatMap_cons, Launch.lines_range]
  simp [LockHome.setupLines]

/-- With the locks in the program itself, `main` has one loop for each process of a range. If the
bounds have their values while it runs, it starts the process once with each number of the range,
unless the value of its variable `i` changes that of the upper bound, or the range reaches the
largest integer, or a variable around the call hides the process. The bounds may not name `wg`: in
`main` this is the wait group, declared around the loop, and has no integer value. -/
theorem toGo_launches (h : algorithm.toGo definitions groups settings = .ok program)
    (hlocking : settings.locking = .inProcess)
    (hprocesses : algorithm.processes = before ++ process :: after)
    (hrange : process.selfValue = .range low high)
    (hlow : ∀ name ∈ low.names, IsName name ∧ name ≠ "wg")
    (hhigh : ∀ name ∈ high.names, IsName name ∧ name ≠ "wg") :
    ∃ loop : LaunchLoop, loop.process = process.name ∧
      program.HasLoop definitions before after loop ∧
      ∀ (functions : Functions) (outer : functions.runtime.Temporaries) (stable : Memory → Prop)
        (memory : Memory) (a b : Int), (∀ entry ∈ outer, entry.1 = "wg") → stable memory →
        low.Amounts definitions functions [] stable a →
        high.Amounts definitions functions [] stable b →
        (∀ bound : Int → Int, (∀ k, Fits k → high.Amounts definitions functions
            (LaunchLoop.scope functions outer (.ofInt k)) stable (bound k)) →
          (loop.StartsSpan functions outer memory a b ↔ process.name ∉ LaunchLoop.callScope ∧
            Fits a ∧ LaunchLoop.Passes (LaunchLoop.within bound) a b)) ∧
        ("i" ∉ high.names →
          (loop.StartsSpan functions outer memory a b ↔ process.name ∉ LaunchLoop.callScope ∧
            Fits a ∧ Fits b ∧ b + 1 < 2 ^ 63)) := by
  obtain ⟨first, last, hfirst, hlast, hloop⟩ := toGo_hasLoop h hlocking hprocesses hrange
  refine ⟨_, rfl, hloop, ?_⟩
  intro functions outer stable memory a b houter hmemory hlowValue hhighValue
  have hlowNames : ∀ name ∈ low.names, IsName name := fun name hname => (hlow name hname).1
  have hhighNames : ∀ name ∈ high.names, IsName name := fun name hname => (hhigh name hname).1
  obtain ⟨term, value, behind, hprints, hvalue, hamount, hbehind⟩ :=
    (LaunchLoop.amounts_outer hlowValue hlow houter).exists_term hlowNames hfirst hmemory
  have hiff (bound : Int → Int) (hbound : ∀ k, Fits k → high.Amounts definitions functions
      (LaunchLoop.scope functions outer (.ofInt k)) stable (bound k)) :
      LaunchLoop.StartsSpan functions outer ⟨"i := " ++ first, "i <= " ++ last, process.name⟩
        memory a b ↔ process.name ∉ LaunchLoop.callScope ∧ Fits a ∧
          LaunchLoop.Passes (LaunchLoop.within bound) a b :=
    LaunchLoop.starts_iff (LaunchLoop.decides_within hhighNames hlast rfl hbound)
      LaunchLoop.within_smallest rfl hprints hvalue hamount hbehind
  refine ⟨hiff, fun hfree => ?_⟩
  have hconstant : ∀ k, Fits k → high.Amounts definitions functions
      (LaunchLoop.scope functions outer (.ofInt k)) stable b :=
    fun k _ => LaunchLoop.amounts_scope hhighValue hhigh houter hfree (.ofInt k)
  refine (hiff (fun _ => b) hconstant).trans ?_
  exact and_congr_right fun _ => and_congr_right fun ha => LaunchLoop.passes_within ha

end Algorithm

/-! ## A range up to a constant

The constant is 3, and process `P` has the numbers from 1 up to it. -/

private def ranged (name : String) : Algorithm :=
  let mark (number : UInt32) : Mark := ⟨⟨number⟩, .unknown⟩
  ⟨"T", [⟨⟨1⟩, name, some (.number ⟨2⟩ 3)⟩], [], [],
    [⟨⟨3⟩, "P", ⟨4⟩, .range (.number ⟨5⟩ 1) (.identifier ⟨6⟩ name), [],
      [.labeled (mark 7) ⟨⟨8⟩, "a"⟩ [.skip (mark 9)]]⟩]⟩

private def rangedDefinitions (name : String) : Definitions :=
  ⟨[⟨⟨1⟩, name, .constant, .unknown⟩, ⟨⟨4⟩, "self", .processSelf, .unknown⟩], [(⟨6⟩, ⟨1⟩)]⟩

private def rangedAtomicity : Atomicity := ⟨⟨[], [], []⟩, ⟨"T", [], ["P.a"]⟩, []⟩

private def rangedProgram (name : String) : Program :=
  ⟨"T", "main", .none, [.initialized name "3"], .mutexes 0, [⟨"P", [], ⟨[.label "a"], []⟩⟩],
    [.range "P" "1" name]⟩

private theorem ranged_toGo (name : String) :
    (ranged name).toGo (rangedDefinitions name) rangedAtomicity.groups .default =
      .ok (rangedProgram name) := by cbv

/-- Constants are 3. -/
private def three (_ : String) : Scalar := .int 3

private theorem amounts_low {definitions : Definitions} {functions : Functions} :
    (Expression.number ⟨5⟩ 1).Amounts definitions functions []
      (Functions.Holds · fun name => .ofScalar (three name)) 1 := by
  refine Expression.amounts_of_value rfl ⟨?_, ?_⟩ trivial ?_
  · intro part hpart result hresult
    cases List.mem_singleton.1 hpart
    cases hresult
    decide
  · simp [Expression.parts]
  · simp [Expression.parts, Expression.DividesEvenly]

private theorem amounts_high {definitions : Definitions} {functions : Functions} {name : String}
    (hname : IsName name) (htrue : name ≠ "true") (hfalse : name ≠ "false") :
    (Expression.identifier ⟨6⟩ name).Amounts definitions functions []
      (Functions.Holds · fun name => .ofScalar (three name)) 3 := by
  refine Expression.amounts_of_value rfl ⟨?_, ?_⟩ hname ?_
  · intro part hpart result hresult
    cases List.mem_singleton.1 hpart
    cases hresult
    exact (by decide : Fits 3)
  · simp [Expression.parts, htrue.symm, hfalse.symm]
  · simp [Expression.parts, Expression.DividesEvenly]

theorem Algorithm.toGo_launches_ranged :
    (ranged "n").toGo (rangedDefinitions "n") rangedAtomicity.groups .default =
        .ok (rangedProgram "n") ∧
      ∃ loop : LaunchLoop, (rangedProgram "n").HasLoop (rangedDefinitions "n") [] [] loop ∧
        ∀ memory, Functions.Holds memory (fun name => .ofScalar (three name)) →
          loop.StartsSpan .literals [("wg", .map 0)] memory 1 3 := by
  have hname : IsName "n" := ⟨⟨'n', rfl, by decide⟩, by decide, by decide⟩
  refine ⟨ranged_toGo "n", ?_⟩
  have hprocesses : (ranged "n").processes = [] ++ [_] := rfl
  obtain ⟨loop, _, hloop, hstarts⟩ := toGo_launches (ranged_toGo "n") rfl hprocesses rfl
    (List.forall_mem_nil _) (List.forall_mem_singleton.2 ⟨hname, by decide⟩)
  refine ⟨loop, hloop, fun memory hmemory => ?_⟩
  exact ((hstarts .literals [("wg", .map 0)] _ memory 1 3 (by simp) hmemory amounts_low
    (amounts_high hname (by decide) (by decide))).2 (by decide)).2 (by decide)

/-! ## A hidden constant

The variable of the loop hides the constant, and is never above itself. -/

private def hidingLoop : LaunchLoop := ⟨"i := 1", "i <= i", "P"⟩

theorem Algorithm.launch_hides_constant :
    (ranged "i").resolve = .ok (rangedDefinitions "i") ∧
      (ranged "i").inferAtomicity (rangedDefinitions "i") = .ok rangedAtomicity ∧
      (ranged "i").toGo (rangedDefinitions "i") rangedAtomicity.groups .default =
        .ok (rangedProgram "i") ∧
      (rangedProgram "i").HasLoop (rangedDefinitions "i") [] [] hidingLoop ∧
      (∀ functions, (Expression.number ⟨5⟩ 1).Amounts (rangedDefinitions "i") functions []
          (Functions.Holds · fun name => .ofScalar (three name)) 1 ∧
        (Expression.identifier ⟨6⟩ "i").Amounts (rangedDefinitions "i") functions []
          (Functions.Holds · fun name => .ofScalar (three name)) 3) ∧
      ∀ functions outer memory started, ¬hidingLoop.Starts functions outer memory started := by
  have hname : IsName "i" := ⟨⟨'i', rfl, by decide⟩, by decide, by decide⟩
  refine ⟨by cbv, by cbv, ranged_toGo "i", ⟨[], [], rfl, rfl, by decide⟩,
    fun functions => ⟨amounts_low, amounts_high hname (by decide) (by decide)⟩, ?_⟩
  rintro functions outer memory started ⟨_, term, value, counter, after, _, _, _, hruns⟩
  have hnames : ∀ name ∈ (Expression.identifier ⟨6⟩ "i").names, IsName name :=
    List.forall_mem_singleton.2 hname
  have hbound : ∀ k, Fits k → (Expression.identifier ⟨6⟩ "i").Amounts (rangedDefinitions "i")
      functions (LaunchLoop.scope functions outer (.ofInt k)) (fun _ => True) k := by
    intro k hk memory _
    refine ⟨.int (.ofInt k), memory, ?_, toInt_ofInt hk, trivial⟩
    rw [Expression.goEval_of_toGo hnames rfl]
    rfl
  obtain ⟨k, hk⟩ := LaunchLoop.exists_stops
    (LaunchLoop.decides_within hnames rfl rfl hbound) trivial hruns
  obtain ⟨_, hresult⟩ := Option.ite_none_right_eq_some.1 hk
  simp at hresult

end PlusCalGo
