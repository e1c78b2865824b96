import PlusCalGo.Go.Program
import PlusCalGo.Proofs.Expressions.Tokens

/-!
# String literals

What the quoted texts in a program denote in Go. The short escapes mean the same there, except for
the one of the zero character: two more octal digits belong to it. Escapes by code point have
brackets around their digits, which Go's have not.
-/

namespace PlusCalGo.Go

/-! ## Literals of Go -/

/-- The value of a digit of numbers with some base up to sixteen. -/
def digit? (base : Nat) (c : Char) : Option Nat :=
  let value? :=
    if c.isDigit then some (c.toNat - 48)
    else if 'a' ≤ c ∧ c ≤ 'f' then some (c.toNat - 87)
    else if 'A' ≤ c ∧ c ≤ 'F' then some (c.toNat - 55)
    else none
  value?.filter (· < base)

/-- Where the reader of a literal is. -/
inductive Place where
  | before
  /-- Between two characters. -/
  | inside
  /-- Behind a backslash. -/
  | escape
  /-- Some digits before the end of a number that stands for a byte. -/
  | byte (base left value : Nat)
  /-- Some digits before the end of a hexadecimal number that stands for a character. -/
  | codePoint (left value : Nat)
  | closed
deriving DecidableEq

namespace Place

/-- One more character of a literal, and the bytes it adds. Neither the end of the line nor the zero
character and the byte order mark can stand in a literal. -/
def step : Place → Char → Option (List UInt8 × Place)
  | before, c => if c = '\"' then some ([], inside) else none
  | inside, c =>
    if c = '\"' then some ([], closed)
    else if c = '\\' then some ([], escape)
    else if c ∈ ['\n', '\x00', '\ufeff'] then none
    else some (String.utf8EncodeChar c, inside)
  | escape, c =>
    match unescape? c with
    | some char => some (String.utf8EncodeChar char, inside)
    | none =>
      if c = 'x' then some ([], byte 16 2 0)
      else if c = 'u' then some ([], codePoint 4 0)
      else if c = 'U' then some ([], codePoint 8 0)
      else (digit? 8 c).map fun digit => ([], byte 8 2 digit)
  | byte base left value, c => do
    let value := value * base + (← digit? base c)
    if 1 < left then pure ([], byte base (left - 1) value)
    else if value < 256 then pure ([.ofNat value], inside)
    else none
  | codePoint left value, c => do
    let value := value * 16 + (← digit? 16 c)
    if 1 < left then pure ([], codePoint (left - 1) value)
    else if value.isValidChar then pure (String.utf8EncodeChar (Char.ofNat value), inside)
    else none
  | closed, _ => none

/-- The bytes of the rest of a literal. -/
def run : Place → List Char → Option (List UInt8)
  | place, [] => if place = closed then some [] else none
  | place, c :: rest =>
    match place.step c with
    | none => none
    | some (bytes, next) => (run next rest).map (bytes ++ ·)

theorem run_cons {place next : Place} {c : Char} {bytes : List UInt8}
    (h : place.step c = some (bytes, next)) (rest : List Char) :
    place.run (c :: rest) = (next.run rest).map (bytes ++ ·) := by
  rw [run, h]

theorem run_cons_none {place : Place} {c : Char} (h : place.step c = none) (rest : List Char) :
    place.run (c :: rest) = none := by
  rw [run, h]

end Place

/-- The string that a text denotes, if it is a string literal. -/
def denoted (literal : String) : Option ByteArray :=
  (Place.before.run literal.toList).map List.toByteArray

/-- All kinds of escapes. -/
example : denoted "\"\\t\\101\\x42\\u00e9\\U0001F600\"" = some "\tABé😀".toByteArray := by
  decide +kernel

/-! ## Quoted texts -/

/-- The bytes that quoted characters denote. -/
def quotedBytes : List Char → Option (List UInt8)
  | [] => some []
  | '\x00' :: a :: b :: rest => do
    let high ← digit? 8 a
    let low ← digit? 8 b
    (quotedBytes rest).map (.ofNat (high * 8 + low) :: ·)
  | c :: rest =>
    if isWritable c then (quotedBytes rest).map (String.utf8EncodeChar c ++ ·) else none

theorem digit?_lt {base : Nat} {c : Char} {digit : Nat} (h : digit? base c = some digit) :
    digit < base := by
  simpa using (Option.filter_eq_some_iff.1 h).2

theorem printed_of_digit? {base : Nat} {c : Char} {digit : Nat} (h : digit? base c = some digit) :
    ' ' ≤ c ∧ c ≤ '~' := by
  have hvalue := (Option.filter_eq_some_iff.1 h).1
  split_ifs at hvalue with hdigit hlower hupper
  · have hbounds : '0' ≤ c ∧ c ≤ '9' := by
      simpa [Char.isDigit, Char.le_def] using hdigit
    exact ⟨Char.le_trans (by decide) hbounds.1, Char.le_trans hbounds.2 (by decide)⟩
  · exact ⟨Char.le_trans (by decide) hlower.1, Char.le_trans hlower.2 (by decide)⟩
  · exact ⟨Char.le_trans (by decide) hupper.1, Char.le_trans hupper.2 (by decide)⟩

namespace Place

theorem run_short {mark char : Char} (h : unescape? mark = some char) (rest : List Char) :
    inside.run ('\\' :: mark :: rest) =
      (inside.run rest).map (String.utf8EncodeChar char ++ ·) := by
  have hbackslash : inside.step '\\' = some ([], escape) := rfl
  have hmark : escape.step mark = some (String.utf8EncodeChar char, inside) := by
    simp only [step, h]
  rw [run_cons hbackslash, run_cons hmark]
  cases inside.run rest <;> rfl

theorem run_plain {c : Char} (hquote : c ≠ '\"') (hslash : c ≠ '\\')
    (hallowed : c ∉ ['\n', '\x00', '\ufeff']) (rest : List Char) :
    inside.run (c :: rest) = (inside.run rest).map (String.utf8EncodeChar c ++ ·) := by
  have hstep : inside.step c = some (String.utf8EncodeChar c, inside) := by
    rw [step, if_neg hquote, if_neg hslash, if_neg hallowed]
  exact run_cons hstep rest

/-- A writable character stands for itself. -/
theorem run_writable {c : Char} (h : isWritable c = true) (rest : List Char) :
    inside.run (Text.escapeChar c ++ rest) =
      (inside.run rest).map (String.utf8EncodeChar c ++ ·) := by
  have hmark : c ≠ '\ufeff' := by
    rintro rfl
    have hinvisible : Text.isInvisible '\ufeff' = true := by decide +kernel
    simp [isWritable, hinvisible] at h
  rcases escapeChar_of_writable h with ⟨mark, hshort, hmeant⟩ | ⟨hplain, hquote, hslash, hline⟩
  · rw [hshort]
    exact run_short hmeant rest
  · rw [hplain]
    exact run_plain hquote hslash (by simpa [hmark] using hline) rest

/-- Characters that are neither writable nor zero are written by their code point, with brackets. -/
theorem run_invisible {c : Char} (h : isWritable c = false) (hzero : c ≠ '\x00')
    (rest : List Char) : inside.run (Text.escapeChar c ++ rest) = none := by
  rw [escapeChar_of_unwritable h hzero]
  rfl

/-- Octal digits are quoted as they are, and the quotation of any other character begins with no
octal digit. -/
theorem run_digit (left value : Nat) (c : Char) (rest : List Char) :
    (byte 8 left value).run (Text.escapeChar c ++ rest) = (byte 8 left value).run (c :: rest) := by
  have hother {c : Char} (h : digit? 8 c = none) (rest : List Char) :
      (byte 8 left value).run (c :: rest) = none := by
    apply run_cons_none
    rw [step, h]
    rfl
  have hslash (others : List Char) : (byte 8 left value).run ('\\' :: others) = none :=
    hother rfl others
  unfold Text.escapeChar
  split_ifs with hzero htab hreturn hline hquote hbackslash hprinted hinvisible
  · rw [hother (by rw [hzero]; rfl)]
    exact hslash _
  · rw [hother (by rw [htab]; rfl)]
    exact hslash _
  · rw [hother (by rw [hreturn]; rfl)]
    exact hslash _
  · rw [hother (by rw [hline]; rfl)]
    exact hslash _
  · rw [hother (by rw [hquote]; rfl)]
    exact hslash _
  · rw [hother (by rw [hbackslash]; rfl)]
    exact hslash _
  · rfl
  · have hnone : digit? 8 c = none := by
      by_contra hsome
      obtain ⟨digit, hdigit⟩ := Option.ne_none_iff_exists'.1 hsome
      exact hprinted (printed_of_digit? hdigit)
    rw [hother hnone]
    exact hslash _
  · rfl

private theorem run_open (rest : List Char) :
    inside.run (Text.escapeChar '\x00' ++ rest) = (byte 8 2 0).run rest := by
  have hbackslash : inside.step '\\' = some ([], escape) := rfl
  have hzero : escape.step '0' = some ([], byte 8 2 0) := rfl
  have hmark : Text.escapeChar '\x00' ++ rest = '\\' :: '0' :: rest := rfl
  rw [hmark, run_cons hbackslash, run_cons hzero]
  simp

/-- The zero character takes two octal digits with it. -/
theorem run_zero (a b : Char) (rest : List Char) :
    inside.run (Text.escapeChar '\x00' ++ (Text.escapeChar a ++ (Text.escapeChar b ++ rest))) =
      (do
        let high ← digit? 8 a
        let low ← digit? 8 b
        (inside.run rest).map (.ofNat (high * 8 + low) :: ·)) := by
  rw [run_open, run_digit]
  cases hhigh : digit? 8 a with
  | none => exact run_cons_none (by simp [step, hhigh]) _
  | some high =>
    have hfirst : (byte 8 2 0).step a = some ([], byte 8 1 high) := by simp [step, hhigh]
    rw [run_cons hfirst, run_digit, Option.bind_eq_bind, Option.bind_some]
    cases hlow : digit? 8 b with
    | none =>
      rw [run_cons_none (by simp [step, hlow])]
      rfl
    | some low =>
      have hbyte : high * 8 + low < 256 := by
        have hhighLt := digit?_lt hhigh
        have hlowLt := digit?_lt hlow
        omega
      have hsecond : (byte 8 1 high).step b = some ([.ofNat (high * 8 + low)], inside) := by
        simp [step, hlow, hbyte]
      rw [run_cons hsecond]
      cases inside.run rest <;> rfl

/-- With less than two characters behind it, the zero character takes in the end of the literal. -/
theorem run_last_zero (chars : List Char) (h : chars.length < 2) :
    inside.run (Text.escapeChar '\x00' ++ (chars.flatMap Text.escapeChar ++ ['\"'])) = none := by
  rw [run_open]
  match chars, h with
  | [], _ => rfl
  | [a], _ =>
    rw [List.flatMap_singleton, run_digit]
    cases hdigit : digit? 8 a with
    | none => exact run_cons_none (by simp [step, hdigit]) _
    | some digit =>
      have hfirst : (byte 8 2 0).step a = some ([], byte 8 1 digit) := by simp [step, hdigit]
      rw [run_cons hfirst]
      rfl

end Place

open Place

theorem run_quoted (chars : List Char) :
    inside.run (chars.flatMap Text.escapeChar ++ ['\"']) = quotedBytes chars := by
  induction chars using quotedBytes.induct with
  | case1 => rfl
  | case2 a b chars ih =>
    rw [List.flatMap_cons, List.flatMap_cons, List.flatMap_cons, List.append_assoc,
      List.append_assoc, List.append_assoc, run_zero, ih, quotedBytes]
  | case3 c chars hzero hwritable ih =>
    rw [List.flatMap_cons, List.append_assoc, run_writable hwritable, ih,
      quotedBytes.eq_3 _ _ hzero, if_pos hwritable]
  | case4 c chars hzero hwritable =>
    rw [List.flatMap_cons, List.append_assoc, quotedBytes.eq_3 _ _ hzero, if_neg hwritable]
    by_cases hnul : c = '\x00'
    · rw [hnul]
      refine run_last_zero chars ?_
      match chars, hzero with
      | [], _ | [_], _ => simp
      | a :: b :: rest, hzero => exact (hzero a b rest hnul rfl).elim
    · exact run_invisible (by simpa using hwritable) hnul _

/-- A quoted text denotes what its characters are read as. -/
theorem denoted_quoted (value : String) :
    denoted (Text.quoted value) = (quotedBytes value.toList).map List.toByteArray := by
  have hopen : before.step '\"' = some ([], inside) := rfl
  rw [denoted, Text.quoted, String.toList_ofList, run_cons hopen, run_quoted]
  simp

/-! ## Texts that denote themselves -/

theorem quotedBytes_of_writable {chars : List Char} (h : ∀ c ∈ chars, isWritable c = true) :
    quotedBytes chars = some (chars.flatMap String.utf8EncodeChar) := by
  induction chars with
  | nil => rfl
  | cons c chars ih =>
    obtain ⟨hc, hchars⟩ := List.forall_mem_cons.1 h
    have hzero (a b : Char) (rest : List Char) : c = '\x00' → chars = a :: b :: rest → False := by
      rintro rfl
      exact absurd hc (by decide)
    rw [quotedBytes.eq_3 _ _ hzero, if_pos hc, ih hchars, Option.map_some, List.flatMap_cons]

/-- A zero character denotes fewer bytes than it takes with it. -/
theorem length_quotedBytes {chars : List Char} {bytes : List UInt8}
    (h : quotedBytes chars = some bytes) : (∀ c ∈ chars, isWritable c = true) ∨
      bytes.length < (chars.flatMap String.utf8EncodeChar).length := by
  induction chars using quotedBytes.induct generalizing bytes with
  | case1 => exact .inl (List.forall_mem_nil _)
  | case2 a b chars ih =>
    obtain ⟨high, _, h⟩ := Option.bind_eq_some_iff.1 h
    obtain ⟨low, _, h⟩ := Option.bind_eq_some_iff.1 h
    obtain ⟨others, hothers, rfl⟩ := Option.map_eq_some_iff.1 h
    have hle : others.length ≤ (chars.flatMap String.utf8EncodeChar).length := by
      rcases ih hothers with hwritable | hlt
      · rw [quotedBytes_of_writable hwritable] at hothers
        cases hothers
        exact Nat.le_refl _
      · exact Nat.le_of_lt hlt
    have ha := Char.utf8Size_pos a
    have hb := Char.utf8Size_pos b
    have hzero := Char.utf8Size_pos '\x00'
    refine .inr ?_
    simp only [List.flatMap_cons, List.length_append, List.length_cons,
      String.length_utf8EncodeChar]
    omega
  | case3 c chars hzero hwritable ih =>
    rw [quotedBytes.eq_3 _ _ hzero, if_pos hwritable] at h
    obtain ⟨others, hothers, rfl⟩ := Option.map_eq_some_iff.1 h
    rcases ih hothers with hchars | hlt
    · exact .inl (List.forall_mem_cons.2 ⟨hwritable, hchars⟩)
    · refine .inr ?_
      rw [List.flatMap_cons, List.length_append, List.length_append]
      omega
  | case4 c chars hzero hwritable =>
    rw [quotedBytes.eq_3 _ _ hzero, if_neg hwritable] at h
    cases h

/-- A quoted text denotes itself exactly if all its characters are writable. -/
theorem denoted_quoted_iff (value : String) :
    denoted (Text.quoted value) = some value.toByteArray ↔
      ∀ c ∈ value.toList, isWritable c = true := by
  have hbytes : value.toByteArray = (value.toList.flatMap String.utf8EncodeChar).toByteArray :=
    String.utf8Encode_toList.symm
  rw [denoted_quoted, hbytes]
  constructor
  · intro h
    obtain ⟨bytes, hquoted, hsame⟩ := Option.map_eq_some_iff.1 h
    have hlength := congrArg ByteArray.size hsame
    rw [List.size_toByteArray, List.size_toByteArray] at hlength
    rcases length_quotedBytes hquoted with hwritable | hlt
    · exact hwritable
    · omega
  · intro h
    rw [quotedBytes_of_writable h, Option.map_some]

/-! ## Where texts are quoted -/

section Sites

variable {definitions : Definitions} {condition : Expression} {text : String}

/-- A failed assertion stops the program with its condition as the message. -/
theorem lowerStatement_assert (htext : condition.toGo definitions = .ok text)
    (targets : List String) (mark : Mark) (before : Lowering) :
    ∃ after, lowerStatement definitions targets (.assert mark condition) before = .ok () after ∧
      after.emission.builder = before.emission.builder.add (.branch ("!" ++ text)
        [.line ("panic(" ++ Text.quoted ("assertion failed: " ++ text) ++ ")")] []) := by
  have hcondition : Lower.expression definitions condition before = .ok text before := by
    rw [Lower.expression, htext]
    rfl
  simp only [lowerStatement, bind, EStateM.bind, hcondition]
  exact ⟨_, rfl, rfl⟩

theorem loadGlobal_mem_code {κ : Type} {call : SectionCall} {shared : SharedGlobals} {name : String}
    (hshared : call.strategy.sharedGlobals? call.group = some shared)
    (haction : call.action = .acquire) (hname : name ∈ shared.loads) :
    (loadGlobal name : Code κ) ∈ call.code := by
  obtain ⟨strategy, action, group⟩ := call
  cases strategy with
  | inProcess => cases hshared
  | coordinated entries =>
    cases haction
    simp only [SectionCall.code, hshared]
    exact List.mem_cons_of_mem _ (List.mem_map_of_mem hname)

theorem storeGlobal_mem_code {κ : Type} {call : SectionCall} {shared : SharedGlobals}
    {name : String}
    (hshared : call.strategy.sharedGlobals? call.group = some shared)
    (haction : call.action = .release) (hname : name ∈ shared.stores) :
    (storeGlobal name : Code κ) ∈ call.code := by
  obtain ⟨strategy, action, group⟩ := call
  cases strategy with
  | inProcess => cases hshared
  | coordinated entries =>
    cases haction
    simp only [SectionCall.code, hshared]
    exact List.mem_append_left _ (List.mem_map_of_mem hname)

theorem endpoints_mem_lines (setup : ServiceSetup) :
    "\t\tEndpoints: []string\x7b" ++ ", ".intercalate (setup.endpoints.map Text.quoted) ++
      "\x7d," ∈ setup.lines := by
  simp [ServiceSetup.lines]

theorem initial_mem_lines {setup : ServiceSetup} {name value : String}
    (h : (name, value) ∈ setup.globals) :
    "\tif err := " ++ globalState ++ ".Set(" ++ Text.quoted name ++ ", " ++ value ++
      "); err != nil \x7b" ∈ setup.lines := by
  refine List.mem_append_left _ (List.mem_append_right _ ?_)
  exact List.mem_flatMap.2 ⟨(name, value), h, List.mem_cons_self⟩

end Sites

/-- Strings in expressions, messages of assertions, endpoints and the names of globals are quoted.
What the literal of a text denotes is known for all texts, and it is the text itself exactly if
all its characters are writable. -/
theorem literals_exact (value : String) :
    denoted (Text.quoted value) = (quotedBytes value.toList).map List.toByteArray ∧
      (denoted (Text.quoted value) = some value.toByteArray ↔
        ∀ c ∈ value.toList, isWritable c = true) ∧
      (∀ definitions uid,
        (Expression.string uid value).toGo definitions = .ok (Text.quoted value)) ∧
      (∀ definitions condition text, Expression.toGo definitions condition = .ok text →
        value = "assertion failed: " ++ text → ∀ targets mark before, ∃ after,
          lowerStatement definitions targets (.assert mark condition) before = .ok () after ∧
            after.emission.builder = before.emission.builder.add
              (.branch ("!" ++ text) [.line ("panic(" ++ Text.quoted value ++ ")")] [])) ∧
      (∀ setup : ServiceSetup, ∀ front back, setup.endpoints = front ++ value :: back →
        "\t\tEndpoints: []string\x7b" ++ ", ".intercalate
          (front.map Text.quoted ++ Text.quoted value :: back.map Text.quoted) ++ "\x7d," ∈
            setup.lines) ∧
      (∀ setup : ServiceSetup, ∀ initial, (value, initial) ∈ setup.globals →
        "\tif err := " ++ globalState ++ ".Set(" ++ Text.quoted value ++ ", " ++ initial ++
          "); err != nil \x7b" ∈ setup.lines) ∧
      ∀ (κ : Type) (call : SectionCall) (shared : SharedGlobals),
        call.strategy.sharedGlobals? call.group = some shared →
          (call.action = .acquire → value ∈ shared.loads →
            .branch ("pgoValue, err := " ++ globalState ++ ".GetInt(" ++ Text.quoted value ++
              "); err != nil") [.line "panic(err)"] [.line (value ++ " = pgoValue")] ∈
                (call.code : List (Code κ))) ∧
          (call.action = .release → value ∈ shared.stores →
            .branch ("err := " ++ (globalState ++ ".Set(" ++ Text.quoted value ++ ", " ++ value ++
              ")") ++ "; err != nil") [.line "panic(err)"] [] ∈
                (call.code : List (Code κ))) := by
  refine ⟨denoted_quoted value, denoted_quoted_iff value, fun _ _ => rfl, ?_, ?_,
    fun _ _ h => initial_mem_lines h, ?_⟩
  · intro definitions condition text htext hvalue
    rw [hvalue]
    exact lowerStatement_assert htext
  · intro setup front back hendpoints
    have hline := endpoints_mem_lines setup
    rwa [hendpoints, List.map_append, List.map_cons] at hline
  · intro κ call shared hshared
    exact ⟨loadGlobal_mem_code hshared, storeGlobal_mem_code hshared⟩

/-- A quotation mark, a tabulator and a letter beyond ASCII. -/
theorem literals_exact_mixed :
    let value := "say \"é\"\t"
    (∀ c ∈ value.toList, isWritable c = true) ∧
      (Expression.string ⟨1⟩ value).toGo .empty = .ok "\"say \\\"é\\\"\\t\"" ∧
      denoted "\"say \\\"é\\\"\\t\"" = some value.toByteArray := by
  intro value
  have hwritable : ∀ c ∈ value.toList, isWritable c = true :=
    List.all_eq_true.1 (by decide +kernel)
  have hquoted : Text.quoted value = "\"say \\\"é\\\"\\t\"" := by decide +kernel
  obtain ⟨-, hdenoted, hstring, -⟩ := literals_exact value
  rw [← hquoted]
  exact ⟨hwritable, hstring .empty ⟨1⟩, hdenoted.2 hwritable⟩

/-- A zero character in front of two digits becomes one character together with them, and Go has no
escape of the kind that a delete character is written with. -/
theorem zero_takes_digits :
    let value := String.ofList ['\x00', '1', '2']
    (Expression.string ⟨1⟩ value).toGo .empty = .ok "\"\\012\"" ∧
      denoted "\"\\012\"" = some "\n".toByteArray ∧
      denoted "\"\\012\"" ≠ some value.toByteArray ∧
      (Expression.string ⟨1⟩ "\x7f").toGo .empty = .ok "\"\\u\x7b7f\x7d\"" ∧
      denoted "\"\\u\x7b7f\x7d\"" = none := by
  intro value
  refine ⟨?_, ?_, ?_, ?_, ?_⟩ <;> decide +kernel

end PlusCalGo.Go
