import PlusCalGo.Proofs.Json.Scalars
import PlusCalGo.Text.Quoted

/-!
# Go tokens

A line of Go cut into tokens. Every token takes as many characters as it can, so a text is cut as it
is alone only if what follows does not go on with its last token.
-/

namespace PlusCalGo.Go

inductive Token where
  /-- An identifier or a keyword. -/
  | word (name : String)
  | number (value : Nat)
  | text (value : String)
  | sign (sign : String)
deriving DecidableEq

/-- Letters of identifiers. Beyond ASCII everything counts as one, so no identifier is left out. -/
def isLetter (c : Char) : Bool := c.isAlpha || c = '_' || 128 ≤ c.toNat

/-- Characters that go on with an identifier. -/
def goesOn (c : Char) : Bool := isLetter c || c.isDigit

theorem isLetter_of_isDigit {c : Char} (h : c.isDigit = true) : isLetter c = false := by
  simp only [Char.isDigit, Bool.and_eq_true, decide_eq_true_eq, UInt32.le_iff_toNat_le,
    ge_iff_le] at h
  obtain ⟨-, hlast⟩ := h
  have hcode : c.toNat = c.val.toNat := rfl
  have hnine : '9'.val.toNat = 57 := rfl
  have hupper : 'A'.val.toNat = 65 := rfl
  have hlower : 'a'.val.toNat = 97 := rfl
  rw [Bool.eq_false_iff]
  intro hletter
  have halpha : c.isAlpha = (decide (c.val ≥ 'A'.val ∧ c.val ≤ 'Z'.val) ||
      (c.val ≥ 'a'.val && c.val ≤ 'z'.val)) := rfl
  simp only [isLetter, halpha, Bool.or_eq_true, Bool.and_eq_true, decide_eq_true_eq,
    UInt32.le_iff_toNat_le, ge_iff_le] at hletter
  rcases hletter with ((⟨hbig, -⟩ | ⟨hbig, -⟩) | rfl) | hbig
  · omega
  · omega
  · exact absurd hlast (by decide)
  · omega

/-- The operators and punctuation of the language. -/
def signs : List String :=
  ["+", "-", "*", "/", "%", "&", "|", "^", "<<", ">>", "&^", "+=", "-=", "*=", "/=", "%=", "&=",
    "|=", "^=", "<<=", ">>=", "&^=", "&&", "||", "<-", "++", "--", "==", "<", ">", "=", "!", "~",
    "!=", "<=", ">=", ":=", "...", "(", "[", "\x7b", ",", ".", ")", "]", "\x7d", ";", ":"]

/-! ## Cutting -/

/-- The character that stands behind a backslash in a string literal for this one. Characters that
are written by number are left out. -/
def unescape? : Char → Option Char
  | 'a' => some '\x07'
  | 'b' => some '\x08'
  | 'f' => some '\x0c'
  | 'n' => some '\n'
  | 'r' => some '\r'
  | 't' => some '\t'
  | 'v' => some '\x0b'
  | '\\' => some '\\'
  | '\"' => some '\"'
  | _ => none

/-- What has been read of a token. -/
inductive Pending where
  | nothing
  | word (read : List Char)
  | number (read : List Char)
  | sign (read : List Char)
  | text (read : List Char)
  /-- A string literal behind a backslash. -/
  | escape (read : List Char)
deriving DecidableEq

namespace Pending

/-- The characters that go on with a sign. -/
def extensions (read : List Char) : List Char :=
  signs.filterMap fun sign =>
    if read.isPrefixOf sign.toList then sign.toList[read.length]? else none

/-- The token ends here. Numbers with a leading zero are not decimal. -/
def finish : Pending → Option (List Token)
  | nothing => some []
  | word read => some [.word (String.ofList read)]
  | number read =>
    if read.head? = some '0' ∧ read ≠ ['0'] then none
    else some [.number (Nat.ofDigitChars 10 read 0)]
  | sign read => if String.ofList read ∈ signs then some [.sign (String.ofList read)] else none
  | text _ | escape _ => none

/-- The character begins a token. -/
def start (c : Char) : Option Pending :=
  if c = ' ' ∨ c = '\t' then some nothing
  else if c = '\"' then some (text [])
  else if isLetter c then some (word [c])
  else if c.isDigit then some (number [c])
  else if c ∈ extensions [] then some (sign [c])
  else none

/-- The token ends in front of the character. -/
def close (pending : Pending) (c : Char) : Option (List Token × Pending) :=
  pending.finish.bind fun tokens => (start c).map fun next => (tokens, next)

/-- One more character. Comments and numbers other than decimal ones are left out. -/
def step : Pending → Char → Option (List Token × Pending)
  | nothing, c => close nothing c
  | word read, c => if goesOn c then some ([], word (read ++ [c])) else close (word read) c
  | number read, c =>
    if c.isDigit then some ([], number (read ++ [c]))
    else if isLetter c ∨ c = '.' then none
    else close (number read) c
  | sign read, c =>
    if c ∈ extensions read then some ([], sign (read ++ [c]))
    else if read = ['/'] ∧ (c = '/' ∨ c = '*') then none
    else close (sign read) c
  | text read, c =>
    if c = '\"' then some ([.text (String.ofList read)], nothing)
    else if c = '\\' then some ([], escape read)
    else if c = '\n' then none
    else some ([], text (read ++ [c]))
  | escape read, c => (unescape? c).map fun char => ([], text (read ++ [char]))

/-- The tokens that end in a text, and what is pending behind it. -/
def run : Pending → List Char → Option (List Token × Pending)
  | pending, [] => some ([], pending)
  | pending, c :: rest =>
    match pending.step c with
    | none => none
    | some (tokens, next) => (run next rest).map fun (others, last) => (tokens ++ others, last)

/-- The tokens of the rest of a line. -/
def scan (pending : Pending) (rest : List Char) : Option (List Token) :=
  (pending.run rest).bind fun (tokens, last) => last.finish.map (tokens ++ ·)

@[simp] theorem scan_nil (pending : Pending) : pending.scan [] = pending.finish := by
  simp [scan, run]

@[simp] theorem finish_nothing : finish nothing = some [] := rfl

theorem run_append {pending last : Pending} {text : List Char} {tokens : List Token}
    (h : pending.run text = some (tokens, last)) (rest : List Char) :
    pending.run (text ++ rest) =
      (last.run rest).map fun (others, end_) => (tokens ++ others, end_) := by
  induction text generalizing pending tokens with
  | nil =>
    cases h
    simp
  | cons c text ih =>
    rw [run] at h
    rw [List.cons_append, run]
    cases hstep : pending.step c with
    | none =>
      rw [hstep] at h
      cases h
    | some pair =>
      obtain ⟨first, next⟩ := pair
      rw [hstep] at h
      obtain ⟨⟨others, _⟩, hrun, hpair⟩ := Option.map_eq_some_iff.1 h
      cases hpair
      simp only [ih hrun, Option.map_map, Function.comp_def, List.append_assoc]

theorem scan_append {pending last : Pending} {text : List Char} {tokens : List Token}
    (h : pending.run text = some (tokens, last)) (rest : List Char) :
    pending.scan (text ++ rest) = (last.scan rest).map (tokens ++ ·) := by
  rw [scan, run_append h, scan]
  cases last.run rest <;> simp [Function.comp_def]

end Pending

/-- The tokens of a line. -/
def tokens (line : String) : Option (List Token) := Pending.nothing.scan line.toList

/-! ## Texts that are cut as they are alone -/

/-- The text is cut into the tokens, if the character behind it is one of some. -/
def Cut (follow : Char → Bool) (text : String) (tokens : List Token) : Prop :=
  ∀ rest : List Char, (∀ c ∈ rest.head?, follow c = true) →
    Pending.nothing.scan (text.toList ++ rest) = (Pending.nothing.scan rest).map (tokens ++ ·)

section Cut

variable {follow before : Char → Bool} {text first second : String} {front last : List Token}

open Pending

/-- A token that ends in front of a character leaves the rest of the line alone. -/
theorem scan_of_close {pending : Pending} {c : Char} (hlast : pending.finish = some last)
    (hclose : pending.step c = pending.close c) (rest : List Char) :
    pending.scan (c :: rest) = (nothing.scan (c :: rest)).map (last ++ ·) := by
  have hnothing : nothing.step c = nothing.close c := rfl
  rw [scan, run, hclose, close, hlast, scan, run, hnothing, close, finish_nothing]
  cases start c with
  | none => rfl
  | some next =>
    simp only [Option.map_some, Option.bind_some]
    cases next.run rest <;> simp [Function.comp_def]

theorem cut_of_run {pending : Pending} (hrun : nothing.run text.toList = some (front, pending))
    (hlast : pending.finish = some last)
    (hfollow : ∀ c, follow c = true → pending.step c = pending.close c) :
    Cut follow text (front ++ last) := by
  intro rest hrest
  rw [scan_append hrun]
  cases rest with
  | nil => simp [hlast]
  | cons c rest =>
    rw [scan_of_close hlast (hfollow c (hrest c rfl)), Option.map_map]
    simp [Function.comp_def]

theorem Cut.tokens_eq (h : Cut follow text front) : tokens text = some front := by
  have hscan := h [] (by simp)
  rw [tokens]
  simpa using hscan

theorem Cut.mono (h : Cut follow text front) (hmono : ∀ c, before c = true → follow c = true) :
    Cut before text front :=
  fun rest hrest => h rest fun c hc => hmono c (hrest c hc)

theorem Cut.append (hfirst : Cut before first front) (hsecond : Cut follow second last)
    (hhead : ∃ c ∈ second.toList.head?, before c = true) :
    Cut follow (first ++ second) (front ++ last) := by
  obtain ⟨c, hc, hbefore⟩ := hhead
  obtain ⟨tail, htail⟩ := List.head?_eq_some_iff.1 hc
  intro rest hrest
  rw [String.toList_append, List.append_assoc,
    hfirst _ (by rw [htail]; simpa using hbefore), hsecond rest hrest, Option.map_map]
  simp [Function.comp_def]

end Cut

/-! ## Signs -/

/-- Whatever stands behind the text. -/
def anywhere (_ : Char) : Bool := true

theorem cut_of_run_nothing {text : String} {tokens : List Token}
    (h : Pending.nothing.run text.toList = some (tokens, .nothing)) : Cut anywhere text tokens := by
  have hcut : Cut anywhere text (tokens ++ []) :=
    cut_of_run h Pending.finish_nothing fun c _ => rfl
  rwa [List.append_nil] at hcut

/-- Behind a sign, the text is cut as it is alone if nothing goes on with the sign. -/
theorem cut_of_run_sign {text : String} {tokens : List Token} {read : List Char}
    {follow : Char → Bool} (h : Pending.nothing.run text.toList = some (tokens, .sign read))
    (hsign : String.ofList read ∈ signs ∧ read ≠ ['/'])
    (hfollow : ∀ c, follow c = true → c ∉ Pending.extensions read) :
    Cut follow text (tokens ++ [.sign (String.ofList read)]) := by
  have hfinish : (Pending.sign read).finish = some [.sign (String.ofList read)] := by
    rw [Pending.finish, if_pos hsign.1]
  refine cut_of_run h hfinish fun c hc => ?_
  rw [Pending.step, if_neg (hfollow c hc), if_neg fun hslash => hsign.2 hslash.1]

/-- Brackets and commas begin no other sign. -/
theorem cut_of_run_bracket {text : String} {front tokens : List Token} (bracket : Char)
    (hbracket : bracket ∈ ['(', ')', '[', ']', '\x7b', '\x7d', ','])
    (h : Pending.nothing.run text.toList = some (front, .sign [bracket]))
    (htokens : tokens = front ++ [.sign (String.ofList [bracket])]) : Cut anywhere text tokens := by
  obtain ⟨hsign, hslash, hextensions⟩ : String.ofList [bracket] ∈ signs ∧ [bracket] ≠ ['/'] ∧
      Pending.extensions [bracket] = [] := by
    simp only [List.mem_cons, List.not_mem_nil, or_false] at hbracket
    rcases hbracket with rfl | rfl | rfl | rfl | rfl | rfl | rfl <;> decide
  rw [htokens]
  refine cut_of_run_sign h ⟨hsign, hslash⟩ fun c _ => ?_
  rw [hextensions]
  exact List.not_mem_nil

/-! ## Names, numbers and string literals -/

/-- The characters that stand behind expressions. -/
def isEnd (c : Char) : Bool := c ∈ [' ', ')', ']', '\x7d', ',', '[', '(', '-']

theorem goesOn_of_isEnd {c : Char} (h : isEnd c = true) :
    goesOn c = false ∧ isLetter c = false ∧ c.isDigit = false ∧ c ≠ '.' := by
  simp only [isEnd, List.mem_cons, List.not_mem_nil, or_false, decide_eq_true_eq] at h
  rcases h with rfl | rfl | rfl | rfl | rfl | rfl | rfl | rfl <;> decide

def keywords : List String :=
  ["break", "case", "chan", "const", "continue", "default", "defer", "else", "fallthrough", "for",
    "func", "go", "goto", "if", "import", "interface", "map", "package", "range", "return",
    "select", "struct", "switch", "type", "var"]

/-- The name can be declared. -/
structure IsName (name : String) : Prop where
  first : ∃ c ∈ name.toList.head?, isLetter c = true
  others : name.toList.all goesOn = true
  noKeyword : name ∉ keywords

namespace Pending

theorem start_letter {c : Char} (h : isLetter c = true) : start c = some (word [c]) := by
  have hblank : c ≠ ' ' ∧ c ≠ '\t' ∧ c ≠ '\"' := by
    refine ⟨?_, ?_, ?_⟩ <;> (rintro rfl; revert h; decide)
  simp [start, h, hblank]

theorem start_digit {c : Char} (h : c.isDigit = true) : start c = some (number [c]) := by
  have hother : c ≠ ' ' ∧ c ≠ '\t' ∧ c ≠ '\"' := by
    refine ⟨?_, ?_, ?_⟩ <;> (rintro rfl; revert h; decide)
  simp [start, h, hother, isLetter_of_isDigit h]

theorem run_word {read text : List Char} (h : ∀ c ∈ text, goesOn c = true) :
    (word read).run text = some ([], word (read ++ text)) := by
  induction text generalizing read with
  | nil => simp [run]
  | cons c text ih =>
    obtain ⟨hc, htext⟩ := List.forall_mem_cons.1 h
    simp [run, step, hc, ih htext]

theorem run_number {read text : List Char} (h : ∀ c ∈ text, c.isDigit = true) :
    (number read).run text = some ([], number (read ++ text)) := by
  induction text generalizing read with
  | nil => simp [run]
  | cons c text ih =>
    obtain ⟨hc, htext⟩ := List.forall_mem_cons.1 h
    simp [run, step, hc, ih htext]

end Pending

open Pending

theorem cut_name {name : String} (h : IsName name) : Cut isEnd name [.word name] := by
  obtain ⟨c, hc, hletter⟩ := h.first
  obtain ⟨rest, hname⟩ := List.head?_eq_some_iff.1 hc
  have hothers := List.all_eq_true.1 h.others
  rw [hname] at hothers
  have hrun : nothing.run name.toList = some ([], word name.toList) := by
    rw [hname]
    simp [run, step, close, start_letter hletter, run_word (List.forall_mem_cons.1 hothers).2]
  have hword : (word name.toList).finish = some [.word name] := by
    rw [finish, String.ofList_toList]
  refine cut_of_run hrun hword fun d hd => ?_
  simp [step, goesOn_of_isEnd hd]

theorem cut_number (n : Nat) : Cut isEnd (Nat.repr n) [.number n] := by
  obtain ⟨c, rest, hdigits⟩ := List.exists_cons_of_ne_nil (Json.toDigits_ne_nil n)
  have hall : ∀ d ∈ c :: rest, d.isDigit = true := by
    intro d hd
    rw [← hdigits] at hd
    exact Json.isDigit_of_mem_toDigits hd
  obtain ⟨hc, hrest⟩ := List.forall_mem_cons.1 hall
  have hrun : nothing.run (Nat.repr n).toList = some ([], number (c :: rest)) := by
    rw [Nat.toList_repr, hdigits]
    simp [run, step, close, start_digit hc, run_number hrest]
  have hzero : ¬((c :: rest).head? = some '0' ∧ c :: rest ≠ ['0']) := by
    rintro ⟨hfirst, hmore⟩
    obtain rfl : c = '0' := by simpa using hfirst
    rcases Nat.eq_zero_or_pos n with rfl | hpos
    · exact hmore (hdigits.symm.trans (Nat.toDigits_zero 10))
    · exact Json.Reader.toDigits_head_ne_zero hpos hdigits rfl
  have hnumber : (number (c :: rest)).finish = some [.number n] := by
    rw [finish, if_neg hzero, ← hdigits, Nat.ofDigitChars_ten_toDigits]
  refine cut_of_run hrun hnumber fun d hd => ?_
  simp [step, goesOn_of_isEnd hd]

/-- Go has an escape for the character, if it needs one. -/
def isWritable (c : Char) : Bool :=
  c ≠ '\x00' && (c ∈ ['\t', '\r', '\n'] || (' ' ≤ c && c ≤ '~') || !Text.isInvisible c)

/-- A writable character is quoted by its short escape, or stands for itself. -/
theorem escapeChar_of_writable {c : Char} (h : isWritable c = true) :
    (∃ mark, Text.escapeChar c = ['\\', mark] ∧ unescape? mark = some c) ∨
      Text.escapeChar c = [c] ∧ c ≠ '\"' ∧ c ≠ '\\' ∧ c ∉ ['\n', '\x00'] := by
  have hzero : c ≠ '\x00' := by
    rintro rfl
    revert h
    decide
  unfold Text.escapeChar
  rw [if_neg hzero]
  split_ifs with htab hreturn hline hquote hslash hprinted hinvisible
  · exact .inl ⟨_, rfl, by rw [htab]; rfl⟩
  · exact .inl ⟨_, rfl, by rw [hreturn]; rfl⟩
  · exact .inl ⟨_, rfl, by rw [hline]; rfl⟩
  · exact .inl ⟨_, rfl, by rw [hquote]; rfl⟩
  · exact .inl ⟨_, rfl, by rw [hslash]; rfl⟩
  · exact .inr ⟨rfl, hquote, hslash, by simp [hline, hzero]⟩
  · simp [isWritable, htab, hreturn, hline, hinvisible] at h
    exact absurd h.2 hprinted
  · exact .inr ⟨rfl, hquote, hslash, by simp [hline, hzero]⟩

/-- The characters that are written by their code points. -/
theorem escapeChar_of_unwritable {c : Char} (h : isWritable c = false) (hzero : c ≠ '\x00') :
    Text.escapeChar c = Text.codePointEscape c := by
  unfold Text.escapeChar
  rw [if_neg hzero]
  split_ifs with htab hreturn hline hquote hslash hprinted hinvisible
  · simp [htab, isWritable] at h
  · simp [hreturn, isWritable] at h
  · simp [hline, isWritable] at h
  · simp [hquote, isWritable] at h
  · simp [hslash, isWritable] at h
  · simp [isWritable, hprinted, hzero] at h
  · rfl
  · simp [isWritable, hinvisible, hzero] at h

theorem run_escapeChar {c : Char} (h : isWritable c = true) (read : List Char) :
    (Pending.text read).run (Text.escapeChar c) = some ([], .text (read ++ [c])) := by
  rcases escapeChar_of_writable h with ⟨mark, hshort, hmark⟩ | ⟨hplain, hquote, hslash, hline⟩
  · rw [hshort]
    simp [run, step, hmark]
  · have hnewline : c ≠ '\n' := fun hsame => hline (hsame ▸ List.mem_cons_self)
    rw [hplain]
    simp [run, step, hquote, hslash, hnewline]

private theorem run_escaped {chars : List Char} (h : ∀ c ∈ chars, isWritable c = true)
    (read : List Char) :
    (Pending.text read).run (chars.flatMap Text.escapeChar) = some ([], .text (read ++ chars)) := by
  induction chars generalizing read with
  | nil => simp [run]
  | cons c chars ih =>
    obtain ⟨hc, hchars⟩ := List.forall_mem_cons.1 h
    rw [List.flatMap_cons, run_append (run_escapeChar hc read), ih hchars]
    simp

theorem cut_quoted {value : String} (h : ∀ c ∈ value.toList, isWritable c = true) :
    Cut isEnd (Text.quoted value) [.text value] := by
  have hopen : nothing.run ['\"'] = some ([], .text []) := rfl
  have hclose (read : List Char) :
      (Pending.text read).run ['\"'] = some ([.text (String.ofList read)], nothing) := rfl
  have hrun : nothing.run (Text.quoted value).toList = some ([.text value], nothing) := by
    rw [Text.quoted, String.toList_ofList, ← List.singleton_append, run_append hopen,
      run_append (run_escaped h []), hclose]
    simp
  exact cut_of_run hrun finish_nothing fun c hc => rfl

end PlusCalGo.Go
