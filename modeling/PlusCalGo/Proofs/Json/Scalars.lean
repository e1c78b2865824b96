import PlusCalGo.Proofs.Json.Layout

/-!
# Reading scalars back

What it means that a reader takes back what a layout wrote, and the readers of words, strings and
integers that do.
-/

namespace PlusCalGo.Json

open Reader (isBlank)

/-! ## Runs of readers -/

namespace Reader

variable {α β : Type}

theorem bind_of_ok {reader : Reader α} {next : α → Reader β} {text rest : List Char} {value : α}
    (h : reader text = .ok (value, rest)) : (reader >>= next) text = next value rest := by
  show (reader text >>= fun outcome => next outcome.1 outcome.2) = _
  rw [h]
  rfl

theorem get_bind (next : List Char → Reader β) (text : List Char) :
    (get >>= next) text = next text text := rfl

theorem pure_run (value : α) (text : List Char) :
    (pure value : Reader α) text = .ok (value, text) := rfl

theorem dropWhile_of_blank {blanks text : List Char} {c : Char} (hb : Blank blanks)
    (hc : isBlank c = false) : (blanks ++ c :: text).dropWhile isBlank = c :: text := by
  rw [List.dropWhile_append_of_pos hb, List.dropWhile_cons_of_neg (by simp [hc])]

theorem peek_of_blank {blanks text : List Char} {c : Char} (hb : Blank blanks)
    (hc : isBlank c = false) : peek (blanks ++ c :: text) = .ok (some c, c :: text) := by
  rw [peek, dropWhile_of_blank hb hc]
  rfl

theorem peekValue_of_blank {blanks text : List Char} {c : Char} (hb : Blank blanks)
    (hc : isBlank c = false) : peekValue (blanks ++ c :: text) = .ok (c, c :: text) := by
  rw [peekValue, bind_of_ok (peek_of_blank hb hc)]
  rfl

theorem advance_cons (c : Char) (text : List Char) : advance (c :: text) = .ok ((), text) := rfl

theorem word_append (expected rest : List Char) :
    word expected (expected ++ rest) = .ok ((), rest) := by
  induction expected with
  | nil => rfl
  | cons c more ih =>
    show (if c = c then advance >>= fun _ => word more else failNext .expectedIdent)
      (c :: (more ++ rest)) = _
    rw [if_pos rfl, bind_of_ok (advance_cons c _), ih]

/-! ## Strings -/

theorem hexValue?_hexDigit : ∀ n < 16, hexValue? (hexDigit n) = some n := by decide

theorem hexUnit_control {n : Nat} (hn : n < 32) (rest : List Char) :
    hexUnit ('0' :: '0' :: hexDigit (n / 16) :: hexDigit (n % 16) :: rest) = .ok n := by
  have hhigh := hexValue?_hexDigit (n / 16) (by omega)
  have hlow := hexValue?_hexDigit (n % 16) (by omega)
  have hzero : hexValue? '0' = some 0 := by decide
  simp only [hexUnit, hzero, hhigh, hlow, Option.bind_eq_bind, Option.bind_some, Option.pure_def]
  congr 1
  omega

/-- The characters of an escape are passed over. -/
theorem stringFrom_append (read front rest : List Char) :
    stringFrom front.length read (front ++ rest) = stringFrom 0 read rest := by
  induction front with
  | nil => rfl
  | cons c front ih =>
    rw [List.length_cons, List.cons_append, stringFrom]
    exact ih

theorem stringFrom_escaped {read code rest : List Char} {c : Char}
    (h : escape (code ++ rest) = .ok (c, code.length)) :
    stringFrom 0 read ('\\' :: (code ++ rest)) = stringFrom 0 (c :: read) rest := by
  rw [stringFrom]
  simp only [if_neg (show '\\' ≠ '\"' by decide), h]
  exact stringFrom_append (c :: read) code rest

theorem escape_control {c : Char} (hc : c.toNat < 32) (rest : List Char) :
    escape (['u', '0', '0', hexDigit (c.toNat / 16), hexDigit (c.toNat % 16)] ++ rest) =
      .ok (c, 5) := by
  have hunit := hexUnit_control hc rest
  simp only [List.cons_append, List.nil_append] at hunit ⊢
  simp only [escape, hunit]
  have hlow : ¬(0xdc00 ≤ c.toNat ∧ c.toNat ≤ 0xdfff) := by omega
  have hhigh : ¬(0xd800 ≤ c.toNat ∧ c.toNat ≤ 0xdbff) := by omega
  simp [hlow, hhigh, pure, Except.pure, bind, Except.bind]

/-- A character is read back from what stands for it. -/
theorem stringFrom_escapeChar (c : Char) (read rest : List Char) :
    stringFrom 0 read (escapeChar c ++ rest) = stringFrom 0 (c :: read) rest := by
  have hshort : ∀ {code : Char}, escape (code :: rest) = .ok (c, 1) →
      stringFrom 0 read (['\\', code] ++ rest) = stringFrom 0 (c :: read) rest := fun {code} h =>
    @stringFrom_escaped read [code] rest c h
  unfold escapeChar
  split_ifs with hquote hback hb hf hn hr ht hcontrol
  · exact hshort (by rw [hquote]; rfl)
  · exact hshort (by rw [hback]; rfl)
  · exact hshort (by rw [hb]; rfl)
  · exact hshort (by rw [hf]; rfl)
  · exact hshort (by rw [hn]; rfl)
  · exact hshort (by rw [hr]; rfl)
  · exact hshort (by rw [ht]; rfl)
  · exact stringFrom_escaped (escape_control hcontrol rest)
  · rw [List.singleton_append, stringFrom]
    simp only [if_neg hquote, if_neg hback, if_neg hcontrol]

theorem stringFrom_flatMap (text read rest : List Char) :
    stringFrom 0 read (text.flatMap escapeChar ++ '\"' :: rest) =
      .ok (String.ofList (read.reverse ++ text), rest) := by
  induction text generalizing read with
  | nil => simp [stringFrom]
  | cons c text ih =>
    rw [List.flatMap_cons, List.append_assoc, stringFrom_escapeChar, ih]
    simp

theorem stringBody_write (text : String) (rest : List Char) :
    stringBody (text.toList.flatMap escapeChar ++ '\"' :: rest) = .ok (text, rest) := by
  rw [stringBody, stringFrom_flatMap]
  simp

/-! ## Digits -/

theorem digits_append {front rest : List Char} (hf : ∀ c ∈ front, c.isDigit = true)
    (he : Ends rest) : digits (front ++ rest) = .ok (front, rest) := by
  have htake : rest.takeWhile Char.isDigit = [] := by
    cases rest with
    | nil => rfl
    | cons c more => simp [(he c (by simp)).1]
  have hdrop : rest.dropWhile Char.isDigit = rest := by
    cases rest with
    | nil => rfl
    | cons c more => simp [(he c (by simp)).1]
  rw [digits, List.takeWhile_append_of_pos hf, List.dropWhile_append_of_pos hf, htake, hdrop,
    List.append_nil]

theorem le_ofDigitChars (n : Nat) (cs : List Char) : n ≤ Nat.ofDigitChars 10 cs n := by
  induction cs generalizing n with
  | nil => simp
  | cons c cs ih =>
    rw [Nat.ofDigitChars_cons]
    exact Nat.le_trans (by omega) (ih _)

theorem significand_of_lt {n : Nat} {cs : List Char}
    (h : Nat.ofDigitChars 10 cs n < UInt64.size) :
    significand n cs = (Nat.ofDigitChars 10 cs n, 0) := by
  induction cs generalizing n with
  | nil => simp [significand]
  | cons c cs ih =>
    have hzero : '0'.toNat = 48 := rfl
    rw [Nat.ofDigitChars_cons, Nat.mul_comm, hzero] at h ⊢
    have hlt := Nat.lt_of_le_of_lt (le_ofDigitChars _ cs) h
    rw [significand, if_pos hlt, ih h]

theorem significand_toDigits {n : Nat} (h : n < UInt64.size) :
    significand 0 (Nat.toDigits 10 n) = (n, 0) := by
  have hvalue : Nat.ofDigitChars 10 (Nat.toDigits 10 n) 0 = n := Nat.ofDigitChars_ten_toDigits
  rw [significand_of_lt (by rw [hvalue]; exact h), hvalue]

/-- Only zero is written with a zero in front. -/
theorem toDigits_head_ne_zero {n : Nat} (hn : 0 < n) {c : Char} {cs : List Char}
    (h : Nat.toDigits 10 n = c :: cs) : c ≠ '0' := by
  induction n using Nat.strongRecOn generalizing c cs with
  | ind n ih =>
    by_cases hlt : n < 10
    · rw [Nat.toDigits_of_lt_base hlt] at h
      obtain ⟨rfl, -⟩ := List.cons.inj h
      intro h0
      rw [Nat.digitChar_eq_zero] at h0
      omega
    · rw [Nat.toDigits_of_base_le (by decide) (by omega)] at h
      obtain ⟨d, ds, hd⟩ := List.exists_cons_of_ne_nil (toDigits_ne_nil (n / 10))
      rw [hd, List.cons_append] at h
      obtain ⟨rfl, -⟩ := List.cons.inj h
      exact ih (n / 10) (by omega) (by omega) hd

theorem head?_of_ends {rest : List Char} (he : Ends rest) :
    rest.head? ≠ some '.' ∧ rest.head? ≠ some 'e' ∧ rest.head? ≠ some 'E' ∧
      (rest.head?.map Char.isDigit).getD false = false := by
  cases rest with
  | nil => simp
  | cons c more =>
    obtain ⟨hdigit, hdot, he, hE⟩ := he c (by simp)
    simp [hdigit, hdot, he, hE]

/-- Digits of a number that fits 64 bits are read as an integer. -/
theorem numberBody_toDigits {n : Nat} {rest : List Char} {negative : Bool}
    (hn : n < UInt64.size) (hneg : negative = true → 0 < n ∧ n ≤ Nat.pow 2 63) (he : Ends rest) :
    numberBody negative (Nat.toDigits 10 n ++ rest) =
      .ok (.integer (if negative then -n else n), rest) := by
  obtain ⟨c, cs, hcs⟩ := List.exists_cons_of_ne_nil (toDigits_ne_nil n)
  have hall : ∀ d ∈ c :: cs, d.isDigit = true := by
    rw [← hcs]
    exact fun d => isDigit_of_mem_toDigits
  obtain ⟨hdot, hsmall, hlarge, hdigit⟩ := head?_of_ends he
  rw [hcs, numberBody, get_bind]
  simp only [List.cons_append, List.head?_cons, hall c (by simp), Bool.not_true,
    Bool.false_eq_true, if_false]
  -- A zero in front is read on its own; only the number zero has one.
  rcases Nat.eq_zero_or_pos n with rfl | hpos
  · have hnot : negative = false := Bool.eq_false_iff.mpr fun h => absurd (hneg h).1 (by omega)
    obtain ⟨rfl, rfl⟩ := List.cons.inj ((Nat.toDigits_zero 10).symm.trans hcs)
    have hzero : significand 0 ['0'] = (0, 0) := rfl
    simp [bind_of_ok (advance_cons _ _), get_bind, pure_run, hdigit, hzero, hdot, hsmall, hlarge,
      hnot]
  · have hd : digits (c :: (cs ++ rest)) = .ok (c :: cs, rest) := digits_append hall he
    rw [if_neg (toDigits_head_ne_zero hpos hcs), bind_of_ok hd, ← hcs, significand_toDigits hn]
    cases negative with
    | false => simp [get_bind, pure_run, hdot, hsmall, hlarge]
    | true =>
      obtain ⟨-, hle⟩ := hneg rfl
      have hzero : n ≠ 0 := by omega
      have hlt : ¬9223372036854775808 < n := Nat.not_lt.mpr hle
      simp [get_bind, pure_run, hdot, hsmall, hlarge, hzero, hlt]

end Reader

/-! ## Reading back -/

/-- Under the layout, the reader takes the text of the value, with blanks in front of it, for
`result`, and leaves what follows. -/
def Reads {α : Type} (layout : Layout) (reader : Reader α) (value : Json) (result : α) : Prop :=
  ∀ blanks inside rest, Blank blanks → Ends rest →
    reader (blanks ++ (layout.write inside value ++ rest)) = .ok (result, rest)

section

open Reader

variable {α β : Type} {layout : Layout}

theorem reads_string (text : String) : Reads layout Reader.string (.string text) text := by
  intro blanks inside rest hb he
  have htext : layout.write inside (.string text) ++ rest =
      '\"' :: (text.toList.flatMap escapeChar ++ '\"' :: rest) := by
    simp [Layout.write, writeString]
  rw [htext, Reader.string, bind_of_ok (peekValue_of_blank hb (by decide)), if_pos rfl,
    bind_of_ok (advance_cons _ _), stringBody_write]

theorem reads_bool (b : Bool) : Reads layout Reader.bool (.bool b) b := by
  intro blanks inside rest hb he
  cases b with
  | true =>
    rw [Layout.write, List.cons_append, Reader.bool, bind_of_ok (peekValue_of_blank hb (by decide)),
      if_pos rfl, bind_of_ok (advance_cons _ _), bind_of_ok (word_append _ rest), pure_run]
  | false =>
    rw [Layout.write, List.cons_append, Reader.bool, bind_of_ok (peekValue_of_blank hb (by decide)),
      if_neg (by decide), if_pos rfl, bind_of_ok (advance_cons _ _),
      bind_of_ok (word_append _ rest), pure_run]

/-- Integers that fit 64 bits are read back where the bounds admit them. -/
theorem reads_integer {low high n : Int} (wanted : String) (hlow : low ≤ n) (hhigh : n ≤ high)
    (hmin : -9223372036854775808 ≤ n) (hmax : n < 18446744073709551616) :
    Reads layout (Reader.integer low high wanted) (.integer n) n := by
  intro blanks inside rest hb he
  have hcount : UInt64.size = 18446744073709551616 := rfl
  have hpower : Nat.pow 2 63 = 9223372036854775808 := rfl
  have hsize : n.natAbs < UInt64.size := by omega
  by_cases hn : n < 0
  · have hbody := @numberBody_toDigits n.natAbs rest true hsize (fun _ => by omega) he
    have hvalue : -(n.natAbs : Int) = n := by omega
    rw [if_pos rfl, hvalue] at hbody
    rw [Layout.write, writeInteger, if_pos hn, List.cons_append, Reader.integer,
      bind_of_ok (peekValue_of_blank hb (by decide)), if_pos rfl, bind_of_ok (advance_cons _ _),
      bind_of_ok hbody]
    simp only [if_pos (And.intro hlow hhigh), pure_run]
  · obtain ⟨c, text, htext⟩ := List.exists_cons_of_ne_nil (toDigits_ne_nil n.natAbs)
    have hc : c.isDigit = true := isDigit_of_mem_toDigits (by rw [htext]; simp)
    have hstarts : Starts (.integer n) c := starts_of_isDigit hc
    have hsign : c ≠ '-' := by
      rintro rfl
      simp at hc
    have hbody := numberBody_toDigits hsize (fun h => absurd h Bool.false_ne_true) he
    have hvalue : (n.natAbs : Int) = n := by omega
    simp only [Bool.false_eq_true, if_false, hvalue, htext, List.cons_append] at hbody
    rw [Layout.write, writeInteger, if_neg hn, htext, List.cons_append, Reader.integer,
      bind_of_ok (peekValue_of_blank hb hstarts.notBlank), if_neg hsign, if_pos hc,
      bind_of_ok hbody]
    simp only [if_pos (And.intro hlow hhigh), pure_run]

/-- The value may be absent. -/
theorem reads_none (reader : Reader α) : Reads layout (Reader.optional reader) .null none := by
  intro blanks inside rest hb he
  rw [Layout.write, List.cons_append, Reader.optional, bind_of_ok (peek_of_blank hb (by decide)),
    if_pos rfl, bind_of_ok (advance_cons _ _), bind_of_ok (word_append _ rest), pure_run]

theorem reads_some {reader : Reader α} {value : Json} {result : α} (hvalue : value ≠ .null)
    (h : Reads layout reader value result) :
    Reads layout (Reader.optional reader) value (some result) := by
  intro blanks inside rest hb he
  obtain ⟨c, text, htext, hstarts⟩ := layout.write_starts inside value
  have hc : c ≠ 'n' := fun hc => hvalue (hstarts.isNull hc)
  have hread := h [] inside rest (by simp [Blank]) he
  rw [htext, List.cons_append, List.nil_append] at hread
  rw [htext, List.cons_append, Reader.optional, bind_of_ok (peek_of_blank hb hstarts.notBlank),
    if_neg (by simpa using hc), ← bind_pure_comp, bind_of_ok hread, pure_run]

/-- What is made of the value read. -/
theorem Reads.map {reader : Reader α} {value : Json} {result : α}
    (h : Reads layout reader value result) (f : α → β) :
    Reads layout (do pure (f (← reader))) value (f result) := by
  intro blanks inside rest hb he
  rw [bind_of_ok (h blanks inside rest hb he), pure_run]

end

end PlusCalGo.Json
