import Mathlib
import SwitchingAlgebra.Proofs.WrittenTokens

/-!
# Texts and their tokens

A text consists of written tokens with white space between them. White space may stand anywhere
between two tokens, and it must stand where they would otherwise be read in another way: between two
names, between two numbers, and between a name and a number after it. A name takes in all letters,
digits and underscores that follow, but a number takes in digits only.

Two things can be wrong with a text: a character with which no token starts and that is not blank,
and a number beyond the greatest that can be written. The text is then rejected at the first place
at which one of them is wrong.

Main statement: a text is cut into placed tokens exactly when it is written with them, and it is
rejected with an error exactly when the error names its first fault (`ofText_lexemes`).
-/

set_option autoImplicit false
set_option relaxedAutoImplicit false

namespace SwitchingAlgebra.Reading

open Token

/-! ### Written tokens -/

/-- The characters are a way to write the token. -/
inductive Spells : Token → List Char → Prop
  | notBefore {c : Char} (hc : c ∈ ['~', '¬', '!']) : Spells .notBefore [c]
  | notAfter : Spells .notAfter [Text.apostrophe]
  | and {c : Char} (hc : c ∈ ['*', '.', '∙', '^', '∧']) : Spells (.connective .and) [c]
  | or {c : Char} (hc : c ∈ ['+', '∨']) : Spells (.connective .or) [c]
  | leftParen : Spells .leftParen ['(']
  | rightParen : Spells .rightParen [')']
  | number {c : Char} {run : List Char} (hdigits : ∀ d ∈ c :: run, d.isDigit = true)
      (hvalue : decimalValue (c :: run) ≤ maxNumber) :
      Spells (.number (decimalValue (c :: run))) (c :: run)
  | name {c : Char} {run : List Char} (hc : startsName c = true)
      (hrun : ∀ d ∈ run, continuesName d = true) :
      Spells (.name (String.ofList (c :: run))) (c :: run)

/-- White space is needed between the two tokens. -/
def Token.runsInto : Token → Token → Bool
  | .name _, .name _ => true
  | .number _, .number _ => true
  | .name _, .number _ => true
  | _, _ => false

/-- The characters at a position are written with the placed tokens. If a token ends right before
them, it is `before`. -/
inductive Written : (before : Option Token) → (position : Nat) → List PlacedToken → List Char → Prop
  | done {before : Option Token} {position : Nat} : Written before position [] []
  | blank {before : Option Token} {position : Nat} {placed : List PlacedToken} {c : Char}
      {cs : List Char} (hc : Text.isBlank c = true)
      (hrest : Written none (position + c.utf8Size) placed cs) :
      Written before position placed (c :: cs)
  | token {before : Option Token} {position : Nat} {placed : List PlacedToken} {token : Token}
      {spelling cs : List Char} (hspells : Spells token spelling)
      (hseparate : ∀ previous ∈ before, previous.runsInto token = false)
      (hrest : Written (some token) (position + (String.ofList spelling).utf8ByteSize) placed cs) :
      Written before position (⟨position, token⟩ :: placed) (spelling ++ cs)

/-! ### Faults -/

/-- The character is not blank, and no token is written with it first. -/
def StartsNothing (c : Char) : Prop :=
  Text.isBlank c = false ∧ ∀ token run, ¬ Spells token (c :: run)

/-- Between the two parts of a text something is wrong: the second part starts with a character that
starts nothing, or with all the digits of a number that is too large. Digits after a letter, a digit
or an underscore do not start a number. -/
inductive FaultAt (left right : List Char) : Cause → Prop
  | character {c : Char} {rest : List Char} (hright : right = c :: rest) (hc : StartsNothing c) :
      FaultAt left right (.unexpectedCharacter c)
  | number {c : Char} {run rest : List Char} (hright : right = c :: run ++ rest)
      (hdigits : ∀ d ∈ c :: run, d.isDigit = true) (hrest : ∀ d ∈ rest.head?, d.isDigit = false)
      (hleft : ∀ d ∈ left.getLast?, continuesName d = false)
      (hvalue : maxNumber < decimalValue (c :: run)) :
      FaultAt left right (.unexpectedToken (String.ofList (c :: run)))

/-- The error names the first fault of the characters and the number of bytes before it. -/
def IsFirstFault (cs : List Char) (error : Error) : Prop :=
  ∃ place, FaultAt (cs.take place) (cs.drop place) error.cause ∧
    error.position = (String.ofList (cs.take place)).utf8ByteSize ∧
      ∀ earlier < place, ∀ cause, ¬ FaultAt (cs.take earlier) (cs.drop earlier) cause

variable {c : Char} {run rest cs spelling : List Char} {position : Nat} {token previous : Token}
  {placed : List PlacedToken} {cause : Cause}

/-! ### Spellings -/

theorem byteCount_eq (cs : List Char) : byteCount cs = (String.ofList cs).utf8ByteSize := by
  induction cs with
  | nil => rfl
  | cons c rest ih =>
    rw [String.ofList_cons, String.utf8ByteSize_append, String.utf8ByteSize_singleton, ← ih]
    rfl

theorem spells_of_ofSign? (hsign : ofSign? c = some token) : Spells token [c] := by
  unfold ofSign? at hsign
  split_ifs at hsign with hnot hafter hand hor hleft hright
  all_goals rw [← Option.some.inj hsign]
  · exact .notBefore hnot
  · exact hafter ▸ .notAfter
  · exact .and hand
  · exact .or hor
  · exact hleft ▸ .leftParen
  · exact hright ▸ .rightParen

/-- A token is written as a sign, or as a number or a name. -/
theorem Spells.sign_or_word (hspells : Spells token spelling) :
    (∃ c, spelling = [c] ∧ ofSign? c = some token) ∨
      (∃ c run, spelling = c :: run ∧ (∀ d ∈ c :: run, d.isDigit = true) ∧
        decimalValue (c :: run) ≤ maxNumber ∧ token = .number (decimalValue (c :: run))) ∨
      ∃ c run, spelling = c :: run ∧ startsName c = true ∧
        (∀ d ∈ run, continuesName d = true) ∧ token = .name (String.ofList (c :: run)) := by
  cases hspells with
  | number hdigits hvalue => exact .inr (.inl ⟨_, _, rfl, hdigits, hvalue, rfl⟩)
  | name hc hrun => exact .inr (.inr ⟨_, _, rfl, hc, hrun, rfl⟩)
  | notAfter | leftParen | rightParen => exact .inl ⟨_, rfl, by decide⟩
  | notBefore hc | and hc | or hc =>
    refine .inl ⟨_, rfl, ?_⟩
    fin_cases hc <;> rfl

theorem Spells.exists_cons (hspells : Spells token spelling) : ∃ c run, spelling = c :: run := by
  rcases hspells.sign_or_word with ⟨c, rfl, -⟩ | ⟨c, run, rfl, -⟩ | ⟨c, run, rfl, -⟩ <;>
    exact ⟨_, _, rfl⟩

theorem continuesName_eq_false_of_isBlank (hc : Text.isBlank c = true) :
    continuesName c = false := by
  rw [← Bool.not_eq_true]
  exact fun hcontinues ↦ Bool.false_ne_true ((isBlank_of_continuesName hcontinues).symm.trans hc)

/-- The character continues a number or a name. -/
def Token.goesOnWith : Token → Char → Bool
  | .name _, c => continuesName c
  | .number _, c => c.isDigit
  | _, _ => false

theorem goesOnWith_eq_false (hc : continuesName c = false) (previous : Token) :
    previous.goesOnWith c = false := by
  cases previous <;> simp [goesOnWith, hc, isDigit_eq_false hc]

/-- A sign ends with its one character and needs no white space before it. -/
theorem goesOnWith_runsInto_of_sign (hsign : ofSign? c = some token) (d : Char) (previous : Token) :
    token.goesOnWith d = false ∧ previous.runsInto token = false := by
  unfold ofSign? at hsign
  split_ifs at hsign
  all_goals
    rw [← Option.some.inj hsign]
    exact ⟨rfl, by cases previous <;> rfl⟩

/-- White space is needed before a token if its first character continues the token before. -/
theorem runsInto_eq_goesOnWith (hspells : Spells token (c :: run)) (previous : Token) :
    previous.runsInto token = previous.goesOnWith c := by
  rcases hspells.sign_or_word with ⟨_, hc, hsign⟩ | ⟨_, _, hc, hdigits, -, rfl⟩ |
    ⟨_, _, hc, hstarts, -, rfl⟩
  · obtain ⟨rfl, -⟩ := List.cons.inj hc
    rw [(goesOnWith_runsInto_of_sign hsign c previous).2,
      goesOnWith_eq_false (continuesName_isBlank_of_mem_signs (mem_signs_of_ofSign? hsign)).1]
  · obtain ⟨rfl, -⟩ := List.cons.inj hc
    have hdigit := hdigits c List.mem_cons_self
    cases previous <;> simp [runsInto, goesOnWith, hdigit, continuesName_of_isDigit hdigit]
  · obtain ⟨rfl, -⟩ := List.cons.inj hc
    cases previous <;> simp [runsInto, goesOnWith, isDigit_of_startsName hstarts,
      continuesName_of_startsName hstarts]

theorem startsNothing_iff : StartsNothing c ↔ Text.isBlank c = false ∧ ofSign? c = none ∧
    c.isDigit = false ∧ startsName c = false := by
  refine and_congr_right fun _ ↦ ⟨fun hnone ↦ ⟨?_, ?_, ?_⟩, ?_⟩
  · rw [Option.eq_none_iff_forall_ne_some]
    exact fun token hsign ↦ hnone token [] (spells_of_ofSign? hsign)
  · rw [← Bool.not_eq_true]
    intro hdigit
    have hvalue : decimalValue [c] ≤ maxNumber := by
      have hrange := toNat_of_continuesName (continuesName_of_isDigit hdigit)
      have hzero : '0'.toNat = 48 := rfl
      simp only [decimalValue, List.foldl_cons, List.foldl_nil, hzero, maxNumber]
      omega
    exact hnone _ [] (.number (by simpa using hdigit) hvalue)
  · rw [← Bool.not_eq_true]
    exact fun hstarts ↦ hnone _ [] (.name hstarts (by simp))
  · rintro ⟨hsign, hdigit, hstarts⟩ token run hspells
    rcases hspells.sign_or_word with ⟨_, hc, hsign'⟩ | ⟨_, _, hc, hdigits, -, -⟩ |
      ⟨_, _, hc, hstarts', -, -⟩ <;> obtain ⟨rfl, -⟩ := List.cons.inj hc
    · rw [hsign] at hsign'
      cases hsign'
    · rw [hdigits c List.mem_cons_self] at hdigit
      cases hdigit
    · rw [hstarts'] at hstarts
      cases hstarts

/-! ### One step of a scan -/

theorem scan_blank (hc : Text.isBlank c = true) :
    scan position (c :: rest) = scan (position + c.utf8Size) rest := by
  rw [scan, if_pos hc]

/-- A token is cut off where its spelling ends. -/
theorem scan_spelling (hspells : Spells token spelling)
    (hends : ∀ c ∈ cs.head?, token.goesOnWith c = false) :
    scan position (spelling ++ cs) =
      (scan (position + (String.ofList spelling).utf8ByteSize) cs).map
        (⟨position, token⟩ :: ·) := by
  rw [← byteCount_eq]
  rcases hspells.sign_or_word with ⟨c, rfl, hsign⟩ | ⟨c, run, rfl, hdigits, hvalue, rfl⟩ |
    ⟨c, run, rfl, hstarts, hrun, rfl⟩
  · exact scan_sign hsign
  · obtain ⟨hc, hrun⟩ := List.forall_mem_cons.mp hdigits
    exact scan_number hc hrun hvalue hends
  · exact scan_name hstarts hrun hends

theorem scan_tooLarge (hdigits : ∀ d ∈ c :: run, d.isDigit = true)
    (hrest : ∀ d ∈ rest.head?, d.isDigit = false) (hvalue : maxNumber < decimalValue (c :: run)) :
    scan position (c :: run ++ rest) =
      .error ⟨.unexpectedToken (String.ofList (c :: run)), position⟩ := by
  obtain ⟨hc, hrun⟩ := List.forall_mem_cons.mp hdigits
  have hcontinues := continuesName_of_isDigit hc
  obtain ⟨htake, hdrop⟩ := span_append hrun hrest
  rw [List.cons_append, scan, isBlank_of_continuesName hcontinues, ofSign?_eq_none hcontinues, hc,
    htake, hdrop]
  simp only [Nat.not_le.mpr hvalue]
  rfl

theorem scan_startsNothing (hc : StartsNothing c) :
    scan position (c :: rest) = .error ⟨.unexpectedCharacter c, position⟩ := by
  obtain ⟨hblank, hsign, hdigit, hstarts⟩ := startsNothing_iff.mp hc
  rw [scan, hblank, hsign, hdigit, hstarts]
  rfl

/-- The course of a scan: white space is passed over, a token is cut off where it does not go on,
and a fault ends the scan. -/
inductive Scans : (position : Nat) → List Char → Except Error (List PlacedToken) → Prop
  | done {position : Nat} : Scans position [] (.ok [])
  | blank {position : Nat} {c : Char} {rest : List Char} {scanned : Except Error (List PlacedToken)}
      (hc : Text.isBlank c = true) (hrest : Scans (position + c.utf8Size) rest scanned) :
      Scans position (c :: rest) scanned
  | token {position : Nat} {token : Token} {spelling rest : List Char}
      {scanned : Except Error (List PlacedToken)} (hspells : Spells token spelling)
      (hends : ∀ c ∈ rest.head?, token.goesOnWith c = false)
      (hrest : Scans (position + (String.ofList spelling).utf8ByteSize) rest scanned) :
      Scans position (spelling ++ rest) (scanned.map (⟨position, token⟩ :: ·))
  | tooLarge {position : Nat} {c : Char} {run rest : List Char}
      (hdigits : ∀ d ∈ c :: run, d.isDigit = true) (hrest : ∀ d ∈ rest.head?, d.isDigit = false)
      (hvalue : maxNumber < decimalValue (c :: run)) :
      Scans position (c :: run ++ rest)
        (.error ⟨.unexpectedToken (String.ofList (c :: run)), position⟩)
  | startsNothing {position : Nat} {c : Char} {rest : List Char} (hc : StartsNothing c) :
      Scans position (c :: rest) (.error ⟨.unexpectedCharacter c, position⟩)

theorem scans_spelling (hspells : Spells token spelling)
    (hends : ∀ c ∈ rest.head?, token.goesOnWith c = false)
    (hrest : Scans (position + byteCount spelling) rest
      (scan (position + byteCount spelling) rest)) :
    Scans position (spelling ++ rest) (scan position (spelling ++ rest)) := by
  rw [scan_spelling hspells hends]
  exact .token hspells hends (byteCount_eq spelling ▸ hrest)

/-- Every scan takes this course. -/
theorem scans_scan (position : Nat) (cs : List Char) : Scans position cs (scan position cs) := by
  have hstops : ∀ (p : Char → Bool) (cs : List Char), ∀ c ∈ (cs.dropWhile p).head?, p c = false :=
    fun p cs c hc ↦ by simpa [Option.mem_def.mp hc] using List.head?_dropWhile_not p cs
  have hsplit : ∀ (p : Char → Bool) (c : Char) (cs : List Char),
      c :: cs = c :: cs.takeWhile p ++ cs.dropWhile p := fun p c cs ↦ by
    rw [List.cons_append, List.takeWhile_append_dropWhile]
  induction position, cs using scan.induct with
  | case1 position =>
    rw [scan]
    exact .done
  | case2 position c rest hblank ih =>
    rw [scan_blank hblank]
    exact .blank hblank ih
  | case3 position c rest hblank token hsign ih =>
    exact scans_spelling (spells_of_ofSign? hsign)
      (fun d _ ↦ (goesOnWith_runsInto_of_sign hsign d token).1) ih
  | case4 position c rest hblank hsign hdigit run hvalue ih =>
    have hdigits : ∀ d ∈ run, d.isDigit = true :=
      List.forall_mem_cons.mpr ⟨hdigit, fun d hd ↦ List.mem_takeWhile_imp hd⟩
    rw [hsplit Char.isDigit]
    exact scans_spelling (.number hdigits hvalue) (hstops _ rest) ih
  | case5 position c rest hblank hsign hdigit run hvalue =>
    have hdigits : ∀ d ∈ run, d.isDigit = true :=
      List.forall_mem_cons.mpr ⟨hdigit, fun d hd ↦ List.mem_takeWhile_imp hd⟩
    have htooLarge := Nat.lt_of_not_le hvalue
    rw [hsplit Char.isDigit, scan_tooLarge hdigits (hstops _ rest) htooLarge]
    exact .tooLarge hdigits (hstops _ rest) htooLarge
  | case6 position c rest hblank hsign hdigit hstarts run ih =>
    have hrun : ∀ d ∈ rest.takeWhile continuesName, continuesName d = true :=
      fun d hd ↦ List.mem_takeWhile_imp hd
    rw [hsplit continuesName]
    exact scans_spelling (.name hstarts hrun) (hstops _ rest) ih
  | case7 position c rest hblank hsign hdigit hstarts =>
    rw [Bool.not_eq_true] at hblank hdigit hstarts
    have hnothing : StartsNothing c := startsNothing_iff.mpr ⟨hblank, hsign, hdigit, hstarts⟩
    rw [scan_startsNothing hnothing]
    exact .startsNothing hnothing

/-! ### Texts that are cut into tokens -/

/-- A written token does not go on in what follows it. -/
theorem Written.goesOnWith_eq_false (hwritten : Written (some token) position placed cs) :
    ∀ c ∈ cs.head?, token.goesOnWith c = false := by
  intro c hc
  cases hwritten with
  | done => cases hc
  | blank hblank hrest =>
    obtain rfl := Option.some.inj hc
    exact Reading.goesOnWith_eq_false (continuesName_eq_false_of_isBlank hblank) token
  | token hspells hseparate _ =>
    obtain ⟨first, run, rfl⟩ := hspells.exists_cons
    obtain rfl := Option.some.inj hc
    rw [← runsInto_eq_goesOnWith hspells]
    exact hseparate token rfl

/-- Written tokens are cut off as they are written. -/
theorem Written.scan_eq {before : Option Token} (hwritten : Written before position placed cs) :
    scan position cs = .ok placed := by
  induction hwritten with
  | done => rw [scan]
  | blank hblank _ ih => rw [scan_blank hblank, ih]
  | token hspells _ hrest ih =>
    rw [scan_spelling hspells hrest.goesOnWith_eq_false, ih]
    rfl

/-- What a scan cuts off is written, after any token that does not go on in it. -/
theorem Scans.written {scanned : Except Error (List PlacedToken)}
    (hscans : Scans position cs scanned) : ∀ {placed : List PlacedToken} {before : Option Token},
      scanned = .ok placed →
        (∀ previous ∈ before, ∀ c ∈ cs.head?, previous.goesOnWith c = false) →
          Written before position placed cs := by
  induction hscans with
  | done =>
    rintro placed before hok -
    obtain rfl := Except.ok.inj hok
    exact .done
  | blank hblank _ ih =>
    intro placed before hok _
    exact .blank hblank (ih hok (by simp))
  | @token position token spelling rest scanned hspells hends _ ih =>
    intro placed before hok hbefore
    cases scanned with
    | error error => cases hok
    | ok others =>
      obtain rfl := Except.ok.inj hok
      refine .token hspells (fun previous hprevious ↦ ?_) (ih rfl fun _ hsome ↦ ?_)
      · obtain ⟨first, run, rfl⟩ := hspells.exists_cons
        rw [runsInto_eq_goesOnWith hspells]
        exact hbefore previous hprevious first rfl
      · obtain rfl := Option.some.inj hsome
        exact hends
  | tooLarge | startsNothing =>
    intro placed before hok
    cases hok

/-! ### Texts that are rejected -/

theorem not_faultAt_of_not_startsNothing {left right : List Char} (hright : right = c :: rest)
    (hc : ¬ StartsNothing c) (hdigit : c.isDigit = false) : ¬ FaultAt left right cause := by
  rintro (⟨hother, hnothing⟩ | ⟨hother, hdigits, -, -, -⟩)
  · obtain ⟨rfl, -⟩ := List.cons.inj (hright.symm.trans hother)
    exact hc hnothing
  · obtain ⟨rfl, -⟩ := List.cons.inj (hright.symm.trans hother)
    rw [hdigits c List.mem_cons_self] at hdigit
    cases hdigit

/-- Every character of a word can start one. -/
theorem not_startsNothing_of_continuesName (hc : continuesName c = true) : ¬ StartsNothing c := by
  intro hnothing
  obtain ⟨-, -, hdigit, hstarts⟩ := startsNothing_iff.mp hnothing
  rw [startsName, Bool.or_eq_false_iff] at hstarts
  simp [continuesName, Char.isAlphanum, hdigit, hstarts.1, hstarts.2] at hc

/-- All digits of a number are one run. -/
theorem digits_unique {digits digits' rest' : List Char} (hdigits : ∀ d ∈ digits, d.isDigit = true)
    (hdigits' : ∀ d ∈ digits', d.isDigit = true) (hrest : ∀ d ∈ rest.head?, d.isDigit = false)
    (hrest' : ∀ d ∈ rest'.head?, d.isDigit = false) (heq : digits ++ rest = digits' ++ rest') :
    digits = digits' := by
  rw [← (span_append hdigits hrest).1, heq, (span_append hdigits' hrest').1]

/-- Nothing else is wrong at the place of a fault. -/
theorem FaultAt.unique {left right : List Char} {cause' : Cause} (hfault : FaultAt left right cause)
    (hfault' : FaultAt left right cause') : cause = cause' := by
  rcases hfault with ⟨rfl, hc⟩ | ⟨rfl, hdigits, hrest, -, -⟩
  · rcases hfault' with ⟨hright, -⟩ | ⟨hright, hdigits, -, -, -⟩
    · obtain ⟨rfl, -⟩ := List.cons.inj hright
      rfl
    · obtain ⟨rfl, -⟩ := List.cons.inj hright
      exact absurd hc (not_startsNothing_of_continuesName
        (continuesName_of_isDigit (hdigits _ List.mem_cons_self)))
  · rcases hfault' with ⟨hright, hc⟩ | ⟨hright, hdigits', hrest', -, -⟩
    · obtain ⟨rfl, -⟩ := List.cons.inj hright
      exact absurd hc (not_startsNothing_of_continuesName
        (continuesName_of_isDigit (hdigits _ List.mem_cons_self)))
    · rw [digits_unique hdigits hdigits' hrest hrest' hright]

/-- Nothing is wrong with a text from one place up to another. -/
def FaultFree (text : List Char) (start stop : Nat) : Prop :=
  ∀ place, start ≤ place → place < stop → ∀ cause,
    ¬ FaultAt (text.take place) (text.drop place) cause

variable {text : List Char} {start : Nat}

theorem faultFree_succ (hfree : ∀ cause, ¬ FaultAt (text.take start) (text.drop start) cause) :
    FaultFree text start (start + 1) := by
  intro place hstart hplace
  obtain rfl : place = start := by omega
  exact hfree

theorem FaultFree.trans {middle stop : Nat} (hfirst : FaultFree text start middle)
    (hsecond : FaultFree text middle stop) : FaultFree text start stop := by
  intro place hstart hstop
  by_cases hplace : place < middle
  · exact hfirst place hstart hplace
  · exact hsecond place (by omega) hstop

theorem take_drop_of_append (hdrop : text.drop start = run ++ rest) :
    text.take (start + run.length) = text.take start ++ run ∧
      text.drop (start + run.length) = rest := by
  rw [List.take_add, ← List.drop_drop, hdrop, List.take_left, List.drop_left]
  exact ⟨rfl, rfl⟩

theorem take_drop_of_cons (hdrop : text.drop start = c :: rest) :
    text.take (start + 1) = text.take start ++ [c] ∧ text.drop (start + 1) = rest :=
  take_drop_of_append (List.singleton_append.symm ▸ hdrop)

/-- Within a word nothing is wrong. -/
theorem not_faultAt_within_word {left : List Char} {d : Char} (hc : continuesName c = true)
    (hd : continuesName d = true) : ¬ FaultAt (left ++ [c]) (d :: rest) cause := by
  rintro (⟨hright, hnothing⟩ | ⟨-, -, -, hleft, -⟩)
  · obtain ⟨rfl, -⟩ := List.cons.inj hright
    exact not_startsNothing_of_continuesName hd hnothing
  · rw [hleft c (by simp)] at hc
    cases hc

/-- So it is enough to look at the place where the word starts. -/
theorem faultFree_word (hdrop : text.drop start = c :: run ++ rest)
    (hword : ∀ d ∈ c :: run, continuesName d = true)
    (hfree : ∀ cause, ¬ FaultAt (text.take start) (text.drop start) cause) :
    FaultFree text start (start + (c :: run).length) := by
  induction run generalizing start c with
  | nil => exact faultFree_succ hfree
  | cons d run ih =>
    obtain ⟨hc, hrun⟩ := List.forall_mem_cons.mp hword
    obtain ⟨htake, hnext⟩ := take_drop_of_cons hdrop
    have hafter := ih hnext hrun fun cause ↦ by
      rw [htake, hnext]
      exact not_faultAt_within_word hc (hrun d List.mem_cons_self)
    rw [List.length_cons, Nat.add_comm _ 1, ← Nat.add_assoc]
    exact (faultFree_succ hfree).trans hafter

/-- If what comes before a place and what comes after it belong to one word, the word does not go on
with a digit. -/
def SplitsNoWord (text : List Char) (place : Nat) : Prop :=
  ∀ c ∈ (text.take place).getLast?, ∀ d ∈ (text.drop place).head?, d.isDigit = true →
    continuesName c = false

/-- At the start of a written token nothing is wrong with the text, nor within the token, and where
it ends no word is split. -/
theorem faultFree_spelling (hdrop : text.drop start = spelling ++ rest)
    (hspells : Spells token spelling) (hends : ∀ c ∈ rest.head?, token.goesOnWith c = false) :
    FaultFree text start (start + spelling.length) ∧
      SplitsNoWord text (start + spelling.length) := by
  obtain ⟨htake, hnext⟩ := take_drop_of_append hdrop
  rw [SplitsNoWord, htake, hnext]
  rcases hspells.sign_or_word with ⟨c, rfl, hsign⟩ | ⟨c, run, rfl, hdigits, hvalue, rfl⟩ |
    ⟨c, run, rfl, hstarts, hrun, rfl⟩
  · have hc := (continuesName_isBlank_of_mem_signs (mem_signs_of_ofSign? hsign)).1
    refine ⟨faultFree_succ fun cause ↦ ?_, fun d hd _ _ _ ↦ ?_⟩
    · refine not_faultAt_of_not_startsNothing hdrop (fun hnothing ↦ ?_) (isDigit_eq_false hc)
      rw [(startsNothing_iff.mp hnothing).2.1] at hsign
      cases hsign
    · obtain rfl : c = d := by simpa using hd
      exact hc
  · have hword : ∀ d ∈ c :: run, continuesName d = true :=
      fun d hd ↦ continuesName_of_isDigit (hdigits d hd)
    refine ⟨faultFree_word hdrop hword ?_, fun _ _ d hd hdigit ↦ ?_⟩
    · rw [hdrop]
      rintro _ (⟨hright, hnothing⟩ | ⟨hright, hdigits', hrest', -, hexceeds⟩)
      · obtain ⟨rfl, -⟩ := List.cons.inj hright
        exact not_startsNothing_of_continuesName (hword c List.mem_cons_self) hnothing
      · rw [← digits_unique hdigits hdigits' hends hrest' hright] at hexceeds
        exact Nat.not_lt.mpr hvalue hexceeds
    · rw [show d.isDigit = false from hends d hd] at hdigit
      cases hdigit
  · have hword : ∀ d ∈ c :: run, continuesName d = true :=
      List.forall_mem_cons.mpr ⟨continuesName_of_startsName hstarts, hrun⟩
    refine ⟨faultFree_word hdrop hword fun cause ↦ ?_, fun _ _ d hd hdigit ↦ ?_⟩
    · exact not_faultAt_of_not_startsNothing hdrop
        (not_startsNothing_of_continuesName (hword c List.mem_cons_self))
        (isDigit_of_startsName hstarts)
    · have hcontinues : continuesName d = false := hends d hd
      rw [continuesName_of_isDigit hdigit] at hcontinues
      cases hcontinues

/-- From a place on nothing is wrong with the text if it was cut into tokens from there, and
otherwise the error names the first fault from there. -/
def NamesFault (text : List Char) (start : Nat) : Except Error (List PlacedToken) → Prop
  | .ok _ => ∀ stop, FaultFree text start stop
  | .error error => ∃ place, FaultAt (text.take place) (text.drop place) error.cause ∧
      error.position = (String.ofList (text.take place)).utf8ByteSize ∧ FaultFree text start place

theorem NamesFault.of_faultFree {next : Nat} {scanned : Except Error (List PlacedToken)}
    (hfree : FaultFree text start next) (hnames : NamesFault text next scanned) :
    NamesFault text start scanned := by
  cases scanned with
  | ok _ => exact fun stop ↦ hfree.trans (hnames stop)
  | error error =>
    obtain ⟨place, hfault, hposition, hrest⟩ := hnames
    exact ⟨place, hfault, hposition, hfree.trans hrest⟩

theorem NamesFault.map {scanned : Except Error (List PlacedToken)}
    (hnames : NamesFault text start scanned) (p : PlacedToken) :
    NamesFault text start (scanned.map (p :: ·)) := by
  cases scanned with
  | ok _ => exact hnames
  | error _ => exact hnames

/-- A scan of the rest of a text finds its first fault. -/
theorem Scans.namesFault {scanned : Except Error (List PlacedToken)}
    (hscans : Scans position cs scanned) : ∀ {start : Nat}, text.drop start = cs →
      position = (String.ofList (text.take start)).utf8ByteSize → SplitsNoWord text start →
        NamesFault text start scanned := by
  induction hscans with
  | done =>
    intro start hdrop _ _ stop place hstart _ cause
    have hnothing : text.drop place = [] :=
      List.drop_eq_nil_of_le ((List.drop_eq_nil_iff.mp hdrop).trans hstart)
    rintro (⟨hright, -⟩ | ⟨hright, -⟩) <;> simp [hnothing] at hright
  | @blank position c rest scanned hblank _ ih =>
    intro start hdrop hposition _
    have hc := continuesName_eq_false_of_isBlank hblank
    obtain ⟨htake, hnext⟩ := take_drop_of_cons hdrop
    have hfree : FaultFree text start (start + 1) := faultFree_succ fun cause ↦
      not_faultAt_of_not_startsNothing hdrop (fun hnothing ↦ by simp [hnothing.1] at hblank)
        (isDigit_eq_false hc)
    refine (ih hnext ?_ ?_).of_faultFree hfree
    · rw [htake, String.ofList_append, String.utf8ByteSize_append, hposition]
      simp
    · intro d hd _ _ _
      obtain rfl : c = d := by simpa [htake] using hd
      exact hc
  | @token position token spelling rest scanned hspells hends _ ih =>
    intro start hdrop hposition _
    obtain ⟨htake, hnext⟩ := take_drop_of_append hdrop
    obtain ⟨hfree, hsplits⟩ := faultFree_spelling hdrop hspells hends
    refine ((ih hnext ?_ hsplits).of_faultFree hfree).map _
    rw [htake, String.ofList_append, String.utf8ByteSize_append, hposition]
  | tooLarge hdigits hrest hvalue =>
    intro start hdrop hposition hsplits
    refine ⟨start, .number hdrop hdigits hrest (fun d hd ↦ ?_) hvalue, hposition,
      fun place hstart hplace ↦ absurd hstart (Nat.not_le.mpr hplace)⟩
    exact hsplits d hd _ (by rw [hdrop]; rfl) (hdigits _ List.mem_cons_self)
  | startsNothing hc =>
    intro start hdrop hposition _
    exact ⟨start, .character hdrop hc, hposition,
      fun place hstart hplace ↦ absurd hstart (Nat.not_le.mpr hplace)⟩

/-- A text is cut into the tokens with which it is written, each at the number of bytes before it,
and rejected with its first fault if it is written with none. Both directions hold, so a text is
written with at most one list of tokens, and it has a fault or is written with tokens, but not
both. -/
theorem ofText_lexemes (text : String) :
    (∀ placed, ofText text = .ok placed ↔ Written none 0 placed text.toList) ∧
      ∀ error, ofText text = .error error ↔ IsFirstFault text.toList error := by
  have hscans : Scans 0 text.toList (ofText text) := scans_scan 0 text.toList
  have hnames : NamesFault text.toList 0 (ofText text) :=
    hscans.namesFault rfl rfl (by simp [SplitsNoWord])
  refine ⟨fun placed ↦ ⟨fun hok ↦ hscans.written hok (by simp), Written.scan_eq⟩, fun error ↦ ?_⟩
  constructor
  · intro herror
    rw [herror] at hnames
    obtain ⟨place, hfault, hposition, hfree⟩ := hnames
    exact ⟨place, hfault, hposition, fun earlier ↦ hfree earlier (Nat.zero_le _)⟩
  · rintro ⟨place, hfault, hposition, hfirst⟩
    cases hother : ofText text with
    | ok placed =>
      rw [hother] at hnames
      exact absurd hfault (hnames (place + 1) place (Nat.zero_le _) (Nat.lt_succ_self _) _)
    | error other =>
      rw [hother] at hnames
      obtain ⟨place', hfault', hposition', hfree⟩ := hnames
      have hplace : place = place' := Nat.le_antisymm
        (Nat.le_of_not_lt fun hlt ↦ hfirst place' hlt _ hfault')
        (Nat.le_of_not_lt fun hlt ↦ hfree place (Nat.zero_le _) hlt _ hfault)
      subst hplace
      obtain ⟨cause, position⟩ := error
      obtain ⟨cause', position'⟩ := other
      rw [show cause' = cause from hfault'.unique hfault,
        show position' = position from hposition'.trans hposition.symm]

/-- A number ends before a letter, but a name takes in the digits after it. -/
example : ofText "∧12a3" = .ok [⟨0, .connective .and⟩, ⟨3, .number 12⟩, ⟨5, .name "a3"⟩] := by
  cbv

end SwitchingAlgebra.Reading
