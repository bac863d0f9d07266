import Mathlib
import SwitchingAlgebra.Expr.Leaves
import SwitchingAlgebra.Expr.Printer
import SwitchingAlgebra.Reading.Token

/-!
# The tokens of written expressions

A text is cut into tokens from left to right. Where a token ends depends on what comes after it only
for numbers and names, which go on as long as letters, digits and underscores follow. In the
algebraic form of an expression a sign or nothing at all follows every number and every name. So the
form is cut into the tokens that it is put together from, provided that each symbol is written as a
number or a name that can be read.

Main statements: the algebraic form of an expression with readable symbols is cut into its tokens
(`ofText_text`), and the numbers and names of any text are those of readable symbols
(`isReadable_of_ofText`).
-/

set_option autoImplicit false
set_option relaxedAutoImplicit false

namespace SwitchingAlgebra

namespace Reading.Token

variable {c : Char} {run rest cs ds : List Char} {position : Nat} {token : Token}
  {tokens others : List Token}

/-! ### Kinds of characters -/

/-- The characters that stand for a token by themselves. -/
def signs : List Char :=
  ['~', '¬', '!', Text.apostrophe, '*', '.', '∙', '^', '∧', '+', '∨', '(', ')']

theorem mem_signs_of_ofSign? (hsign : ofSign? c = some token) : c ∈ signs := by
  by_contra hnot
  simp only [signs, List.mem_cons, List.not_mem_nil, or_false, not_or] at hnot
  simp [ofSign?, hnot] at hsign

/-- No sign continues a name or is blank. -/
theorem continuesName_isBlank_of_mem_signs (hc : c ∈ signs) :
    continuesName c = false ∧ Text.isBlank c = false := by
  have hall : (signs.all fun c ↦ !continuesName c && !Text.isBlank c) = true := by rfl
  simpa using List.all_eq_true.mp hall c hc

theorem ofSign?_eq_none (hc : continuesName c = true) : ofSign? c = none := by
  rw [Option.eq_none_iff_forall_ne_some]
  intro token hsign
  rw [(continuesName_isBlank_of_mem_signs (mem_signs_of_ofSign? hsign)).1] at hc
  exact Bool.false_ne_true hc

theorem toNat_of_continuesName (hc : continuesName c = true) : 48 ≤ c.toNat ∧ c.toNat ≤ 122 := by
  simp only [continuesName, Char.isAlphanum, Char.isAlpha, Char.isUpper, Char.isLower,
    Char.isDigit, Bool.or_eq_true, Bool.and_eq_true, decide_eq_true_eq,
    UInt32.le_iff_toNat_le, ge_iff_le, beq_iff_eq] at hc
  rcases hc with hranges | rfl
  · have hvalue : c.toNat = c.val.toNat := rfl
    simp at hranges
    omega
  · decide

theorem isBlank_of_continuesName (hc : continuesName c = true) : Text.isBlank c = false := by
  have hrange := toNat_of_continuesName hc
  simp only [Text.isBlank, Text.Ranges.contains, Text.blankRanges, List.any_cons, List.any_nil]
  simp
  omega

theorem continuesName_of_isDigit (hc : c.isDigit = true) : continuesName c = true := by
  simp [continuesName, Char.isAlphanum, hc]

theorem isDigit_eq_false (hc : continuesName c = false) : c.isDigit = false := by
  rw [← Bool.not_eq_true]
  exact fun hdigit ↦ Bool.false_ne_true (hc.symm.trans (continuesName_of_isDigit hdigit))

theorem continuesName_of_startsName (hc : startsName c = true) : continuesName c = true := by
  rw [startsName, Bool.or_eq_true] at hc
  rw [continuesName, Char.isAlphanum, Bool.or_eq_true, Bool.or_eq_true]
  exact hc.imp_left .inl

theorem isDigit_of_startsName (hc : startsName c = true) : c.isDigit = false := by
  rw [startsName, Bool.or_eq_true, Char.isAlpha, Char.isUpper, Char.isLower, beq_iff_eq] at hc
  rw [← Bool.not_eq_true]
  intro hdigit
  rcases hc with hletter | rfl
  · simp [Char.isDigit, UInt32.le_iff_toNat_le] at hletter hdigit
    omega
  · exact absurd hdigit (by decide)

/-! ### Where a word ends -/

/-- A number or a name that stands before these characters ends there. -/
def EndsWord (rest : List Char) : Prop :=
  ∀ c ∈ rest.head?, continuesName c = false

theorem endsWord_nil : EndsWord [] :=
  fun _ h ↦ nomatch h

theorem endsWord_cons_of_ofSign? (hsign : ofSign? c = some token) : EndsWord (c :: rest) := by
  intro d hd
  rw [← Option.some.inj hd]
  exact (continuesName_isBlank_of_mem_signs (mem_signs_of_ofSign? hsign)).1

/-- A run of characters of one kind is as long as it can be when another kind comes next. -/
theorem span_append {p : Char → Bool} (hrun : ∀ c ∈ run, p c = true)
    (hrest : ∀ c ∈ rest.head?, p c = false) :
    (run ++ rest).takeWhile p = run ∧ (run ++ rest).dropWhile p = rest := by
  rw [List.takeWhile_append_of_pos hrun, List.dropWhile_append_of_pos hrun]
  match rest with
  | [] => exact ⟨List.append_nil run, rfl⟩
  | d :: rest =>
    have hstop : ¬ p d = true := Bool.not_eq_true _ ▸ hrest d rfl
    rw [List.takeWhile_cons_of_neg hstop, List.dropWhile_cons_of_neg hstop, List.append_nil]
    exact ⟨rfl, rfl⟩

/-! ### One token -/

theorem scan_sign (hsign : ofSign? c = some token) : scan position (c :: rest) =
    (scan (position + c.utf8Size) rest).map (⟨position, token⟩ :: ·) := by
  rw [scan, (continuesName_isBlank_of_mem_signs (mem_signs_of_ofSign? hsign)).2, hsign]
  rfl

theorem scan_name (hc : startsName c = true) (hrun : ∀ d ∈ run, continuesName d = true)
    (hrest : EndsWord rest) : scan position (c :: (run ++ rest)) =
      (scan (position + byteCount (c :: run)) rest).map
        (⟨position, .name (String.ofList (c :: run))⟩ :: ·) := by
  have hcontinues := continuesName_of_startsName hc
  obtain ⟨htake, hdrop⟩ := span_append hrun hrest
  rw [scan, isBlank_of_continuesName hcontinues, ofSign?_eq_none hcontinues,
    isDigit_of_startsName hc, hc, htake, hdrop]
  rfl

theorem scan_number (hc : c.isDigit = true) (hrun : ∀ d ∈ run, d.isDigit = true)
    (hvalue : decimalValue (c :: run) ≤ maxNumber) (hrest : ∀ d ∈ rest.head?, d.isDigit = false) :
    scan position (c :: (run ++ rest)) =
      (scan (position + byteCount (c :: run)) rest).map
        (⟨position, .number (decimalValue (c :: run))⟩ :: ·) := by
  have hcontinues := continuesName_of_isDigit hc
  obtain ⟨htake, hdrop⟩ := span_append hrun hrest
  rw [scan, isBlank_of_continuesName hcontinues, ofSign?_eq_none hcontinues, hc, htake, hdrop]
  simp only [hvalue]
  rfl

/-! ### Several tokens -/

/-- Characters are cut into tokens, wherever they stand and whatever is cut into tokens after them,
as long as a word may end there. -/
def AreCutInto (tokens : List Token) (cs : List Char) : Prop :=
  ∀ (position : Nat) (rest : List Char), EndsWord rest →
    ∃ (placed : List PlacedToken) (next : Nat), placed.map PlacedToken.token = tokens ∧
      ∀ after, scan next rest = .ok after → scan position (cs ++ rest) = .ok (placed ++ after)

theorem areCutInto_nil : AreCutInto [] [] :=
  fun position _ _ ↦ ⟨[], position, rfl, fun _ hafter ↦ hafter⟩

theorem AreCutInto.append (hcs : AreCutInto tokens cs) (hds : AreCutInto others ds)
    (hends : ∀ rest, EndsWord rest → EndsWord (ds ++ rest)) :
    AreCutInto (tokens ++ others) (cs ++ ds) := by
  intro position rest hrest
  obtain ⟨placed, middle, hplaced, hfirst⟩ := hcs position (ds ++ rest) (hends rest hrest)
  obtain ⟨placed', next, hplaced', hsecond⟩ := hds middle rest hrest
  refine ⟨placed ++ placed', next, ?_, fun after hafter ↦ ?_⟩
  · rw [List.map_append, hplaced, hplaced']
  · rw [List.append_assoc, List.append_assoc]
    exact hfirst _ (hsecond after hafter)

/-- A sign may stand before anything. -/
theorem AreCutInto.sign_cons (hsign : ofSign? c = some token) (hcs : AreCutInto tokens cs) :
    AreCutInto (token :: tokens) (c :: cs) := by
  intro position rest hrest
  obtain ⟨placed, next, hplaced, hscan⟩ := hcs (position + c.utf8Size) rest hrest
  refine ⟨⟨position, token⟩ :: placed, next, congrArg _ hplaced, fun after hafter ↦ ?_⟩
  rw [List.cons_append, scan_sign hsign, hscan after hafter]
  rfl

/-- A sign may stand between any tokens. -/
theorem AreCutInto.append_sign (hcs : AreCutInto tokens cs) (hsign : ofSign? c = some token)
    (hds : AreCutInto others ds) : AreCutInto (tokens ++ token :: others) (cs ++ c :: ds) :=
  hcs.append (hds.sign_cons hsign) fun _ _ ↦ endsWord_cons_of_ofSign? hsign

/-- So may a sign at the end. -/
theorem AreCutInto.sign_last (hcs : AreCutInto tokens cs) (hsign : ofSign? c = some token) :
    AreCutInto (tokens ++ [token]) (cs ++ [c]) :=
  hcs.append_sign hsign areCutInto_nil

theorem areCutInto_name (hc : startsName c = true) (hrun : ∀ d ∈ run, continuesName d = true) :
    AreCutInto [.name (String.ofList (c :: run))] (c :: run) := by
  intro position rest hrest
  refine ⟨[⟨position, _⟩], position + byteCount (c :: run), rfl, fun after hafter ↦ ?_⟩
  rw [List.cons_append, scan_name hc hrun hrest, hafter]
  rfl

/-- The decimal digits of a number are cut into the number. -/
theorem areCutInto_number {n : Nat} (hn : n ≤ maxNumber) :
    AreCutInto [.number n] (Nat.toDigits 10 n) := by
  intro position rest hrest
  have hdigit : ∀ c ∈ Nat.toDigits 10 n, c.isDigit = true := fun c hc ↦
    Nat.isDigit_of_mem_toDigits (by decide) (by decide) hc
  have hvalue : decimalValue (Nat.toDigits 10 n) = n := by
    show (Nat.toDigits 10 n).foldl (fun n c ↦ 10 * n + (c.toNat - '0'.toNat)) 0 = n
    rw [← Nat.ofDigitChars_eq_foldl, Nat.ofDigitChars_ten_toDigits]
  obtain ⟨c, run, hdigits⟩ := List.exists_cons_of_ne_nil (@Nat.toDigits_ne_nil n 10)
  rw [hdigits] at hdigit hvalue ⊢
  refine ⟨[⟨position, .number n⟩], position + byteCount (c :: run), rfl, fun after hafter ↦ ?_⟩
  rw [List.cons_append, scan_number (hdigit c List.mem_cons_self)
    (fun d hd ↦ hdigit d (List.mem_cons_of_mem _ hd)) (hvalue ▸ hn)
    (fun d hd ↦ isDigit_eq_false (hrest d hd)), hafter, hvalue]
  rfl

/-- A text whose characters are cut into tokens consists of them. -/
theorem AreCutInto.ofText_eq {text : String} (htext : AreCutInto tokens text.toList) :
    ∃ placed, ofText text = .ok placed ∧ placed.map PlacedToken.token = tokens := by
  obtain ⟨placed, next, hplaced, hscan⟩ := htext 0 [] endsWord_nil
  refine ⟨placed, ?_, hplaced⟩
  have hall := hscan [] (by rw [scan])
  rwa [List.append_nil, List.append_nil] at hall

end Reading.Token

/-! ### Readable symbols -/

/-- A symbol can be read back from its written form: it is an integer that stands for no constant,
or a name of letters, digits and underscores that does not start with a digit. -/
def Symbol.IsReadable : Symbol → Prop
  | .int value => 2 ≤ value.toInt
  | .name text => text.toList.head?.any Reading.Token.startsName = true ∧
      text.toList.all Reading.Token.continuesName = true
  | .anonymous _ => False

instance (s : Symbol) : Decidable s.IsReadable :=
  match s with
  | .int value => inferInstanceAs (Decidable (2 ≤ value.toInt))
  | .name text =>
    inferInstanceAs (Decidable (text.toList.head?.any Reading.Token.startsName = true ∧
      text.toList.all Reading.Token.continuesName = true))
  | .anonymous _ => inferInstanceAs (Decidable False)

/-- The tokens of the written form of a symbol. An anonymous symbol is written with none. -/
def Symbol.tokens : Symbol → List Reading.Token
  | .int value => [.number value.toNatClampNeg]
  | .name text => [.name text]
  | .anonymous _ => []

open Reading (Token)
open Reading.Token (AreCutInto)

theorem Symbol.IsReadable.areCutInto {s : Symbol} (hs : s.IsReadable) :
    AreCutInto s.tokens s.text.toList := by
  match s with
  | .int value =>
    have htwo : 2 ≤ value.toInt := hs
    have hvalue : value.toInt = (value.toNatClampNeg : Int) :=
      (Int.toNat_of_nonneg (by omega)).symm
    have htext : (Symbol.int value).text = Nat.repr value.toNatClampNeg := by
      show Int.repr value.toInt = _
      rw [hvalue]
      rfl
    rw [htext, Nat.toList_repr]
    exact Token.areCutInto_number (Nat.le_of_lt_succ value.toNatClampNeg_lt)
  | .name text =>
    obtain ⟨hstarts, hcontinues⟩ := hs
    match htext : text.toList with
    | [] =>
      rw [htext] at hstarts
      cases hstarts
    | c :: run =>
      have hname : text = String.ofList (c :: run) := by rw [← htext, String.ofList_toList]
      rw [htext] at hstarts hcontinues
      show AreCutInto [.name text] (c :: run)
      rw [hname]
      exact Token.areCutInto_name hstarts fun d hd ↦
        List.all_eq_true.mp hcontinues d (List.mem_cons_of_mem c hd)

/-! ### Readable tokens -/

namespace Reading.Token

/-- A token of which a text can consist: a number that fits, or a name that can be read back. -/
def IsReadable : Token → Prop
  | number value => value ≤ maxNumber
  | name text => (Symbol.name text).IsReadable
  | _ => True

theorem isReadable_of_ofSign? {c : Char} {token : Token} (hsign : ofSign? c = some token) :
    token.IsReadable := by
  unfold ofSign? at hsign
  split_ifs at hsign
  all_goals
    rw [← Option.some.inj hsign]
    trivial

theorem exists_of_cons_bind {scanned : Except Error (List PlacedToken)} {p : PlacedToken}
    {placed : List PlacedToken} (hscan : (do return p :: (← scanned)) = .ok placed) :
    ∃ rest, scanned = .ok rest ∧ placed = p :: rest := by
  cases scanned with
  | error error => cases hscan
  | ok rest => exact ⟨rest, rfl, (Except.ok.inj hscan).symm⟩

/-- Text is cut into readable tokens alone. -/
theorem isReadable_of_scan (position : Nat) (cs : List Char) :
    ∀ placed, scan position cs = .ok placed → ∀ p ∈ placed, p.token.IsReadable := by
  induction position, cs using scan.induct with
  | case1 position =>
    intro placed hscan
    rw [scan] at hscan
    rw [← Except.ok.inj hscan]
    exact fun p hp ↦ absurd hp List.not_mem_nil
  | case2 position c rest hblank ih =>
    intro placed hscan
    rw [scan, if_pos hblank] at hscan
    exact ih placed hscan
  | case3 position c rest hblank token hsign ih =>
    intro placed hscan
    rw [scan, if_neg hblank, hsign] at hscan
    obtain ⟨others, hothers, rfl⟩ := exists_of_cons_bind hscan
    exact List.forall_mem_cons.mpr ⟨isReadable_of_ofSign? hsign, ih others hothers⟩
  | case4 position c rest hblank hsign hdigit run hvalue ih =>
    intro placed hscan
    rw [scan, if_neg hblank, hsign] at hscan
    have hfits : decimalValue (c :: rest.takeWhile Char.isDigit) ≤ maxNumber := hvalue
    simp only [if_pos hdigit, if_pos hfits] at hscan
    obtain ⟨others, hothers, rfl⟩ := exists_of_cons_bind hscan
    exact List.forall_mem_cons.mpr ⟨hfits, ih others hothers⟩
  | case5 position c rest hblank hsign hdigit run hvalue =>
    intro placed hscan
    rw [scan, if_neg hblank, hsign] at hscan
    have hexceeds : ¬ decimalValue (c :: rest.takeWhile Char.isDigit) ≤ maxNumber := hvalue
    simp only [if_pos hdigit, if_neg hexceeds] at hscan
    cases hscan
  | case6 position c rest hblank hsign hdigit hstarts run ih =>
    intro placed hscan
    rw [scan, if_neg hblank, hsign] at hscan
    simp only [if_neg hdigit, if_pos hstarts] at hscan
    obtain ⟨others, hothers, rfl⟩ := exists_of_cons_bind hscan
    refine List.forall_mem_cons.mpr ⟨?_, ih others hothers⟩
    show (String.ofList run).toList.head?.any startsName = true ∧
      (String.ofList run).toList.all continuesName = true
    rw [String.toList_ofList, List.all_eq_true]
    exact ⟨hstarts, List.forall_mem_cons.mpr
      ⟨continuesName_of_startsName hstarts, fun d hd ↦ List.mem_takeWhile_imp hd⟩⟩
  | case7 position c rest hblank hsign hdigit hstarts =>
    intro placed hscan
    rw [scan, if_neg hblank, hsign] at hscan
    simp only [if_neg hdigit, if_neg hstarts] at hscan
    cases hscan

theorem isReadable_of_ofText {text : String} {placed : List PlacedToken}
    (htext : ofText text = .ok placed) : ∀ p ∈ placed, p.token.IsReadable :=
  isReadable_of_scan 0 text.toList placed htext

end Reading.Token

/-! ### Written expressions -/

namespace Expr

/-- Tokens in parentheses, where they are needed. -/
def enclosedIf (needed : Bool) (tokens : List Token) : List Token :=
  if needed then .leftParen :: (tokens ++ [.rightParen]) else tokens

mutual

/-- The tokens of the algebraic form of an expression. -/
def tokens : Expr → List Token
  | truth true => [.number 1]
  | truth false => [.number 0]
  | symbol s => s.tokens
  | not _ operand => enclosedIf operand.connective?.isSome operand.tokens ++ [.notAfter]
  | join _ op operands => joinedTokens op operands

/-- The tokens of operands with the sign of a connective between them. -/
def joinedTokens (op : Connective) : List Expr → List Token
  | [] => []
  | [e] => enclosedIf (needsParentheses op e) e.tokens
  | e :: f :: rest =>
    enclosedIf (needsParentheses op e) e.tokens ++ .connective op :: joinedTokens op (f :: rest)

end

theorem areCutInto_enclosedIf (needed : Bool) {tokens : List Token} {text : String}
    (htext : AreCutInto tokens text.toList) :
    AreCutInto (enclosedIf needed tokens) (parenthesizedIf needed text).toList := by
  cases needed with
  | false => exact htext
  | true =>
    rw [parenthesizedIf, if_pos rfl, String.toList_append, String.toList_append]
    exact (htext.sign_last (by rfl)).sign_cons (by rfl)

theorem areCutInto_joinedText (op : Connective) {es : List Expr}
    (hes : ∀ e ∈ es, AreCutInto e.tokens e.text.toList) :
    AreCutInto (joinedTokens op es) (joinedText op es).toList := by
  match es with
  | [] =>
    rw [joinedTokens, joinedText]
    exact Token.areCutInto_nil
  | [e] =>
    rw [joinedTokens, joinedText]
    exact areCutInto_enclosedIf _ (hes e List.mem_cons_self)
  | e :: f :: rest =>
    have hfirst := areCutInto_enclosedIf (needsParentheses op e) (hes e List.mem_cons_self)
    have hrest := areCutInto_joinedText op fun d hd ↦ hes d (List.mem_cons_of_mem e hd)
    rw [joinedTokens, joinedText, String.toList_append, String.toList_append, List.append_assoc]
    cases op with
    | and => exact hfirst.append_sign (by rfl) hrest
    | or => exact hfirst.append_sign (by rfl) hrest

/-- The algebraic form of an expression with readable symbols is cut into its tokens. -/
theorem areCutInto_text (e : Expr) :
    (∀ s ∈ e.symbolLeaves, s.IsReadable) → AreCutInto e.tokens e.text.toList := by
  induction e using Expr.induct with
  | truth value =>
    intro _
    cases value with
    | false => exact Token.areCutInto_number (by decide)
    | true => exact Token.areCutInto_number (by decide)
  | symbol name =>
    intro hsymbols
    rw [tokens, text]
    exact (hsymbols name (by rw [symbolLeaves]; exact List.mem_singleton_self name)).areCutInto
  | not mode operand ih =>
    intro hsymbols
    rw [symbolLeaves] at hsymbols
    rw [tokens, text, String.toList_append]
    exact (areCutInto_enclosedIf _ (ih hsymbols)).sign_last (by rfl)
  | join mode op operands ih =>
    intro hsymbols
    rw [symbolLeaves, symbolLeavesAll_eq_flatMap] at hsymbols
    rw [tokens, text]
    exact areCutInto_joinedText op fun e he ↦
      ih e he fun s hs ↦ hsymbols s (List.mem_flatMap.mpr ⟨e, he, hs⟩)

theorem ofText_text {e : Expr} (hsymbols : ∀ s ∈ e.symbolLeaves, s.IsReadable) :
    ∃ placed, Token.ofText e.text = .ok placed ∧ placed.map Reading.PlacedToken.token = e.tokens :=
  (areCutInto_text e hsymbols).ofText_eq

end Expr

end SwitchingAlgebra
