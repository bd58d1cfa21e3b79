import Mathlib.Data.List.Basic
import Mathlib.Data.List.Infix
import Mathlib.Tactic.Ring

/-! Text as the C library reads it: lines through `fgets`, and numbers through the
conversions of `sscanf`. -/
namespace CText

section Lines

/-- The pieces that calls of `fgets` read, each up to a newline or `room` characters.
`left` is what the current call may still read. -/
def fgetsAll (room : Nat) : Nat → List Char → List (List Char)
  | _, [] => []
  | left, c :: rest =>
      if c = '\n' ∨ left ≤ 1 then [c] :: fgetsAll room room rest
      else
        match fgetsAll room (left - 1) rest with
        | [] => [[c]]
        | piece :: more => (c :: piece) :: more

variable {room left : Nat} {line : List Char}

/-- A line that fits is read with its newline. -/
theorem fgetsAll_line (rest : List Char) (hLine : '\n' ∉ line) (hLeft : line.length < left) :
    fgetsAll room left (line ++ '\n' :: rest) = (line ++ ['\n']) :: fgetsAll room room rest := by
  induction line generalizing left with
  | nil => rw [List.nil_append, List.nil_append, fgetsAll, if_pos (Or.inl rfl)]
  | cons c line ih =>
      rw [List.length_cons] at hLeft
      obtain ⟨hHead, hTail⟩ := not_or.mp (mt List.mem_cons.mpr hLine)
      have hGo : ¬ (c = '\n' ∨ left ≤ 1) := by
        rintro (hNewline | hFull)
        · exact hHead hNewline.symm
        · omega
      rw [List.cons_append, fgetsAll, if_neg hGo, ih hTail (by omega)]
      rfl

/-- A last line without a newline is read up to the end of the file. -/
theorem fgetsAll_last (hLine : '\n' ∉ line) (hLeft : line.length ≤ left) (hSome : line ≠ []) :
    fgetsAll room left line = [line] := by
  induction line generalizing left with
  | nil => exact absurd rfl hSome
  | cons c line ih =>
      rw [List.length_cons] at hLeft
      obtain ⟨hHead, hTail⟩ := not_or.mp (mt List.mem_cons.mpr hLine)
      cases line with
      | nil =>
          rw [fgetsAll, fgetsAll, fgetsAll]
          split <;> rfl
      | cons d line =>
          have hGo : ¬ (c = '\n' ∨ left ≤ 1) := by
            rintro (hNewline | hFull)
            · exact hHead hNewline.symm
            · rw [List.length_cons] at hLeft
              omega
          rw [fgetsAll, if_neg hGo, ih hTail (by omega) (List.cons_ne_nil _ _)]

/-- The lines of a file, and what comes behind them. -/
theorem fgetsAll_lines {lines : List (List Char)} (hLines : ∀ line ∈ lines, '\n' ∉ line ∧
    line.length < room) (rest : List Char) :
    fgetsAll room room (lines.flatMap (fun line => line ++ ['\n']) ++ rest) =
      lines.map (fun line => line ++ ['\n']) ++ fgetsAll room room rest := by
  induction lines with
  | nil => rfl
  | cons line lines ih =>
      obtain ⟨hClean, hShort⟩ := hLines line List.mem_cons_self
      rw [List.flatMap_cons, List.append_assoc, List.append_assoc, List.singleton_append,
        fgetsAll_line _ hClean hShort, ih fun other hOther =>
        hLines other (List.mem_cons_of_mem _ hOther)]
      rfl

end Lines

section Words

variable {α : Type*} {sep : α} {word : List α}

/-- A word without the separator does not reach beyond it. -/
theorem prefix_split (hWord : sep ∉ word) {front back : List α}
    (h : word <+: front ++ sep :: back) :
    word <+: front := by
  induction front generalizing word with
  | nil =>
      rcases List.prefix_cons_iff.mp h with rfl | ⟨rest, rfl, -⟩
      · exact List.nil_prefix
      · exact absurd List.mem_cons_self hWord
  | cons a front ih =>
      rcases List.prefix_cons_iff.mp h with rfl | ⟨rest, rfl, hRest⟩
      · exact List.nil_prefix
      · exact List.cons_prefix_cons.mpr ⟨rfl, ih (mt (List.mem_cons_of_mem a) hWord) hRest⟩

/-- A word without the separator lies in front of the separator or behind it. -/
theorem infix_split (hWord : sep ∉ word) (front back : List α) :
    word <:+: front ++ sep :: back ↔ word <:+: front ∨ word <:+: back := by
  constructor
  · intro h
    induction front with
    | nil =>
        rcases List.infix_cons_iff.mp h with hHere | hLater
        · have hNil := @prefix_split _ _ _ hWord [] _ hHere
          exact Or.inl hNil.isInfix
        · exact Or.inr hLater
    | cons a front ih =>
        rcases List.infix_cons_iff.mp h with hHere | hLater
        · exact Or.inl (prefix_split hWord (List.cons_append ▸ hHere)).isInfix
        · exact (ih hLater).imp_left List.infix_cons
  · rintro (hFront | hBack)
    · exact hFront.trans (List.prefix_append _ _).isInfix
    · exact hBack.trans ((List.suffix_cons _ _).trans (List.suffix_append _ _)).isInfix

end Words

section Numbers

/-- The integer conversions of `sscanf` for 64 bits. -/
inductive Conversion where
  | llx
  | lld
  deriving DecidableEq, Repr

def Conversion.base : Conversion → Nat
  | .llx => 16
  | .lld => 10

/-- The first number that a conversion cannot represent. -/
def Conversion.limit (negative : Bool) : Conversion → Nat
  | .llx => 2 ^ 64
  | .lld => if negative then 2 ^ 63 + 1 else 2 ^ 63

def isSpace (c : Char) : Bool :=
  c = ' ' || c = '\t' || c = '\n' || c = '\x0b' || c = '\x0c' || c = '\r'

/-- The value of a digit; 16 for every other character. -/
def digit (c : Char) : Nat :=
  if '0' ≤ c ∧ c ≤ '9' then c.toNat - 48
  else if 'a' ≤ c ∧ c ≤ 'f' then c.toNat - 87
  else if 'A' ≤ c ∧ c ≤ 'F' then c.toNat - 55
  else 16

def isDigit (base : Nat) (c : Char) : Bool := digit c < base

def ofDigits (base : Nat) (cs : List Char) : Nat :=
  cs.foldl (fun value c => value * base + digit c) 0

/-- A hexadecimal number may begin with a mark. -/
def skipMark : List Char → List Char
  | '0' :: 'x' :: rest => rest
  | '0' :: 'X' :: rest => rest
  | text => text

/-- What a conversion makes of its input. A number that it cannot represent is
undefined behaviour. -/
inductive Scan where
  | failed
  | undefined
  | number (value : Nat) (rest : List Char)
  deriving DecidableEq, Repr

/-- One conversion of `sscanf`: white space, a sign, and at least one digit. A mark with
no digit behind it does not match. -/
def scanNum (conv : Conversion) (text : List Char) : Scan :=
  let text := text.dropWhile isSpace
  let negative := text.head? = some '-'
  let text := if negative ∨ text.head? = some '+' then text.tail else text
  let text := if conv = .llx then skipMark text else text
  let digits := text.takeWhile (isDigit conv.base)
  let value := ofDigits conv.base digits
  if digits = [] then .failed
  else if conv.limit negative ≤ value then .undefined
  else .number (if negative then (2 ^ 64 - value) % 2 ^ 64 else value) (text.drop digits.length)

/-- A sequence of conversions, which ends at the first one that fails. It overwrites
the values of the variables; `none` stands for undefined behaviour. -/
def scanNums (conv : Conversion) : List Nat → List Char → Option (List Nat)
  | [], _ => some []
  | old :: more, text =>
      match scanNum conv text with
      | .failed => some (old :: more)
      | .undefined => none
      | .number value rest => (scanNums conv more rest).map (value :: ·)

/-- A number as it is written: one digit or more. -/
structure Numeral (base : Nat) where
  chars : List Char
  some_digit : chars ≠ []
  all_digits : chars.all (isDigit base) = true

def Numeral.value {base : Nat} (n : Numeral base) : Nat := ofDigits base n.chars

theorem Numeral.digits {base : Nat} (n : Numeral base) : ∀ c ∈ n.chars, isDigit base c = true :=
  List.all_eq_true.mp n.all_digits

/-- What may stand in front of a hexadecimal number. -/
def Marks : List (List Char) := [[], ['0', 'x'], ['0', 'X']]

theorem ofDigits_concat (base : Nat) (cs : List Char) (c : Char) :
    ofDigits base (cs ++ [c]) = ofDigits base cs * base + digit c := by
  rw [ofDigits, List.foldl_append]
  rfl

/-- Without its last digit a number is divided by the base. -/
theorem ofDigits_dropLast {base : Nat} {cs : List Char}
    (hDigits : ∀ c ∈ cs, isDigit base c = true) :
    ofDigits base cs.dropLast = ofDigits base cs / base := by
  rcases List.eq_nil_or_concat' cs with rfl | ⟨front, last, rfl⟩
  · rw [List.dropLast_nil, ofDigits, List.foldl_nil, Nat.zero_div]
  · have hLast : digit last < base := by
      have hDigit := hDigits last (List.mem_append_right _ List.mem_cons_self)
      rwa [isDigit, decide_eq_true_eq] at hDigit
    rw [List.dropLast_concat, ofDigits_concat, Nat.mul_comm,
      Nat.mul_add_div (Nat.zero_lt_of_lt hLast), Nat.div_eq_of_lt hLast, Nat.add_zero]

theorem ne_of_digit {base : Nat} (hBase : base ≤ 16) {c d : Char} (hDigit : isDigit base c = true)
    (hOther : digit d = 16) : c ≠ d := by
  rintro rfl
  rw [isDigit, decide_eq_true_eq, hOther] at hDigit
  omega

/-- No digit is white space, a sign or part of a mark. -/
theorem not_digit {base : Nat} (hBase : base ≤ 16) {c : Char} (hDigit : isDigit base c = true) :
    c ∉ [' ', '\t', '\n', '\x0b', '\x0c', '\r', '-', '+', 'x', 'X'] := by
  have hOther : [' ', '\t', '\n', '\x0b', '\x0c', '\r', '-', '+', 'x', 'X'].all
      (fun d => digit d = 16) = true := by
    decide
  intro hMem
  exact ne_of_digit hBase hDigit (of_decide_eq_true (List.all_eq_true.mp hOther c hMem)) rfl

/-- Skipping the spaces in front of a text that does not start with what is skipped. -/
theorem dropWhile_pad {skip : Char → Bool} (hSkip : skip ' ' = true) {text : List Char} (pad : Nat)
    (h : ∀ c ∈ text.head?, skip c = false) :
    (List.replicate pad ' ' ++ text).dropWhile skip = text := by
  induction pad with
  | zero =>
      cases text with
      | nil => rfl
      | cons c rest => exact List.dropWhile_cons_of_neg (by rw [h c rfl]; decide)
  | succ pad ih => rwa [List.replicate_succ, List.cons_append, List.dropWhile_cons_of_pos hSkip]

/-- The digits in front of any other character are taken, and no more. -/
theorem takeWhile_digits {base : Nat} {digits tail : List Char}
    (hDigits : ∀ c ∈ digits, isDigit base c = true)
    (hTail : ∀ c ∈ tail.head?, isDigit base c = false) :
    (digits ++ tail).takeWhile (isDigit base) = digits := by
  rw [List.takeWhile_append_of_pos hDigits]
  cases tail with
  | nil => rw [List.takeWhile_nil, List.append_nil]
  | cons c rest => rw [List.takeWhile_cons_of_neg (by rw [hTail c rfl]; decide), List.append_nil]

/-- A conversion behind its white space, where no sign follows. -/
theorem scanNum_pad (conv : Conversion) (pad : Nat) {text : List Char}
    (hHead : ∀ c ∈ text.head?, c ∉ [' ', '\t', '\n', '\x0b', '\x0c', '\r', '-', '+', 'x', 'X']) :
    scanNum conv (List.replicate pad ' ' ++ text) =
      let number := if conv = .llx then skipMark text else text
      let digits := number.takeWhile (isDigit conv.base)
      if digits = [] then .failed
      else if conv.limit false ≤ ofDigits conv.base digits then .undefined
      else .number (ofDigits conv.base digits) (number.drop digits.length) := by
  have hSpace : ∀ c ∈ text.head?, isSpace c = false := by
    intro c hc
    have hOther := hHead c hc
    simp only [List.mem_cons, List.not_mem_nil, not_or] at hOther
    simp [isSpace, hOther]
  have hSign : ∀ sign ∈ ['-', '+'], text.head? ≠ some sign := by
    intro sign hMem hSome
    have hOther := hHead sign hSome
    simp only [List.mem_cons, List.not_mem_nil, or_false] at hMem
    rcases hMem with rfl | rfl
    · exact hOther (by decide)
    · exact hOther (by decide)
  simp only [scanNum, dropWhile_pad rfl pad hSpace, hSign '-' (by decide),
    hSign '+' (by decide), or_self, decide_false, if_false]

/-- Blanks alone are not a number. -/
theorem scanNum_blank (conv : Conversion) (pad : Nat) :
    scanNum conv (List.replicate pad ' ') = .failed := by
  have hScan := @scanNum_pad conv pad [] (by simp)
  rw [List.append_nil] at hScan
  rw [hScan]
  cases conv <;> rfl

/-- A decimal number, up to the end or to the next space. -/
theorem scanNum_lld (pad : Nat) {digits tail : List Char} (hSome : digits ≠ [])
    (hDigits : ∀ c ∈ digits, isDigit 10 c = true) (hTail : ∀ c ∈ tail.head?, c = ' ') :
    scanNum .lld (List.replicate pad ' ' ++ (digits ++ tail)) =
      if 2 ^ 63 ≤ ofDigits 10 digits then .undefined else .number (ofDigits 10 digits) tail := by
  obtain ⟨first, rest, rfl⟩ := List.exists_cons_of_ne_nil hSome
  have hTake : (first :: rest ++ tail).takeWhile (isDigit Conversion.lld.base) = first :: rest := by
    refine takeWhile_digits hDigits fun c hc => ?_
    rw [hTail c hc]
    decide
  rw [scanNum_pad .lld pad]
  · simp only [reduceCtorEq, if_false, hTake, Conversion.limit, Bool.false_eq_true, List.drop_left]
    rfl
  · rintro c ⟨⟩
    exact not_digit (by decide : 10 ≤ 16) (hDigits first List.mem_cons_self)

/-- The mark of a hexadecimal number is skipped. -/
theorem skipMark_mark {mark digits : List Char} (hMark : mark ∈ Marks)
    (hDigits : ∀ c ∈ digits, isDigit 16 c = true) : skipMark (mark ++ digits) = digits := by
  simp only [Marks, List.mem_cons, List.not_mem_nil, or_false] at hMark
  rcases hMark with rfl | rfl | rfl
  · -- a digit is no `x`
    rw [List.nil_append, skipMark.eq_def]
    split
    · exact absurd (hDigits 'x' (by simp)) (by decide)
    · exact absurd (hDigits 'X' (by simp)) (by decide)
    · rfl
  · rfl
  · rfl

/-- A hexadecimal number at the end of the text, which may lack its digits. -/
theorem scanNum_llx (pad : Nat) {mark digits : List Char} (hMark : mark ∈ Marks)
    (hDigits : ∀ c ∈ digits, isDigit 16 c = true) :
    scanNum .llx (List.replicate pad ' ' ++ (mark ++ digits)) =
      if digits = [] then .failed
      else if 2 ^ 64 ≤ ofDigits 16 digits then .undefined
      else .number (ofDigits 16 digits) [] := by
  have hAll : digits.takeWhile (isDigit Conversion.llx.base) = digits := by
    have hTake := @takeWhile_digits 16 digits [] hDigits (by simp)
    rwa [List.append_nil] at hTake
  rw [scanNum_pad .llx pad]
  · simp only [if_true, skipMark_mark hMark hDigits, hAll, List.drop_length]
    rfl
  · simp only [Marks, List.mem_cons, List.not_mem_nil, or_false] at hMark
    rcases hMark with rfl | rfl | rfl
    · rw [List.nil_append]
      intro c hc
      exact not_digit (Nat.le_refl 16) (hDigits c (List.mem_of_mem_head? hc))
    · rintro c ⟨⟩
      decide
    · rintro c ⟨⟩
      decide

end Numbers

end CText
