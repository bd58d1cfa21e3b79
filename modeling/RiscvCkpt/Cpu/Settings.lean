import RiscvCkpt.Base.CText
import RiscvCkpt.Cpu.Created

/-! The settings file, `init_ckpt_settings`. A line is told by searching all of it for the
names of the keys in a fixed order, its last character is cut off whether or not it is a
newline, and the numbers go through variables that all lines share. -/
namespace RiscvCkpt

open CText

/-- The keys of a settings file. `benchname` stands for the prefix of the checkpoint files. -/
inductive Key where
  | mmapend
  | stacktop
  | brkpoint
  | benchname
  | ckptctrl
  | strictLength
  | readckpt
  deriving DecidableEq, Repr

namespace Key

def name : Key → List Char
  | .mmapend => "mmapend".toList
  | .stacktop => "stacktop".toList
  | .brkpoint => "brkpoint".toList
  | .benchname => "ckptprefix".toList
  | .ckptctrl => "ckptctrl".toList
  | .strictLength => "strictLength".toList
  | .readckpt => "readckpt".toList

def rank : Key → Nat
  | .mmapend => 0
  | .stacktop => 1
  | .brkpoint => 2
  | .benchname => 3
  | .ckptctrl => 4
  | .strictLength => 5
  | .readckpt => 6

def all : List Key :=
  [.mmapend, .stacktop, .brkpoint, .benchname, .ckptctrl, .strictLength, .readckpt]

end Key

/-- The key that a line is taken for: the first one whose name occurs in it. -/
def classify (str : List Char) : Option Key :=
  if ':' ∈ str then Key.all.find? fun key => key.name <:+: str else none

/-- The settings that a file is read into: `ckptsettings`, `strictLength` and the
checkpoint that `initCkptSysInfo` opens. -/
structure Settings where
  benchname : List Char := []
  mmapend : Nat := 0
  stack_base : Nat := 0
  brk_point : Nat := 0
  ctrls : List CkptCtrl := []
  strictLength : Bool := false
  readckpt : Option (List Char) := none
  deriving DecidableEq, Repr

def afterColon (str : List Char) : List Char := (str.dropWhile (· ≠ ':')).tail

/-- `sscanf(&str[idx+1], "%llx", &v1)`; a failed conversion leaves `v1` alone. -/
def scanAddr (vars : CtrlLine) (text : List Char) : Option CtrlLine :=
  match scanNum .llx text with
  | .failed => some vars
  | .undefined => none
  | .number value _ => some { vars with v1 := value }

/-- `sscanf(&str[idx+1], "%lld %lld %lld %lld", &v1, &v2, &v3, &v4)`. -/
def scanCtrl (vars : CtrlLine) (text : List Char) : Option CtrlLine :=
  (scanNums .lld [vars.v1, vars.v2, vars.v3, vars.v4] text).map fun vs =>
    ⟨vs.getD 0 0, vs.getD 1 0, vs.getD 2 0, vs.getD 3 0⟩

/-- The settings and the variables `v1` to `v4`. -/
abbrev ParseState := Settings × CtrlLine

/-- The checkpoint files that `fopen` can open to read. The empty name is none of them. -/
structure Files where
  opens : List Char → Bool
  opens_nil : opens [] = false

/-- The branches of the loop's body; `none` stands for undefined behaviour and for the
`exit(1)` of `initCkptSysInfo`, which opens the checkpoint. The loop over the entries of a
`ckptctrl` line counts in an `int`. -/
def parseValue (files : Files) (key : Key) (value : List Char) (s : ParseState) :
    Option ParseState :=
  match key with
  | .mmapend => (scanAddr s.2 value).map fun vars => ({ s.1 with mmapend := vars.v1 }, vars)
  | .stacktop => (scanAddr s.2 value).map fun vars => ({ s.1 with stack_base := vars.v1 }, vars)
  | .brkpoint => (scanAddr s.2 value).map fun vars => ({ s.1 with brk_point := vars.v1 }, vars)
  | .benchname => some ({ s.1 with benchname := value.dropWhile (· = ' ') }, s.2)
  | .ckptctrl => (scanCtrl s.2 value).bind fun vars =>
      if 2 ^ 31 ≤ vars.v4 then none else some ({ s.1 with ctrls := s.1.ctrls ++ vars.ctrls }, vars)
  | .strictLength => some ({ s.1 with strictLength := true }, s.2)
  | .readckpt =>
      let filename := value.dropWhile (· = ' ')
      if files.opens filename then some ({ s.1 with readckpt := some filename }, s.2) else none

/-- The body of the loop, for a line without its last character. -/
def parseLine (files : Files) (str : List Char) (s : ParseState) : Option ParseState :=
  match classify str with
  | none => some s
  | some key => parseValue files key (afterColon str) s

/-- The loop over what `fgets` reads. It ends at an empty string. -/
def parseLines (files : Files) : List (List Char) → ParseState → Option ParseState
  | [], s => some s
  | piece :: rest, s =>
      let str := piece.takeWhile (· ≠ '\x00')
      if str = [] then some s else (parseLine files str.dropLast s).bind (parseLines files rest)

/-- What the uninitialised variables hold: `str` as a string, and `v1` to `v4`. -/
structure Uninit where
  str : List Char
  vars : CtrlLine

/-- The loop of `init_ckpt_settings`. In an empty file `fgets` fails and leaves `str`
as it was; from the second call on `str` is empty. -/
def readSettings (files : Files) (uninit : Uninit) (text : List Char) : Option Settings :=
  let pieces := if text = [] then [uninit.str] else fgetsAll 299 299 text
  (parseLines files pieces ({}, uninit.vars)).map Prod.fst

def BrkPoint_For_Ckpt : Nat := 0x1400000

/-- The rest of `init_ckpt_settings`: the order of the entries and the defaults of
`brk_point`. -/
def Settings.finish (s : Settings) : Settings :=
  let brk_point := if s.ctrls ≠ [] ∧ s.brk_point = 0 then BrkPoint_For_Ckpt else s.brk_point
  { s with
    ctrls := s.ctrls.insertionSort fun a b => a.start ≤ b.start
    brk_point := if s.readckpt.isSome then 0 else brk_point }

def initCkptSettings (files : Files) (uninit : Uninit) (text : List Char) : Option Settings :=
  (readSettings files uninit text).map Settings.finish

section Keys

variable {files : Files} {str : List Char} {key other : Key}

theorem Key.mem_all (key : Key) : key ∈ Key.all := by
  cases key <;> decide

theorem Key.all_sorted : Key.all.Pairwise fun a b => a.rank < b.rank := by
  decide

/-- A line is taken for a key if its name occurs, and no name that is tested earlier. -/
theorem classify_eq_some : classify str = some key ↔
    ':' ∈ str ∧ key.name <:+: str ∧ ∀ other : Key, other.rank < key.rank →
      ¬ other.name <:+: str := by
  by_cases hColon : ':' ∈ str
  · rw [classify, if_pos hColon, List.find?_eq_some_iff_append, decide_eq_true_eq]
    simp only [hColon, true_and]
    apply and_congr_right
    intro _
    constructor
    · rintro ⟨front, back, hAll, hFront⟩ other hRank
      have hSorted := Key.all_sorted
      have hOther := Key.mem_all other
      rw [hAll] at hSorted hOther
      rcases List.mem_append.mp hOther with hIn | hIn
      · simpa using hFront other hIn
      · rcases List.mem_cons.mp hIn with rfl | hLater
        · exact absurd hRank (Nat.lt_irrefl _)
        · have hBack := (List.pairwise_cons.mp (List.pairwise_append.mp hSorted).2.1).1 other hLater
          exact absurd hRank (Nat.lt_asymm hBack)
    · intro hEarlier
      obtain ⟨front, back, hAll⟩ := List.append_of_mem (Key.mem_all key)
      refine ⟨front, back, hAll, fun other hIn => ?_⟩
      have hSorted := Key.all_sorted
      rw [hAll] at hSorted
      have hRank := (List.pairwise_append.mp hSorted).2.2 other hIn key List.mem_cons_self
      simpa using hEarlier other hRank
  · rw [classify, if_neg hColon]
    simp [hColon]

theorem Key.colon_notMem (key : Key) : ':' ∉ key.name := by
  cases key <;> decide

/-- No name contains one that is tested earlier. -/
theorem Key.not_infix (h : other.rank < key.rank) : ¬ other.name <:+: key.name := by
  revert h
  cases key <;> cases other <;> decide

/-- The value of a line stands behind the colon of its key. -/
theorem afterColon_name (key : Key) (value : List Char) :
    afterColon (key.name ++ ':' :: value) = value := by
  rw [afterColon, List.dropWhile_append_of_pos]
  · rfl
  · intro c hc
    have hNe : c ≠ ':' := fun h => key.colon_notMem (h ▸ hc)
    simpa using hNe

/-- What is seen of a line with a key and a colon, if no earlier name occurs in its value. -/
theorem parseLine_value (value : List Char) (s : ParseState)
    (hEarlier : ∀ other : Key, other.rank < key.rank → ¬ other.name <:+: key.name ++ ':' :: value) :
    parseLine files (key.name ++ ':' :: value) s = parseValue files key value s := by
  have hColon : ':' ∈ key.name ++ ':' :: value := List.mem_append_right _ List.mem_cons_self
  have hClass : classify (key.name ++ ':' :: value) = some key :=
    classify_eq_some.mpr ⟨hColon, (List.prefix_append _ _).isInfix, hEarlier⟩
  rw [parseLine, hClass, afterColon_name]

/-- Without a colon a line is ignored. -/
theorem parseLine_ignored (h : ':' ∉ str) (s : ParseState) : parseLine files str s = some s := by
  rw [parseLine, classify, if_neg h]

/-- Names that are tested before `strictLength` contain a letter that no number has. -/
theorem earlier_notMem {value : List Char} (hRank : key.rank ≤ 4) (hValue : 'p' ∉ value)
    (h : other.rank < key.rank) : ¬ other.name <:+: key.name ++ ':' :: value := by
  have hLetter : other.rank < 4 → 'p' ∈ other.name := by
    cases other <;> decide
  rw [infix_split other.colon_notMem]
  rintro (hName | hIn)
  · exact Key.not_infix h hName
  · exact hValue (hIn.subset (hLetter (by omega)))

end Keys

section Numbers

/-- A number at the end of a text is read, unless it is too large or has no digits. -/
theorem scanNum_end (pad : Nat) {digits : List Char} (hDigits : ∀ c ∈ digits, isDigit 10 c = true) :
    scanNum .lld (List.replicate pad ' ' ++ digits) =
      if digits = [] then .failed
      else if 2 ^ 63 ≤ ofDigits 10 digits then .undefined
      else .number (ofDigits 10 digits) [] := by
  by_cases hNone : digits = []
  · rw [if_pos hNone, hNone, List.append_nil]
    exact scanNum_blank .lld pad
  · have hScan := @scanNum_lld pad digits [] hNone hDigits (by simp)
    rw [List.append_nil] at hScan
    rw [if_neg hNone, hScan]

/-- The numbers of a `ckptctrl` line, of which the last may have lost its digits. -/
theorem scanCtrl_eq (vars : CtrlLine) (pad1 pad2 pad3 pad4 : Nat) (v1 v2 v3 : Numeral 10)
    {digits : List Char} (hDigits : ∀ c ∈ digits, isDigit 10 c = true) :
    scanCtrl vars
      (List.replicate pad1 ' ' ++ (v1.chars ++ (List.replicate (pad2 + 1) ' ' ++ (v2.chars ++
      (List.replicate (pad3 + 1) ' ' ++
        (v3.chars ++ (List.replicate (pad4 + 1) ' ' ++ digits))))))) =
      if v1.value < 2 ^ 63 ∧ v2.value < 2 ^ 63 ∧ v3.value < 2 ^ 63 then
        if digits = [] then some ⟨v1.value, v2.value, v3.value, vars.v4⟩
        else if 2 ^ 63 ≤ ofDigits 10 digits then none
        else some ⟨v1.value, v2.value, v3.value, ofDigits 10 digits⟩
      else none := by
  have hSpace : ∀ (pad : Nat) (text : List Char),
      ∀ c ∈ (List.replicate (pad + 1) ' ' ++ text).head?, c = ' ' := by
    intro pad text c hc
    rw [List.replicate_succ, List.cons_append, List.head?_cons, Option.mem_some_iff] at hc
    exact hc.symm
  have hNumber : ∀ (pad next old : Nat) (more : List Nat) (n : Numeral 10) (text : List Char),
      scanNums .lld (old :: more)
        (List.replicate pad ' ' ++ (n.chars ++ (List.replicate (next + 1) ' ' ++ text))) =
      if n.value < 2 ^ 63 then
        (scanNums .lld more (List.replicate (next + 1) ' ' ++ text)).map (n.value :: ·)
      else none := by
    intro pad next old more n text
    have hScan := scanNum_lld pad n.some_digit n.digits (hSpace next text)
    rw [← Numeral.value] at hScan
    rw [scanNums, hScan]
    by_cases hFits : n.value < 2 ^ 63
    · rw [if_pos hFits, if_neg (Nat.not_le.mpr hFits)]
    · rw [if_neg hFits, if_pos (Nat.not_lt.mp hFits)]
  rw [scanCtrl, hNumber]
  by_cases h1 : v1.value < 2 ^ 63
  · rw [if_pos h1, hNumber]
    by_cases h2 : v2.value < 2 ^ 63
    · rw [if_pos h2, hNumber]
      by_cases h3 : v3.value < 2 ^ 63
      · rw [if_pos h3, if_pos ⟨h1, h2, h3⟩, scanNums, scanNum_end (pad4 + 1) hDigits]
        by_cases hNone : digits = []
        · rw [if_pos hNone, if_pos hNone]
          rfl
        · rw [if_neg hNone, if_neg hNone]
          by_cases h4 : 2 ^ 63 ≤ ofDigits 10 digits
          · rw [if_pos h4, if_pos h4]
            rfl
          · rw [if_neg h4, if_neg h4]
            rfl
      · rw [if_neg h3, if_neg fun h => h3 h.2.2]
        rfl
    · rw [if_neg h2, if_neg fun h => h2 h.2.1]
      rfl
  · rw [if_neg h1, if_neg fun h => h1 h.1]
    rfl

/-- The hexadecimal number of a line is read, with or without a mark. -/
theorem scanAddr_eq (vars : CtrlLine) (pad : Nat) {mark digits : List Char} (hMark : mark ∈ Marks)
    (hDigits : ∀ c ∈ digits, isDigit 16 c = true) :
    scanAddr vars (List.replicate pad ' ' ++ (mark ++ digits)) =
      if digits = [] then some vars
      else if 2 ^ 64 ≤ ofDigits 16 digits then none
      else some { vars with v1 := ofDigits 16 digits } := by
  rw [scanAddr, scanNum_llx pad hMark hDigits]
  by_cases hNone : digits = []
  · rw [if_pos hNone, if_pos hNone]
  · rw [if_neg hNone, if_neg hNone]
    by_cases hFits : 2 ^ 64 ≤ ofDigits 16 digits
    · rw [if_pos hFits, if_pos hFits]
    · rw [if_neg hFits, if_neg hFits]

end Numbers

end RiscvCkpt
