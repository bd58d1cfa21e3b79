import Mathlib.Data.List.TakeWhile
import RiscvCkpt.Cpu.Settings

/-! Which settings files are read as they are written. A file is made of well-formed lines
in any order. A path that holds the name of a key changes what its line is taken for, and a
file that does not end in a newline loses the last character of its last line. -/
namespace RiscvCkpt

open CText

inductive AddrKey where
  | mmapend
  | stacktop
  | brkpoint
  deriving DecidableEq, Repr

inductive PathKey where
  | benchname
  | strictLength
  | readckpt
  deriving DecidableEq, Repr

def AddrKey.key : AddrKey → Key
  | .mmapend => .mmapend
  | .stacktop => .stacktop
  | .brkpoint => .brkpoint

def AddrKey.assign (key : AddrKey) (addr : Nat) (s : Settings) : Settings :=
  match key with
  | .mmapend => { s with mmapend := addr }
  | .stacktop => { s with stack_base := addr }
  | .brkpoint => { s with brk_point := addr }

/-- The field of the key has its initial value. -/
def PathKey.Unset (key : PathKey) (s : Settings) : Prop :=
  match key with
  | .benchname => s.benchname = []
  | .strictLength => s.strictLength = false
  | .readckpt => s.readckpt = none

def PathKey.assign (key : PathKey) (text : List Char) (s : Settings) : Settings :=
  match key with
  | .benchname => { s with benchname := text }
  | .strictLength => { s with strictLength := true }
  | .readckpt => { s with readckpt := some text }

/-- The name of a checkpoint must be one of a file that can be opened. -/
def PathKey.Reads (files : Files) (key : PathKey) (text : List Char) : Prop :=
  key = .readckpt → files.opens text = true

instance (files : Files) (key : PathKey) (text : List Char) : Decidable (key.Reads files text) :=
  inferInstanceAs (Decidable (_ → _))

theorem PathKey.reads_of_ne {files : Files} {key : PathKey} (h : key ≠ .readckpt)
    (text : List Char) :
    key.Reads files text := fun hKey => absurd hKey h

theorem PathKey.reads_readckpt {files : Files} {text : List Char} :
    PathKey.readckpt.Reads files text ↔ files.opens text = true := ⟨fun h => h rfl, fun h _ => h⟩

def PathKey.key : PathKey → Key
  | .benchname => .benchname
  | .strictLength => .strictLength
  | .readckpt => .readckpt

/-- Text of a line that does not start with a space. -/
structure PathText where
  chars : List Char
  no_newline : '\n' ∉ chars
  no_nul : '\x00' ∉ chars
  no_space : chars.head? ≠ some ' '

/-- A well-formed line, with the number of spaces in front of its values. -/
inductive Line where
  | blank (pad : Nat)
  | addr (key : AddrKey) (pad : Nat) (mark : {mark : List Char // mark ∈ Marks})
    (value : Numeral 16)
  | ctrl (pad1 pad2 pad3 pad4 : Nat) (v1 v2 v3 v4 : Numeral 10)
  | path (key : PathKey) (pad : Nat) (value : PathText)

namespace Line

def key : Line → Option Key
  | .blank _ => none
  | .addr key _ _ _ => some key.key
  | .ctrl _ _ _ _ _ _ _ _ => some .ckptctrl
  | .path key _ _ => some key.key

def value : Line → List Char
  | .blank _ => []
  | .addr _ pad mark value => List.replicate pad ' ' ++ (mark.1 ++ value.chars)
  | .ctrl pad1 pad2 pad3 pad4 v1 v2 v3 v4 =>
      List.replicate pad1 ' ' ++ (v1.chars ++ (List.replicate (pad2 + 1) ' ' ++ (v2.chars ++
        (List.replicate (pad3 + 1) ' ' ++
          (v3.chars ++ (List.replicate (pad4 + 1) ' ' ++ v4.chars))))))
  | .path _ pad value => List.replicate pad ' ' ++ value.chars

def text (line : Line) : List Char :=
  match line with
  | .blank pad => List.replicate pad ' '
  | line => ((line.key.map Key.name).getD []) ++ ':' :: line.value

/-- What the line says: its key gets its value. -/
def set (line : Line) (s : Settings) : Settings :=
  match line with
  | .blank _ => s
  | .addr key _ _ value => key.assign value.value s
  | .ctrl _ _ _ _ v1 v2 v3 v4 =>
      { s with ctrls := s.ctrls ++ CtrlLine.ctrls ⟨v1.value, v2.value, v3.value, v4.value⟩ }
  | .path key _ value => key.assign value.chars s

def numbers : Line → Option CtrlLine
  | .ctrl _ _ _ _ v1 v2 v3 v4 => some ⟨v1.value, v2.value, v3.value, v4.value⟩
  | _ => none

def onceKey (line : Line) : Option Key := line.key.filter (· ≠ .ckptctrl)

end Line

/-- A well-formed settings file. `last` is a line without a newline at the end. -/
structure SettingsFile where
  lines : List Line
  last : Option Line
  short : ∀ line ∈ lines ++ last.toList, line.text.length < 299
  once : ((lines ++ last.toList).filterMap Line.onceKey).Nodup

namespace SettingsFile

def text (file : SettingsFile) : List Char :=
  file.lines.flatMap (fun line => line.text ++ ['\n']) ++ file.last.toList.flatMap Line.text

def written (file : SettingsFile) : Settings :=
  (file.lines ++ file.last.toList).foldl (fun s line => line.set s) {}

/-- The file is read as it is written, whatever the uninitialised variables hold. -/
def ParsedByKey (files : Files) (file : SettingsFile) : Prop :=
  ∀ uninit, readSettings files uninit file.text = some file.written

/-- The lines with what `init_ckpt_settings` sees of them: the last line loses a
character if no newline ends it. -/
def seen (file : SettingsFile) : List (Line × List Char) :=
  file.lines.map (fun line => (line, line.text)) ++
    file.last.toList.map (fun line => (line, line.text.dropLast))

end SettingsFile

namespace Line

/-- No name of a key that is tested earlier occurs in what is seen of the line. -/
def Owns (line : Line) (str : List Char) : Prop :=
  ∀ key ∈ line.key, ∀ other : Key, other.rank < key.rank → ¬ other.name <:+: str

/-- The numbers of the line can be represented and counted to, and its file opened. -/
def Fits (files : Files) : Line → Prop
  | .addr _ _ _ value => value.value < 2 ^ 64
  | .ctrl _ _ _ _ v1 v2 v3 v4 =>
      v1.value < 2 ^ 63 ∧ v2.value < 2 ^ 63 ∧ v3.value < 2 ^ 63 ∧ v4.value < 2 ^ 31
  | .path key _ value => key.Reads files value.chars
  | .blank _ => True

instance (files : Files) : DecidablePred (Line.Fits files)
  | .blank _ => inferInstanceAs (Decidable True)
  | .addr _ _ _ _ => inferInstanceAs (Decidable (_ < _))
  | .ctrl _ _ _ _ _ _ _ _ => inferInstanceAs (Decidable (_ ∧ _ ∧ _ ∧ _))
  | .path _ _ _ => inferInstanceAs (Decidable (_ → _))

/-- What the line leaves in `v1` to `v4`. -/
def vars (line : Line) (old : CtrlLine) : CtrlLine :=
  match line with
  | .addr _ _ _ value => { old with v1 := value.value }
  | .ctrl _ _ _ _ v1 v2 v3 v4 => ⟨v1.value, v2.value, v3.value, v4.value⟩
  | _ => old

def first : Line → Option Nat
  | .addr _ _ _ value => some value.value
  | .ctrl _ _ _ _ v1 _ _ _ => some v1.value
  | _ => none

def fourth : Line → Option Nat
  | .ctrl _ _ _ _ _ _ _ v4 => some v4.value
  | _ => none

/-- A number that loses its last digit is read right if it is zero, or if it has no other
digit and the variable still holds it from the last line that set it. -/
def KeepsNumber {base : Nat} (n : Numeral base) (old : Option Nat) : Prop :=
  if n.chars.length = 1 then old = some n.value else n.value = 0

/-- The line says the same without its last character. `v1` and `v4` are what the lines in
front of it have left in these variables. The name of a checkpoint never survives. -/
def SurvivesCut (v1 v4 : Option Nat) : Line → Prop
  | .blank _ => True
  | .addr _ _ _ value => KeepsNumber value v1
  | .ctrl _ _ _ _ start interval warmup times =>
      start.value < 2 ^ 63 ∧ interval.value < 2 ^ 63 ∧ warmup.value < 2 ^ 63 ∧ KeepsNumber times v4
  | .path .benchname _ value => value.chars = []
  | .path .strictLength pad value => pad ≠ 0 ∨ value.chars ≠ []
  | .path .readckpt _ _ => False

end Line

/-- The files that are read as they are written. -/
structure SettingsFile.Unambiguous (files : Files) (file : SettingsFile) : Prop where
  some_text : file.text ≠ []
  owns : ∀ p ∈ file.seen, p.1.Owns p.2
  fits : ∀ line ∈ file.lines, line.Fits files
  last : ∀ line ∈ file.last, line.SurvivesCut (file.lines.reverse.findSome? Line.first)
    (file.lines.reverse.findSome? Line.fourth)

section Lines

/-- A character that occurs in no number is not in the value of a line with an address. -/
theorem addr_notMem {d : Char} (hDigit : digit d = 16) (hOther : d ∉ [' ', 'x', 'X']) (pad : Nat)
    {mark digits : List Char} (hMark : mark ∈ Marks) (hDigits : ∀ c ∈ digits, isDigit 16 c = true) :
    d ∉ List.replicate pad ' ' ++ (mark ++ digits) := by
  rw [List.mem_append, List.mem_append]
  rintro (hPad | hIn | hIn)
  · rw [List.eq_of_mem_replicate hPad] at hOther
    exact hOther List.mem_cons_self
  · have hZero : d ≠ '0' := by
      rintro rfl
      exact absurd hDigit (by decide)
    simp only [Marks, List.mem_cons, List.not_mem_nil, or_false] at hMark hOther
    rcases hMark with rfl | rfl | rfl
    · exact List.not_mem_nil hIn
    · simp only [List.mem_cons, List.not_mem_nil, or_false] at hIn
      tauto
    · simp only [List.mem_cons, List.not_mem_nil, or_false] at hIn
      tauto
  · exact ne_of_digit (Nat.le_refl 16) (hDigits d hIn) hDigit rfl

/-- No character but blanks and digits stands in a `ckptctrl` line. -/
theorem ctrl_notMem {d : Char} (hDigit : digit d = 16) (hOther : d ≠ ' ')
    (pad1 pad2 pad3 pad4 : Nat)
    (v1 v2 v3 : Numeral 10) {digits : List Char} (hDigits : ∀ c ∈ digits, isDigit 10 c = true) :
    d ∉ List.replicate pad1 ' ' ++ (v1.chars ++ (List.replicate (pad2 + 1) ' ' ++ (v2.chars ++
      (List.replicate (pad3 + 1) ' ' ++
        (v3.chars ++ (List.replicate (pad4 + 1) ' ' ++ digits)))))) := by
  have hPad : ∀ n, d ∉ List.replicate n ' ' := fun n hIn => hOther (List.eq_of_mem_replicate hIn)
  have hNumber : ∀ cs : List Char, (∀ c ∈ cs, isDigit 10 c = true) → d ∉ cs := fun cs hAll hIn =>
    ne_of_digit (by decide : 10 ≤ 16) (hAll d hIn) hDigit rfl
  simp only [List.mem_append, hPad, hNumber _ v1.digits, hNumber _ v2.digits, hNumber _ v3.digits,
    hNumber _ hDigits, or_self, not_false_eq_true]

/-- A line is its key, a colon and its value. -/
theorem Line.text_eq {line : Line} {key : Key} (h : line.key = some key) :
    line.text = key.name ++ ':' :: line.value := by
  cases line with
  | blank pad => exact absurd h (Option.some_ne_none key).symm
  | addr k pad mark value =>
      obtain rfl := Option.some.inj h
      rfl
  | ctrl pad1 pad2 pad3 pad4 v1 v2 v3 v4 =>
      obtain rfl := Option.some.inj h
      rfl
  | path k pad value =>
      obtain rfl := Option.some.inj h
      rfl

/-- No line contains a newline or a NUL. -/
theorem Line.text_clean (line : Line) {d : Char} (hd : d = '\n' ∨ d = '\x00') : d ∉ line.text := by
  have hDigit : digit d = 16 := by
    rcases hd with rfl | rfl
    · decide
    · decide
  have hSpace : d ∉ [' ', 'x', 'X'] := by
    rcases hd with rfl | rfl
    · decide
    · decide
  have hPad : d ≠ ' ' := fun h => hSpace (h ▸ List.mem_cons_self)
  have hName : ∀ key : Key, d ∉ key.name ++ [':'] := by
    rcases hd with rfl | rfl
    · intro key
      cases key <;> decide
    · intro key
      cases key <;> decide
  have hValue : ∀ key : Key, line.key = some key → d ∉ line.value → d ∉ line.text := by
    intro key hKey hNot
    rw [Line.text_eq hKey, List.append_cons, List.mem_append]
    rintro (hIn | hIn)
    · exact hName key hIn
    · exact hNot hIn
  cases line with
  | blank pad => exact fun hIn => hPad (List.eq_of_mem_replicate hIn)
  | addr k pad mark value => exact hValue _ rfl (addr_notMem hDigit hSpace pad mark.2 value.digits)
  | ctrl pad1 pad2 pad3 pad4 v1 v2 v3 v4 =>
      exact hValue _ rfl (ctrl_notMem hDigit hPad pad1 pad2 pad3 pad4 v1 v2 v3 v4.digits)
  | path k pad value =>
      refine hValue _ rfl fun hIn => ?_
      rcases List.mem_append.mp hIn with hIn | hIn
      · exact hPad (List.eq_of_mem_replicate hIn)
      · rcases hd with rfl | rfl
        · exact value.no_newline hIn
        · exact value.no_nul hIn

/-- What is left of a line behind a cut keeps its key, and its colon unless that was the
last character. -/
theorem Line.text_dropLast {line : Line} {key : Key} (h : line.key = some key) :
    line.text.dropLast = if line.value = [] then key.name else key.name ++
      ':' :: line.value.dropLast := by
  rw [Line.text_eq h]
  split
  · next hNone => rw [hNone, List.dropLast_concat]
  · next hSome =>
      rw [List.dropLast_append_of_ne_nil (List.cons_ne_nil _ _), List.dropLast_cons_of_ne_nil hSome]

end Lines

section Reading

variable {files : Files}

/-- The loop over lines, each without its last character. -/
def parseSeen (files : Files) (strs : List (List Char)) (s : ParseState) : Option ParseState :=
  strs.foldlM (fun s str => parseLine files str s) s

theorem parseSeen_cons (str : List Char) (rest : List (List Char)) (s : ParseState) :
    parseSeen files (str :: rest) s = (parseLine files str s).bind (parseSeen files rest) :=
  List.foldlM_cons

theorem parseSeen_singleton (str : List Char) (s : ParseState) :
    parseSeen files [str] s = parseLine files str s := by
  rw [parseSeen_cons]
  exact Option.bind_fun_some _

theorem parseSeen_append (strs more : List (List Char)) (s : ParseState) :
    parseSeen files (strs ++ more) s = (parseSeen files strs s).bind (parseSeen files more) :=
  List.foldlM_append

/-- A piece that `fgets` reads, without NUL. -/
theorem parseLines_cons {piece : List Char} (hNul : '\x00' ∉ piece) (hSome : piece ≠ [])
    (rest : List (List Char)) (s : ParseState) :
    parseLines files (piece :: rest) s =
      (parseLine files piece.dropLast s).bind (parseLines files rest) := by
  have hWhole : piece.takeWhile (· ≠ '\x00') = piece := by
    apply List.takeWhile_eq_self_iff.mpr
    intro c hc
    have hNe : c ≠ '\x00' := fun h => hNul (h ▸ hc)
    simpa using hNe
  rw [parseLines, hWhole, if_neg hSome]

/-- Lines that end with a newline lose it and nothing else. -/
theorem parseLines_lines {texts : List (List Char)} (hNul : ∀ text ∈ texts, '\x00' ∉ text)
    (more : List (List Char)) (s : ParseState) :
    parseLines files (texts.map (fun text => text ++ ['\n']) ++ more) s =
      (parseSeen files texts s).bind (parseLines files more) := by
  induction texts generalizing s with
  | nil => rfl
  | cons text rest ih =>
      have hClean : '\x00' ∉ text ++ ['\n'] := by
        rw [List.mem_append]
        rintro (hIn | hIn)
        · exact hNul text List.mem_cons_self hIn
        · exact absurd (List.mem_singleton.mp hIn) (by decide)
      rw [List.map_cons, List.cons_append,
        parseLines_cons hClean (List.append_ne_nil_of_right_ne_nil _ (List.cons_ne_nil _ _)),
        List.dropLast_concat, parseSeen_cons, Option.bind_assoc]
      congr 1
      funext next
      exact ih (fun other hOther => hNul other (List.mem_cons_of_mem _ hOther)) next

/-- What is seen of the lines: all of them, the last one without its last character. -/
theorem SettingsFile.seen_texts (file : SettingsFile) :
    file.seen.map Prod.snd =
      file.lines.map Line.text ++ file.last.toList.map fun line => line.text.dropLast := by
  simp only [SettingsFile.seen, List.map_append, List.map_map]
  rfl

/-- A file with text is read line by line. -/
theorem SettingsFile.read_eq (file : SettingsFile) (hSome : file.text ≠ []) (uninit : Uninit) :
    readSettings files uninit file.text =
      (parseSeen files (file.seen.map Prod.snd) ({}, uninit.vars)).map Prod.fst := by
  have hText : file.text = (file.lines.map Line.text).flatMap (fun line => line ++ ['\n']) ++
      file.last.toList.flatMap Line.text := by
    rw [SettingsFile.text, List.flatMap_map]
  have hLines : ∀ text ∈ file.lines.map Line.text, '\n' ∉ text ∧ text.length < 299 := by
    intro text hIn
    obtain ⟨line, hLine, rfl⟩ := List.mem_map.mp hIn
    exact ⟨line.text_clean (Or.inl rfl), file.short line (List.mem_append_left _ hLine)⟩
  have hNul : ∀ text ∈ file.lines.map Line.text, '\x00' ∉ text := by
    intro text hIn
    obtain ⟨line, -, rfl⟩ := List.mem_map.mp hIn
    exact line.text_clean (Or.inr rfl)
  have hLast : ∀ s, parseLines files (fgetsAll 299 299 (file.last.toList.flatMap Line.text)) s =
      parseSeen files (file.last.toList.map fun line => line.text.dropLast) s := by
    intro s
    cases hFile : file.last with
    | none => rfl
    | some line =>
        rw [Option.toList_some, List.flatMap_singleton, List.map_singleton, parseSeen_cons]
        by_cases hBlank : line.text = []
        · rw [hBlank, List.dropLast_nil, parseLine_ignored List.not_mem_nil]
          rfl
        · have hShort :=
            file.short line (List.mem_append_right _ (by rw [hFile]; exact List.mem_cons_self))
          rw [fgetsAll_last (line.text_clean (Or.inl rfl)) (Nat.le_of_lt hShort) hBlank,
            parseLines_cons (line.text_clean (Or.inr rfl)) hBlank]
          rfl
  simp only [readSettings, if_neg hSome]
  rw [hText, fgetsAll_lines hLines, parseLines_lines hNul, file.seen_texts, parseSeen_append]
  congr 2
  funext s
  exact hLast s

/-- In an empty file the uninitialised line is read. -/
theorem SettingsFile.ParsedByKey.some_text {file : SettingsFile} (h : file.ParsedByKey files) :
    file.text ≠ [] := by
  intro hNone
  have hStrict := h ⟨"strictLength:\n".toList, ⟨0, 0, 0, 0⟩⟩
  have hQuiet := h ⟨[], ⟨0, 0, 0, 0⟩⟩
  rw [hNone] at hStrict hQuiet
  have hRead : readSettings files ⟨"strictLength:\n".toList, ⟨0, 0, 0, 0⟩⟩ [] =
      some { strictLength := true } := rfl
  have hRead' : readSettings files ⟨[], ⟨0, 0, 0, 0⟩⟩ [] = some {} := rfl
  rw [hRead] at hStrict
  rw [hRead'] at hQuiet
  exact absurd (hStrict.trans hQuiet.symm) (by decide)

end Reading

section Owned

variable {files : Files} {line : Line} {s : ParseState}

/-- The value of a number that may have lost its digits; the variable keeps `old` then. -/
def readDigits (base old : Nat) (digits : List Char) : Nat :=
  if digits = [] then old else ofDigits base digits

/-- An address is scanned and assigned to the field of its key. -/
theorem parseValue_assign (key : AddrKey) (value : List Char) (s : ParseState) :
    parseValue files key.key value s =
      (scanAddr s.2 value).map fun vars => (key.assign vars.v1 s.1, vars) := by
  cases key <;> rfl

/-- A text is assigned without the blanks in front of it, if its file can be read. -/
theorem parseValue_path (key : PathKey) (value : List Char) (s : ParseState) :
    parseValue files key.key value s =
      if key.Reads files (value.dropWhile (· = ' ')) then
        some (key.assign (value.dropWhile (· = ' ')) s.1, s.2)
      else none := by
  cases key with
  | benchname => exact (if_pos (PathKey.reads_of_ne (by decide) _)).symm
  | strictLength => exact (if_pos (PathKey.reads_of_ne (by decide) _)).symm
  | readckpt => exact if_congr PathKey.reads_readckpt.symm rfl rfl

/-- The address of a line reaches its field, or keeps `v1` if it has no digits. -/
theorem parseValue_addr (key : AddrKey) (pad : Nat) {mark digits : List Char} (hMark : mark ∈ Marks)
    (hDigits : ∀ c ∈ digits, isDigit 16 c = true) (s : ParseState) :
    parseValue files key.key (List.replicate pad ' ' ++ (mark ++ digits)) s =
      if ofDigits 16 digits < 2 ^ 64 then
        some (key.assign (readDigits 16 s.2.v1 digits) s.1, { s.2 with
          v1 := readDigits 16 s.2.v1 digits })
      else none := by
  rw [parseValue_assign, scanAddr_eq _ pad hMark hDigits]
  by_cases hNone : digits = []
  · rw [hNone, if_pos rfl, if_pos (by decide)]
    rfl
  · rw [if_neg hNone, readDigits, if_neg hNone]
    by_cases hFits : ofDigits 16 digits < 2 ^ 64
    · rw [if_pos hFits, if_neg (Nat.not_le.mpr hFits)]
      rfl
    · rw [if_neg hFits, if_pos (Nat.not_lt.mp hFits)]
      rfl

/-- The numbers of a `ckptctrl` line reach the schedule. -/
theorem parseValue_ctrl (pad1 pad2 pad3 pad4 : Nat) (v1 v2 v3 : Numeral 10) {digits : List Char}
    (hDigits : ∀ c ∈ digits, isDigit 10 c = true) (s : ParseState) :
    parseValue files .ckptctrl
      (List.replicate pad1 ' ' ++ (v1.chars ++ (List.replicate (pad2 + 1) ' ' ++
      (v2.chars ++ (List.replicate (pad3 + 1) ' ' ++ (v3.chars ++
        (List.replicate (pad4 + 1) ' ' ++ digits))))))) s =
      let vars : CtrlLine := ⟨v1.value, v2.value, v3.value, readDigits 10 s.2.v4 digits⟩
      if v1.value < 2 ^ 63 ∧ v2.value < 2 ^ 63 ∧ v3.value < 2 ^ 63 ∧ vars.v4 < 2 ^ 31 then
        some ({ s.1 with ctrls := s.1.ctrls ++ vars.ctrls }, vars)
      else none := by
  rw [parseValue, scanCtrl_eq _ pad1 pad2 pad3 pad4 v1 v2 v3 hDigits]
  by_cases hThree : v1.value < 2 ^ 63 ∧ v2.value < 2 ^ 63 ∧ v3.value < 2 ^ 63
  · rw [if_pos hThree]
    by_cases hNone : digits = []
    · simp only [readDigits, if_pos hNone, Option.bind_some, hThree, true_and,
        ← Nat.not_le, ite_not]
    · by_cases hBig : 2 ^ 63 ≤ ofDigits 10 digits
      · have hOver : ¬ ofDigits 10 digits < 2 ^ 31 := by omega
        simp only [readDigits, if_neg hNone, if_pos hBig, hOver, and_false, if_false,
          Option.bind_none]
      · simp only [readDigits, if_neg hNone, if_neg hBig, Option.bind_some, hThree, true_and,
          ← Nat.not_le, ite_not]
  · rw [if_neg hThree]
    refine (if_neg fun h => hThree ⟨h.1, h.2.1, h.2.2.1⟩).symm

theorem AddrKey.assign_inj (key : AddrKey) {a b : Nat} {s : Settings} :
    key.assign a s = key.assign b s ↔ a = b := by
  constructor
  · intro h
    cases key with
    | mmapend => exact congrArg Settings.mmapend h
    | stacktop => exact congrArg Settings.stack_base h
    | brkpoint => exact congrArg Settings.brk_point h
  · intro h
    rw [h]

/-- The text of a path line behind its spaces. -/
theorem dropWhile_path {chars : List Char} (pad : Nat) (h : chars.head? ≠ some ' ') :
    (List.replicate pad ' ' ++ chars).dropWhile (· = ' ') = chars := by
  apply dropWhile_pad rfl
  intro c hc
  have hNe : c ≠ ' ' := by
    rintro rfl
    exact h hc
  simpa using hNe

/-- A blank line has no colon. -/
theorem colon_notMem_blank (n : Nat) : ':' ∉ List.replicate n ' ' := by
  intro hIn
  exact absurd (List.eq_of_mem_replicate hIn) (by decide)

/-- A line that is not taken for another is read as it is written, if its numbers fit. -/
theorem Line.parse_owned (hOwns : line.Owns line.text) (s : ParseState) :
    parseLine files line.text s =
      if line.Fits files then some (line.set s.1, line.vars s.2) else none := by
  have hParse : ∀ key : Key, line.key = some key →
      parseLine files line.text s = parseValue files key line.value s := by
    intro key hKey
    have hEarlier := hOwns key hKey
    rw [Line.text_eq hKey] at hEarlier ⊢
    exact parseLine_value line.value s hEarlier
  cases line with
  | blank pad =>
      rw [if_pos (show (Line.blank pad).Fits files from trivial)]
      exact parseLine_ignored (colon_notMem_blank pad) s
  | addr key pad mark n =>
      have hRead : readDigits 16 s.2.v1 n.chars = n.value := if_neg n.some_digit
      rw [hParse _ rfl, Line.value, parseValue_addr key pad mark.2 n.digits, hRead]
      rfl
  | ctrl pad1 pad2 pad3 pad4 v1 v2 v3 v4 =>
      have hRead : readDigits 10 s.2.v4 v4.chars = v4.value := if_neg v4.some_digit
      rw [hParse _ rfl, Line.value, parseValue_ctrl pad1 pad2 pad3 pad4 v1 v2 v3 v4.digits, hRead]
      rfl
  | path key pad value =>
      rw [hParse _ rfl, Line.value, parseValue_path, dropWhile_path pad value.no_space]
      rfl

end Owned

section Fields

variable {files : Files} {line : Line} {key : PathKey}

theorem unset_assign (other : AddrKey) (addr : Nat) (s : Settings) :
    key.Unset (other.assign addr s) ↔ key.Unset s := by
  cases other <;> cases key <;> rfl

theorem unset_assign_path {other : PathKey} (h : other ≠ key) (text : List Char) (s : Settings) :
    key.Unset (other.assign text s) ↔ key.Unset s := by
  cases other <;> cases key <;> first | rfl | exact absurd rfl h

theorem unset_ctrls (ctrls : List CkptCtrl) (s : Settings) :
    key.Unset { s with ctrls := ctrls } ↔ key.Unset s := by
  cases key <;> rfl

/-- The field of a path is set by lines with its key only. -/
theorem unset_set (h : line.key ≠ some key.key) (s : Settings) :
    key.Unset (line.set s) ↔ key.Unset s := by
  cases line with
  | blank pad => rfl
  | addr other pad mark value => exact unset_assign other value.value s
  | ctrl pad1 pad2 pad3 pad4 v1 v2 v3 v4 => exact unset_ctrls _ s
  | path other pad value =>
      apply unset_assign_path
      rintro rfl
      exact h rfl

/-- Lines of other keys leave the field unset. -/
theorem unset_setAll {lines : List Line} (h : ∀ line ∈ lines, line.key ≠ some key.key)
    (s : Settings) :
    key.Unset (lines.foldl (fun s line => line.set s) s) ↔ key.Unset s := by
  induction lines generalizing s with
  | nil => rfl
  | cons line rest ih =>
      rw [List.foldl_cons, ih fun other hOther => h other (List.mem_cons_of_mem _ hOther),
        unset_set (h line List.mem_cons_self)]

/-- A key takes an address, a text or the numbers of the schedule. -/
theorem Key.cases (key : Key) :
    (∃ addr : AddrKey, key = addr.key) ∨ (∃ path : PathKey, key = path.key) ∨ key = .ckptctrl := by
  cases key with
  | mmapend => exact Or.inl ⟨.mmapend, rfl⟩
  | stacktop => exact Or.inl ⟨.stacktop, rfl⟩
  | brkpoint => exact Or.inl ⟨.brkpoint, rfl⟩
  | benchname => exact Or.inr (Or.inl ⟨.benchname, rfl⟩)
  | ckptctrl => exact Or.inr (Or.inr rfl)
  | strictLength => exact Or.inr (Or.inl ⟨.strictLength, rfl⟩)
  | readckpt => exact Or.inr (Or.inl ⟨.readckpt, rfl⟩)

theorem unset_parseValue {other : Key} {value : List Char} {s next : ParseState}
    (hOther : other ≠ key.key)
    (hParse : parseValue files other value s = some next) (h : key.Unset s.1) :
    key.Unset next.1 := by
  rcases other.cases with ⟨addr, rfl⟩ | ⟨path, rfl⟩ | rfl
  · rw [parseValue_assign] at hParse
    obtain ⟨vars, -, rfl⟩ := Option.map_eq_some_iff.mp hParse
    exact (unset_assign addr vars.v1 s.1).mpr h
  · rw [parseValue_path, Option.ite_none_right_eq_some] at hParse
    rw [← Option.some.inj hParse.2]
    exact (unset_assign_path (fun hEq => hOther (congrArg PathKey.key hEq)) _ s.1).mpr h
  · obtain ⟨vars, -, hNext⟩ := Option.bind_eq_some_iff.mp hParse
    split at hNext
    · exact absurd hNext (Option.some_ne_none _).symm
    · rw [← Option.some.inj hNext]
      exact (unset_ctrls _ s.1).mpr h

/-- It is set by lines that are taken for its key only. -/
theorem unset_parseLine {str : List Char} {s next : ParseState}
    (hOther : classify str ≠ some key.key)
    (hParse : parseLine files str s = some next) (h : key.Unset s.1) : key.Unset next.1 := by
  rw [parseLine] at hParse
  cases hClass : classify str with
  | none =>
      rw [hClass] at hParse
      exact Option.some.inj hParse ▸ h
  | some other =>
      rw [hClass] at hParse hOther
      exact unset_parseValue (fun hEq => hOther (congrArg some hEq)) hParse h

/-- A field stays unset over lines that are taken for other keys. -/
theorem unset_parseSeen {strs : List (List Char)} {s next : ParseState}
    (hOther : ∀ str ∈ strs, classify str ≠ some key.key)
    (hParse : parseSeen files strs s = some next) (h : key.Unset s.1) : key.Unset next.1 := by
  induction strs generalizing s with
  | nil => exact Option.some.inj hParse ▸ h
  | cons str rest ih =>
      rw [parseSeen_cons] at hParse
      obtain ⟨middle, hFirst, hRest⟩ := Option.bind_eq_some_iff.mp hParse
      exact ih (fun other hIn => hOther other (List.mem_cons_of_mem _ hIn)) hRest
        (unset_parseLine (hOther str List.mem_cons_self) hFirst h)

end Fields

section Variables

/-- A shared variable holds what the last line that sets it has left. -/
theorem vars_last {field : CtrlLine → Nat} {sets : Line → Option Nat}
    (hSets : ∀ line vars, field (Line.vars line vars) = (sets line).getD (field vars))
    (lines : List Line) (old : CtrlLine) :
    field (lines.foldl (fun vars line => line.vars vars) old) =
      (lines.reverse.findSome? sets).getD (field old) := by
  induction lines generalizing old with
  | nil => rfl
  | cons line rest ih =>
      rw [List.foldl_cons, ih, List.reverse_cons, List.findSome?_append, hSets]
      cases rest.reverse.findSome? sets with
      | some value => rfl
      | none =>
          rw [List.findSome?_singleton]
          rfl

/-- The last line that sets `v1` decides what is in it. -/
theorem vars_first (lines : List Line) (old : CtrlLine) :
    (lines.foldl (fun vars line => line.vars vars) old).v1 =
      (lines.reverse.findSome? Line.first).getD old.v1 := by
  apply vars_last
  intro line vars
  cases line <;> rfl

/-- The last line that sets `v4` decides what is in it. -/
theorem vars_fourth (lines : List Line) (old : CtrlLine) :
    (lines.foldl (fun vars line => line.vars vars) old).v4 =
      (lines.reverse.findSome? Line.fourth).getD old.v4 := by
  apply vars_last
  intro line vars
  cases line <;> rfl

/-- Lines that are not taken for others are all read as they are written, if they fit. -/
theorem parseSeen_owned {files : Files} {lines : List Line}
    (hOwns : ∀ line ∈ lines, line.Owns line.text) (s : ParseState) :
    parseSeen files (lines.map Line.text) s =
      if ∀ line ∈ lines, line.Fits files then
        some (lines.foldl (fun s line => line.set s) s.1,
          lines.foldl (fun vars line => line.vars vars) s.2)
      else none := by
  induction lines generalizing s with
  | nil => rw [if_pos fun line h => absurd h List.not_mem_nil]; rfl
  | cons line rest ih =>
      have hRest := ih fun other hOther => hOwns other (List.mem_cons_of_mem _ hOther)
      rw [List.map_cons, parseSeen_cons, Line.parse_owned (hOwns line List.mem_cons_self)]
      simp only [List.forall_mem_cons]
      by_cases hFits : line.Fits files
      · simp only [hFits, true_and]
        exact hRest _
      · simp only [hFits, false_and, if_false]
        rfl

end Variables

section Cut

variable {files : Files} {line : Line} {s : ParseState}

/-- What is read of a number without its last digit. -/
theorem Line.keepsNumber_iff {base : Nat} (hBase : 1 < base) (n : Numeral base) (old : Nat) :
    Line.KeepsNumber n (some old) ↔ readDigits base old n.chars.dropLast = n.value := by
  have hCut : ofDigits base n.chars.dropLast = n.value / base := ofDigits_dropLast n.digits
  rw [Line.KeepsNumber, readDigits, hCut]
  have hLength : n.chars.length = 1 ↔ n.chars.dropLast = [] := by
    rw [← List.length_eq_zero_iff, List.length_dropLast]
    have hPos := List.length_pos_iff.mpr n.some_digit
    omega
  by_cases hOne : n.chars.length = 1
  · rw [if_pos hOne, if_pos (hLength.mp hOne), Option.some_inj]
  · rw [if_neg hOne, if_neg (mt hLength.mpr hOne)]
    constructor
    · intro hZero
      rw [hZero, Nat.zero_div]
    · intro hSame
      by_contra hPos
      exact absurd hSame (Nat.ne_of_lt (Nat.div_lt_self (Nat.pos_of_ne_zero hPos) hBase))

/-- Such a number is small. -/
theorem readDigits_small {base : Nat} (hBase : 1 < base) (n : Numeral base) {old : Nat}
    (h : readDigits base old n.chars.dropLast = n.value) :
    n.value < base ∧ ofDigits base n.chars.dropLast = 0 := by
  have hCut : ofDigits base n.chars.dropLast = n.value / base := ofDigits_dropLast n.digits
  have hZero : n.value / base = 0 := by
    rw [readDigits] at h
    split at h
    · next hNone =>
        rw [← hCut, hNone]
        rfl
    · rw [hCut] at h
      by_contra hPos
      have hValue : n.value ≠ 0 := fun hValue => hPos (by rw [hValue, Nat.zero_div])
      exact absurd h (Nat.ne_of_lt (Nat.div_lt_self (Nat.pos_of_ne_zero hValue) hBase))
  exact ⟨(Nat.div_eq_zero_iff_lt (by omega)).mp hZero, hCut.trans hZero⟩

/-- A path without its last character. -/
theorem dropWhile_cut (pad : Nat) {chars : List Char} (h : chars.head? ≠ some ' ') :
    (List.replicate pad ' ' ++ chars).dropLast.dropWhile (· = ' ') = chars.dropLast := by
  by_cases hNone : chars = []
  · rw [hNone, List.append_nil, List.dropLast_replicate]
    have hPad := @dropWhile_path [] (pad - 1) (by simp)
    rwa [List.append_nil] at hPad
  · rw [List.dropLast_append_of_ne_nil hNone]
    apply dropWhile_path
    rw [List.head?_dropLast]
    split
    · exact h
    · exact (Option.some_ne_none _).symm

theorem dropLast_eq_self {chars : List Char} : chars.dropLast = chars ↔ chars = [] := by
  constructor
  · intro h
    have hLength := congrArg List.length h
    rw [List.length_dropLast] at hLength
    exact List.length_eq_zero_iff.mp (by omega)
  · rintro rfl
    rfl

/-- The value of a line with a number, without its last digit. -/
theorem addr_dropLast (pad : Nat) (mark : List Char) (n : Numeral 16) :
    (List.replicate pad ' ' ++ (mark ++ n.chars)).dropLast =
      List.replicate pad ' ' ++ (mark ++ n.chars.dropLast) := by
  rw [← List.append_assoc, List.dropLast_append_of_ne_nil n.some_digit, List.append_assoc]

/-- A `ckptctrl` line loses the last digit of its last number, and nothing else. -/
theorem ctrl_dropLast (pad1 pad2 pad3 pad4 : Nat) (v1 v2 v3 v4 : Numeral 10) :
    (Line.ctrl pad1 pad2 pad3 pad4 v1 v2 v3 v4).value.dropLast =
      List.replicate pad1 ' ' ++ (v1.chars ++ (List.replicate (pad2 + 1) ' ' ++ (v2.chars ++
        (List.replicate (pad3 + 1) ' ' ++ (v3.chars ++ (List.replicate (pad4 + 1) ' ' ++
          v4.chars.dropLast)))))) := by
  have h4 := v4.some_digit
  simp only [Line.value, List.dropLast_append_of_ne_nil, ne_eq, List.append_eq_nil_iff,
    h4, and_false, not_false_eq_true]

/-- What is left of a line in front of a cut is read as a value of its key. -/
theorem Line.parse_cut_value {key : Key} (hOwns : line.Owns line.text.dropLast)
    (hKey : line.key = some key) (hSome : line.value ≠ []) :
    parseLine files line.text.dropLast s = parseValue files key line.value.dropLast s := by
  have hEarlier := hOwns key hKey
  rw [Line.text_dropLast hKey, if_neg hSome] at hEarlier ⊢
  exact parseLine_value line.value.dropLast s hEarlier

/-- Without its colon a line is ignored. -/
theorem Line.parse_cut_lost {key : Key} (hKey : line.key = some key) (hNone : line.value = []) :
    parseLine files line.text.dropLast s = some s := by
  rw [Line.text_dropLast hKey, if_pos hNone]
  exact parseLine_ignored key.colon_notMem s

/-- An address that is cut is read right if and only if its number survives the cut. -/
theorem cut_addr (key : AddrKey) (pad : Nat) {mark : List Char} (hMark : mark ∈ Marks)
    (n : Numeral 16) :
    (parseValue files key.key (List.replicate pad ' ' ++ (mark ++ n.chars)).dropLast s).map
      Prod.fst =
        some (key.assign n.value s.1) ↔
      Line.KeepsNumber n (some s.2.v1) := by
  have hDigits : ∀ c ∈ n.chars.dropLast, isDigit 16 c = true := fun c hc =>
    n.digits c (List.mem_of_mem_dropLast hc)
  rw [addr_dropLast, parseValue_addr key pad hMark hDigits, Line.keepsNumber_iff (by decide)]
  constructor
  · intro h
    split at h
    · exact key.assign_inj.mp (Option.some.inj h)
    · exact absurd h (Option.some_ne_none _).symm
  · intro h
    rw [if_pos (by rw [(readDigits_small (by decide) n h).2]; decide), h]
    rfl

theorem ctrls_length (line : CtrlLine) : line.ctrls.length = line.v4 := by
  simp [CtrlLine.ctrls]

theorem cut_ctrl (pad1 pad2 pad3 pad4 : Nat) (v1 v2 v3 v4 : Numeral 10) :
    let line := Line.ctrl pad1 pad2 pad3 pad4 v1 v2 v3 v4
    (parseValue files .ckptctrl line.value.dropLast s).map Prod.fst = some (line.set s.1) ↔
      v1.value < 2 ^ 63 ∧ v2.value < 2 ^ 63 ∧ v3.value < 2 ^ 63 ∧
        Line.KeepsNumber v4 (some s.2.v4) := by
  intro line
  have hDigits : ∀ c ∈ v4.chars.dropLast, isDigit 10 c = true := fun c hc =>
    v4.digits c (List.mem_of_mem_dropLast hc)
  rw [ctrl_dropLast, parseValue_ctrl pad1 pad2 pad3 pad4 v1 v2 v3 hDigits,
    Line.keepsNumber_iff (by decide)]
  simp only
  constructor
  · intro h
    split at h
    · next hFits =>
        refine ⟨hFits.1, hFits.2.1, hFits.2.2.1, ?_⟩
        -- there are as many entries as times
        have hCtrls := List.append_cancel_left (congrArg Settings.ctrls (Option.some.inj h))
        have hLength := congrArg List.length hCtrls
        rwa [ctrls_length, ctrls_length] at hLength
    · exact absurd h (Option.some_ne_none _).symm
  · rintro ⟨h1, h2, h3, h4⟩
    have hSmall := (readDigits_small (by decide) v4 h4).1
    rw [h4, if_pos ⟨h1, h2, h3, by omega⟩]
    rfl

theorem cut_path (key : PathKey) (pad : Nat) (value : PathText)
    (hSome : List.replicate pad ' ' ++ value.chars ≠ []) :
    let line := Line.path key pad value
    (parseValue files key.key line.value.dropLast s).map Prod.fst = some (line.set s.1) ↔
      line.SurvivesCut (some s.2.v1) (some s.2.v4) := by
  intro line
  have hCut : line.value.dropLast.dropWhile (· = ' ') = value.chars.dropLast :=
    dropWhile_cut pad value.no_space
  have hSpaces : value.chars = [] → pad ≠ 0 := by
    intro hChars hPad
    rw [hChars, hPad] at hSome
    exact hSome rfl
  rw [parseValue_path, hCut]
  cases key with
  | benchname =>
      rw [if_pos (PathKey.reads_of_ne (by decide) _), Option.map_some, Option.some_inj]
      refine ⟨fun h => ?_, fun h => ?_⟩
      · exact dropLast_eq_self.mp (congrArg Settings.benchname h)
      · rw [dropLast_eq_self.mpr h]
        rfl
  | strictLength =>
      rw [if_pos (PathKey.reads_of_ne (by decide) _), Option.map_some]
      refine iff_of_true rfl ?_
      by_cases hChars : value.chars = []
      · exact Or.inl (hSpaces hChars)
      · exact Or.inr hChars
  | readckpt =>
      -- either the name is another one, or it is empty and cannot be opened
      refine iff_of_false (fun h => ?_) not_false
      obtain ⟨next, hNext, hSet⟩ := Option.map_eq_some_iff.mp h
      rw [Option.ite_none_right_eq_some] at hNext
      obtain ⟨hOpens, hNext⟩ := hNext
      rw [← Option.some.inj hNext] at hSet
      have hChars := dropLast_eq_self.mp (Option.some.inj (congrArg Settings.readckpt hSet))
      rw [hChars, List.dropLast_nil, PathKey.reads_readckpt, files.opens_nil] at hOpens
      exact absurd hOpens (by decide)

theorem lost_path (key : PathKey) (pad : Nat) (value : PathText)
    (hNone : List.replicate pad ' ' ++ value.chars = []) (hUnset : key.Unset s.1) :
    let line := Line.path key pad value
    s.1 = line.set s.1 ↔ line.SurvivesCut (some s.2.v1) (some s.2.v4) := by
  intro line
  obtain ⟨hPad, hChars⟩ := List.append_eq_nil_iff.mp hNone
  have hZero : pad = 0 := by
    rw [← @List.length_replicate _ pad ' ', hPad, List.length_nil]
  cases key with
  | benchname =>
      refine iff_of_true ?_ hChars
      have hSet : line.set s.1 = { s.1 with benchname := s.1.benchname } := by
        rw [show s.1.benchname = value.chars from hUnset.trans hChars.symm]
        rfl
      rw [hSet]
  | strictLength =>
      refine iff_of_false ?_ ?_
      · intro h
        exact absurd (hUnset.symm.trans (congrArg Settings.strictLength h)) Bool.false_ne_true
      · rintro (h | h)
        · exact h hZero
        · exact h hChars
  | readckpt =>
      refine iff_of_false ?_ not_false
      intro h
      exact absurd (hUnset.symm.trans (congrArg Settings.readckpt h)) (Option.some_ne_none _).symm

/-- The last line without its last character, if it is not taken for another. -/
theorem Line.parse_cut (hOwns : line.Owns line.text.dropLast)
    (hUnset : ∀ key pad value, line = .path key pad value → key.Unset s.1) :
    (parseLine files line.text.dropLast s).map Prod.fst = some (line.set s.1) ↔
      line.SurvivesCut (some s.2.v1) (some s.2.v4) := by
  cases line with
  | blank pad =>
      have hBlank : (Line.blank pad).text.dropLast = List.replicate (pad - 1) ' ' :=
        List.dropLast_replicate
      rw [hBlank, parseLine_ignored (colon_notMem_blank _)]
      exact iff_of_true rfl trivial
  | addr key pad mark n =>
      rw [Line.parse_cut_value hOwns rfl (by simp [Line.value, n.some_digit])]
      exact cut_addr key pad mark.2 n
  | ctrl pad1 pad2 pad3 pad4 v1 v2 v3 v4 =>
      rw [Line.parse_cut_value hOwns rfl (by simp [Line.value, v4.some_digit])]
      exact cut_ctrl pad1 pad2 pad3 pad4 v1 v2 v3 v4
  | path key pad value =>
      by_cases hNone : (Line.path key pad value).value = []
      · rw [Line.parse_cut_lost rfl hNone, Option.map_some, Option.some_inj]
        exact lost_path key pad value hNone (hUnset key pad value rfl)
      · rw [Line.parse_cut_value hOwns rfl hNone]
        exact cut_path key pad value hNone

end Cut

end RiscvCkpt
