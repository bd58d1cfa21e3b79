import RiscvCkpt.Cpu.SettingsFile

/-! Exactly the unambiguous settings files are read as they are written. If a path line is
taken for a key that is tested earlier, no line sets its field; this goes from the key that
is tested last to the first. -/
namespace RiscvCkpt

open CText

section Classified

variable {files : Files} {file : SettingsFile} {p : Line × List Char}

/-- What is seen of a line: it has no key and no colon, or its whole key, and a part of its
value behind the colon if that is left. -/
theorem SettingsFile.seen_cases (hp : p ∈ file.seen) :
    p.1.key = none ∧ ':' ∉ p.2 ∨
    ∃ key, p.1.key = some key ∧
      (p.2 = key.name ∨ ∃ value, p.2 = key.name ++ ':' :: value ∧ value <+: p.1.value) := by
  have hBlank : ∀ line : Line, line.key = none → ':' ∉ line.text := by
    intro line hKey
    cases line with
    | blank pad => exact colon_notMem_blank pad
    | addr key pad mark value => exact absurd hKey (Option.some_ne_none _)
    | ctrl pad1 pad2 pad3 pad4 v1 v2 v3 v4 => exact absurd hKey (Option.some_ne_none _)
    | path key pad value => exact absurd hKey (Option.some_ne_none _)
  rcases List.mem_append.mp hp with hIn | hIn
  · obtain ⟨line, -, rfl⟩ := List.mem_map.mp hIn
    cases hKey : line.key with
    | none => exact Or.inl ⟨rfl, hBlank line hKey⟩
    | some key =>
        exact Or.inr ⟨key, rfl, Or.inr ⟨line.value, Line.text_eq hKey, List.prefix_refl _⟩⟩
  · obtain ⟨line, -, rfl⟩ := List.mem_map.mp hIn
    cases hKey : line.key with
    | none => exact Or.inl ⟨rfl, fun hColon => hBlank line hKey (List.mem_of_mem_dropLast hColon)⟩
    | some key =>
        refine Or.inr ⟨key, rfl, ?_⟩
        have hCut := Line.text_dropLast hKey
        split at hCut
        · exact Or.inl hCut
        · exact Or.inr ⟨line.value.dropLast, hCut, List.dropLast_prefix _⟩

theorem Key.rank_inj {a b : Key} (h : a.rank = b.rank) : a = b := by
  revert h
  cases a <;> cases b <;> decide

/-- A line is taken for its own key or for one that is tested earlier. -/
theorem SettingsFile.classify_seen (hp : p ∈ file.seen) {taken : Key}
    (h : classify p.2 = some taken) :
    ∃ key, p.1.key = some key ∧ taken.rank ≤ key.rank ∧ (p.1.Owns p.2 → taken = key) := by
  obtain ⟨hColon, hName, hEarlier⟩ := classify_eq_some.mp h
  rcases file.seen_cases hp with ⟨-, hNone⟩ | ⟨key, hKey, hText⟩
  · exact absurd hColon hNone
  · have hOwn : key.name <:+: p.2 := by
      rcases hText with hText | ⟨value, hText, -⟩
      · rw [hText]
      · rw [hText]
        exact (List.prefix_append _ _).isInfix
    have hRank : taken.rank ≤ key.rank := Nat.not_lt.mp fun hLess => hEarlier key hLess hOwn
    refine ⟨key, hKey, hRank, fun hOwns => Key.rank_inj (Nat.le_antisymm hRank ?_)⟩
    exact Nat.not_lt.mp fun hLess => hOwns key hKey taken hLess hName

theorem PathKey.key_ne (key : PathKey) : key.key ≠ .ckptctrl := by
  cases key <;> decide

theorem Line.onceKey_eq {line : Line} {key : Key} (hKey : line.key = some key)
    (hOnce : key ≠ .ckptctrl) :
    line.onceKey = some key := by
  rw [Line.onceKey, hKey, Option.filter_some, if_pos (decide_eq_true hOnce)]

/-- A line with a key that occurs once is the only one with it. -/
theorem SettingsFile.seen_unique {q : Line × List Char} (hp : p ∈ file.seen)
    (hq : q ∈ file.seen) {key : Key}
    (hpKey : p.1.key = some key) (hqKey : q.1.key = some key) (hOnce : key ≠ .ckptctrl) :
    p = q := by
  have hKeys : file.seen.filterMap (fun r => r.1.onceKey) =
      (file.lines ++ file.last.toList).filterMap Line.onceKey := by
    rw [SettingsFile.seen, List.filterMap_append, List.filterMap_map, List.filterMap_map,
      List.filterMap_append]
    rfl
  have hNodup := file.once
  rw [← hKeys, List.Nodup, List.pairwise_filterMap] at hNodup
  have hSymm : Std.Symm fun a b : Line × List Char =>
      ∀ x, a.1.onceKey = some x → ∀ y, b.1.onceKey = some y → x ≠ y :=
    ⟨fun a b hab x hx y hy hxy => hab y hy x hx hxy.symm⟩
  by_contra hNe
  exact hNodup.forall hp hq hNe key (Line.onceKey_eq hpKey hOnce) key
    (Line.onceKey_eq hqKey hOnce) rfl

/-- A value without a letter of the earlier names. -/
theorem SettingsFile.owns_of_notMem (hp : p ∈ file.seen) {key : Key} (hKey : p.1.key = some key)
    (hRank : key.rank ≤ 4) (hLetter : 'p' ∉ p.1.value) : p.1.Owns p.2 := by
  intro key' hKey' other hLess
  obtain rfl : key = key' := Option.some.inj (hKey.symm.trans hKey')
  rcases file.seen_cases hp with ⟨hNone, -⟩ | ⟨key', hKey', hText⟩
  · rw [hNone] at hKey
    exact absurd hKey (Option.some_ne_none key).symm
  · obtain rfl : key = key' := Option.some.inj (hKey.symm.trans hKey')
    rcases hText with hText | ⟨value, hText, hPrefix⟩
    · rw [hText]
      exact Key.not_infix hLess
    · rw [hText]
      exact earlier_notMem hRank (fun hIn => hLetter (hPrefix.subset hIn)) hLess

/-- The other lines have other keys than a path. -/
theorem SettingsFile.other_keys {key : PathKey} {pad : Nat} {value : PathText}
    {front back : List Line}
    (hSplit : file.lines ++ file.last.toList = front ++ .path key pad value :: back) :
    ∀ line ∈ front ++ back, line.key ≠ some key.key := by
  intro line hLine hKey
  have hPath : (Line.path key pad value).onceKey = some key.key := Line.onceKey_eq rfl key.key_ne
  have hNodup := file.once
  rw [hSplit, List.filterMap_append, List.filterMap_cons, hPath, List.nodup_middle,
    ← List.filterMap_append] at hNodup
  refine (List.nodup_cons.mp hNodup).1 (List.mem_filterMap.mpr ⟨line, hLine, ?_⟩)
  exact Line.onceKey_eq hKey key.key_ne

/-- A line with a key has a path, or a value without that letter. -/
theorem Line.plain_or_path {line : Line} {key : Key} (hKey : line.key = some key) :
    (key.rank ≤ 4 ∧ 'p' ∉ line.value) ∨ ∃ path pad value, line = .path path pad value ∧
      key = path.key := by
  cases line with
  | blank pad => exact absurd hKey (Option.some_ne_none key).symm
  | addr k pad mark value =>
      obtain rfl := Option.some.inj hKey
      refine Or.inl ⟨?_, addr_notMem (by decide) (by decide) pad mark.2 value.digits⟩
      cases k <;> decide
  | ctrl pad1 pad2 pad3 pad4 v1 v2 v3 v4 =>
      obtain rfl := Option.some.inj hKey
      exact Or.inl
        ⟨by decide, ctrl_notMem (by decide) (by decide) pad1 pad2 pad3 pad4 v1 v2 v3 v4.digits⟩
  | path k pad value => exact Or.inr ⟨k, pad, value, rfl, (Option.some.inj hKey).symm⟩

/-- A path that is written is in the settings that the file says. -/
theorem SettingsFile.written_set {key : PathKey} {pad : Nat} {value : PathText}
    (hLine : .path key pad value ∈ file.lines ++ file.last.toList)
    (hSome : key = .benchname → value.chars ≠ []) : ¬ key.Unset file.written := by
  obtain ⟨front, back, hSplit⟩ := List.append_of_mem hLine
  have hLater : ∀ line ∈ back, line.key ≠ some key.key := fun line hBack =>
    file.other_keys hSplit line (List.mem_append_right _ hBack)
  rw [SettingsFile.written, hSplit, List.foldl_append, List.foldl_cons, unset_setAll hLater]
  cases key with
  | benchname => exact hSome rfl
  | strictLength => exact Bool.false_ne_true.symm
  | readckpt => exact Option.some_ne_none _

/-- What is seen of a file comes from its lines. -/
theorem SettingsFile.mem_of_seen (hp : p ∈ file.seen) : p.1 ∈ file.lines ++ file.last.toList := by
  rcases List.mem_append.mp hp with hIn | hIn
  · obtain ⟨line, hLine, rfl⟩ := List.mem_map.mp hIn
    exact List.mem_append_left _ hLine
  · obtain ⟨line, hLine, rfl⟩ := List.mem_map.mp hIn
    exact List.mem_append_right _ hLine

/-- A path line that is taken for another leaves its field unset, if the lines with keys
that are tested later are not taken for it. -/
theorem SettingsFile.ParsedByKey.owns_path (h : file.ParsedByKey files) (hp : p ∈ file.seen)
    {key : PathKey} {pad : Nat} {value : PathText} (hLine : p.1 = .path key pad value)
    (hLater : ∀ q ∈ file.seen, ∀ other, q.1.key = some other → key.key.rank < other.rank →
      q.1.Owns q.2) :
    p.1.Owns p.2 := by
  by_contra hNot
  have hKey : p.1.key = some key.key := by rw [hLine]; rfl
  have hOther : ∀ str ∈ file.seen.map Prod.snd, classify str ≠ some key.key := by
    intro str hStr hTaken
    obtain ⟨q, hq, rfl⟩ := List.mem_map.mp hStr
    obtain ⟨other, hOther, hRank, hOwn⟩ := file.classify_seen hq hTaken
    rcases Nat.lt_or_eq_of_le hRank with hLess | hSame
    · have hEq := hOwn (hLater q hq other hOther hLess)
      rw [hEq] at hLess
      exact Nat.lt_irrefl _ hLess
    · obtain rfl := Key.rank_inj hSame
      obtain rfl := file.seen_unique hp hq hKey hOther key.key_ne
      refine hNot fun found hFound => ?_
      obtain rfl : key.key = found := Option.some.inj (hKey.symm.trans hFound)
      exact (classify_eq_some.mp hTaken).2.2
  -- the field keeps its initial value
  have hRead := h ⟨[], ⟨0, 0, 0, 0⟩⟩
  rw [file.read_eq h.some_text] at hRead
  obtain ⟨next, hParse, hNext⟩ := Option.map_eq_some_iff.mp hRead
  have hUnset : key.Unset file.written := by
    rw [← hNext]
    refine unset_parseSeen hOther hParse ?_
    cases key <;> rfl
  have hMem := file.mem_of_seen hp
  rw [hLine] at hMem
  refine file.written_set hMem (fun hPrefix hNone => hNot ?_) hUnset
  apply file.owns_of_notMem hp hKey (by rw [hPrefix]; decide)
  rw [hLine, Line.value, hNone, List.append_nil]
  intro hIn
  exact absurd (List.eq_of_mem_replicate hIn) (by decide)

/-- In a file that is read as it is written no line is taken for another. -/
theorem SettingsFile.ParsedByKey.owns (h : file.ParsedByKey files) (hp : p ∈ file.seen) :
    p.1.Owns p.2 := by
  -- from the key that is tested last to the first
  have hAll : ∀ n, ∀ q ∈ file.seen, ∀ key, q.1.key = some key → 6 - key.rank = n →
      q.1.Owns q.2 := by
    intro n
    induction n using Nat.strong_induction_on with
    | _ n ih =>
        intro q hq key hKey hn
        have hTop : key.rank ≤ 6 := by
          cases key <;> decide
        have hLater : ∀ r ∈ file.seen, ∀ other, r.1.key = some other → key.rank < other.rank →
            r.1.Owns r.2 := by
          intro r hr other hOther hLess
          have hOtherTop : other.rank ≤ 6 := by
            cases other <;> decide
          exact ih (6 - other.rank) (by omega) r hr other hOther rfl
        rcases Line.plain_or_path hKey with ⟨hRank, hLetter⟩ | ⟨path, pad, value, hLine, rfl⟩
        · exact file.owns_of_notMem hq hKey hRank hLetter
        · exact h.owns_path hq hLine hLater
  cases hKey : p.1.key with
  | none =>
      intro key hSome
      rw [hKey] at hSome
      exact absurd hSome (Option.some_ne_none key).symm
  | some key => exact hAll _ p hp key hKey rfl

end Classified

section Files

variable {files : Files} {file : SettingsFile}

theorem Line.keepsNumber_getD {base : Nat} (n : Numeral base) (left : Option Nat) :
    (∀ old, Line.KeepsNumber n (some (left.getD old))) ↔ Line.KeepsNumber n left := by
  cases left with
  | some value => exact ⟨fun h => h 0, fun h _ => h⟩
  | none =>
      simp only [Line.KeepsNumber, Option.getD_none]
      split
      · -- a variable that no line has set may hold anything
        refine iff_of_false (fun h => ?_) (Option.some_ne_none _).symm
        exact absurd (Option.some.inj (h (n.value + 1))) (Nat.succ_ne_self _)
      · exact ⟨fun h => h 0, fun h _ => h⟩

/-- A line survives the cut whatever the variables held before, if it does so with what is known. -/
theorem Line.survivesCut_getD (line : Line) (v1 v4 : Option Nat) :
    (∀ old : CtrlLine, line.SurvivesCut (some (v1.getD old.v1)) (some (v4.getD old.v4))) ↔
      line.SurvivesCut v1 v4 := by
  cases line with
  | blank pad => exact ⟨fun h => h ⟨0, 0, 0, 0⟩, fun h _ => h⟩
  | addr key pad mark n =>
      simp only [Line.SurvivesCut]
      rw [← Line.keepsNumber_getD n v1]
      exact ⟨fun h old => h ⟨old, 0, 0, 0⟩, fun h old => h old.v1⟩
  | ctrl pad1 pad2 pad3 pad4 start interval warmup times =>
      simp only [Line.SurvivesCut]
      rw [← Line.keepsNumber_getD times v4]
      constructor
      · intro h
        have hFirst := h ⟨0, 0, 0, 0⟩
        exact ⟨hFirst.1, hFirst.2.1, hFirst.2.2.1, fun old => (h ⟨0, 0, 0, old⟩).2.2.2⟩
      · rintro ⟨hStart, hInterval, hWarmup, hTimes⟩ old
        exact ⟨hStart, hInterval, hWarmup, hTimes old.v4⟩
  | path key pad value => cases key <;> exact ⟨fun h => h ⟨0, 0, 0, 0⟩, fun h _ => h⟩

/-- The last line of a file finds the fields of paths with its key unset. -/
theorem SettingsFile.last_unset {line : Line} (hLast : file.last = some line)
    (key : PathKey) (pad : Nat) (value : PathText) (hLine : line = .path key pad value) :
    key.Unset (file.lines.foldl (fun s line => line.set s) {}) := by
  have hSplit : file.lines ++ file.last.toList = file.lines ++ .path key pad value :: [] := by
    rw [hLast, hLine]
    rfl
  have hOthers := file.other_keys hSplit
  rw [List.append_nil] at hOthers
  rw [unset_setAll hOthers]
  cases key <;> rfl

/-- A file whose lines are not taken for others is read as it is written if the numbers fit
and the last line survives the cut. -/
theorem SettingsFile.parsedByKey_of_owns (hText : file.text ≠ [])
    (hOwns : ∀ p ∈ file.seen, p.1.Owns p.2) :
    file.ParsedByKey files ↔ (∀ line ∈ file.lines, line.Fits files) ∧
      ∀ line ∈ file.last, line.SurvivesCut (file.lines.reverse.findSome? Line.first)
        (file.lines.reverse.findSome? Line.fourth) := by
  have hLines : ∀ line ∈ file.lines, line.Owns line.text := fun line hLine =>
    hOwns (line, line.text) (List.mem_append_left _ (List.mem_map_of_mem hLine))
  have hRead : ∀ uninit, readSettings files uninit file.text =
      ((parseSeen files (file.lines.map Line.text) ({}, uninit.vars)).bind
        (parseSeen files (file.last.toList.map fun line => line.text.dropLast))).map Prod.fst := by
    intro uninit
    rw [file.read_eq hText, file.seen_texts, parseSeen_append]
  simp only [SettingsFile.ParsedByKey, hRead, parseSeen_owned hLines]
  by_cases hFits : ∀ line ∈ file.lines, line.Fits files
  · simp only [if_pos hFits, Option.bind_some]
    rw [iff_comm, and_iff_right hFits]
    cases hLast : file.last with
    | none =>
        refine iff_of_true (fun line h => absurd h (Option.not_mem_none line)) fun uninit => ?_
        rw [SettingsFile.written, hLast, Option.toList_none, List.append_nil]
        rfl
    | some line =>
        have hOwnsLast : line.Owns line.text.dropLast := by
          refine hOwns (line, line.text.dropLast) (List.mem_append_right _ ?_)
          rw [hLast]
          exact List.mem_cons_self
        have hWritten : file.written =
            line.set (file.lines.foldl (fun s line => line.set s) {}) := by
          rw [SettingsFile.written, hLast, Option.toList_some, List.foldl_append]
          rfl
        simp only [Option.mem_some_iff, forall_eq', Option.toList_some, List.map_singleton,
          parseSeen_singleton, hWritten]
        rw [← Line.survivesCut_getD]
        constructor
        · intro h uninit
          apply (Line.parse_cut hOwnsLast (file.last_unset hLast)).mpr
          rw [vars_first, vars_fourth]
          exact h uninit.vars
        · intro h old
          have hCut := (Line.parse_cut hOwnsLast (file.last_unset hLast)).mp (h ⟨[], old⟩)
          rwa [vars_first, vars_fourth] at hCut
  · simp only [hFits, if_false, false_and, iff_false]
    intro h
    exact absurd (h ⟨[], ⟨0, 0, 0, 0⟩⟩) (Option.some_ne_none _).symm

def SettingsFile.ctrlLines (file : SettingsFile) : List CtrlLine :=
  (file.lines ++ file.last.toList).filterMap Line.numbers

/-- The entries of a file are those of its `ckptctrl` lines, in order. -/
theorem setAll_ctrls (lines : List Line) (s : Settings) :
    (lines.foldl (fun s line => line.set s) s).ctrls =
      s.ctrls ++ (lines.filterMap Line.numbers).flatMap CtrlLine.ctrls := by
  induction lines generalizing s with
  | nil => exact (List.append_nil _).symm
  | cons line rest ih =>
      rw [List.foldl_cons, ih, List.filterMap_cons]
      cases line with
      | blank pad => rfl
      | addr key pad mark value => cases key <;> rfl
      | ctrl pad1 pad2 pad3 pad4 v1 v2 v3 v4 => exact List.append_assoc _ _ _
      | path key pad value => cases key <;> rfl

/-- From an unambiguous file the main loop gets the schedule that its `ckptctrl` lines say,
in the order of the starts. -/
theorem SettingsFile.Unambiguous.init_ctrls (h : file.Unambiguous files) (uninit : Uninit) :
    (initCkptSettings files uninit file.text).map Settings.ctrls =
      some (initCtrls file.ctrlLines) := by
  have hParsed := (file.parsedByKey_of_owns h.some_text h.owns).mpr ⟨h.fits, h.last⟩
  have hCtrls : file.written.ctrls = file.ctrlLines.flatMap CtrlLine.ctrls := setAll_ctrls _ {}
  rw [initCkptSettings, hParsed uninit, Option.map_some, Option.map_some, Settings.finish, hCtrls]
  rfl

/-- Exactly the unambiguous files are read as they are written. -/
theorem parsed_by_key_iff (files : Files) (file : SettingsFile) :
    file.ParsedByKey files ↔ file.Unambiguous files := by
  constructor
  · intro h
    have hOwns : ∀ p ∈ file.seen, p.1.Owns p.2 := fun p hp => h.owns hp
    obtain ⟨hFits, hLast⟩ := (file.parsedByKey_of_owns h.some_text hOwns).mp h
    exact ⟨h.some_text, hOwns, hFits, hLast⟩
  · intro h
    exact (file.parsedByKey_of_owns h.some_text h.owns).mpr ⟨h.fits, h.last⟩

end Files

/-- A settings file of the manual, without the last newline but with a space in its place. -/
def manualFile : SettingsFile where
  lines := [
    .addr .stacktop 1 ⟨['0', 'x'], by decide⟩ ⟨"3e00000000".toList, by decide, by decide⟩,
    .path .benchname 1 ⟨"./dir/test".toList, by decide, by decide, by decide⟩,
    .blank 0,
    .ctrl 1 0 0 0 ⟨"10000".toList, by decide, by decide⟩ ⟨"10000".toList, by decide, by decide⟩
      ⟨"1000".toList, by decide, by decide⟩ ⟨"4".toList, by decide, by decide⟩]
  last := some (.path .strictLength 1 ⟨[], by decide, by decide, by decide⟩)
  short := by decide
  once := by decide

def noFiles : Files := ⟨fun _ => false, rfl⟩

example : readSettings noFiles ⟨[], ⟨0, 0, 0, 0⟩⟩ manualFile.text = some manualFile.written := by
  decide +kernel

/-- A prefix that holds the name of a key, behind an address. -/
def prefixFile : SettingsFile where
  lines := [
    .addr .stacktop 1 ⟨['0', 'x'], by decide⟩ ⟨"74000000".toList, by decide, by decide⟩,
    .path .benchname 1 ⟨"./brkpoint/test".toList, by decide, by decide, by decide⟩]
  last := none
  short := by decide
  once := by decide

/-- Forty checkpoints, and no newline at the end of the file. -/
def cutFile : SettingsFile where
  lines := []
  last := some
    (.ctrl 1 0 0 0 ⟨"10000".toList, by decide, by decide⟩ ⟨"10000".toList, by decide, by decide⟩
    ⟨"1000".toList, by decide, by decide⟩ ⟨"40".toList, by decide, by decide⟩)
  short := by decide
  once := by decide

/-- The prefix line is taken for `brkpoint`. Its scan fails, so the address of the line in
front of it becomes the break point, and there is no prefix. The cut line makes four
entries instead of forty. -/
theorem settings_misread :
    readSettings noFiles ⟨[], ⟨0, 0, 0, 0⟩⟩ prefixFile.text =
      some { stack_base := 0x74000000, brk_point := 0x74000000 } ∧
    prefixFile.written = { stack_base := 0x74000000, benchname := "./brkpoint/test".toList } ∧
    ¬ prefixFile.ParsedByKey noFiles ∧
    (readSettings noFiles ⟨[], ⟨0, 0, 0, 0⟩⟩ cutFile.text).map (fun s => s.ctrls.length) = some 4 ∧
    cutFile.written.ctrls.length = 40 ∧ ¬ cutFile.ParsedByKey noFiles := by
  have hPrefix : readSettings noFiles ⟨[], ⟨0, 0, 0, 0⟩⟩ prefixFile.text =
      some { stack_base := 0x74000000, brk_point := 0x74000000 } := by
    decide +kernel
  have hWritten : prefixFile.written =
      { stack_base := 0x74000000, benchname := "./brkpoint/test".toList } := by
    decide +kernel
  have hCut : (readSettings noFiles ⟨[], ⟨0, 0, 0, 0⟩⟩ cutFile.text).map (fun s => s.ctrls.length) =
      some 4 := by
    decide +kernel
  have hForty : cutFile.written.ctrls.length = 40 := by
    decide +kernel
  refine ⟨hPrefix, hWritten, ?_, hCut, hForty, ?_⟩
  · intro h
    rw [h, hWritten] at hPrefix
    exact absurd hPrefix (by decide)
  · intro h
    rw [h, Option.map_some, hForty] at hCut
    exact absurd hCut (by decide)

end RiscvCkpt
