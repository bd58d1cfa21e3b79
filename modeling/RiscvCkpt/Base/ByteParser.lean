import RiscvCkpt.Base.ByteCodec

/-! Parsers of byte strings without length fields. A parser may look at what it has parsed
so far to decide what comes next; whether it reads a code back, and how much it takes, is
shown part by part. -/
namespace ByteParser

open ByteCodec

abbrev Parser (α : Type) := List UInt8 → Option (α × List UInt8)

section Parsers

variable {α β : Type}

def bytes (n : Nat) : Parser (List UInt8) := fun input =>
  if n ≤ input.length then some (input.take n, input.drop n) else none

def byte : Parser UInt8
  | [] => none
  | b :: rest => some (b, rest)

def map (g : α → β) (p : Parser α) : Parser β :=
  fun input => (p input).map fun out => (g out.1, out.2)

/-- One part, and then another that depends on it. -/
def andThen (p : Parser α) (f : α → Parser β) : Parser (α × β) := fun input =>
  (p input).bind fun out => (f out.1 out.2).map fun out' => ((out.1, out'.1), out'.2)

/-- A part that is there or not. -/
def optional (there : Bool) (p : Parser α) : Parser (Option α) :=
  if there then map some p else fun input => some (none, input)

def word (width : Nat) : Parser Nat := map wordValue (bytes width)

/-- A count of one byte, and that many bytes. -/
def counted : Parser (List UInt8) := map Prod.snd (andThen byte fun n => bytes n.toNat)

/-- Words of these widths; `none` stands for a width that is not known. -/
def words : List (Option Nat) → Parser (List Nat)
  | [] => fun input => some ([], input)
  | none :: _ => fun _ => none
  | some width :: rest => map (fun out => out.1 :: out.2) (andThen (word width) fun _ => words rest)

/-- Parse again and again, up to the end of the string. -/
def allWithin (p : Parser α) : Nat → List UInt8 → Option (List α)
  | _, [] => some []
  | 0, _ => none
  | fuel + 1, input => (p input).bind fun out => (allWithin p fuel out.2).map (out.1 :: ·)

def all (p : Parser α) (input : List UInt8) : Option (List α) := allWithin p input.length input

end Parsers

/-- The parser reads `x` from its code, whatever follows. -/
def Reads {α : Type} (p : Parser α) (code : List UInt8) (x : α) : Prop :=
  ∀ rest, p (code ++ rest) = some (x, rest)

/-- Whatever the parser reads satisfies `P`, and `size` says how much of the string it takes. -/
structure Takes {α : Type} (p : Parser α) (size : α → Nat) (P : α → Prop) : Prop where
  length : ∀ {input x rest}, p input = some (x, rest) → input.length = size x + rest.length
  holds : ∀ {input x rest}, p input = some (x, rest) → P x

section Reading

variable {α β : Type} {p : Parser α} {f : α → Parser β} {code code' : List UInt8} {x : α} {y : β}

theorem reads_byte (b : UInt8) : Reads byte [b] b := fun _ => rfl

theorem reads_bytes (data : List UInt8) : Reads (bytes data.length) data data := by
  intro rest
  rw [bytes, if_pos (by rw [List.length_append]; omega), List.take_left, List.drop_left]

theorem Reads.map (h : Reads p code x) (g : α → β) : Reads (ByteParser.map g p) code (g x) := by
  intro rest
  rw [ByteParser.map, h rest, Option.map_some]

/-- Two parts are read from their codes in a row. -/
theorem Reads.andThen (hp : Reads p code x) (hf : Reads (f x) code' y) :
    Reads (ByteParser.andThen p f) (code ++ code') (x, y) := by
  intro rest
  rw [ByteParser.andThen, List.append_assoc, hp, Option.bind_some, hf, Option.map_some]

/-- A part that is written and read under one condition. -/
theorem Reads.optional {c : Prop} [Decidable c] (h : c → Reads p code x) :
    Reads (ByteParser.optional (decide c) p) (if c then code else [])
      (if c then some x else none) := by
  by_cases hc : c
  · rw [decide_eq_true hc, if_pos hc, if_pos hc]
    exact (h hc).map some
  · rw [decide_eq_false hc, if_neg hc, if_neg hc]
    exact fun _ => rfl

/-- A number that fits the width of a word is read back. -/
theorem reads_word {width n : Nat} (h : n < 256 ^ width) :
    Reads (word width) (wordBytes width n) n := by
  have hBytes := (reads_bytes (wordBytes width n)).map wordValue
  rwa [wordBytes_length, wordValue_wordBytes, Nat.mod_eq_of_lt h] at hBytes

/-- A string of fewer than 256 bytes is read back behind its count. -/
theorem reads_counted {data : List UInt8} (h : data.length < 256) :
    Reads counted (UInt8.ofNat data.length :: data) data := by
  have hCount : (UInt8.ofNat data.length).toNat = data.length := by
    rw [UInt8.toNat_ofNat']
    exact Nat.mod_eq_of_lt h
  have hData : Reads (bytes (UInt8.ofNat data.length).toNat) data data := by
    rw [hCount]
    exact reads_bytes data
  exact ((reads_byte _).andThen hData).map Prod.snd

/-- Words of one width. -/
theorem reads_words {width : Nat} {ns : List Nat} {widths : List (Option Nat)}
    (hWidths : widths = ns.map fun _ => some width) (h : ∀ n ∈ ns, n < 256 ^ width) :
    Reads (words widths) (ns.flatMap (wordBytes width)) ns := by
  subst hWidths
  induction ns with
  | nil => exact fun _ => rfl
  | cons n rest ih =>
      rw [List.forall_mem_cons] at h
      exact ((reads_word h.1).andThen (ih h.2)).map fun out => out.1 :: out.2

/-- Records that are read one by one are read all. -/
theorem all_reads {γ : Type} {code : γ → List UInt8} {view : γ → α} {xs : List γ}
    (hReads : ∀ x ∈ xs, Reads p (code x) (view x)) (hSome : ∀ x ∈ xs, code x ≠ []) :
    all p (xs.flatMap code) = some (xs.map view) := by
  have hWithin : ∀ fuel, (xs.flatMap code).length ≤ fuel →
      allWithin p fuel (xs.flatMap code) = some (xs.map view) := by
    induction xs with
    | nil => exact fun fuel _ => by cases fuel <;> rfl
    | cons x rest ih =>
        rw [List.forall_mem_cons] at hReads hSome
        intro fuel hFuel
        rw [List.flatMap_cons, List.length_append] at hFuel
        obtain ⟨b, more, hCode⟩ := List.exists_cons_of_ne_nil hSome.1
        have hLength : (code x).length = more.length + 1 := by rw [hCode, List.length_cons]
        cases fuel with
        | zero => omega
        | succ fuel =>
            have hStep : allWithin p (fuel + 1) (code x ++ rest.flatMap code) =
                (p (code x ++ rest.flatMap code)).bind fun out =>
                  (allWithin p fuel out.2).map (out.1 :: ·) := by
              rw [hCode]
              rfl
            rw [List.flatMap_cons, hStep, hReads.1, Option.bind_some,
              ih hReads.2 hSome.2 fuel (by omega), Option.map_some, List.map_cons]
  exact hWithin _ (Nat.le_refl _)

end Reading

section Taking

variable {α β : Type} {p : Parser α} {f : α → Parser β} {size : α → Nat} {P : α → Prop}

theorem takes_byte : Takes byte (fun _ => 1) fun _ => True where
  length := by
    intro input x rest h
    cases input with
    | nil => exact absurd h (Option.some_ne_none _).symm
    | cons b more =>
        obtain ⟨rfl, rfl⟩ := Prod.mk.inj (Option.some.inj h)
        rw [List.length_cons, Nat.add_comm]
  holds := fun _ => trivial

theorem takes_bytes (n : Nat) : Takes (bytes n) List.length (fun data => data.length = n) := by
  have hBoth : ∀ {input x rest}, bytes n input = some (x, rest) →
      input.length = x.length + rest.length ∧ x.length = n := by
    intro input x rest h
    rw [bytes, Option.ite_none_right_eq_some] at h
    obtain ⟨hLe, hOut⟩ := h
    obtain ⟨rfl, rfl⟩ := Prod.mk.inj (Option.some.inj hOut)
    rw [List.length_take, List.length_drop]
    omega
  exact ⟨fun h => (hBoth h).1, fun h => (hBoth h).2⟩

theorem Takes.map {g : α → β} {size' : β → Nat} {P' : β → Prop} (h : Takes p size P)
    (hSize : ∀ x, P x → size' (g x) = size x) (hHolds : ∀ x, P x → P' (g x)) :
    Takes (ByteParser.map g p) size' P' := by
  have hInner : ∀ {input y rest}, ByteParser.map g p input = some (y, rest) →
      ∃ x, p input = some (x, rest) ∧ g x = y := by
    intro input y rest hOut
    obtain ⟨⟨x, rest'⟩, hp, hPair⟩ := Option.map_eq_some_iff.mp hOut
    obtain ⟨hx, rfl⟩ := Prod.mk.inj hPair
    exact ⟨x, hp, hx⟩
  constructor
  · intro input y rest hOut
    obtain ⟨x, hp, rfl⟩ := hInner hOut
    rw [hSize x (h.holds hp), h.length hp]
  · intro input y rest hOut
    obtain ⟨x, hp, rfl⟩ := hInner hOut
    exact hHolds x (h.holds hp)

/-- A part and another that depends on it take the sum of their sizes. -/
theorem Takes.andThen {size' : α → β → Nat} {P' : α → β → Prop} (hp : Takes p size P)
    (hf : ∀ x, Takes (f x) (size' x) (P' x)) :
    Takes (ByteParser.andThen p f) (fun out => size out.1 + size' out.1 out.2)
      (fun out => P out.1 ∧ P' out.1 out.2) := by
  have hInner : ∀ {input out rest}, ByteParser.andThen p f input = some (out, rest) →
      ∃ middle, p input = some (out.1, middle) ∧ f out.1 middle = some (out.2, rest) := by
    intro input out rest hOut
    obtain ⟨⟨x, middle⟩, hFirst, hMap⟩ := Option.bind_eq_some_iff.mp hOut
    obtain ⟨⟨y, rest'⟩, hSecond, hPair⟩ := Option.map_eq_some_iff.mp hMap
    obtain ⟨rfl, rfl⟩ := Prod.mk.inj hPair
    exact ⟨middle, hFirst, hSecond⟩
  constructor
  · intro input out rest hOut
    obtain ⟨middle, hFirst, hSecond⟩ := hInner hOut
    have hLength := hp.length hFirst
    have hLength' := (hf _).length hSecond
    omega
  · intro input out rest hOut
    obtain ⟨middle, hFirst, hSecond⟩ := hInner hOut
    exact ⟨hp.holds hFirst, (hf _).holds hSecond⟩

theorem Takes.optional (h : Takes p size P) (there : Bool) :
    Takes (ByteParser.optional there p) (fun out => out.elim 0 size)
      (fun out => ∀ x ∈ out, P x) := by
  cases there with
  | false =>
      constructor
      · intro input out rest hOut
        obtain ⟨rfl, rfl⟩ := Prod.mk.inj (Option.some.inj hOut)
        exact (Nat.zero_add _).symm
      · intro input out rest hOut
        obtain ⟨rfl, rfl⟩ := Prod.mk.inj (Option.some.inj hOut)
        exact fun x hx => absurd hx (Option.not_mem_none x)
  | true => exact h.map (fun _ _ => rfl) fun x hx y hy => Option.mem_some_iff.mp hy ▸ hx

theorem takes_word (width : Nat) : Takes (word width) (fun _ => width) fun _ => True :=
  (takes_bytes width).map (fun _ h => h.symm) fun _ _ => trivial

theorem takes_counted : Takes counted (fun data => 1 + data.length) fun _ => True :=
  (takes_byte.andThen fun n => takes_bytes n.toNat).map (fun _ _ => rfl) fun _ _ => trivial

/-- Words of known widths take the sum of these widths. -/
theorem takes_words (widths : List (Option Nat)) :
    Takes (words widths) (fun _ => (widths.map (·.getD 0)).sum) (fun _ => none ∉ widths) := by
  induction widths with
  | nil =>
      constructor
      · intro input out rest hOut
        obtain ⟨-, rfl⟩ := Prod.mk.inj (Option.some.inj hOut)
        exact (Nat.zero_add _).symm
      · exact fun _ => List.not_mem_nil
  | cons width rest ih =>
      cases width with
      | none =>
          exact ⟨fun hOut => absurd hOut (Option.some_ne_none _).symm,
            fun hOut => absurd hOut (Option.some_ne_none _).symm⟩
      | some width =>
          refine ((takes_word width).andThen fun _ => ih).map (fun _ _ => ?_) fun _ hOut => ?_
          · rw [List.map_cons, List.sum_cons, Option.getD_some]
          · rw [List.mem_cons, not_or]
            exact ⟨Option.some_ne_none width |>.symm, hOut.2⟩

/-- What a string of records takes. -/
theorem Takes.all (h : Takes p size P) {input : List UInt8} {ys : List α}
    (hAll : all p input = some ys) :
    input.length = (ys.map size).sum ∧ ∀ y ∈ ys, P y := by
  have hWithin : ∀ fuel input ys, allWithin p fuel input = some ys →
      input.length = (ys.map size).sum ∧ ∀ y ∈ ys, P y := by
    intro fuel
    induction fuel with
    | zero =>
        intro input ys hAll
        cases input with
        | nil =>
            obtain rfl := Option.some.inj hAll
            exact ⟨rfl, fun _ hy => absurd hy List.not_mem_nil⟩
        | cons b rest => exact absurd hAll (Option.some_ne_none _).symm
    | succ fuel ih =>
        intro input ys hAll
        cases input with
        | nil =>
            obtain rfl := Option.some.inj hAll
            exact ⟨rfl, fun _ hy => absurd hy List.not_mem_nil⟩
        | cons b rest =>
            obtain ⟨⟨y, left⟩, hOne, hMap⟩ := Option.bind_eq_some_iff.mp hAll
            obtain ⟨more, hMore, rfl⟩ := Option.map_eq_some_iff.mp hMap
            obtain ⟨hLength, hHolds⟩ := ih _ _ hMore
            refine ⟨?_, List.forall_mem_cons.mpr ⟨h.holds hOne, hHolds⟩⟩
            rw [h.length hOne, hLength, List.map_cons, List.sum_cons]
  exact hWithin _ _ _ hAll

end Taking

end ByteParser
