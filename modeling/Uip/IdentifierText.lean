import Uip.ProtocolMessage

/-!
# The text form of identifiers

Strings are lists of characters with lengths and offsets in bytes of UTF-8. `Deserialize` of an
identifier slices its string every two bytes and panics where a slice ends inside a character.
-/
namespace Uip

abbrev Text := List Char

namespace Text

def len : Text → ℕ
  | [] => 0
  | c :: string => c.utf8Size + len string

@[simp] theorem len_nil : len [] = 0 := rfl

@[simp] theorem len_cons (c : Char) (string : Text) :
    len (c :: string) = c.utf8Size + len string := rfl

@[simp] theorem len_append (a b : Text) : len (a ++ b) = len a + len b := by
  induction a with
  | nil => simp
  | cons c a ih => simp [ih, Nat.add_assoc]

/-- The characters before and after a byte offset; `none` inside a character and past the end. -/
def splitAt : Text → ℕ → Option (Text × Text)
  | string, 0 => some ([], string)
  | [], _ + 1 => none
  | c :: string, n + 1 =>
    if c.utf8Size ≤ n + 1 then
      (splitAt string (n + 1 - c.utf8Size)).map fun halves => (c :: halves.1, halves.2)
    else none

theorem splitAt_eq_some {string a b : Text} {n : ℕ} :
    splitAt string n = some (a, b) ↔ string = a ++ b ∧ a.len = n := by
  induction string generalizing a n with
  | nil =>
    cases n with
    | zero =>
      simp only [splitAt, Option.some.injEq, Prod.mk.injEq, List.nil_eq, List.append_eq_nil_iff]
      constructor
      · rintro ⟨rfl, rfl⟩
        exact ⟨⟨rfl, rfl⟩, rfl⟩
      · rintro ⟨⟨rfl, rfl⟩, _⟩
        exact ⟨rfl, rfl⟩
    | succ n =>
      simp only [splitAt, reduceCtorEq, List.nil_eq, List.append_eq_nil_iff, false_iff]
      rintro ⟨⟨rfl, rfl⟩, h⟩
      simp at h
  | cons c string ih =>
    have hc := c.utf8Size_pos
    cases n with
    | zero =>
      simp only [splitAt, Option.some.injEq, Prod.mk.injEq]
      constructor
      · rintro ⟨rfl, rfl⟩
        exact ⟨rfl, rfl⟩
      · rintro ⟨h, hlen⟩
        cases a with
        | nil => exact ⟨rfl, h⟩
        | cons c' a =>
          obtain ⟨rfl, -⟩ := List.cons.inj h
          rw [len_cons] at hlen
          omega
    | succ n =>
      cases a with
      | nil =>
        simp only [splitAt]
        split_ifs <;> simp
      | cons c' a =>
        simp only [splitAt, List.cons_append, List.cons.injEq, len_cons]
        constructor
        · intro h
          split_ifs at h with hle
          obtain ⟨⟨x, y⟩, hs, he⟩ := Option.map_eq_some_iff.mp h
          obtain ⟨⟨rfl, rfl⟩, rfl⟩ : (c = c' ∧ x = a) ∧ y = b := by simpa using he
          obtain ⟨rfl, hlen⟩ := ih.mp hs
          exact ⟨⟨rfl, rfl⟩, by omega⟩
        · rintro ⟨⟨rfl, rfl⟩, hlen⟩
          have hs : splitAt (a ++ b) (n + 1 - c.utf8Size) = some (a, b) :=
            ih.mpr ⟨rfl, by omega⟩
          rw [if_pos (by omega), hs]
          rfl

/-- `&string[start..stop]` -/
def slice (string : Text) (start stop : ℕ) : Option Text :=
  if start ≤ stop then
    (splitAt string start).bind fun halves => (splitAt halves.2 (stop - start)).map Prod.fst
  else none

def isCharBoundary (string : Text) (n : ℕ) : Bool := (splitAt string n).isSome

theorem isCharBoundary_iff {string : Text} {n : ℕ} :
    string.isCharBoundary n = true ↔ ∃ a b, string = a ++ b ∧ a.len = n := by
  rw [isCharBoundary, Option.isSome_iff_exists]
  constructor
  · rintro ⟨⟨a, b⟩, h⟩
    exact ⟨a, b, splitAt_eq_some.mp h⟩
  · rintro ⟨a, b, h⟩
    exact ⟨(a, b), splitAt_eq_some.mpr h⟩

theorem slice_eq_some {string s : Text} {start stop : ℕ} :
    string.slice start stop = some s ↔
      ∃ a b, string = a ++ (s ++ b) ∧ a.len = start ∧ start + s.len = stop := by
  unfold slice
  constructor
  · intro h
    split_ifs at h with hle
    obtain ⟨⟨a, rest⟩, ha, h⟩ := Option.bind_eq_some_iff.mp h
    obtain ⟨⟨x, b⟩, hb, rfl⟩ := Option.map_eq_some_iff.mp h
    obtain ⟨rfl, rfl⟩ := splitAt_eq_some.mp ha
    obtain ⟨hrest, hlen⟩ := splitAt_eq_some.mp hb
    obtain rfl : rest = x ++ b := hrest
    exact ⟨a, b, rfl, rfl, by change a.len + x.len = stop; omega⟩
  · rintro ⟨a, b, rfl, rfl, rfl⟩
    have ha : splitAt (a ++ (s ++ b)) a.len = some (a, s ++ b) := splitAt_eq_some.mpr ⟨rfl, rfl⟩
    have hb : splitAt (s ++ b) (a.len + s.len - a.len) = some (s, b) :=
      splitAt_eq_some.mpr ⟨rfl, by omega⟩
    rw [if_pos (by omega), ha, Option.bind_some, hb]
    rfl

theorem slice_isSome {string : Text} {start stop : ℕ} (hle : start ≤ stop)
    (hstart : string.isCharBoundary start = true) (hstop : string.isCharBoundary stop = true) :
    (string.slice start stop).isSome = true := by
  obtain ⟨a, b, rfl, rfl⟩ := isCharBoundary_iff.mp hstart
  obtain ⟨p, q, heq, rfl⟩ := isCharBoundary_iff.mp hstop
  rw [Option.isSome_iff_exists]
  rcases List.append_eq_append_iff.mp heq with ⟨s, rfl, rfl⟩ | ⟨s, rfl, rfl⟩
  · exact ⟨s, slice_eq_some.mpr ⟨a, q, by simp, rfl, by simp⟩⟩
  · rw [len_append] at hle
    refine ⟨[], slice_eq_some.mpr ⟨p ++ s, b, by simp, rfl, ?_⟩⟩
    simp
    omega

theorem isCharBoundary_of_slice {string s : Text} {start stop : ℕ}
    (h : string.slice start stop = some s) : string.isCharBoundary stop = true := by
  obtain ⟨a, b, rfl, rfl, rfl⟩ := slice_eq_some.mp h
  exact isCharBoundary_iff.mpr ⟨a ++ s, b, by simp, by simp⟩

end Text

def digitValue (c : Char) : Option ℕ :=
  if '0' ≤ c ∧ c ≤ '9' then some (c.toNat - 48)
  else if 'a' ≤ c ∧ c ≤ 'f' then some (c.toNat - 87)
  else if 'A' ≤ c ∧ c ≤ 'F' then some (c.toNat - 55)
  else none

def pushDigit (n : UInt8) (c : Char) : Option UInt8 :=
  (digitValue c).bind fun d =>
    if n.toNat * 16 + d < 256 then some (UInt8.ofNat (n.toNat * 16 + d)) else none

/-- `u8::from_str_radix(string, 16)`: a plus sign in front is allowed. -/
def fromStrRadix16 : Text → Option UInt8
  | [] | ['+'] => none
  | '+' :: digits => digits.foldlM pushDigit 0
  | digits => digits.foldlM pushDigit 0

namespace Parsed

variable {α β : Type}

def bind (p : Parsed α) (f : α → Parsed β) : Parsed β :=
  match p with
  | .value a => f a
  | .error => .error
  | .panic => .panic

@[simp] theorem bind_value (a : α) (f : α → Parsed β) : bind (.value a) f = f a := rfl

end Parsed

namespace Identifier

def text (id : Identifier) : Text := id.display.map fun digit => Char.ofNat digit.toNat

def readByte (string : Text) (i : ℕ) : Parsed UInt8 :=
  match string.slice (i * 2) (i * 2 + 2) with
  | none => .panic
  | some digits =>
    match fromStrRadix16 digits with
    | some byte => .value byte
    | none => .error

def readBytes (string : Text) : List ℕ → Parsed Bytes
  | [] => .value []
  | i :: turns =>
    (readByte string i).bind fun byte =>
      (readBytes string turns).bind fun bytes => .value (byte :: bytes)

def deserialize (string : Text) : Parsed Identifier :=
  if string.len ≠ 2 * 32 then .error
  else (readBytes string (List.range 32)).bind fun bytes =>
    .value ⟨Vector.ofFn fun i => bytes.getD i 0⟩

section RoundTrip

def digits (byte : UInt8) : Text :=
  [Char.ofNat (hexDigit (byte / 16)).toNat, Char.ofNat (hexDigit (byte % 16)).toNat]

theorem text_eq (id : Identifier) : id.text = id.bytes.toList.flatMap digits := by
  rw [text, display, List.map_flatMap]
  rfl

theorem digits_spec (byte : UInt8) :
    Text.len (digits byte) = 2 ∧ fromStrRadix16 (digits byte) = some byte := by
  have h : ∀ n < 256, Text.len (digits (UInt8.ofNat n)) = 2 ∧
      fromStrRadix16 (digits (UInt8.ofNat n)) = some (UInt8.ofNat n) := by
    decide +kernel
  simpa using h byte.toNat byte.toNat_lt

theorem len_digits (bytes : Bytes) : Text.len (bytes.flatMap digits) = bytes.length * 2 := by
  induction bytes with
  | nil => rfl
  | cons byte bytes ih =>
    rw [List.flatMap_cons, Text.len_append, ih, (digits_spec byte).1, List.length_cons]
    omega

theorem len_text (id : Identifier) : id.text.len = 64 := by
  rw [text_eq, len_digits, Vector.length_toList]

theorem readByte_digits {bytes : Bytes} {i : ℕ} (h : i < bytes.length) :
    readByte (bytes.flatMap digits) i = .value bytes[i] := by
  have hsplit : bytes.flatMap digits = (bytes.take i).flatMap digits ++
      (digits bytes[i] ++ (bytes.drop (i + 1)).flatMap digits) := by
    rw [← List.flatMap_cons, ← List.flatMap_append, ← List.drop_eq_getElem_cons h,
      List.take_append_drop]
  have hfront : Text.len ((bytes.take i).flatMap digits) = i * 2 := by
    rw [len_digits, List.length_take, Nat.min_eq_left (by omega)]
  have hslice : Text.slice (bytes.flatMap digits) (i * 2) (i * 2 + 2) = some (digits bytes[i]) := by
    refine Text.slice_eq_some.mpr ⟨_, _, hsplit, hfront, ?_⟩
    rw [(digits_spec _).1]
  simp only [readByte, hslice, (digits_spec _).2]

theorem readBytes_of_readByte {string : Text} {turns : List ℕ} {f : ℕ → UInt8}
    (h : ∀ i ∈ turns, readByte string i = .value (f i)) :
    readBytes string turns = .value (turns.map f) := by
  induction turns with
  | nil => rfl
  | cons i turns ih =>
    have hi := h i List.mem_cons_self
    have hturns := ih fun j hj => h j (List.mem_cons_of_mem i hj)
    rw [readBytes, hi, Parsed.bind_value, hturns, Parsed.bind_value, List.map_cons]

/-- The text of an identifier is read back as the identifier. -/
theorem deserialize_text (id : Identifier) : deserialize id.text = .value id := by
  have hbytes : readBytes id.text (List.range 32) =
      .value ((List.range 32).map fun i => id.bytes.toList.getD i 0) := by
    apply readBytes_of_readByte
    intro i hi
    have hlen : i < id.bytes.toList.length := by simpa using hi
    rw [text_eq, readByte_digits hlen, List.getD_eq_getElem?_getD, List.getElem?_eq_getElem hlen,
      Option.getD_some]
  have hlen := len_text id
  have hident : Vector.ofFn (fun i : Fin 32 =>
      ((List.range 32).map fun i => id.bytes.toList.getD i 0).getD i 0) = id.bytes := by
    apply Vector.ext
    intro i hi
    simp
  rw [deserialize, if_neg (by omega), hbytes, Parsed.bind_value, hident]

end RoundTrip

section Panic

theorem readByte_eq_panic {string : Text} {i : ℕ} :
    readByte string i = .panic ↔ string.slice (i * 2) (i * 2 + 2) = none := by
  unfold readByte
  cases string.slice (i * 2) (i * 2 + 2) with
  | none => simp
  | some digits =>
    cases h : fromStrRadix16 digits <;> simp [h]

theorem readBytes_eq_panic {string : Text} {start n : ℕ} :
    readBytes string (List.range' start n) = .panic ↔
      ∃ i, start ≤ i ∧ i < start + n ∧ readByte string i = .panic ∧
        ∀ j, start ≤ j → j < i → ∃ byte, readByte string j = .value byte := by
  induction n generalizing start with
  | zero =>
    simp only [List.range'_zero, readBytes, reduceCtorEq, false_iff]
    rintro ⟨i, hle, hlt, -⟩
    omega
  | succ n ih =>
    rw [List.range'_succ, readBytes]
    cases hs : readByte string start with
    | value byte =>
      have hrest : ((readBytes string (List.range' (start + 1) n)).bind fun bytes =>
          .value (byte :: bytes)) = .panic ↔
            readBytes string (List.range' (start + 1) n) = .panic := by
        cases readBytes string (List.range' (start + 1) n) <;> simp [Parsed.bind]
      rw [Parsed.bind_value, hrest, ih]
      constructor
      · rintro ⟨i, hle, hlt, hp, hall⟩
        refine ⟨i, by omega, by omega, hp, fun j hj hji => ?_⟩
        by_cases he : j = start
        · exact ⟨byte, he ▸ hs⟩
        · exact hall j (by omega) hji
      · rintro ⟨i, hle, hlt, hp, hall⟩
        have hne : i ≠ start := by
          rintro rfl
          simp [hs] at hp
        exact ⟨i, by omega, by omega, hp, fun j hj hji => hall j (by omega) hji⟩
    | error =>
      simp only [Parsed.bind, reduceCtorEq, false_iff]
      rintro ⟨i, hle, hlt, hp, hall⟩
      by_cases he : i = start
      · simp [he, hs] at hp
      · obtain ⟨byte, hb⟩ := hall start le_rfl (by omega)
        simp [hs] at hb
    | panic =>
      simp only [Parsed.bind, true_iff]
      exact ⟨start, le_rfl, by omega, hs, fun j hj hji => by omega⟩

/-- After some pairs of hexadecimal digits, the next pair of bytes ends inside a character. -/
def cutsCharacter (string : Text) : Prop :=
  string.len = 64 ∧ ∃ i < 32, string.isCharBoundary (i * 2 + 2) = false ∧
    ∀ j < i, ∃ byte, readByte string j = .value byte

theorem isCharBoundary_of_readByte {string : Text} {i : ℕ}
    (h : ∀ j < i, ∃ byte, readByte string j = .value byte) :
    string.isCharBoundary (i * 2) = true := by
  cases i with
  | zero => exact Text.isCharBoundary_iff.mpr ⟨[], string, rfl, rfl⟩
  | succ i =>
    obtain ⟨byte, hb⟩ := h i (Nat.lt_succ_self i)
    cases hs : string.slice (i * 2) (i * 2 + 2) with
    | none => simp [readByte_eq_panic.mpr hs] at hb
    | some s =>
      have hboundary := Text.isCharBoundary_of_slice hs
      rwa [Nat.succ_mul]

theorem readByte_eq_panic_iff {string : Text} {i : ℕ}
    (h : ∀ j < i, ∃ byte, readByte string j = .value byte) :
    readByte string i = .panic ↔ string.isCharBoundary (i * 2 + 2) = false := by
  have hstart := isCharBoundary_of_readByte h
  rw [readByte_eq_panic]
  cases hstop : string.isCharBoundary (i * 2 + 2) with
  | true =>
    have hs := Text.slice_isSome (by omega) hstart hstop
    simp [Option.isSome_iff_ne_none.mp hs]
  | false =>
    cases hs : string.slice (i * 2) (i * 2 + 2) with
    | none => simp
    | some s => simp [Text.isCharBoundary_of_slice hs] at hstop

theorem deserialize_eq_panic {string : Text} :
    deserialize string = .panic ↔ cutsCharacter string := by
  unfold deserialize cutsCharacter
  split_ifs with hlen
  · simp only [false_iff]
    rintro ⟨h, -⟩
    exact hlen h
  · have hbind : ((readBytes string (List.range 32)).bind fun bytes =>
        .value (⟨Vector.ofFn fun i => bytes.getD i 0⟩ : Identifier)) = .panic ↔
          readBytes string (List.range 32) = .panic := by
      cases readBytes string (List.range 32) <;> simp [Parsed.bind]
    have hlen' : string.len = 64 := by omega
    rw [hbind, List.range_eq_range', readBytes_eq_panic]
    constructor
    · rintro ⟨i, -, hlt, hp, hall⟩
      have hall' : ∀ j < i, ∃ byte, readByte string j = .value byte :=
        fun j hji => hall j (Nat.zero_le j) hji
      exact ⟨hlen', i, by omega, (readByte_eq_panic_iff hall').mp hp, hall'⟩
    · rintro ⟨-, i, hlt, hb, hall⟩
      exact ⟨i, Nat.zero_le i, by omega, (readByte_eq_panic_iff hall).mpr hb, fun j _ => hall j⟩

end Panic

end Identifier

/-- What a derived `Deserialize` does with the bytes it is given: it comes to a value or an error
and hands the strings that stand for identifiers to `Deserialize` of `Identifier`. -/
inductive Reader (α : Type)
  | value (a : α)
  | error
  | identifier (string : Text) (next : Identifier → Reader α)

namespace Reader

variable {α : Type}

def run : Reader α → Parsed α
  | value a => .value a
  | error => .error
  | identifier string next =>
    match Identifier.deserialize string with
    | .value id => (next id).run
    | .error => .error
    | .panic => .panic

def cutsCharacter : Reader α → Prop
  | value _ | error => False
  | identifier string next => Identifier.cutsCharacter string ∨
      ∃ id, Identifier.deserialize string = .value id ∧ (next id).cutsCharacter

theorem run_eq_panic {r : Reader α} : r.run = .panic ↔ r.cutsCharacter := by
  induction r with
  | value a => simp [run, cutsCharacter]
  | error => simp [run, cutsCharacter]
  | identifier string next ih =>
    rw [run, cutsCharacter, ← Identifier.deserialize_eq_panic]
    cases h : Identifier.deserialize string with
    | value id => simp [ih]
    | error => simp
    | panic => simp

theorem run_identifier_text (id : Identifier) (next : Identifier → Reader α) :
    (identifier id.text next).run = (next id).run := by
  rw [run, Identifier.deserialize_text]

end Reader

end Uip
