import Uip.IdentifierText

/-!
# Parsing identifiers

`from_str` slices its string every two bytes, as `deserialize` does. `parsePairs` reads the same
pairs from the front of the string.
-/
namespace Uip

/-- `Result<Identifier, String>`, or a panic. -/
inductive ParseResult
  | ok (id : Identifier)
  | err (message : String)
  | panic
  deriving DecidableEq

def hexDigits : Text := "0123456789ABCDEFabcdef".toList

namespace Text

def upper (string : Text) : Text := string.map Char.toUpper

def IsHex (string : Text) : Prop := ∀ c ∈ string, c ∈ hexDigits

instance (string : Text) : Decidable string.IsHex :=
  List.decidableBAll (fun c => c ∈ hexDigits) string

/-- Two hexadecimal digits, or a plus sign and one. -/
inductive ReadPair : Text → Prop
  | digits {a b : Char} (ha : a ∈ hexDigits) (hb : b ∈ hexDigits) : ReadPair [a, b]
  | signed {b : Char} (hb : b ∈ hexDigits) : ReadPair ['+', b]

/-- Pair by pair of bytes, the first that is not read consists of whole characters. -/
inductive ReachesInvalid : Text → Prop
  | here {pair rest : Text} (hlen : pair.len = 2) (h : ¬ ReadPair pair) :
      ReachesInvalid (pair ++ rest)
  | later {pair rest : Text} (h : ReadPair pair) (hrest : ReachesInvalid rest) :
      ReachesInvalid (pair ++ rest)

theorem slice_after {string a rest : Text} {start size : ℕ} (hs : string = a ++ rest)
    (ha : a.len = start) :
    string.slice start (start + size) = (splitAt rest size).map Prod.fst := by
  have hsplit : splitAt string start = some (a, rest) := splitAt_eq_some.mpr ⟨hs, ha⟩
  rw [slice, if_pos (Nat.le_add_right _ _), hsplit, Option.bind_some, Nat.add_sub_cancel_left]

end Text

namespace Identifier

def fromStr (string : Text) : ParseResult :=
  if string.len ≠ 2 * 32 then .err "String length insufficient"
  else
    match readBytes string (List.range 32) with
    | .value bytes => .ok ⟨Vector.ofFn fun i => bytes.getD i 0⟩
    | .error => .err "Invalid characters in string"
    | .panic => .panic

/-- Both parsers accept the same strings and panic on the same. -/
theorem deserialize_eq_fromStr (string : Text) :
    deserialize string = match fromStr string with
      | .ok id => .value id
      | .err _ => .error
      | .panic => .panic := by
  unfold deserialize fromStr
  split_ifs with hlen
  · rfl
  · cases readBytes string (List.range 32) <;> rfl

def parsePairs : ℕ → Text → Parsed Bytes
  | 0, _ => .value []
  | n + 1, string =>
    match string.splitAt 2 with
    | none => .panic
    | some (pair, rest) =>
      match fromStrRadix16 pair with
      | none => .error
      | some byte => (parsePairs n rest).bind fun bytes => .value (byte :: bytes)

theorem readBytes_eq_parsePairs {string a rest : Text} {start : ℕ} (n : ℕ)
    (hs : string = a ++ rest) (ha : a.len = start * 2) :
    readBytes string (List.range' start n) = parsePairs n rest := by
  induction n generalizing start a rest with
  | zero => rfl
  | succ n ih =>
    rw [List.range'_succ, readBytes, readByte, Text.slice_after hs ha, parsePairs]
    cases hp : rest.splitAt 2 with
    | none => rfl
    | some halves =>
      obtain ⟨pair, tail⟩ := halves
      obtain ⟨hrest, hlen⟩ := Text.splitAt_eq_some.mp hp
      have htail : readBytes string (List.range' (start + 1) n) = parsePairs n tail :=
        ih (a := a ++ pair) (by simp [hs, hrest]) (by rw [Text.len_append]; omega)
      rw [htail]
      cases hr : fromStrRadix16 pair <;> simp [hr, Parsed.bind]

theorem fromStr_eq {string : Text} (hlen : string.len = 64) :
    fromStr string = match parsePairs 32 string with
      | .value bytes => .ok ⟨Vector.ofFn fun i => bytes.getD i 0⟩
      | .error => .err "Invalid characters in string"
      | .panic => .panic := by
  have hread : readBytes string (List.range' 0 32) = parsePairs 32 string :=
    readBytes_eq_parsePairs (a := []) 32 rfl rfl
  rw [fromStr, if_neg (by omega), List.range_eq_range', hread]

section Digits

theorem forall_hex {p : Char → Prop} [DecidablePred p]
    (h : (hexDigits.all fun c => decide (p c)) = true) : ∀ c ∈ hexDigits, p c := by
  simpa using h

theorem digitValue_isSome {c : Char} : (digitValue c).isSome = true ↔ c ∈ hexDigits := by
  have hsmall : ∀ n < 128, ((digitValue (Char.ofNat n)).isSome = true ↔
      Char.ofNat n ∈ hexDigits) := by
    decide +kernel
  by_cases hc : c.toNat < 128
  · simpa using hsmall c.toNat hc
  · have hle : ∀ d : Char, d.toNat < 128 → ¬ c ≤ d := by
      intro d hd h
      have hval : c.toNat ≤ d.toNat := h
      omega
    have hnone : digitValue c = none := by
      unfold digitValue
      rw [if_neg fun h => hle '9' (by decide) h.2, if_neg fun h => hle 'f' (by decide) h.2,
        if_neg fun h => hle 'F' (by decide) h.2]
    have hdigits : ∀ d ∈ hexDigits, d.toNat < 128 := forall_hex (by decide +kernel)
    refine iff_of_false (by simp [hnone]) fun h => hc (hdigits c h)

theorem utf8Size_of_hex : ∀ c ∈ hexDigits, c.utf8Size = 1 := forall_hex (by decide +kernel)

theorem radix_digits : ∀ a ∈ hexDigits, ∀ b ∈ hexDigits,
    (fromStrRadix16 [a, b]).map digits = some [a.toUpper, b.toUpper] := by
  have hall : (hexDigits.all fun a => hexDigits.all fun b => decide
      ((fromStrRadix16 [a, b]).map digits = some [a.toUpper, b.toUpper])) = true := by
    decide +kernel
  intro a ha b hb
  exact of_decide_eq_true (List.all_eq_true.mp (List.all_eq_true.mp hall a ha) b hb)

theorem radix_signed : ∀ b ∈ hexDigits, (fromStrRadix16 ['+', b]).isSome = true :=
  forall_hex (by decide +kernel)

theorem radix_of_not_sign {a : Char} (h : a ≠ '+') (string : Text) :
    fromStrRadix16 (a :: string) = (a :: string).foldlM pushDigit 0 := by
  unfold fromStrRadix16
  split
  · rename_i heq
    cases heq
  · rename_i heq
    exact absurd (List.cons.inj heq).1 h
  · rename_i heq
    exact absurd (List.cons.inj heq).1 h
  · rfl

theorem pushDigit_digit {n byte : UInt8} {c : Char} (h : pushDigit n c = some byte) :
    c ∈ hexDigits := by
  obtain ⟨d, hd, _⟩ := Option.bind_eq_some_iff.mp h
  exact digitValue_isSome.mp (by rw [hd]; rfl)

theorem radix_isSome_iff {pair : Text} (hlen : pair.len = 2) :
    (fromStrRadix16 pair).isSome = true ↔ pair.ReadPair := by
  constructor
  · intro h
    obtain ⟨byte, hb⟩ := Option.isSome_iff_exists.mp h
    match pair with
    | [] => simp at hlen
    | [a] =>
      have ha : a ≠ '+' := by
        rintro rfl
        simp [fromStrRadix16] at hb
      rw [radix_of_not_sign ha] at hb
      have hdigit : a ∈ hexDigits := pushDigit_digit (by simpa using hb)
      have hsize := utf8Size_of_hex a hdigit
      simp at hlen
      omega
    | [a, b] =>
      by_cases ha : a = '+'
      · subst ha
        have hdigit : pushDigit 0 b = some byte := by simpa [fromStrRadix16] using hb
        exact .signed (pushDigit_digit hdigit)
      · rw [radix_of_not_sign ha] at hb
        obtain ⟨n, hn, hrest⟩ := Option.bind_eq_some_iff.mp hb
        exact .digits (pushDigit_digit hn) (pushDigit_digit (by simpa using hrest))
    | a :: b :: c :: rest =>
      have ha := a.utf8Size_pos
      have hb := b.utf8Size_pos
      have hc := c.utf8Size_pos
      simp at hlen
      omega
  · intro h
    cases h with
    | digits ha hb =>
      have hmap := radix_digits _ ha _ hb
      rw [← Option.isSome_map (f := digits), hmap]
      rfl
    | signed hb => exact radix_signed _ hb

end Digits

theorem not_reachesInvalid_nil : ¬ Text.ReachesInvalid [] := by
  intro h
  generalize hs : ([] : Text) = string at h
  cases h with
  | here hlen _ =>
    obtain ⟨rfl, _⟩ := List.append_eq_nil_iff.mp hs.symm
    cases hlen
  | later h _ =>
    obtain ⟨rfl, _⟩ := List.append_eq_nil_iff.mp hs.symm
    cases h

theorem len_of_readPair {pair : Text} (h : pair.ReadPair) : pair.len = 2 := by
  cases h with
  | digits ha hb => simp [utf8Size_of_hex _ ha, utf8Size_of_hex _ hb]
  | signed hb => simp [utf8Size_of_hex _ hb]; rfl

theorem reachesInvalid_iff {string : Text} : string.ReachesInvalid ↔
    ∃ pair rest, string.splitAt 2 = some (pair, rest) ∧
      (¬ pair.ReadPair ∨ pair.ReadPair ∧ rest.ReachesInvalid) := by
  constructor
  · intro h
    cases h with
    | here hlen h => exact ⟨_, _, Text.splitAt_eq_some.mpr ⟨rfl, hlen⟩, .inl h⟩
    | later h hrest =>
      exact ⟨_, _, Text.splitAt_eq_some.mpr ⟨rfl, len_of_readPair h⟩, .inr ⟨h, hrest⟩⟩
  · rintro ⟨pair, rest, hsplit, h⟩
    obtain ⟨rfl, hlen⟩ := Text.splitAt_eq_some.mp hsplit
    rcases h with h | ⟨h, hrest⟩
    · exact .here hlen h
    · exact .later h hrest

/-- The loop reports an error at the first invalid pair, unless it cuts a character before. -/
theorem parsePairs_error_iff {string : Text} {n : ℕ} (hlen : string.len = 2 * n) :
    parsePairs n string = .error ↔ string.ReachesInvalid := by
  induction n generalizing string with
  | zero =>
    have hs : string = [] := by
      cases string with
      | nil => rfl
      | cons c string =>
        have hc := c.utf8Size_pos
        rw [Text.len_cons] at hlen
        omega
    subst hs
    exact iff_of_false (by simp [parsePairs]) not_reachesInvalid_nil
  | succ n ih =>
    rw [reachesInvalid_iff, parsePairs]
    cases hsplit : string.splitAt 2 with
    | none => simp
    | some halves =>
      obtain ⟨pair, rest⟩ := halves
      obtain ⟨hs, hpair⟩ := Text.splitAt_eq_some.mp hsplit
      have hrest : rest.len = 2 * n := by
        rw [hs, Text.len_append] at hlen
        omega
      have hread := radix_isSome_iff hpair
      have hih := ih hrest
      cases hr : fromStrRadix16 pair with
      | none =>
        have hnot : ¬ pair.ReadPair := by simp [← hread, hr]
        simp [hnot, hr]
      | some byte =>
        have hpair' : pair.ReadPair := hread.mp (by rw [hr]; rfl)
        have hbind : ((parsePairs n rest).bind fun bytes => .value (byte :: bytes)) = .error ↔
            parsePairs n rest = .error := by
          cases parsePairs n rest <;> simp [Parsed.bind]
        simp [hr, hpair', hbind, hih]

/-- Hexadecimal digits are read as the bytes they stand for. -/
theorem parsePairs_hex {string : Text} {n : ℕ} (hlen : string.length = 2 * n)
    (hhex : string.IsHex) : ∃ bytes, parsePairs n string = .value bytes ∧ bytes.length = n ∧
      bytes.flatMap digits = string.upper := by
  induction n generalizing string with
  | zero =>
    obtain rfl := List.length_eq_zero_iff.mp hlen
    exact ⟨[], rfl, rfl, rfl⟩
  | succ n ih =>
    match string with
    | [] => simp at hlen
    | [_] => simp at hlen; omega
    | a :: b :: rest =>
      have ha := hhex a (by simp)
      have hb := hhex b (by simp)
      have hlen' : rest.length = 2 * n := by
        simp only [List.length_cons] at hlen
        omega
      have hhex' : Text.IsHex rest := fun c hc => hhex c (by simp [hc])
      obtain ⟨bytes, hparse, hbytes, hdigits⟩ := ih hlen' hhex'
      obtain ⟨byte, hbyte, hdigit⟩ := Option.map_eq_some_iff.mp (radix_digits a ha b hb)
      have hsplit : Text.splitAt (a :: b :: rest) 2 = some ([a, b], rest) :=
        Text.splitAt_eq_some.mpr ⟨rfl, len_of_readPair (.digits ha hb)⟩
      refine ⟨byte :: bytes, ?_, by simp [hbytes], ?_⟩
      · simp only [parsePairs, hsplit, hbyte, hparse, Parsed.bind_value]
      · rw [List.flatMap_cons, hdigit, hdigits]
        rfl

theorem text_ofBytes {bytes : Bytes} (h : bytes.length = 32) :
    text ⟨Vector.ofFn fun i => bytes.getD i 0⟩ = bytes.flatMap digits := by
  have hlist : (Vector.ofFn fun i : Fin 32 => bytes.getD i 0).toList = bytes := by
    apply List.ext_getElem
    · simp [h]
    · intro i hi hi'
      simp [List.getElem?_eq_getElem hi']
  rw [text_eq, hlist]

/-- `from_str` returns, with an identifier exactly on 64 hexadecimal digits, which it displays in
upper case. -/
structure ParsesGrammar (string : Text) : Prop where
  returns : fromStr string ≠ .panic
  accepts : (∃ id, fromStr string = .ok id) ↔ string.length = 64 ∧ string.IsHex
  displays : ∀ id, fromStr string = .ok id → id.text = string.upper

theorem len_of_hex {string : Text} (h : string.IsHex) : string.len = string.length := by
  induction string with
  | nil => rfl
  | cons c string ih =>
    rw [Text.len_cons, utf8Size_of_hex c (h c (by simp)), ih fun d hd => h d (by simp [hd])]
    rw [List.length_cons, Nat.add_comm]

theorem fromStr_hex {string : Text} (hlen : string.length = 64) (hhex : string.IsHex) :
    ∃ id, fromStr string = .ok id ∧ id.text = string.upper := by
  obtain ⟨bytes, hparse, hbytes, hdigits⟩ := parsePairs_hex (n := 32) hlen hhex
  refine ⟨_, ?_, (text_ofBytes hbytes).trans hdigits⟩
  rw [fromStr_eq ((len_of_hex hhex).trans hlen), hparse]

theorem parsesGrammar_iff {string : Text} : ParsesGrammar string ↔
    string.len ≠ 64 ∨ string.length = 64 ∧ string.IsHex ∨ string.ReachesInvalid := by
  by_cases hhex : string.length = 64 ∧ string.IsHex
  · obtain ⟨id, hid, htext⟩ := fromStr_hex hhex.1 hhex.2
    refine iff_of_true ⟨by simp [hid], iff_of_true ⟨id, hid⟩ hhex, ?_⟩ (.inr (.inl hhex))
    intro id' hid'
    obtain rfl : id = id' := by simpa [hid] using hid'
    exact htext
  · by_cases hlen : string.len = 64
    · have heq := fromStr_eq hlen
      have herror := parsePairs_error_iff (n := 32) hlen
      simp only [hlen, ne_eq, not_true_eq_false, hhex, false_or, ← herror]
      cases hparse : parsePairs 32 string with
      | value bytes =>
        rw [hparse] at heq
        exact iff_of_false (fun h => hhex (h.accepts.mp ⟨_, heq⟩)) (by simp)
      | error =>
        rw [hparse] at heq
        exact iff_of_true ⟨by simp [heq], by simp [heq, hhex], by simp [heq]⟩ rfl
      | panic =>
        rw [hparse] at heq
        exact iff_of_false (fun h => h.returns heq) (by simp)
    · have heq : fromStr string = .err "String length insufficient" := if_pos hlen
      exact iff_of_true ⟨by simp [heq], by simp [heq, hhex], by simp [heq]⟩ (.inl hlen)

/-- `from_str` keeps to its grammar exactly on the strings of another length than 64 bytes, those
of 64 digits and those whose first unreadable pair cuts no character; two such strings with the same
identifier differ in case alone. -/
theorem fromStr_grammar_iff (string : Text) :
    (ParsesGrammar string ↔
      string.len ≠ 64 ∨ string.length = 64 ∧ string.IsHex ∨ string.ReachesInvalid) ∧
    ∀ other id, ParsesGrammar string → ParsesGrammar other → fromStr string = .ok id →
      fromStr other = .ok id → string.upper = other.upper :=
  ⟨parsesGrammar_iff, fun _ id hs ho hid hid' =>
    (hs.displays id hid).symm.trans (ho.displays id hid')⟩

/-- A plus sign stands in for a zero, and a character of two bytes after one digit panics. -/
theorem sign_accepted :
    ¬ ParsesGrammar ('+' :: '1' :: List.replicate 62 '0') ∧
      fromStr ('+' :: '1' :: List.replicate 62 '0') =
        fromStr ('0' :: '1' :: List.replicate 62 '0') ∧
      fromStr ('0' :: 'é' :: List.replicate 61 '0') = .panic := by
  have hsign : ∃ id, fromStr ('+' :: '1' :: List.replicate 62 '0') = .ok id := ⟨_, rfl⟩
  refine ⟨fun h => ?_, rfl, rfl⟩
  exact absurd (h.accepts.mp hsign).2 (by decide)

end Identifier

end Uip
