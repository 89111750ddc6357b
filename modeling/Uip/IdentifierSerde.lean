import Uip.DisplayTexts
import Uip.IdentifierParsing

/-!
# The two parsers of identifiers

`FromStr` and `Deserialize` as they are written, each with a loop that fills an array and with its
own errors. Both are shown to do what the parsers of the other models do.
-/
namespace Uip
open Formatting

/-- What a function that may panic comes to. -/
inductive Outcome (ε α : Type)
  | ok (a : α)
  | err (e : ε)
  | panic
  deriving DecidableEq

def Outcome.forget {ε α : Type} : Outcome ε α → Parsed α
  | ok a => .value a
  | err _ => .error
  | panic => .panic

theorem Outcome.forget_eq_value {ε α : Type} {o : Outcome ε α} {a : α} :
    o.forget = .value a ↔ o = .ok a := by
  cases o <;> simp [forget]

/-- `serde::de::Error`: the errors for a length and for a string, with what was expected. -/
structure DeError (ε : Type) where
  invalidLength : ℕ → String → ε
  invalidValue : Text → String → ε

/-- A data format reads a string that it has written. -/
structure StringFormat (ε σ : Type) where
  serializeStr : Text → Except ε σ
  deserializeString : σ → Except ε Text
  reads : ∀ string s, serializeStr string = .ok s → deserializeString s = .ok string

namespace IdentifierSerde

variable {ε σ : Type}

abbrev Ident := Vector UInt8 32

def fromStrLoop (string : Text) : List (Fin 32) → Ident → Outcome String Ident
  | [], ident => .ok ident
  | i :: turns, ident =>
    match string.slice (i * 2) (i * 2 + 2) with
    | none => .panic
    | some digits =>
      match fromStrRadix16 digits with
      | none => .err "Invalid characters in string"
      | some byte => fromStrLoop string turns (ident.set i byte)

def fromStr (string : Text) : Outcome String Identifier :=
  if string.len ≠ 2 * 32 then .err "String length insufficient"
  else
    match fromStrLoop string (List.finRange 32) (Vector.replicate 32 0) with
    | .ok ident => .ok ⟨ident⟩
    | .err message => .err message
    | .panic => .panic

def serialize (format : StringFormat ε σ) (id : Identifier) : Except ε σ :=
  format.serializeStr id.text

def deserializeLoop (errors : DeError ε) (string : Text) : List (Fin 32) → Ident → Outcome ε Ident
  | [], ident => .ok ident
  | i :: turns, ident =>
    match string.slice (i * 2) (i * 2 + 2) with
    | none => .panic
    | some digits =>
      match fromStrRadix16 digits with
      | none =>
        -- The error slices the string again.
        match string.slice (i * 2) (i * 2 + 2) with
        | none => .panic
        | some unexpected => .err (errors.invalidValue unexpected "a valid hex value")
      | some byte => deserializeLoop errors string turns (ident.set i byte)

/-- `deserialize`, given what the deserializer has for a string. -/
def deserialize (errors : DeError ε) : Except ε Text → Outcome ε Identifier
  | .error e => .err e
  | .ok string =>
    if string.len ≠ 2 * 32 then .err (errors.invalidLength string.len "64 characters")
    else
      match deserializeLoop errors string (List.finRange 32) (Vector.replicate 32 0) with
      | .ok ident => .ok ⟨ident⟩
      | .err e => .err e
      | .panic => .panic

/-- The same value, an error each for the same reason, or a panic each. -/
inductive Corresponds {α : Type} (errors : DeError ε) (string : Text) :
    Outcome String α → Outcome ε α → Prop
  | ok (a : α) : Corresponds errors string (.ok a) (.ok a)
  | length (h : string.len ≠ 64) : Corresponds errors string (.err "String length insufficient")
      (.err (errors.invalidLength string.len "64 characters"))
  | characters {i : Fin 32} {digits : Text}
      (hslice : string.slice (i * 2) (i * 2 + 2) = some digits)
      (h : fromStrRadix16 digits = none) : Corresponds errors string
      (.err "Invalid characters in string") (.err (errors.invalidValue digits "a valid hex value"))
  | panic : Corresponds errors string .panic .panic

section Agreement
variable (errors : DeError ε) (string : Text)

variable {errors string} in
theorem Corresponds.forget {α : Type} {a : Outcome String α} {b : Outcome ε α}
    (h : Corresponds errors string a b) : a.forget = b.forget := by
  cases h <;> rfl

/-- Turn by turn, the loops do the same. -/
theorem loops_correspond (turns : List (Fin 32)) (ident : Ident) :
    Corresponds errors string (fromStrLoop string turns ident)
      (deserializeLoop errors string turns ident) := by
  induction turns generalizing ident with
  | nil => exact .ok ident
  | cons i turns ih =>
    rw [fromStrLoop, deserializeLoop]
    cases hslice : string.slice (i * 2) (i * 2 + 2) with
    | none => exact .panic
    | some digits =>
      cases hbyte : fromStrRadix16 digits with
      | none =>
        simp only [hbyte]
        exact .characters hslice hbyte
      | some byte =>
        simp only [hbyte]
        exact ih (ident.set i byte)

/-- The two parsers come to the same, and to errors for the same reason. -/
theorem outcomes_correspond :
    Corresponds errors string (fromStr string) (deserialize errors (.ok string)) := by
  rw [fromStr, deserialize]
  split_ifs with hlen
  · exact .length hlen
  · have h := loops_correspond errors string (List.finRange 32) (Vector.replicate 32 0)
    generalize fromStrLoop string (List.finRange 32) (Vector.replicate 32 0) = a at h ⊢
    generalize deserializeLoop errors string (List.finRange 32) (Vector.replicate 32 0) = b at h ⊢
    cases h with
    | ok ident => exact .ok _
    | length h => exact .length h
    | characters hslice h => exact .characters hslice h
    | panic => exact .panic

end Agreement

section Refinement
variable {string : Text} {f : Fin 32 → UInt8} {ident : Ident}

def fill (ident : Ident) : List (Fin 32) → Bytes → Ident
  | i :: turns, byte :: bytes => fill (ident.set i byte) turns bytes
  | _, _ => ident

theorem fromStrLoop_eq (turns : List (Fin 32)) (ident : Ident) :
    fromStrLoop string turns ident =
      match Identifier.readBytes string (turns.map Fin.val) with
      | .value bytes => .ok (fill ident turns bytes)
      | .error => .err "Invalid characters in string"
      | .panic => .panic := by
  induction turns generalizing ident with
  | nil => rfl
  | cons i turns ih =>
    rw [fromStrLoop, List.map_cons, Identifier.readBytes, Identifier.readByte]
    cases string.slice (i * 2) (i * 2 + 2) with
    | none => rfl
    | some digits =>
      cases hbyte : fromStrRadix16 digits with
      | none => simp only [hbyte, Parsed.bind]
      | some byte =>
        simp only [hbyte, Parsed.bind_value, ih]
        cases Identifier.readBytes string (turns.map Fin.val) <;> rfl

theorem get_fill (turns : List (Fin 32)) (ident : Ident) (j : Fin 32) :
    (j ∈ turns → (fill ident turns (turns.map f)).get j = f j) ∧
      (j ∉ turns → (fill ident turns (turns.map f)).get j = ident.get j) := by
  induction turns generalizing ident with
  | nil => exact ⟨fun hj => absurd hj List.not_mem_nil, fun _ => rfl⟩
  | cons i turns ih =>
    obtain ⟨hmem, hnot⟩ := ih (ident.set i (f i))
    rw [List.map_cons, fill]
    constructor
    · intro hj
      by_cases hrest : j ∈ turns
      · exact hmem hrest
      · obtain rfl : j = i := (List.mem_cons.mp hj).resolve_right hrest
        rw [hnot hrest]
        exact Vector.getElem_set_self j.isLt
    · intro hj
      obtain ⟨hij, hrest⟩ := List.ne_and_not_mem_of_not_mem_cons hj
      have hval : i.val ≠ j.val := fun h => hij (Fin.ext h.symm)
      rw [hnot hrest]
      exact Vector.getElem_set_ne i.isLt j.isLt hval

theorem length_readBytes {turns : List ℕ} {bytes : Bytes}
    (h : Identifier.readBytes string turns = .value bytes) : bytes.length = turns.length := by
  induction turns generalizing bytes with
  | nil =>
    obtain rfl : [] = bytes := Parsed.value.inj h
    rfl
  | cons i turns ih =>
    rw [Identifier.readBytes] at h
    cases hbyte : Identifier.readByte string i with
    | value byte =>
      cases hrest : Identifier.readBytes string turns with
      | value rest =>
        rw [hbyte, hrest] at h
        obtain rfl : byte :: rest = bytes := Parsed.value.inj h
        rw [List.length_cons, List.length_cons, ih hrest]
      | error => simp [hbyte, hrest, Parsed.bind] at h
      | panic => simp [hbyte, hrest, Parsed.bind] at h
    | error => simp [hbyte, Parsed.bind] at h
    | panic => simp [hbyte, Parsed.bind] at h

theorem fill_finRange {bytes : Bytes} (h : bytes.length = 32) (ident : Ident) :
    fill ident (List.finRange 32) bytes = Vector.ofFn fun i => bytes.getD i 0 := by
  have hbytes : bytes = (List.finRange 32).map fun i : Fin 32 => bytes.getD i 0 := by
    apply List.ext_getElem
    · simp [h]
    · intro i hi hi'
      simp [List.getElem?_eq_getElem hi]
  apply Vector.ext
  intro i hi
  have hfill := (get_fill (f := fun i : Fin 32 => bytes.getD i 0) (List.finRange 32) ident
    ⟨i, hi⟩).1 (List.mem_finRange _)
  rw [← hbytes] at hfill
  have hget : (fill ident (List.finRange 32) bytes)[i] = bytes.getD i 0 := hfill
  simpa using hget

theorem fromStr_eq (string : Text) :
    fromStr string = match Identifier.fromStr string with
      | .ok id => .ok id
      | .err message => .err message
      | .panic => .panic := by
  rw [fromStr, Identifier.fromStr]
  split_ifs with hlen
  · rfl
  · rw [fromStrLoop_eq, List.map_coe_finRange_eq_range]
    cases hread : Identifier.readBytes string (List.range 32) with
    | value bytes =>
      have hbytes : bytes.length = 32 := (length_readBytes hread).trans (by simp)
      simp only [fill_finRange hbytes]
    | error => rfl
    | panic => rfl

theorem forget_deserialize (errors : DeError ε) (string : Text) :
    (deserialize errors (.ok string)).forget = Identifier.deserialize string := by
  rw [← (outcomes_correspond errors string).forget, fromStr_eq, Identifier.deserialize_eq_fromStr]
  cases Identifier.fromStr string <;> rfl

end Refinement

section RoundTrip

theorem fromStr_text (id : Identifier) : fromStr id.text = .ok id := by
  have h := (outcomes_correspond (⟨fun _ _ => (), fun _ _ => ()⟩ : DeError Unit) id.text).forget
  rw [forget_deserialize, Identifier.deserialize_text] at h
  exact Outcome.forget_eq_value.mp h

theorem deserialize_text (errors : DeError ε) (id : Identifier) :
    deserialize errors (.ok id.text) = .ok id := by
  have h := forget_deserialize errors id.text
  rw [Identifier.deserialize_text] at h
  exact Outcome.forget_eq_value.mp h

/-- `FromStr` inverts `Display` and `Deserialize` inverts `Serialize`, and on every string the two
parsers come to the same identifier, to an error each or to a panic each. -/
theorem parsers_agree (format : StringFormat ε σ) (errors : DeError ε) :
    (∀ id, ∃ text, (∃ frames, Displays display frames (.identifier id) text) ∧
      fromStr text = .ok id) ∧
    (∀ id s, serialize format id = .ok s →
      deserialize errors (format.deserializeString s) = .ok id) ∧
    ∀ string, (fromStr string).forget = (deserialize errors (.ok string)).forget := by
  refine ⟨fun id => ?_, fun id s hs => ?_, fun string => (outcomes_correspond errors string).forget⟩
  · exact ⟨id.text, Shown.displays_identifier_iff.mpr rfl, fromStr_text id⟩
  · rw [format.reads _ _ hs]
    exact deserialize_text errors id

inductive PlainError
  | invalidLength (len : ℕ) (expected : String)
  | invalidValue (unexpected : Text) (expected : String)
  deriving DecidableEq

def plainErrors : DeError PlainError := ⟨.invalidLength, .invalidValue⟩

def plainFormat : StringFormat PlainError Text := ⟨.ok, .ok, fun _ _ h => h.symm⟩

/-- The identifier of zeros is read back, and a cut character panics in both parsers. -/
theorem parsers_agree_plain :
    deserialize plainErrors (plainFormat.deserializeString (List.replicate 64 '0')) =
      .ok ⟨Vector.replicate 32 0⟩ ∧
    (deserialize plainErrors (.ok ('0' :: 'é' :: List.replicate 61 '0'))).forget = .panic :=
  ⟨(parsers_agree plainFormat plainErrors).2.1 ⟨Vector.replicate 32 0⟩ _ rfl,
    ((parsers_agree plainFormat plainErrors).2.2 _).symm.trans rfl⟩

end RoundTrip

end IdentifierSerde

end Uip
