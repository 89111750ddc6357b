import Uip.Formatting
import Uip.IdentifierText

/-!
# The texts that values display

What the implementations of `Display` for identifiers and for errors of the address discovery have
written, and what these need of the standard library.
-/
namespace Uip
open Formatting

inductive AddressDiscoveryError
  | interfacesError (string : Text)
  deriving DecidableEq

def AddressDiscoveryError.description : AddressDiscoveryError → Text
  | interfacesError string => string

/-- A value with the format that it is written in: a byte is written with `{:02X}`. -/
inductive Shown
  | text (string : Text)
  | upperHex (byte : UInt8)
  | identifier (id : Identifier)
  | discoveryError (err : AddressDiscoveryError)
  deriving DecidableEq

def display : Implementation Char Shown
  | .text string => [.literal string]
  | .upperHex byte => [.literal (Identifier.digits byte)]
  | .identifier id => id.bytes.toList.map fun byte => .argument (.upperHex byte)
  -- `write!(f, "{}", self)` calls the implementation that it stands in.
  | .discoveryError err => [.argument (.discoveryError err)]

namespace Shown

/-- How deep the calls for a value are nested, but for errors of the discovery. -/
def depth : Shown → ℕ
  | identifier _ => 1
  | _ => 0

variable {W : Type}

theorem discoveryError_overflow (sink : Sink Char W) (frames : ℕ) (err : AddressDiscoveryError)
    (w : W) : sink.fmt display frames (discoveryError err) w = .overflow :=
  Sink.fmt_overflow (S := Set.range discoveryError)
    (by
      rintro _ ⟨e, rfl⟩
      exact ⟨_, ⟨e, rfl⟩, [], rfl⟩) frames ⟨err, rfl⟩ w

theorem fmt_ends (sink : Sink Char W) {frames : ℕ} {value : Shown}
    (hvalue : ∀ err, value ≠ discoveryError err) (hframes : value.depth < frames) (w : W) :
    sink.fmt display frames value w ≠ .overflow := by
  refine Sink.fmt_of_measure (S := { v | ∀ err, v ≠ discoveryError err }) depth ?_ hvalue
    hframes w
  intro v hv u hu
  cases v with
  | text | upperHex => simp [display] at hu
  | identifier id =>
    obtain ⟨byte, _, heq⟩ := List.mem_map.mp hu
    obtain rfl : upperHex byte = u := Piece.argument.inj heq
    exact ⟨fun _ => nofun, Nat.one_pos⟩
  | discoveryError err => exact absurd rfl (hv err)

/-- Formatting comes to an end for everything but an error of the discovery. -/
theorem fmt_ends_iff (sink : Sink Char W) (value : Shown) (w : W) :
    (∃ frames, sink.fmt display frames value w ≠ .overflow) ↔
      ∀ err, value ≠ discoveryError err := by
  constructor
  · rintro ⟨frames, h⟩ err rfl
    exact h (discoveryError_overflow sink frames err w)
  · intro h
    exact ⟨_, fmt_ends sink h (Nat.lt_succ_self _) w⟩

/-- The text of a value that is no error of the discovery. -/
def plain : Shown → Text
  | text string => string
  | upperHex byte => Identifier.digits byte
  | identifier id => id.text
  | discoveryError _ => []

theorem displays_upperHex (byte : UInt8) :
    Displays display 1 (upperHex byte) (Identifier.digits byte) := by
  have h : Displays display 1 (upperHex byte) _ := displays_pieces plain (by simp [display])
  simpa [display, Piece.text] using h

theorem displays_identifier (id : Identifier) : Displays display 2 (identifier id) id.text := by
  have h : Displays display 2 (identifier id) _ := displays_pieces plain (by
    intro u hu
    obtain ⟨byte, _, heq⟩ := List.mem_map.mp hu
    obtain rfl : upperHex byte = u := Piece.argument.inj heq
    exact displays_upperHex byte)
  rw [display, List.flatMap_map] at h
  rw [Identifier.text_eq]
  exact h

theorem displays_identifier_iff {id : Identifier} {text : Text} :
    (∃ frames, Displays display frames (identifier id) text) ↔ text = id.text := by
  constructor
  · rintro ⟨frames, h⟩
    exact h.unique (displays_identifier id)
  · rintro rfl
    exact ⟨2, displays_identifier id⟩

end Shown

end Uip
