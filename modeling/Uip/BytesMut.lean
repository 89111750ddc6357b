import Uip.DataPeers

/-! Byte buffers: reading and consuming their front, big-endian numbers and the errors of
codecs. `none` stands for a panic. -/
namespace Uip

inductive ErrorKind
  | invalidData
  | other
  deriving DecidableEq

structure Error where
  kind : ErrorKind
  message : String
  deriving DecidableEq

namespace Bytes

/-- `src[start..stop]` -/
def slice (src : Bytes) (start stop : ℕ) : Option Bytes :=
  if start ≤ stop ∧ stop ≤ src.length then some ((src.drop start).take (stop - start)) else none

def advance (src : Bytes) (n : ℕ) : Option Bytes :=
  if n ≤ src.length then some (src.drop n) else none

def splitTo (src : Bytes) (n : ℕ) : Option (Bytes × Bytes) :=
  if n ≤ src.length then some (src.take n, src.drop n) else none

@[simp] theorem advance_append (a b : Bytes) : advance (a ++ b) a.length = some b := by
  simp [advance]

theorem advance_eq_some {src rest : Bytes} {n : ℕ} :
    advance src n = some rest ↔ n ≤ src.length ∧ rest = src.drop n := by
  simp [advance, eq_comm]

end Bytes

namespace BigEndian

def readU16 : Bytes → Option UInt16
  | high :: low :: _ => some (UInt16.ofNat (high.toNat * 256 + low.toNat))
  | _ => none

def putU16 (n : UInt16) : Bytes := [UInt8.ofNat (n.toNat / 256), UInt8.ofNat n.toNat]

@[simp] theorem length_putU16 (n : UInt16) : (putU16 n).length = 2 := rfl

@[simp] theorem readU16_putU16 (n : UInt16) (rest : Bytes) :
    readU16 (putU16 n ++ rest) = some n := by
  have hn := n.toNat_lt
  have hhigh : (UInt8.ofNat (n.toNat / 256)).toNat = n.toNat / 256 := by
    rw [UInt8.toNat_ofNat']
    omega
  have hlow : (UInt8.ofNat n.toNat).toNat = n.toNat % 256 := UInt8.toNat_ofNat'
  have hval : (UInt8.ofNat (n.toNat / 256)).toNat * 256 + (UInt8.ofNat n.toNat).toNat =
      n.toNat := by
    rw [hhigh, hlow]
    omega
  simp only [putU16, List.cons_append, List.nil_append, readU16, hval, UInt16.ofNat_toNat]

theorem putU16_of_bytes (high low : UInt8) :
    putU16 (UInt16.ofNat (high.toNat * 256 + low.toNat)) = [high, low] := by
  have hh := high.toNat_lt
  have hl := low.toNat_lt
  have hval : (UInt16.ofNat (high.toNat * 256 + low.toNat)).toNat =
      high.toNat * 256 + low.toNat := by
    rw [UInt16.toNat_ofNat']
    omega
  have hhigh : (high.toNat * 256 + low.toNat) / 256 = high.toNat := by omega
  have hlow : (high.toNat * 256 + low.toNat) % 256 = low.toNat := by omega
  rw [putU16, hval, hhigh, ← UInt8.ofNat_mod_size (x := high.toNat * 256 + low.toNat)]
  simp [hlow]

end BigEndian

end Uip
