import Mathlib.Data.List.Basic

/-!
# Big-endian words

The network order of 16-bit and 32-bit words: the most significant octet first.

## Main definitions

* `octets16`, `octets32`: the octets of a word
* `word16`, `word32`: the word of given octets

## Main results

* `word16_octets16`, `word32_octets32`: the octets of a word determine it
* `octets16_word16`: every two octets are those of a word
-/

namespace BigEndian

/-- The octets of a 16-bit word. -/
def octets16 (w : UInt16) : List UInt8 := [.ofNat (w.toNat / 256), .ofNat w.toNat]

/-- The 16-bit word of two octets. -/
def word16 (a b : UInt8) : UInt16 := .ofNat (a.toNat * 256 + b.toNat)

/-- The octets of a 32-bit word. -/
def octets32 (w : UInt32) : List UInt8 :=
  [.ofNat (w.toNat / 16777216), .ofNat (w.toNat / 65536), .ofNat (w.toNat / 256), .ofNat w.toNat]

/-- The 32-bit word of four octets. -/
def word32 (a b c d : UInt8) : UInt32 :=
  .ofNat (a.toNat * 16777216 + b.toNat * 65536 + c.toNat * 256 + d.toNat)

@[simp] theorem octets16_length (w : UInt16) : (octets16 w).length = 2 := rfl

@[simp] theorem octets32_length (w : UInt32) : (octets32 w).length = 4 := rfl

theorem word16_toNat (a b : UInt8) : (word16 a b).toNat = a.toNat * 256 + b.toNat := by
  have ha := a.toNat_lt
  have hb := b.toNat_lt
  simp only [word16, UInt16.toNat_ofNat']
  omega

theorem word32_toNat (a b c d : UInt8) :
    (word32 a b c d).toNat = a.toNat * 16777216 + b.toNat * 65536 + c.toNat * 256 + d.toNat := by
  have ha := a.toNat_lt
  have hb := b.toNat_lt
  have hc := c.toNat_lt
  have hd := d.toNat_lt
  simp only [word32, UInt32.toNat_ofNat']
  omega

@[simp] theorem word16_octets16 (w : UInt16) :
    word16 (.ofNat (w.toNat / 256)) (.ofNat w.toNat) = w := by
  have hw := w.toNat_lt
  apply UInt16.toNat_inj.mp
  simp only [word16_toNat, UInt8.toNat_ofNat']
  omega

@[simp] theorem word32_octets32 (w : UInt32) :
    word32 (.ofNat (w.toNat / 16777216)) (.ofNat (w.toNat / 65536)) (.ofNat (w.toNat / 256))
      (.ofNat w.toNat) = w := by
  have hw := w.toNat_lt
  apply UInt32.toNat_inj.mp
  simp only [word32_toNat, UInt8.toNat_ofNat']
  omega

@[simp] theorem octets16_word16 (a b : UInt8) : octets16 (word16 a b) = [a, b] := by
  have ha := a.toNat_lt
  have hb := b.toNat_lt
  simp only [octets16, word16_toNat, List.cons.injEq, and_true]
  constructor <;> apply UInt8.toNat_inj.mp <;> simp only [UInt8.toNat_ofNat'] <;> omega

end BigEndian
