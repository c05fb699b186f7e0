import Mathlib.Data.List.TakeWhile

/-!
# Octet strings and faults

The model runs in `Except Fault`: a step that would leave the objects of the program faults, and
the fault names the access. Character pointers are modelled by the strings they point to.

## Main definitions

* `Fault`: the accesses that leave the objects of the program
* `CString`: the octets of a string before its terminator
* `streamLength`, `streamCopy`, `streamCompare`: the string functions of `util/type.h`
* `hash`: the FNV-1a hash of `ds/hash.h`
-/

namespace Adrift

/-- The accesses a step of the program cannot survive. -/
inductive Fault
  /-- A read past the end of the receive buffer. -/
  | readPastBuffer
  /-- A write of `stream_copy` past the `key` field of a hash-map entry. -/
  | writePastKey
  /-- A read of `stream_compare` past the `key` field of a hash-map entry. -/
  | readPastKey
  /-- An access to a node that was freed or never allocated. -/
  | useAfterFree
  /-- An access through a null pointer. -/
  | nullPointer
  /-- An index outside the `child` array of a trie node. -/
  | childOutOfRange
  /-- A loop over a cyclic list. -/
  | endless
  deriving DecidableEq, Repr

/-- A string: the octets before the terminating zero. -/
structure CString where
  octets : List UInt8
  /-- The terminator is not part of the string. -/
  zero_notMem : 0 ∉ octets
  deriving DecidableEq

/-- The octets of an ASCII literal. -/
def ascii (s : String) : List UInt8 := s.toList.map fun c => .ofNat c.toNat

-- along the string, and not over the 256 octets
instance decidableForallOctets (s : List UInt8) (p : UInt8 → Prop) [DecidablePred p] :
    Decidable (∀ c ∈ s, p c) :=
  List.decidableBAll p s

namespace CString

/-- The string at the start of a block: what stands before its first zero. -/
def ofBlock (block : List UInt8) : CString where
  octets := block.takeWhile (· ≠ 0)
  zero_notMem h := by simpa using List.mem_takeWhile_imp h

theorem ofBlock_octets (s : CString) : ofBlock s.octets = s := by
  obtain ⟨octets, h⟩ := s
  have he : octets.takeWhile (· ≠ 0) = octets :=
    List.takeWhile_eq_self_iff.mpr fun x hx => by
      simp only [ne_eq, decide_not, Bool.not_eq_true', decide_eq_false_iff_not]
      exact fun e => h (e ▸ hx)
  simp only [ofBlock, he]

@[ext] theorem ext {s t : CString} (h : s.octets = t.octets) : s = t := by
  cases s
  cases t
  simpa using h

end CString

/-- `min_u32`. -/
def minU32 (a b : UInt32) : UInt32 := if a < b then a else b

/-- `stream_length`. -/
def streamLength (str : CString) : Nat := str.octets.length

/-- `stream_copy` into a field: the source without its terminator over the first octets, as far
as the field reaches. -/
def streamCopy : List UInt8 → List UInt8 → Except Fault (List UInt8)
  | dst, [] => .ok dst
  | [], _ :: _ => .error .writePastKey
  | _ :: dst, c :: src => (c :: ·) <$> streamCopy dst src

/-- `stream_compare` of a field with a string: the first difference, or zero. -/
def streamCompare : List UInt8 → List UInt8 → Except Fault Int
  | [], _ => .error .readPastKey
  | d :: _, [] => .ok d.toNat
  | d :: dst, s :: src =>
    if d ≠ 0 ∧ s ≠ 0 ∧ d = s then streamCompare dst src else .ok (d.toNat - s.toNat)

/-- `FNV_OFFSET_BASIS`. -/
def fnvOffsetBasis : UInt64 := 0xcbf29ce484222325

/-- `FNV_PRIME`. -/
def fnvPrime : UInt64 := 0x100000001b3

/-- `hash`: FNV-1a over the octets. -/
def hash (data : List UInt8) : UInt64 :=
  data.foldl (fun h c => (h ^^^ c.toUInt64) * fnvPrime) fnvOffsetBasis

end Adrift
