import Mathlib.Data.Nat.Digits.Lemmas
import Mathlib.Tactic.Ring

/-!
# Fixed-width words as bytes

A 64-bit word in memory is eight bytes, lowest first on a little-endian machine and highest
first on a big-endian one.  `encode` and `decode` are the two directions, and a record is a run
of words laid end to end.
-/

namespace WordBytes

inductive Endian where
  | little
  | big
  deriving DecidableEq, Repr

/-- The `width` low base-256 digits of `n`, lowest first. -/
def lowBytes : Nat → Nat → List UInt8
  | 0, _ => []
  | width + 1, n => UInt8.ofNat n :: lowBytes width (n / 256)

def ofLowBytes : List UInt8 → Nat
  | [] => 0
  | b :: bs => b.toNat + 256 * ofLowBytes bs

def Endian.arrange : Endian → List UInt8 → List UInt8
  | .little, bs => bs
  | .big, bs => bs.reverse

def encode (e : Endian) (v : UInt64) : List UInt8 := e.arrange (lowBytes 8 v.toNat)

def decode (e : Endian) (bs : List UInt8) : UInt64 := UInt64.ofNat (ofLowBytes (e.arrange bs))

@[simp] theorem length_lowBytes (width n : Nat) : (lowBytes width n).length = width := by
  induction width generalizing n with
  | zero => rfl
  | succ width ih => simp [lowBytes, ih]

theorem ofLowBytes_lowBytes (width n : Nat) :
    ofLowBytes (lowBytes width n) = n % 256 ^ width := by
  induction width generalizing n with
  | zero => simp [lowBytes, ofLowBytes, Nat.mod_one]
  | succ width ih =>
      rw [lowBytes, ofLowBytes, ih, UInt8.toNat_ofNat', pow_succ' 256 width]
      exact Nat.mod_mul.symm

@[simp] theorem length_arrange (e : Endian) (bs : List UInt8) :
    (e.arrange bs).length = bs.length := by
  cases e <;> simp [Endian.arrange]

@[simp] theorem arrange_arrange (e : Endian) (bs : List UInt8) :
    e.arrange (e.arrange bs) = bs := by
  cases e <;> simp [Endian.arrange]

@[simp] theorem length_encode (e : Endian) (v : UInt64) : (encode e v).length = 8 := by
  simp [encode]

@[simp] theorem decode_encode (e : Endian) (v : UInt64) : decode e (encode e v) = v := by
  rw [decode, encode, arrange_arrange, ofLowBytes_lowBytes]
  have hv : v.toNat < 256 ^ 8 := v.toNat_lt
  rw [Nat.mod_eq_of_lt hv, UInt64.ofNat_toNat]

def encode32 (e : Endian) (v : UInt32) : List UInt8 := e.arrange (lowBytes 4 v.toNat)

def decode32 (e : Endian) (bs : List UInt8) : UInt32 := UInt32.ofNat (ofLowBytes (e.arrange bs))

@[simp] theorem length_encode32 (e : Endian) (v : UInt32) : (encode32 e v).length = 4 := by
  simp [encode32]

@[simp] theorem decode32_encode32 (e : Endian) (v : UInt32) : decode32 e (encode32 e v) = v := by
  rw [decode32, encode32, arrange_arrange, ofLowBytes_lowBytes]
  have hv : v.toNat < 256 ^ 4 := v.toNat_lt
  rw [Nat.mod_eq_of_lt hv, UInt32.ofNat_toNat]

/-- The word at byte offset `off`, if all eight of its bytes are there. -/
def wordAt (e : Endian) (bs : List UInt8) (off : Nat) : Option UInt64 :=
  if off + 8 ≤ bs.length then some (decode e ((bs.drop off).take 8)) else none

theorem wordAt_eq_some {e : Endian} {bs : List UInt8} {off : Nat} (h : off + 8 ≤ bs.length) :
    wordAt e bs off = some (decode e ((bs.drop off).take 8)) := if_pos h

theorem wordAt_isSome {e : Endian} {bs : List UInt8} {off : Nat} {v : UInt64}
    (h : wordAt e bs off = some v) : off + 8 ≤ bs.length := by
  by_contra hlt
  simp [wordAt, hlt] at h

def encodeAll (e : Endian) (vs : List UInt64) : List UInt8 := vs.flatMap (encode e)

@[simp] theorem length_encodeAll (e : Endian) (vs : List UInt64) :
    (encodeAll e vs).length = 8 * vs.length := by
  induction vs with
  | nil => rfl
  | cons v vs ih =>
      rw [encodeAll, List.flatMap_cons, List.length_append, length_encode, ← encodeAll, ih,
        List.length_cons]
      ring

theorem drop_encodeAll (e : Endian) (vs : List UInt64) (i : Nat) :
    (encodeAll e vs).drop (8 * i) = encodeAll e (vs.drop i) := by
  induction i generalizing vs with
  | zero => rfl
  | succ i ih =>
      cases vs with
      | nil => simp [encodeAll]
      | cons v vs =>
          have hlen : 8 * (i + 1) = (encode e v).length + 8 * i := by simp; ring
          rw [encodeAll, List.flatMap_cons, hlen, ← List.drop_drop, List.drop_left,
            List.drop_succ_cons]
          exact ih vs

theorem decode_encodeAll (e : Endian) (vs : List UInt64) (i : Nat) (hi : i < vs.length) :
    decode e (((encodeAll e vs).drop (8 * i)).take 8) = vs[i] := by
  rw [drop_encodeAll, List.drop_eq_getElem_cons hi, encodeAll, List.flatMap_cons,
    List.take_left' (length_encode e _), decode_encode]

end WordBytes
