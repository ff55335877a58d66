import Mathlib.Algebra.Order.Group.Nat
import Mathlib.Data.List.Basic

/-!
# Numbers in memory

An unsigned number of `k` bytes lies in the memory with its lowest byte first or last, as the
machine has it.  `encode` and `decode` are each other's inverse on numbers that fit, and on all
sequences of bytes.
-/

set_option autoImplicit false

namespace ManyTasks
namespace Lib

inductive ByteOrder where
  | little
  | big
deriving DecidableEq, Repr

/-- The lowest `k` bytes of a number, the lowest one first. -/
def lowBytes : ℕ → ℕ → List UInt8
  | 0, _ => []
  | k + 1, n => UInt8.ofNat n :: lowBytes k (n / 256)

/-- The number with these bytes, the lowest one first. -/
def ofLowBytes : List UInt8 → ℕ
  | [] => 0
  | b :: bs => b.toNat + 256 * ofLowBytes bs

theorem length_lowBytes (k n : ℕ) : (lowBytes k n).length = k := by
  induction k generalizing n with
  | zero => rfl
  | succ k ih => rw [lowBytes, List.length_cons, ih]

theorem ofLowBytes_lowBytes (k n : ℕ) : ofLowBytes (lowBytes k n) = n % 256 ^ k := by
  induction k generalizing n with
  | zero => rw [lowBytes, ofLowBytes, Nat.pow_zero, Nat.mod_one]
  | succ k ih =>
    have hbyte : (UInt8.ofNat n).toNat = n % 256 := UInt8.toNat_ofNat'
    rw [lowBytes, ofLowBytes, ih, hbyte, Nat.pow_succ', Nat.mod_mul]

theorem ofLowBytes_lt (bs : List UInt8) : ofLowBytes bs < 256 ^ bs.length := by
  induction bs with
  | nil => exact Nat.one_pos
  | cons b bs ih =>
    have hb := b.toNat_lt
    rw [ofLowBytes, List.length_cons, Nat.pow_succ]
    omega

theorem lowBytes_ofLowBytes (bs : List UInt8) : lowBytes bs.length (ofLowBytes bs) = bs := by
  induction bs with
  | nil => rfl
  | cons b bs ih =>
    have hb := b.toNat_lt
    have hdiv : (b.toNat + 256 * ofLowBytes bs) / 256 = ofLowBytes bs := by omega
    have hbyte : UInt8.ofNat (b.toNat + 256 * ofLowBytes bs) = b := by
      rw [← UInt8.toNat_inj, UInt8.toNat_ofNat']
      omega
    rw [List.length_cons, ofLowBytes, lowBytes, hdiv, ih, hbyte]

namespace ByteOrder

/-- The memory of a number of `k` bytes. -/
def encode : ByteOrder → ℕ → ℕ → List UInt8
  | little, k, n => lowBytes k n
  | big, k, n => (lowBytes k n).reverse

/-- The number in this memory. -/
def decode : ByteOrder → List UInt8 → ℕ
  | little, bs => ofLowBytes bs
  | big, bs => ofLowBytes bs.reverse

@[simp] theorem length_encode (o : ByteOrder) (k n : ℕ) : (o.encode k n).length = k := by
  cases o with
  | little => exact length_lowBytes k n
  | big => exact List.length_reverse.trans (length_lowBytes k n)

theorem decode_encode (o : ByteOrder) (k n : ℕ) : o.decode (o.encode k n) = n % 256 ^ k := by
  cases o with
  | little => exact ofLowBytes_lowBytes k n
  | big => rw [encode, decode, List.reverse_reverse, ofLowBytes_lowBytes]

theorem decode_lt (o : ByteOrder) (bs : List UInt8) : o.decode bs < 256 ^ bs.length := by
  cases o with
  | little => exact ofLowBytes_lt bs
  | big => exact List.length_reverse ▸ ofLowBytes_lt bs.reverse

theorem encode_decode (o : ByteOrder) (bs : List UInt8) :
    o.encode bs.length (o.decode bs) = bs := by
  cases o with
  | little => exact lowBytes_ofLowBytes bs
  | big =>
    have h := lowBytes_ofLowBytes bs.reverse
    rw [List.length_reverse] at h
    rw [encode, decode, h, List.reverse_reverse]

end ByteOrder

end Lib
end ManyTasks
