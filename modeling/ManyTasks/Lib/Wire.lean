import Mathlib.Algebra.Order.Group.Nat
import Mathlib.Data.List.Basic
import Mathlib.Data.List.Flatten

/-!
# Fields on the wire

The wire format of protobuf, as far as strings and messages need it: a message is a sequence of
fields, and such a field is its number, its length and its bytes.  Fields of other types are
skipped.

`fields_flatMap` says that the fields that have been written are read again.
-/

set_option autoImplicit false

namespace ManyTasks
namespace Lib
namespace Wire

/-- A number in groups of seven bits, the lowest ones first; the highest bit says that there are
more. -/
def varint (n : ℕ) : List UInt8 :=
  if n < 128 then [UInt8.ofNat n] else UInt8.ofNat (n % 128 + 128) :: varint (n / 128)

def readVarint : List UInt8 → Option (ℕ × List UInt8)
  | [] => none
  | b :: bs =>
    if b.toNat < 128 then some (b.toNat, bs)
    else (readVarint bs).map fun (n, rest) ↦ (b.toNat - 128 + 128 * n, rest)

theorem readVarint_varint (n : ℕ) (rest : List UInt8) :
    readVarint (varint n ++ rest) = some (n, rest) := by
  induction n using Nat.strong_induction_on with
  | _ n ih =>
    rw [varint]
    split
    · rename_i hlt
      have hbyte : (UInt8.ofNat n).toNat = n := Nat.mod_eq_of_lt (by omega : _ < 2 ^ 8)
      rw [List.singleton_append, readVarint, hbyte, if_pos hlt]
    · rename_i hge
      have hbyte : (UInt8.ofNat (n % 128 + 128)).toNat = n % 128 + 128 :=
        Nat.mod_eq_of_lt (by omega : _ < 2 ^ 8)
      have hn : n % 128 + 128 - 128 + 128 * (n / 128) = n := by omega
      rw [List.cons_append, readVarint, hbyte, if_neg (by omega), ih (n / 128) (by omega),
        Option.map_some]
      dsimp only
      rw [hn]

/-- A field of bytes. -/
def delimited (number : ℕ) (payload : List UInt8) : List UInt8 :=
  varint (8 * number + 2) ++ (varint payload.length ++ payload)

/-- The rest after a field of another type. -/
def skipField (type : ℕ) (bs : List UInt8) : Option (List UInt8) :=
  match type with
  | 0 => (readVarint bs).map Prod.snd
  | 1 => if 8 ≤ bs.length then some (bs.drop 8) else none
  | 5 => if 4 ≤ bs.length then some (bs.drop 4) else none
  | _ => none

/-- The fields of bytes of a message, at most so many. -/
def fields : ℕ → List UInt8 → Option (List (ℕ × List UInt8))
  | _, [] => some []
  | 0, _ => none
  | fuel + 1, bs => do
    let (key, bs) ← readVarint bs
    if key / 8 = 0 then none
    else if key % 8 = 2 then do
      let (size, bs) ← readVarint bs
      if size ≤ bs.length then (fields fuel (bs.drop size)).map ((key / 8, bs.take size) :: ·)
        else none
    else do
      let bs ← skipField (key % 8) bs
      fields fuel bs

theorem length_varint_le (n : ℕ) : (varint n).length ≤ n + 1 := by
  induction n using Nat.strong_induction_on with
  | _ n ih =>
    rw [varint]
    split
    · exact Nat.le_add_left 1 n
    · have hrest := ih (n / 128) (by omega)
      rw [List.length_cons]
      omega

theorem length_delimited_le (number : ℕ) (payload : List UInt8) :
    (delimited number payload).length ≤ 2 * payload.length + (8 * number + 4) := by
  have hkey := length_varint_le (8 * number + 2)
  have hsize := length_varint_le payload.length
  rw [delimited, List.length_append, List.length_append]
  omega

theorem varint_ne_nil (n : ℕ) : varint n ≠ [] := by
  rw [varint]
  split
  · exact List.cons_ne_nil _ _
  · exact List.cons_ne_nil _ _

theorem fields_delimited {number : ℕ} (hnumber : number ≠ 0) (fuel : ℕ)
    (payload rest : List UInt8) :
    fields (fuel + 1) (delimited number payload ++ rest)
      = (fields fuel rest).map ((number, payload) :: ·) := by
  have hne : delimited number payload ++ rest ≠ [] :=
    List.append_ne_nil_of_left_ne_nil (List.append_ne_nil_of_left_ne_nil (varint_ne_nil _) _) _
  have hdiv : (8 * number + 2) / 8 = number := by omega
  have hmod : (8 * number + 2) % 8 = 2 := by omega
  rw [fields]
  · have hkey : ¬ 8 * number + 2 < 8 := by omega
    simp [delimited, readVarint_varint, hdiv, hmod, hkey]
  · exact hne

/-- The fields that have been written are read. -/
theorem fields_flatMap {fs : List (ℕ × List UInt8)} (hfs : ∀ f ∈ fs, f.1 ≠ 0) {fuel : ℕ}
    (hfuel : fs.length ≤ fuel) :
    fields fuel (fs.flatMap fun f ↦ delimited f.1 f.2) = some fs := by
  induction fs generalizing fuel with
  | nil => cases fuel <;> rfl
  | cons f fs ih =>
    obtain ⟨fuel, rfl⟩ := Nat.exists_eq_add_of_le' (Nat.le_trans (Nat.le_add_left 1 _) hfuel)
    have hrest := ih (fun f hf ↦ hfs f (List.mem_cons_of_mem _ hf)) (Nat.le_of_succ_le_succ hfuel)
    rw [List.flatMap_cons, fields_delimited (hfs f List.mem_cons_self), hrest, Option.map_some]

theorem length_le_flatMap (fs : List (ℕ × List UInt8)) :
    fs.length ≤ (fs.flatMap fun f ↦ delimited f.1 f.2).length := by
  induction fs with
  | nil => exact Nat.le_refl 0
  | cons f fs ih =>
    have hpos : 0 < (delimited f.1 f.2).length :=
      List.length_pos_of_ne_nil (List.append_ne_nil_of_left_ne_nil (varint_ne_nil _) _)
    rw [List.flatMap_cons, List.length_append, List.length_cons]
    omega

end Wire
end Lib
end ManyTasks
