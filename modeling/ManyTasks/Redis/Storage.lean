import ManyTasks.Lib.Decimal
import Mathlib.Logic.Function.Basic

/-!
# The key-value storage

`SimpleStorage` maps keys to values of two kinds.  `Set` decides which: a value that `std::stoll`
reads from end to end is stored as the number it denotes, every other value as the bytes it is.
`Get` prints a stored number back, and `Change` adds to one.

A number is printed in one way but can be written in many, so what `Get` returns after `Set` is
not always what was set.  `readYourWrite_iff` says when it is.
-/

set_option autoImplicit false

namespace ManyTasks
namespace Redis

/-- A `std::string`. -/
abbrev Bytes := List UInt8

/-- `std::variant<int64_t, std::string>`. -/
inductive Value where
  | int (n : Int64)
  | str (s : Bytes)
deriving DecidableEq, Repr

/-- The text `Get` returns for a stored value. -/
def Value.text : Value → Bytes
  | .int n => Lib.printInt n.toInt
  | .str s => s

/-- `SimpleStorage`: `kv_storage_` as the partial function it represents. -/
structure SimpleStorage where
  /-- The value stored under a key, if there is one. -/
  kv_storage_ : Bytes → Option Value

/-- The exceptions `Change` throws. -/
inductive StorageError where
  /-- `std::bad_typeid`: the value is a string. -/
  | badTypeid
  /-- `std::out_of_range("oveflow")`. -/
  | outOfRange
deriving DecidableEq, Repr

/-- `kIntMin`. -/
def kIntMin : Int64 := Int64.minValue

/-- `kIntMax`. -/
def kIntMax : Int64 := Int64.maxValue

namespace SimpleStorage

/-- A storage with nothing in it. -/
def empty : SimpleStorage := ⟨fun _ ↦ none⟩

/-- `kv_storage_[key] = value`. -/
def insert (st : SimpleStorage) (key : Bytes) (value : Value) : SimpleStorage :=
  ⟨Function.update st.kv_storage_ key (some value)⟩

/-- `SimpleStorage::Get`. -/
def get (st : SimpleStorage) (key : Bytes) : Option Bytes := (st.kv_storage_ key).map Value.text

/-- The value `Set` stores for a text: the number that `std::stoll` reads from the whole of it, or
the text itself when `std::stoll` throws or leaves bytes unread. -/
def parse (value : Bytes) : Value :=
  match Lib.stoll value with
  | .ok (int_value, pos) => if pos = value.length then .int int_value else .str value
  | .error _ => .str value

/-- `SimpleStorage::Set`. -/
def set (st : SimpleStorage) (key value : Bytes) : SimpleStorage := st.insert key (parse value)

/-- `check_limits_func`: does it throw? -/
def overflows (num delta : Int64) : Bool :=
  if 0 ≤ delta then num > kIntMax - delta else num < kIntMin - delta

/-- The second half of `SimpleStorage::Change`, with a number under the key. -/
def changeInt (st : SimpleStorage) (key : Bytes) (int_value delta : Int64) :
    Except StorageError Int64 × SimpleStorage :=
  if overflows int_value delta then (.error .outOfRange, st)
  else (.ok (int_value + delta), st.insert key (.int (int_value + delta)))

/-- `SimpleStorage::Change`: the new value or the exception, and the storage afterwards.  An
absent key is given the value `0` first. -/
def change (st : SimpleStorage) (key : Bytes) (delta : Int64) :
    Except StorageError Int64 × SimpleStorage :=
  match st.kv_storage_ key with
  | some (.str _) => (.error .badTypeid, st)
  | some (.int int_value) => st.changeInt key int_value delta
  | none => (st.insert key (.int 0)).changeInt key 0 delta

/-! ## What a write does to a read -/

@[simp] theorem get_insert_self (st : SimpleStorage) (key : Bytes) (value : Value) :
    (st.insert key value).get key = some value.text := by
  simp [get, insert]

theorem get_insert_of_ne (st : SimpleStorage) {key key' : Bytes} (value : Value)
    (h : key' ≠ key) : (st.insert key value).get key' = st.get key' := by
  simp [get, insert, Function.update_of_ne h]

theorem parse_of_isIntText {value : Bytes} (h : Lib.IsIntText value) :
    ∃ n, Lib.stoll value = .ok (n, value.length) ∧ parse value = .int n := by
  obtain ⟨n, hn⟩ := Lib.stoll_eq_ok_length_iff.2 h
  exact ⟨n, hn, by simp [parse, hn]⟩

theorem parse_of_not_isIntText {value : Bytes} (h : ¬ Lib.IsIntText value) :
    parse value = .str value := by
  rw [parse]
  split
  · rename_i n pos hn
    split
    · rename_i hpos
      exact absurd (Lib.stoll_eq_ok_length_iff.1 ⟨n, hpos ▸ hn⟩) h
    · rfl
  · rfl

/-- A stored text is printed back as it was unless it is a number in another form than the one it
is printed in. -/
theorem text_parse_iff (value : Bytes) :
    (parse value).text = value ↔ ¬ Lib.IsIntText value ∨ Lib.IsCanonical value := by
  by_cases h : Lib.IsIntText value
  · obtain ⟨n, hn, hparse⟩ := parse_of_isIntText h
    rw [hparse, Value.text, Lib.printInt_eq_iff hn]
    simp [h]
  · simp [parse_of_not_isIntText h, Value.text, h]

/-- After `Set(key, value)` the key reads back `value`, and every other key what it read before. -/
def ReadYourWrite (st : SimpleStorage) (key value : Bytes) : Prop :=
  (st.set key value).get key = some value ∧
    ∀ key', key' ≠ key → (st.set key value).get key' = st.get key'

/-- **When a write is read back**: exactly when the value is no integer text, or is one in
canonical form. -/
theorem readYourWrite_iff (st : SimpleStorage) (key value : Bytes) :
    st.ReadYourWrite key value ↔ ¬ Lib.IsIntText value ∨ Lib.IsCanonical value := by
  rw [← text_parse_iff, ReadYourWrite, set, get_insert_self, Option.some_inj]
  exact and_iff_left fun key' hne ↦ get_insert_of_ne st _ hne

/-- `Set("k", "007")` on an empty storage: `Get("k")` returns `"7"`. -/
theorem not_readYourWrite_leading_zeros : ¬ empty.ReadYourWrite [107] [48, 48, 55] ∧
    (empty.set [107] [48, 48, 55]).get [107] = some [55] := by
  have hget : (empty.set [107] [48, 48, 55]).get [107] = some [55] := by decide +kernel
  refine ⟨fun h ↦ ?_, hget⟩
  rw [h.1] at hget
  exact absurd hget (by decide)

end SimpleStorage
end Redis
end ManyTasks
