import ManyTasks.Lib.Machine
import ManyTasks.Lib.Sorted
import ManyTasks.Lib.Transition
import Mathlib.Data.Int.Basic

/-!
# A concurrent hash map

`ConcurrentHashMap` keeps its entries in a table of lists, each sorted by key.  A lock does not
guard the whole table but every list whose index has a certain remainder, so there may be more lists
than locks.  When the lists become too long the table is doubled in place, under all locks
(`rehash`).

An operation takes one lock and does everything under it, but for `Insert`: it finds under the lock
that the table has to be doubled, and then tries to become the one that does it.  Between the two,
any other operations may be run.  So the state has, beside the fields of the source, how many calls
of `Insert` have come to which point in their second half, and a step is one section under a lock or
one access to `is_rehashing_`.

The locks themselves are not in the state, only how many there are.

The constructor computes with `int`.  What comes of an operation that overflows is open
(`overflow`); the language gives it no meaning.
-/

set_option autoImplicit false

namespace ManyTasks
namespace HashTable

open Lib (bucket)

/-! ## The table -/

section

variable {K V : Type} [LinearOrder K]

/-- `FindPosInList`: the position of the first element that is not below the key, or else the
end. -/
def findPosInList (table_ : List (List (K × V))) (list_idx : ℕ) (key : K) : ℕ :=
  Lib.lowerBound key (bucket table_ list_idx)

/-- The element at `FindPosInList`, if it is not the end and has the key. -/
def findInList (table_ : List (List (K × V))) (list_idx : ℕ) (key : K) : Option (K × V) :=
  (bucket table_ list_idx)[findPosInList table_ list_idx key]?.filter fun e ↦ e.1 = key

/-- `InsertIntoList`. -/
def insertIntoList (list_idx : ℕ) (elem : K × V) (table_ : List (List (K × V))) :
    Bool × List (List (K × V)) :=
  match findInList table_ list_idx elem.1 with
  | none =>
    (true, table_.set list_idx
      ((bucket table_ list_idx).insertIdx (findPosInList table_ list_idx elem.1) elem))
  | some _ => (false, table_)

/-- `list.erase`. -/
def erase (list_idx it : ℕ) (table_ : List (List (K × V))) : List (List (K × V)) :=
  table_.set list_idx ((bucket table_ list_idx).eraseIdx it)

/-- `EraseFromList`. -/
def eraseFromList (list_idx : ℕ) (key : K) (table_ : List (List (K × V))) :
    Bool × List (List (K × V)) :=
  match findInList table_ list_idx key with
  | none => (false, table_)
  | some _ => (true, erase list_idx (findPosInList table_ list_idx key) table_)

/-- The inner loop of `Rehash`, from the iterator on; every turn takes one of the elements the list
had at the beginning. -/
def rehashList (hasher_ : K → ℕ) (list_idx : ℕ) :
    ℕ → ℕ → List (List (K × V)) → List (List (K × V))
  | 0, _, table_ => table_
  | turns + 1, it, table_ =>
    match (bucket table_ list_idx)[it]? with
    | none => table_
    | some elem =>
      let new_list_idx := hasher_ elem.1 % table_.length
      if new_list_idx ≠ list_idx then
        let table_ := (insertIntoList new_list_idx elem table_).2
        if it = 0 then rehashList hasher_ list_idx turns 0 (erase list_idx it table_)
        else rehashList hasher_ list_idx turns (it - 1 + 1) (erase list_idx it table_)
      else rehashList hasher_ list_idx turns (it + 1) table_

/-- `table_.resize(table_.size() * 2)`. -/
def resize (table_ : List (List (K × V))) : List (List (K × V)) :=
  table_ ++ List.replicate table_.length []

/-- `Rehash`, between the locks. -/
def rehash (hasher_ : K → ℕ) (table_ : List (List (K × V))) : List (List (K × V)) :=
  (List.range (resize table_).length).foldl
    (fun table_ list_idx ↦
      rehashList hasher_ list_idx (bucket table_ list_idx).length 0 table_) (resize table_)

end

/-! ## The map -/

/-- `kLoadFactor`. -/
def kLoadFactor : ℕ := 2

/-- `kUndefinedSize`. -/
def kUndefinedSize : ℤ := -1

/-- The map, and the calls of `Insert` that have left their lock. -/
structure Map (K V : Type) where
  table_ : List (List (K × V))
  /-- `mutexes_.size()`. -/
  mutexes_ : ℕ
  size_ : ℕ
  is_rehashing_ : Bool
  /-- They have found that a rehash is needed, and nothing else. -/
  deciding : ℕ
  /-- They have set `is_rehashing_`. -/
  rehashing : ℕ
  /-- They have called `Rehash`. -/
  rehashed : ℕ

/-- The constructor, up to what it computes from its hints: a map with so many lists and locks. -/
def init {K V : Type} (lists_cnt : ℕ) : Map K V where
  table_ := List.replicate lists_cnt []
  mutexes_ := lists_cnt
  size_ := 0
  is_rehashing_ := false
  deciding := 0
  rehashing := 0
  rehashed := 0

section

variable (overflow : ℤ → ℤ)

/-- The result of an operation on `int`. -/
def int (x : ℤ) : ℤ := Lib.checked 32 overflow x

/-- `lists_cnt`, where a size is expected; `int` is divided towards zero. -/
def listsCnt (expected_size expected_threads_count : ℤ) : ℤ :=
  let lists := int overflow ((int overflow (expected_size - 1)).tdiv kLoadFactor + 1)
  let share := (int overflow (lists - 1)).tdiv expected_threads_count
  int overflow (int overflow (share + 1) * expected_threads_count)

/-- How many lists the constructor asks for. -/
def initialSize (expected_size expected_threads_count : ℤ) : ℤ :=
  if expected_size ≠ kUndefinedSize then listsCnt overflow expected_size expected_threads_count
  else int overflow (4 * expected_threads_count)

/-- The constructor.  A negative number is a `size_t` that is too large for a `std::vector`, which
throws. -/
def construct (K V : Type) (expected_size expected_threads_count : ℤ) : Option (Map K V) :=
  if initialSize overflow expected_size expected_threads_count < 0 then none
  else some (init (initialSize overflow expected_size expected_threads_count).toNat)

end

/-- What can be done next. -/
inductive Op (K V : Type) where
  | insert (key : K) (value : V)
  | erase (key : K)
  | find (key : K)
  /-- `At`. -/
  | value (key : K)
  | clear
  | size
  /-- A call of `Insert` comes to `is_rehashing_.test_and_set()`. -/
  | testAndSet
  | rehash
  /-- `is_rehashing_.clear()`. -/
  | release
deriving DecidableEq, Repr

/-- What an operation returns. -/
inductive Res (V : Type) where
  | void
  | bool (res : Bool)
  /-- Of `Find`. -/
  | pair (found : Bool) (value : V)
  | value (value : V)
  /-- The exception `std::out_of_range`, and its text. -/
  | outOfRange (what : String)
  | size (n : ℕ)
deriving DecidableEq, Repr

section

variable {K V : Type} [LinearOrder K] [Inhabited V] (hasher_ : K → ℕ)

/-- `Insert`, under its lock. -/
def insert (key : K) (value : V) (s : Map K V) : Bool × Map K V :=
  let list_idx := hasher_ key % s.table_.length
  let (res, table_) := insertIntoList list_idx (key, value) s.table_
  let size_ := if res then s.size_ + 1 else s.size_
  let need_rehash := kLoadFactor < size_ / table_.length
  (res, { s with table_ := table_, size_ := size_,
                 deciding := if need_rehash then s.deciding + 1 else s.deciding })

/-- `Erase`. -/
def eraseKey (key : K) (s : Map K V) : Bool × Map K V :=
  let list_idx := hasher_ key % s.table_.length
  match eraseFromList list_idx key s.table_ with
  | (true, table_) => (true, { s with table_ := table_, size_ := s.size_ - 1 })
  | (false, table_) => (false, { s with table_ := table_ })

/-- `Find`. -/
def find (key : K) (s : Map K V) : Bool × V :=
  match findInList s.table_ (hasher_ key % s.table_.length) key with
  | some elem => (true, elem.2)
  | none => (false, default)

/-- `At`. -/
def value (key : K) (s : Map K V) : Res V :=
  let elem := find hasher_ key s
  if elem.1 then .value elem.2 else .outOfRange "WTF"

/-- `Clear`. -/
def clear (s : Map K V) : Map K V :=
  { s with table_ := s.table_.map fun _ ↦ [], size_ := 0 }

/-- One step, if it can be taken, and what it returns. -/
def act (s : Map K V) : Op K V → Option (Res V × Map K V)
  | .insert key value => some ((insert hasher_ key value s).map .bool id)
  | .erase key => some ((eraseKey hasher_ key s).map .bool id)
  | .find key => some (.pair (find hasher_ key s).1 (find hasher_ key s).2, s)
  | .value key => some (value hasher_ key s, s)
  | .clear => some (.void, clear s)
  | .size => some (.size s.size_, s)
  | .testAndSet =>
    if 0 < s.deciding then
      let s := { s with deciding := s.deciding - 1 }
      if s.is_rehashing_ then some (.void, s)
      else some (.void, { s with is_rehashing_ := true, rehashing := s.rehashing + 1 })
    else none
  | .rehash =>
    if 0 < s.rehashing then
      some (.void, { s with
        table_ := rehash hasher_ s.table_, rehashing := s.rehashing - 1,
        rehashed := s.rehashed + 1 })
    else none
  | .release =>
    if 0 < s.rehashed then
      some (.void, { s with is_rehashing_ := false, rehashed := s.rehashed - 1 })
    else none

/-- One step, with what it returns. -/
def Step (s : Map K V) (l : Op K V × Res V) (s' : Map K V) : Prop :=
  act hasher_ s l.1 = some (l.2, s')

end

end HashTable
end ManyTasks
