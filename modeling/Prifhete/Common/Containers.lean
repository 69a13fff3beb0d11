import Mathlib.Data.Finmap
import Mathlib.Data.List.Basic

/-! # The standard containers of the source

    `char`, `std::string`, `std::vector` and `std::unordered_map` as the
    source uses them.

    Allocation is taken to succeed, with one exception. The positions of
    the account vector are handed out as `std::size_t` values, the largest
    of which is reserved, so its length matters: a `StdVector` carries the
    bound of `max_size()` and `push_back` on a full one throws
    `std::length_error`. The vectors whose positions nobody sees, the keys
    of the roots and the log of PRF outputs among them, are lists and taken
    to have room.
-/

namespace Prifhete

/-- A `char` is one signed byte on the targets the build files name. -/
abbrev CChar := Int8

/-- `std::string`: any sequence of `char`s, zero bytes and all. -/
abbrev StdString := List CChar

/-- The `std::string` of an ASCII text. -/
def StdString.ofAscii (text : String) : StdString :=
  text.toList.map fun c => Int8.ofNat c.toNat

/-- `std::unordered_map`, of which only the finite map is observable. -/
abbrev UnorderedMap (κ ν : Type) := Finmap fun _ : κ => ν

/-! ### `std::vector` -/

/-- `max_size()` of `std::vector<AccountState>`: as many elements of 144
    bytes as fit into `PTRDIFF_MAX`. The figure is that of libstdc++ on a
    64-bit target and differs between libraries; the proofs only use that it
    is positive and below the reserved index. -/
def maxSize : Nat := 64051194700380387

theorem maxSize_pos : 0 < maxSize := by decide

/-- The reserved index is beyond every vector. -/
theorem maxSize_lt : maxSize < 2 ^ 64 - 1 := by decide

/-- `std::vector<α>` together with the bound its length obeys, which is the
    one for `AccountState`. -/
@[ext] structure StdVector (α : Type) where
  toList : List α
  length_le : toList.length ≤ maxSize
  deriving DecidableEq

namespace StdVector

variable {α β : Type}

def empty : StdVector α := ⟨[], Nat.zero_le _⟩

/-- `size()`, a `std::size_t`. -/
def size (v : StdVector α) : UInt64 := UInt64.ofNat v.toList.length

/-- `push_back`: `none` is the `std::length_error` thrown by a full vector,
    which leaves the vector as it was. -/
def push_back (v : StdVector α) (x : α) : Option (StdVector α) :=
  if h : v.toList.length < maxSize then
    some ⟨v.toList ++ [x], by simpa using Nat.succ_le_of_lt h⟩
  else none

/-- `v[i]`, which the source only evaluates inside the vector. -/
def at_index [Inhabited α] (v : StdVector α) (i : UInt64) : α :=
  v.toList.getD i.toNat default

/-- Assignment through the reference `v[i]`. -/
def modify (v : StdVector α) (i : UInt64) (f : α → α) : StdVector α :=
  ⟨v.toList.modify i.toNat f, by simpa using v.length_le⟩

/-- A range-for loop that assigns to every element. -/
def map (v : StdVector α) (f : α → β) : StdVector β :=
  ⟨v.toList.map f, by simpa using v.length_le⟩

@[simp] theorem toList_empty : (empty : StdVector α).toList = [] := rfl

@[simp] theorem toList_modify (v : StdVector α) (i : UInt64) (f : α → α) :
    (v.modify i f).toList = v.toList.modify i.toNat f := rfl

@[simp] theorem toList_map (v : StdVector α) (f : α → β) :
    (v.map f).toList = v.toList.map f := rfl

/-- The length fits in `std::size_t`, so `size()` is exact. -/
@[simp] theorem toNat_size (v : StdVector α) : v.size.toNat = v.toList.length := by
  have hle := v.length_le
  have hmax := maxSize_lt
  rw [size, UInt64.toNat_ofNat']
  omega

/-- What a `push_back` that returns has done. -/
theorem push_back_eq_some {v v' : StdVector α} {x : α} (h : v.push_back x = some v') :
    v'.toList = v.toList ++ [x] := by
  unfold push_back at h
  split at h
  · cases h; rfl
  · contradiction

/-- `push_back` throws only on a full vector. -/
theorem push_back_eq_none {v : StdVector α} {x : α} :
    v.push_back x = none ↔ v.toList.length = maxSize := by
  have hle := v.length_le
  unfold push_back
  split
  · simp; omega
  · simp; omega

theorem at_index_of_getElem? [Inhabited α] {v : StdVector α} {i : UInt64} {x : α}
    (h : v.toList[i.toNat]? = some x) : v.at_index i = x := by
  simp [at_index, List.getD, h]

end StdVector

end Prifhete
