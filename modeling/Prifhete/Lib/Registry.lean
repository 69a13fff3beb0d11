import Prifhete.Lib.Sequences
import Mathlib.Data.List.Nodup

/-! # Registries

    A registry is a list of records of which no two have the same key. The
    order of the records is the order they were added in, so a record has a
    position that never changes. This module defines

    * the updates: adding a record under a fresh key (`add`), and changing
      records without touching their keys (`map`, `modify`);
    * the change to other records under other keys, of which again no two
      are the same (`relabel`);
    * the look-ups by key (`find?`, `position?`).
-/

universe u v w x

/-- Records in the order they were added in, no two with the same key. -/
@[ext] structure Registry {α : Type u} {κ : Type v} (key : α → κ) where
  records : List α
  distinct : (records.map key).Nodup

namespace Registry

variable {α : Type u} {κ : Type v} {key : α → κ}

def empty : Registry key := ⟨[], List.nodup_nil⟩

/-- The keys, in the order of the records. -/
def keys (r : Registry key) : List κ := r.records.map key

@[simp] theorem records_empty : (empty : Registry key).records = [] := rfl

/-! ### Updates -/

/-- A new record at the end. -/
def add (r : Registry key) (a : α) (hfresh : key a ∉ r.keys) : Registry key where
  records := r.records ++ [a]
  distinct := by
    rw [List.map_append, List.map_singleton]
    apply List.nodup_append'.mpr
    exact ⟨r.distinct, List.nodup_singleton _, List.disjoint_singleton.mpr hfresh⟩

theorem map_key_map {records : List α} {f : α → α} (hkey : ∀ a, key (f a) = key a) :
    (records.map f).map key = records.map key := by
  rw [List.map_map]
  exact List.map_congr_left fun a _ => hkey a

theorem map_key_modify {records : List α} {i : ℕ} {f : α → α}
    (hkey : ∀ a, key (f a) = key a) : (records.modify i f).map key = records.map key :=
  Sequences.map_modify_of_getElem? fun a _ => hkey a

/-- A change of every record that keeps its key. -/
def map (r : Registry key) (f : α → α) (hkey : ∀ a, key (f a) = key a) : Registry key where
  records := r.records.map f
  distinct := by
    rw [map_key_map hkey]
    exact r.distinct

/-- A change of the record at a position that keeps its key. -/
def modify (r : Registry key) (i : ℕ) (f : α → α) (hkey : ∀ a, key (f a) = key a) :
    Registry key where
  records := r.records.modify i f
  distinct := by
    rw [map_key_modify hkey]
    exact r.distinct

section Updates

variable (r : Registry key) (a : α) (hfresh : key a ∉ r.keys) (f : α → α)
  (hkey : ∀ a, key (f a) = key a) (i : ℕ)

@[simp] theorem records_add : (r.add a hfresh).records = r.records ++ [a] := rfl

@[simp] theorem records_map : (r.map f hkey).records = r.records.map f := rfl

@[simp] theorem records_modify : (r.modify i f hkey).records = r.records.modify i f := rfl

theorem keys_map : (r.map f hkey).keys = r.keys := map_key_map hkey

end Updates

/-! ### Other keys -/

section Relabel

variable {β : Type w} {κ' : Type x} {key' : β → κ'}

private theorem map_relabel (r : Registry key) {f : α → β} {g : κ → κ'}
    (hkey : ∀ a, key' (f a) = g (key a)) : (r.records.map f).map key' = r.keys.map g := by
  rw [keys, List.map_map, List.map_map]
  exact List.map_congr_left fun a _ => hkey a

/-- The same registry under other keys. -/
def relabel (r : Registry key) (f : α → β) (g : κ → κ') (hg : Function.Injective g)
    (hkey : ∀ a, key' (f a) = g (key a)) : Registry key' where
  records := r.records.map f
  distinct := by
    rw [map_relabel r hkey]
    exact r.distinct.map hg

variable (r : Registry key) {f : α → β} {g : κ → κ'} (hg : Function.Injective g)
  (hkey : ∀ a, key' (f a) = g (key a))

@[simp] theorem records_relabel : (r.relabel f g hg hkey).records = r.records.map f := rfl

theorem keys_relabel : (r.relabel f g hg hkey).keys = r.keys.map g := map_relabel r hkey

theorem mem_keys_relabel {k : κ} : g k ∈ (r.relabel f g hg hkey).keys ↔ k ∈ r.keys := by
  rw [keys_relabel, List.mem_map_of_injective hg]

end Relabel

/-! ### Look-ups -/

variable [DecidableEq κ]

/-- The record with a key. -/
def find? (r : Registry key) (k : κ) : Option α := r.records.find? fun a => key a = k

/-- The position of the record with a key. -/
def position? (r : Registry key) (k : κ) : Option ℕ := r.keys.idxOf? k

/-- There is at most one record with the key, so it is the one found. -/
theorem find?_eq_some {r : Registry key} {k : κ} {a : α} :
    r.find? k = some a ↔ a ∈ r.records ∧ key a = k := by
  constructor
  · intro h
    exact ⟨List.mem_of_find?_eq_some h, by simpa using List.find?_some h⟩
  · intro ⟨hmem, hkey⟩
    cases hfind : r.find? k with
    | none =>
      have hnone := List.find?_eq_none.mp hfind a hmem
      simp [hkey] at hnone
    | some b =>
      have hb : b ∈ r.records := List.mem_of_find?_eq_some hfind
      have hbkey : key b = k := by simpa using List.find?_some hfind
      rw [List.inj_on_of_nodup_map r.distinct hb hmem (hbkey.trans hkey.symm)]

theorem find?_isSome {r : Registry key} {k : κ} : (r.find? k).isSome = true ↔ k ∈ r.keys := by
  rw [Option.isSome_iff_exists]
  constructor
  · intro ⟨a, ha⟩
    obtain ⟨hmem, hkey⟩ := find?_eq_some.mp ha
    exact hkey ▸ List.mem_map_of_mem hmem
  · intro h
    obtain ⟨a, hmem, hkey⟩ := List.mem_map.mp h
    exact ⟨a, find?_eq_some.mpr ⟨hmem, hkey⟩⟩

theorem position?_eq_some {r : Registry key} {k : κ} {i : ℕ} :
    r.position? k = some i ↔ r.keys[i]? = some k := by
  constructor
  · intro h
    obtain ⟨hlt, hget, _⟩ := List.idxOf?_eq_some_iff.mp h
    exact List.getElem?_eq_some_iff.mpr ⟨hlt, hget⟩
  · intro h
    obtain ⟨hlt, hget⟩ := List.getElem?_eq_some_iff.mp h
    refine List.idxOf?_eq_some_iff.mpr ⟨hlt, hget, ?_⟩
    intro j hj heq
    have hinj := (List.Nodup.getElem_inj_iff r.distinct).mp (heq.trans hget.symm)
    omega

section Relabel

variable {β : Type w} {κ' : Type x} {key' : β → κ'} [DecidableEq κ'] (r : Registry key)
  {f : α → β} {g : κ → κ'} (hg : Function.Injective g)
  (hkey : ∀ a, key' (f a) = g (key a))

theorem find?_relabel (k : κ) : (r.relabel f g hg hkey).find? (g k) = (r.find? k).map f := by
  apply Option.ext
  intro b
  rw [find?_eq_some, Option.map_eq_some_iff, records_relabel, List.mem_map]
  constructor
  · intro ⟨⟨a, hmem, hb⟩, hk⟩
    rw [← hb, hkey] at hk
    exact ⟨a, find?_eq_some.mpr ⟨hmem, hg hk⟩, hb⟩
  · intro ⟨a, hfind, hb⟩
    obtain ⟨hmem, hk⟩ := find?_eq_some.mp hfind
    exact ⟨⟨a, hmem, hb⟩, by rw [← hb, hkey, hk]⟩

theorem position?_relabel (k : κ) : (r.relabel f g hg hkey).position? (g k) = r.position? k := by
  apply Option.ext
  intro i
  rw [position?_eq_some, position?_eq_some, keys_relabel, List.getElem?_map,
    Option.map_eq_some_iff]
  constructor
  · intro ⟨k', hget, hk⟩
    rw [hget, hg hk]
  · intro hget
    exact ⟨k, hget, rfl⟩

end Relabel

end Registry
