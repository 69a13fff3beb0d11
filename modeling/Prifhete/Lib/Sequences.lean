import Mathlib.Algebra.BigOperators.Group.Finset.Basic
import Mathlib.Algebra.GroupWithZero.Nat
import Mathlib.Data.Finmap
import Mathlib.Data.Finset.Card
import Mathlib.Data.List.Chain
import Mathlib.Data.List.Destutter
import Mathlib.Data.List.DropRight

/-! # Observations of growing sequences

    What a log that grows at its end says about

    * the distinct values in it, in the order of first occurrence
      (`firstOccurrences`);
    * the successive values of something observed along it (`successive`),
      and those since something else last changed (`currentStretch`);
    * the result of folding over it in any order (`view_foldl_perm`);
    * the values of its elements by position, and their sum (`valueAt`);
    * the finite map that results from storing its elements one by one
      (`lookup_foldl_insert`).
-/

universe u v

namespace Sequences

variable {α : Type u} {β : Type v}

/-! ### Distinct values in the order of first occurrence -/

section FirstOccurrences

variable [DecidableEq α]

/-- The distinct values of a list, in the order of first occurrence. -/
def firstOccurrences (l : List α) : List α :=
  l.foldl (fun seen a => if a ∈ seen then seen else seen ++ [a]) []

theorem firstOccurrences_concat (l : List α) (a : α) :
    firstOccurrences (l ++ [a]) =
      if a ∈ firstOccurrences l then firstOccurrences l else firstOccurrences l ++ [a] := by
  unfold firstOccurrences
  rw [List.foldl_append]
  rfl

@[simp] theorem mem_firstOccurrences {l : List α} {a : α} :
    a ∈ firstOccurrences l ↔ a ∈ l := by
  induction l using List.reverseRecOn with
  | nil => simp [firstOccurrences]
  | append_singleton l b ih =>
    rw [firstOccurrences_concat]
    split
    · next hb =>
      rw [ih, List.mem_append, List.mem_singleton]
      constructor
      · intro ha
        exact Or.inl ha
      · intro h
        rcases h with ha | hab
        · exact ha
        · rw [← hab] at hb
          exact ih.mp hb
    · rw [List.mem_append, ih, List.mem_append]

theorem nodup_firstOccurrences (l : List α) : (firstOccurrences l).Nodup := by
  induction l using List.reverseRecOn with
  | nil => exact List.nodup_nil
  | append_singleton l b ih =>
    rw [firstOccurrences_concat]
    split
    · exact ih
    · next hb =>
      refine List.nodup_append.mpr ⟨ih, List.nodup_singleton b, ?_⟩
      intro a ha c hc hac
      rw [List.mem_singleton] at hc
      exact hb (hc ▸ hac ▸ ha)

/-- There are as many of them as distinct values. -/
theorem length_firstOccurrences (l : List α) :
    (firstOccurrences l).length = l.toFinset.card := by
  have hfin : (firstOccurrences l).toFinset = l.toFinset := by
    ext a
    simp
  rw [← hfin, List.toFinset_card_of_nodup (nodup_firstOccurrences l)]

end FirstOccurrences

/-! ### Successive values -/

section Successive

variable [DecidableEq α]

/-- The successive values of an observation: repetitions in a row count once. -/
def successive (l : List α) : List α := l.destutter (· ≠ ·)

@[simp] theorem successive_singleton (a : α) : successive [a] = [a] := rfl

private theorem destutter'_concat (l : List α) (a b : α) :
    (l ++ [b]).destutter' (· ≠ ·) a =
      if (a :: l).getLast (List.cons_ne_nil a l) = b then l.destutter' (· ≠ ·) a
      else l.destutter' (· ≠ ·) a ++ [b] := by
  induction l generalizing a with
  | nil =>
    by_cases hab : a = b
    · simp [hab]
    · simp [hab]
  | cons c l ih =>
    rw [List.getLast_cons (List.cons_ne_nil c l), List.cons_append]
    by_cases hac : a = c
    · -- `c` repeats `a` and is dropped on both sides
      subst hac
      simp [ih]
    · rw [List.destutter'_cons_pos _ hac, List.destutter'_cons_pos _ hac, ih]
      split
      · rfl
      · rfl

/-- A further observation counts when it differs from the last one. -/
theorem successive_concat {l : List α} {a : α} (hlast : l.getLast? = some a) (b : α) :
    successive (l ++ [b]) = if a = b then successive l else successive l ++ [b] := by
  cases l with
  | nil => contradiction
  | cons c l =>
    rw [List.getLast?_eq_some_getLast (List.cons_ne_nil c l), Option.some.injEq] at hlast
    subst hlast
    exact destutter'_concat l c b

/-- Earlier values stay in front. -/
theorem successive_prefix (l l' : List α) : successive l <+: successive (l ++ l') := by
  induction l' using List.reverseRecOn with
  | nil => rw [List.append_nil]
  | append_singleton l' b ih =>
    rw [← List.append_assoc]
    cases hlast : (l ++ l').getLast? with
    | none =>
      have hnil := List.getLast?_eq_none_iff.mp hlast
      obtain ⟨hl, _⟩ := List.append_eq_nil_iff.mp hnil
      rw [hl]
      exact List.nil_prefix
    | some a =>
      rw [successive_concat hlast]
      split
      · exact ih
      · exact ih.trans (List.prefix_append _ _)

/-- Nothing observed is lost. -/
theorem mem_successive {l : List α} {b : α} : b ∈ successive l ↔ b ∈ l := by
  induction l using List.reverseRecOn with
  | nil => rfl
  | append_singleton l c ih =>
    cases hlast : l.getLast? with
    | none =>
      rw [List.getLast?_eq_none_iff] at hlast
      subst hlast
      rfl
    | some a =>
      rw [successive_concat hlast, List.mem_append, List.mem_singleton]
      split
      · next hac =>
        rw [ih]
        constructor
        · intro hb
          exact Or.inl hb
        · intro h
          rcases h with hb | hbc
          · exact hb
          · -- a repeated value has been observed before
            rw [hbc, ← hac]
            exact List.mem_of_getLast? hlast
      · rw [List.mem_append, ih, List.mem_singleton]

end Successive

/-! ### The current stretch -/

section CurrentStretch

variable [DecidableEq β] (obs : α → β)

/-- The longest end of the list along which the observation has its last value. -/
def currentStretch (l : List α) : List α :=
  l.rtakeWhile fun a => decide (l.getLast?.map obs = some (obs a))

@[simp] theorem currentStretch_singleton (a : α) : currentStretch obs [a] = [a] := by
  unfold currentStretch
  rw [← List.nil_append [a], List.rtakeWhile_concat]
  simp

theorem currentStretch_concat {l : List α} {a : α} (hlast : l.getLast? = some a) (b : α) :
    currentStretch obs (l ++ [b]) =
      if obs a = obs b then currentStretch obs l ++ [b] else [b] := by
  unfold currentStretch
  rw [hlast, List.getLast?_concat]
  simp only [Option.map_some, Option.some.injEq]
  rw [List.rtakeWhile_concat, if_pos (by simp)]
  split
  · next hab => rw [hab]
  · next hab =>
    -- the element before `b` already has another value
    obtain ⟨l, rfl⟩ := List.getLast?_eq_some_iff.mp hlast
    rw [List.rtakeWhile_concat, if_neg (by simpa using Ne.symm hab)]
    rfl

theorem getLast?_currentStretch {l : List α} {a : α} (hlast : l.getLast? = some a) :
    (currentStretch obs l).getLast? = some a := by
  obtain ⟨l, rfl⟩ := List.getLast?_eq_some_iff.mp hlast
  unfold currentStretch
  rw [List.getLast?_concat, List.rtakeWhile_concat, if_pos (by simp)]
  simp

end CurrentStretch

/-! ### Chains that grow at the end -/

/-- What holds of the first state of a chain and survives every link holds
    of the whole chain and its last state. -/
theorem chain_invariant (Inv : List α → α → Prop) {R : α → α → Prop} {a : α}
    (hone : Inv [a] a)
    (hlink : ∀ l b c, l.getLast? = some b → Inv l b → R b c → Inv (l ++ [c]) c)
    {l : List α} (hchain : (a :: l).IsChain R) {last : α}
    (hlast : (a :: l).getLast? = some last) : Inv (a :: l) last := by
  induction l using List.reverseRecOn generalizing last with
  | nil =>
    obtain rfl : a = last := by simpa using hlast
    exact hone
  | append_singleton l b ih =>
    obtain rfl : b = last := by simpa [List.getLast?_cons] using hlast
    have hprev := List.getLast?_eq_some_getLast (List.cons_ne_nil a l)
    rw [← List.cons_append] at hchain ⊢
    obtain ⟨hinit, _, hlinks⟩ := List.isChain_append.mp hchain
    exact hlink _ _ b hprev (ih hinit hprev) (hlinks _ hprev b rfl)

/-- Of three elements the last would have to follow both others directly. -/
theorem length_le_two (f : α → ℕ) {l : List α} (h : l.Pairwise fun a b => f b = f a + 1) :
    l.length ≤ 2 := by
  match l, h with
  | [], _ => exact Nat.zero_le _
  | [_], _ => exact Nat.le_succ 1
  | [_, _], _ => exact Nat.le_refl _
  | a :: b :: c :: rest, h =>
    have hab := List.rel_of_pairwise_cons h (show b ∈ b :: c :: rest by simp)
    have hac := List.rel_of_pairwise_cons h (show c ∈ b :: c :: rest by simp)
    have hbc := List.rel_of_pairwise_cons h.of_cons (show c ∈ c :: rest by simp)
    omega

/-- In a list without repetition no element occurs before its place. -/
theorem not_mem_take_of_nodup {l : List α} (h : l.Nodup) {k : ℕ} {a : α} (hk : l[k]? = some a) :
    a ∉ l.take k := by
  intro hmem
  obtain ⟨j, hj⟩ := List.mem_iff_getElem?.mp hmem
  have hlt : j < k := by
    by_contra hge
    rw [List.getElem?_take_eq_none (Nat.not_lt.mp hge)] at hj
    contradiction
  rw [List.getElem?_take_of_lt hlt] at hj
  have hbound := (List.getElem?_eq_some_iff.mp hk).1
  exact List.nodup_iff_getElem?_ne_getElem?.mp h j k hlt hbound (hj.trans hk.symm)

/-! ### Updating one element -/

/-- An update that keeps what is observed of its element keeps what is
    observed of the list. -/
theorem map_modify_of_getElem? {l : List α} {i : ℕ} {f : α → α} {g : α → β}
    (h : ∀ a, l[i]? = some a → g (f a) = g a) : (l.modify i f).map g = l.map g := by
  apply List.ext_getElem?
  intro j
  rw [List.getElem?_map, List.getElem?_map, List.getElem?_modify]
  by_cases hij : i = j
  · subst hij
    cases hi : l[i]? with
    | none => rfl
    | some a => simp [h a hi]
  · simp [hij]

/-- An update of what an observation keeps apart can be made after it. -/
theorem map_modify_comm {f : α → α} {f' : β → β} {g : α → β}
    (h : ∀ a, g (f a) = f' (g a)) (l : List α) (i : ℕ) :
    (l.modify i f).map g = (l.map g).modify i f' := by
  apply List.ext_getElem?
  intro j
  simp only [List.getElem?_map, List.getElem?_modify]
  by_cases hij : i = j
  · simp [hij, Function.comp_def, h]
  · simp [hij]

/-- Two updates that commute on every element can be made in either order. -/
theorem modify_comm {f g : α → α} (h : ∀ a, g (f a) = f (g a)) (l : List α) (i j : ℕ) :
    (l.modify i f).modify j g = (l.modify j g).modify i f := by
  by_cases hij : i = j
  · subst hij
    rw [List.modify_modify_eq, List.modify_modify_eq]
    congr 1
    exact funext h
  · exact List.modify_modify_ne f g l hij

/-! ### Folds in any order -/

section View

variable {σ τ : Type v} (view : σ → τ) {step : σ → α → σ}
  (hview : ∀ s s' a, view s = view s' → view (step s a) = view (step s' a))
include hview

theorem view_foldl_congr (l : List α) {s s' : σ} (h : view s = view s') :
    view (l.foldl step s) = view (l.foldl step s') := by
  induction l generalizing s s' with
  | nil => exact h
  | cons a l ih => exact ih (hview s s' a h)

/-- When any two steps commute, as far as a view can tell that no step looks
    behind, a permutation of the steps leaves the same view. -/
theorem view_foldl_perm (hcomm : ∀ s a b, view (step (step s a) b) = view (step (step s b) a))
    {l l' : List α} (h : l.Perm l') (s : σ) :
    view (l.foldl step s) = view (l'.foldl step s) := by
  induction h generalizing s with
  | nil => rfl
  | cons a _ ih => exact ih (step s a)
  | swap a b l => exact view_foldl_congr view hview l (hcomm s b a)
  | trans _ _ ih ih' => exact (ih s).trans (ih' s)

end View

/-! ### Sums by position -/

/-- The value of an observation at a position, zero beyond the end. -/
def valueAt (f : α → ℕ) (l : List α) (i : ℕ) : ℕ := (l[i]?.map f).getD 0

/-- The sum over a list is the sum over its positions. -/
theorem sum_valueAt (f : α → ℕ) (l : List α) :
    ∑ i ∈ Finset.range l.length, valueAt f l i = (l.map f).sum := by
  induction l using List.reverseRecOn with
  | nil => rfl
  | append_singleton l a ih =>
    have hinit : ∀ i ∈ Finset.range l.length, valueAt f (l ++ [a]) i = valueAt f l i := by
      intro i hi
      rw [valueAt, List.getElem?_append_left (Finset.mem_range.mp hi), valueAt]
    rw [List.length_append, List.length_singleton, Finset.sum_range_succ,
      Finset.sum_congr rfl hinit, ih]
    simp [valueAt]

theorem valueAt_append_zero {f : α → ℕ} {a : α} (ha : f a = 0) (l : List α) :
    valueAt f (l ++ [a]) = valueAt f l := by
  funext i
  rcases Nat.lt_trichotomy i l.length with hi | hi | hi
  · rw [valueAt, List.getElem?_append_left hi, valueAt]
  · subst hi
    simp [valueAt, ha]
  · rw [valueAt, valueAt, List.getElem?_eq_none (by simp; omega),
      List.getElem?_eq_none (by omega)]

theorem valueAt_map {g : β → α} {f : α → ℕ} (l : List β) :
    valueAt f (l.map g) = valueAt (fun b => f (g b)) l := by
  funext i
  rw [valueAt, valueAt, List.getElem?_map, Option.map_map]
  rfl

/-- Updating one element updates one value. -/
theorem valueAt_modify {f : α → ℕ} {g : α → α} {l : List α} {i : ℕ} {a : α}
    (ha : l[i]? = some a) :
    valueAt f (l.modify i g) = Function.update (valueAt f l) i (f (g a)) := by
  funext j
  by_cases hj : j = i
  · subst hj
    rw [valueAt, List.getElem?_modify, ha, Function.update_self]
    simp
  · rw [valueAt, List.getElem?_modify, Function.update_of_ne hj, valueAt]
    simp [Ne.symm hj]

/-! ### Storing a list in a finite map -/

/-- Storing what a finite map knows changes nothing. -/
theorem insert_eq_self {κ : Type u} {ν : Type v} [DecidableEq κ] {m : Finmap fun _ : κ => ν}
    {k : κ} {x : ν} (h : m.lookup k = some x) : m.insert k x = m := by
  apply Finmap.ext_lookup
  intro other
  by_cases hother : other = k
  · rw [hother, Finmap.lookup_insert, h]
  · rw [Finmap.lookup_insert_of_ne _ hother]

/-- What a finite map knows after the elements of a list with distinct keys
    have been stored in it: those elements, and what it knew about other keys. -/
theorem lookup_foldl_insert {κ : Type u} {ν : Type v} [DecidableEq κ] {σ : Type v}
    (key : σ → κ) (val : σ → ν) {l : List σ} (hnodup : (l.map key).Nodup)
    (m : Finmap fun _ : κ => ν) {k : κ} {x : ν} :
    (l.foldl (fun m s => m.insert (key s) (val s)) m).lookup k = some x ↔
      (∃ s ∈ l, key s = k ∧ val s = x) ∨ (k ∉ l.map key ∧ m.lookup k = some x) := by
  induction l generalizing m with
  | nil => simp
  | cons s l ih =>
    rw [List.map_cons, List.nodup_cons] at hnodup
    rw [List.foldl_cons, ih hnodup.2]
    by_cases hk : k = key s
    · subst hk
      -- no later element has the key, so the value stored first stays
      have hlater : ¬ ∃ t ∈ l, key t = key s ∧ val t = x := by
        intro ⟨t, ht, hkey, _⟩
        exact hnodup.1 (hkey ▸ List.mem_map_of_mem ht)
      rw [Finmap.lookup_insert]
      constructor
      · intro h
        rcases h with hmem | ⟨_, hx⟩
        · exact absurd hmem hlater
        · exact Or.inl ⟨s, List.mem_cons_self, rfl, Option.some.inj hx⟩
      · intro h
        rcases h with ⟨t, ht, hkey, hval⟩ | ⟨hnot, _⟩
        · rcases List.mem_cons.mp ht with hts | ht
          · rw [hts] at hval
            exact Or.inr ⟨hnodup.1, by rw [hval]⟩
          · exact absurd ⟨t, ht, hkey, hval⟩ hlater
        · exact absurd (by simp) hnot
    · -- another key: the element neither is nor hides the answer
      rw [Finmap.lookup_insert_of_ne _ hk]
      have hne : key s ≠ k := fun h => hk h.symm
      simp [hne, hk]

end Sequences
