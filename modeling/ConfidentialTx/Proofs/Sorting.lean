import Mathlib.Data.List.Nodup
import ConfidentialTx.Tx.Credential

/-! # Sorting by byte-string keys

* `Bytes.le_iff`: the order of the keys is the lexicographic one.
* `IsStableSort`: what it means to sort by a key and to keep the order of entries with one key.
* `isStableSort_sortByKey`: `sortByKey` does so.
* `IsStableSort.eq_of_nodup`: if all keys differ, there is one sorted list, and `sortByKey_congr`: the order
  before is not seen behind.
* `IsStableSort.map`: and so does a map behind it, for a key that the map keeps. -/

namespace ConfidentialTx

/-! ### The order of byte strings -/

theorem Bytes.le_iff (as bs : Bytes) : as.le bs = true ↔ as ≤ bs := by
  induction as generalizing bs with
  | nil => simp [Bytes.le]
  | cons a as ih =>
    cases bs with
    | nil => simp [Bytes.le]
    | cons b bs =>
      rw [Bytes.le, List.cons_le_cons_iff, ← ih]
      by_cases h : a = b
      · subst h
        simp
      · simp [h]

theorem Bytes.le_trans {as bs cs : Bytes} (h : as.le bs = true) (h' : bs.le cs = true) :
    as.le cs = true :=
  (le_iff as cs).mpr (List.le_trans ((le_iff as bs).mp h) ((le_iff bs cs).mp h'))

theorem Bytes.le_total (as bs : Bytes) : (as.le bs || bs.le as) = true := by
  rw [Bool.or_eq_true, le_iff, le_iff]
  exact List.le_total as bs

theorem Bytes.le_refl (as : Bytes) : as.le as = true :=
  (le_iff as as).mpr (List.le_refl as)

/-! ### Stable sorting -/

/-- Whether `ys` has the entries `xs` in increasing order of their keys, with the entries of every key in
the order that they had. -/
structure IsStableSort {α : Type} (key : α → Bytes) (xs ys : List α) : Prop where
  perm : ys.Perm xs
  sorted : ys.Pairwise fun x y => key x ≤ key y
  stable : ∀ k, ys.filter (fun x => key x = k) = xs.filter (fun x => key x = k)

variable {α β : Type} {key : α → Bytes}

/-- The keys need not stand beside the entries. -/
theorem sortByKey_eq_mergeSort (key : α → Bytes) (xs : List α) :
    sortByKey key xs = xs.mergeSort fun x y => (key x).le (key y) := by
  unfold sortByKey
  rw [List.map_mergeSort (s := fun x y => (key x).le (key y)), List.map_map]
  · exact congrArg (List.mergeSort · _) (List.map_id xs)
  · intro a ha b hb
    obtain ⟨x, -, rfl⟩ := List.mem_map.mp ha
    obtain ⟨y, -, rfl⟩ := List.mem_map.mp hb
    rfl

theorem isStableSort_sortByKey (key : α → Bytes) (xs : List α) :
    IsStableSort key xs (sortByKey key xs) := by
  have htrans : ∀ x y z, (key x).le (key y) = true → (key y).le (key z) = true →
      (key x).le (key z) = true := fun _ _ _ => Bytes.le_trans
  have htotal : ∀ x y, ((key x).le (key y) || (key y).le (key x)) = true :=
    fun _ _ => Bytes.le_total _ _
  rw [sortByKey_eq_mergeSort]
  have hperm := List.mergeSort_perm xs fun x y => (key x).le (key y)
  refine ⟨hperm, (List.pairwise_mergeSort htrans htotal xs).imp (Bytes.le_iff _ _).mp, fun k => ?_⟩
  -- the entries of one key are sorted as they are, so sorting keeps them in this order
  have hone : (xs.filter fun x => key x = k).Pairwise fun x y => (key x).le (key y) = true := by
    refine List.pairwise_of_forall_mem_list fun x hx y hy => ?_
    simp only [List.mem_filter, decide_eq_true_eq] at hx hy
    rw [hx.2, hy.2]
    exact Bytes.le_refl k
  have hsub := (List.sublist_mergeSort htrans htotal hone List.filter_sublist).filter
    fun x => decide (key x = k)
  rw [List.filter_filter] at hsub
  simp only [Bool.and_self] at hsub
  exact (hsub.eq_of_length (hperm.filter _).length_eq.symm).symm

/-- If all keys differ, there is only one sorted list of the entries. -/
theorem IsStableSort.eq_of_nodup {xs ys zs : List α} (h : IsStableSort key xs ys) (hperm : zs.Perm xs)
    (hsorted : zs.Pairwise fun x y => key x ≤ key y) (hkeys : (xs.map key).Nodup) : ys = zs := by
  refine (h.perm.trans hperm.symm).eq_of_pairwise ?_ h.sorted hsorted
  intro x y hx hy hle hle'
  have hkey : key x = key y := List.le_antisymm hle hle'
  exact List.inj_on_of_nodup_map hkeys (h.perm.mem_iff.mp hx) (hperm.mem_iff.mp hy) hkey

theorem sortByKey_congr {xs ys : List α} (hperm : xs.Perm ys) (hkeys : (xs.map key).Nodup) :
    sortByKey key xs = sortByKey key ys := by
  have hy := isStableSort_sortByKey key ys
  exact (isStableSort_sortByKey key xs).eq_of_nodup (hy.perm.trans hperm.symm) hy.sorted hkeys

theorem IsStableSort.map {key : β → Bytes} {f : α → β} {xs ys : List α}
    (h : IsStableSort (fun x => key (f x)) xs ys) : IsStableSort key (xs.map f) (ys.map f) := by
  refine ⟨h.perm.map f, List.pairwise_map.mpr h.sorted, fun k => ?_⟩
  rw [List.filter_map, List.filter_map]
  exact congrArg (List.map f) (h.stable k)

end ConfidentialTx
