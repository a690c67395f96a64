import Mathlib.Data.Finset.Card
import SpiderMonkey.Ds.SortSound
import SpiderMonkey.Lib.Loops
import SpiderMonkey.Vm.ArraySort

/-!
# Sorting by keys

The elements come to the positions of their keys. From each position on, the indices that are left are
a rearrangement of the positions from there on, and say where the right elements are. A cycle is
followed with one element kept aside and one position free.
-/

namespace SpiderMonkey.Vm.ArraySort

open Lib
open Ds.Sort (Comparator mergeSort mergeSort_perm mergeSort_map mergeSort_congr)

variable {K V : Type} {indices indices' : List ℕ} {vec vec' target : List V} {n i j k h : ℕ} {v tv : V}

/-! ## A cycle -/

/-- The state between two positions: those before have the right elements, and for each one from there
on the index, which no other position has, says where the right element is. -/
structure Reordered (target : List V) (n i : ℕ) (indices : List ℕ) (vec : List V) : Prop where
  length_indices : indices.length = n
  length_vec : vec.length = n
  done : ∀ p < i, vec[p]? = target[p]?
  source : ∀ p, i ≤ p → p < n → ∃ k, indices[p]? = some k ∧ i ≤ k ∧ k < n ∧ vec[k]? = target[p]?
  inj : ∀ p q k, i ≤ p → i ≤ q → indices[p]? = some k → indices[q]? = some k → p = q

/-- The state while a cycle is followed from a position: its right element is kept aside, and a later
position is free, whose element no index asks for. -/
structure Following (target : List V) (n i h : ℕ) (indices : List ℕ) (vec : List V) (tv : V) :
    Prop where
  length_indices : indices.length = n
  length_vec : vec.length = n
  free : i < h ∧ h < n
  aside : target[i]? = some tv
  done : ∀ p < i, vec[p]? = target[p]?
  source : ∀ p, i < p → p < n →
    ∃ k, indices[p]? = some k ∧ i ≤ k ∧ k < n ∧ k ≠ h ∧ vec[k]? = target[p]?
  inj : ∀ p q k, i < p → i < q → indices[p]? = some k → indices[q]? = some k → p = q

/-- The positions whose index is another one. -/
def misplaced (indices : List ℕ) : Finset ℕ :=
  (Finset.range indices.length).filter fun p => indices[p]? ≠ some p

/-- Setting the index of a position that has another one to the position itself. -/
theorem card_misplaced_set (hj : indices[j]? = some k) (hk : k ≠ j) :
    (misplaced (indices.set j j)).card < (misplaced indices).card := by
  have hlt : j < indices.length := (List.getElem?_eq_some_iff.mp hj).1
  have hself : (indices.set j j)[j]? = some j := by
    rw [List.getElem?_set_self hlt]
  apply Finset.card_lt_card
  rw [Finset.ssubset_iff_of_subset]
  · refine ⟨j, Finset.mem_filter.mpr ⟨Finset.mem_range.mpr hlt, ?_⟩, ?_⟩
    · rw [hj]
      intro heq
      exact hk (Option.some_inj.mp heq)
    · intro hmem
      exact (Finset.mem_filter.mp hmem).2 hself
  · intro p hp
    obtain ⟨hrange, hne⟩ := Finset.mem_filter.mp hp
    rw [List.length_set] at hrange
    refine Finset.mem_filter.mpr ⟨hrange, ?_⟩
    by_cases hpj : p = j
    · subst hpj
      exact absurd hself hne
    · rw [List.getElem?_set_ne (Ne.symm hpj)] at hne
      exact hne

/-- The right element comes to the free position, and where it was is free, unless the cycle ends. -/
theorem Following.step (hf : Following target n i h indices vec tv) :
    ∃ k v, indices[h]? = some k ∧ vec[k]? = some v ∧ h < vec.length ∧ k ≠ h ∧
      (k ≠ i → Following target n i k (indices.set h h) (vec.set h v) tv) ∧
      (k = i → Reordered target n (i + 1) (indices.set h h) ((vec.set h v).set i tv)) := by
  obtain ⟨hih, hhn⟩ := hf.free
  obtain ⟨k, hk, hik, hkn, hkh, hsource⟩ := hf.source h hih hhn
  have hkv : k < vec.length := hf.length_vec.symm ▸ hkn
  obtain ⟨v, hget⟩ : ∃ v, vec[k]? = some v := ⟨_, List.getElem?_eq_getElem hkv⟩
  have hindices (p : ℕ) (hp : p ≠ h) : (indices.set h h)[p]? = indices[p]? :=
    List.getElem?_set_ne (Ne.symm hp)
  have hself : (indices.set h h)[h]? = some h := by
    rw [List.getElem?_set_self (hf.length_indices.symm ▸ hhn)]
  have hvec (p : ℕ) (hp : p ≠ h) : (vec.set h v)[p]? = vec[p]? :=
    List.getElem?_set_ne (Ne.symm hp)
  have hvecSelf : (vec.set h v)[h]? = target[h]? := by
    rw [List.getElem?_set_self (hf.length_vec.symm ▸ hhn), ← hsource, hget]
  have hdone (p : ℕ) (hp : p < i) : (vec.set h v)[p]? = target[p]? := by
    rw [hvec p (by omega)]
    exact hf.done p hp
  -- where the right elements are afterwards: not where this one was
  have hsources (p : ℕ) (hp : i < p) (hpn : p < n) : ∃ k', (indices.set h h)[p]? = some k' ∧
      i ≤ k' ∧ k' < n ∧ k' ≠ k ∧ (vec.set h v)[k']? = target[p]? := by
    by_cases hph : p = h
    · rw [hph]
      exact ⟨h, hself, Nat.le_of_lt hih, hhn, Ne.symm hkh, hvecSelf⟩
    · obtain ⟨k', hk', hik', hkn', hkh', hsource'⟩ := hf.source p hp hpn
      refine ⟨k', by rw [hindices p hph, hk'], hik', hkn', ?_, by rw [hvec k' hkh', hsource']⟩
      intro heq
      exact hph (hf.inj p h k hp hih (heq ▸ hk') hk)
  have hinj (p q k' : ℕ) (hp : i < p) (hq : i < q) (hpk : (indices.set h h)[p]? = some k')
      (hqk : (indices.set h h)[q]? = some k') : p = q := by
    have hnot (p : ℕ) (hp : i < p) (hph : p ≠ h) (hpk : indices[p]? = some h) : False := by
      have hpn : p < n := hf.length_indices ▸ (List.getElem?_eq_some_iff.mp hpk).1
      obtain ⟨k'', hk'', _, _, hne, _⟩ := hf.source p hp hpn
      exact hne (Option.some_inj.mp (hk''.symm.trans hpk))
    by_cases hph : p = h
    · by_cases hqh : q = h
      · rw [hph, hqh]
      · rw [hph, hself] at hpk
        rw [hindices q hqh, ← hpk] at hqk
        exact (hnot q hq hqh hqk).elim
    · rw [hindices p hph] at hpk
      by_cases hqh : q = h
      · rw [hqh, hself] at hqk
        rw [← hqk] at hpk
        exact (hnot p hp hph hpk).elim
      · rw [hindices q hqh] at hqk
        exact hf.inj p q k' hp hq hpk hqk
  have hlengthIndices : (indices.set h h).length = n := by rw [List.length_set, hf.length_indices]
  have hlengthVec : (vec.set h v).length = n := by rw [List.length_set, hf.length_vec]
  refine ⟨k, v, hk, hget, hf.length_vec.symm ▸ hhn, hkh, ?_, ?_⟩
  · intro hki
    exact ⟨hlengthIndices, hlengthVec, ⟨by omega, hkn⟩, hf.aside, hdone, hsources, hinj⟩
  · intro hki
    have hlast (p : ℕ) (hp : p ≠ i) :
        ((vec.set h v).set i tv)[p]? = (vec.set h v)[p]? :=
      List.getElem?_set_ne (Ne.symm hp)
    refine ⟨hlengthIndices, by rw [List.length_set, hlengthVec], ?_, ?_, ?_⟩
    · intro p hp
      rcases Nat.lt_succ_iff_lt_or_eq.mp hp with hlt | heq
      · rw [hlast p (by omega)]
        exact hdone p hlt
      · rw [heq, List.getElem?_set_self (by omega), hf.aside]
    · intro p hp hpn
      obtain ⟨k', hk', hik', hkn', hne, hsource'⟩ := hsources p hp hpn
      refine ⟨k', hk', by omega, hkn', ?_⟩
      rw [hlast k' (by omega), hsource']
    · intro p q k' hp hq
      exact hinj p q k' hp hq

/-- A cycle is followed to its end. -/
theorem cycleLoop_spec (hf : Following target n i h indices vec tv) (fuel : ℕ)
    (hfuel : (misplaced indices).card ≤ fuel) :
    ∃ indices' vec', cycleLoop i fuel h indices vec = some (indices', vec') ∧
      Reordered target n (i + 1) indices' (vec'.set i tv) := by
  induction fuel generalizing h indices vec with
  | zero =>
    obtain ⟨k, v, hk, _, _, hkh, _⟩ := hf.step
    have hlt := card_misplaced_set hk hkh
    omega
  | succ fuel ih =>
    obtain ⟨k, v, hk, hv, hlength, hkh, hgo, hend⟩ := hf.step
    have hlt := card_misplaced_set hk hkh
    have hget : vec[h]? = some vec[h] := List.getElem?_eq_getElem hlength
    simp only [cycleLoop, hk, hv, hget, Option.bind_eq_bind, Option.bind_some]
    by_cases hki : k = i
    · rw [if_neg (not_not.mpr hki)]
      exact ⟨_, _, rfl, hend hki⟩
    · rw [if_pos hki]
      exact ih (hgo hki) (by omega)

/-! ## All positions -/

/-- The right element comes to a position. -/
theorem reorderStep_spec (hr : Reordered target n i indices vec) (hi : i < n) :
    ∃ s, reorderStep (indices, vec) i = some s ∧ Reordered target n (i + 1) s.1 s.2 := by
  obtain ⟨j, hj, hij, hjn, hsource⟩ := hr.source i (Nat.le_refl i) hi
  simp only [reorderStep, hj, Option.bind_eq_bind, Option.bind_some]
  by_cases heq : i = j
  · rw [if_pos heq]
    refine ⟨_, rfl, hr.length_indices, hr.length_vec, ?_, ?_, ?_⟩
    · intro p hp
      rcases Nat.lt_succ_iff_lt_or_eq.mp hp with hlt | hpi
      · exact hr.done p hlt
      · rw [hpi]
        exact (congrArg (fun q => vec[q]?) heq).trans hsource
    · intro p hp hpn
      obtain ⟨k, hk, hik, hkn, hsource'⟩ := hr.source p (Nat.le_of_succ_le hp) hpn
      refine ⟨k, hk, ?_, hkn, hsource'⟩
      -- the index of the position itself is no other's
      apply Nat.lt_of_le_of_ne hik
      intro hki
      have hpi := hr.inj p i k (Nat.le_of_succ_le hp) (Nat.le_refl i) hk (by rw [hj, ← heq, hki])
      omega
    · intro p q k hp hq
      exact hr.inj p q k (Nat.le_of_succ_le hp) (Nat.le_of_succ_le hq)
  · have hlt : i < j := Nat.lt_of_le_of_ne hij heq
    have hjv : j < vec.length := hr.length_vec.symm ▸ hjn
    have hget : vec[j]? = some vec[j] := List.getElem?_eq_getElem hjv
    have hf : Following target n i j indices vec vec[j] := by
      refine ⟨hr.length_indices, hr.length_vec, ⟨hlt, hjn⟩, by rw [← hsource, hget], hr.done, ?_, ?_⟩
      · intro p hp hpn
        obtain ⟨k, hk, hik, hkn, hsource'⟩ := hr.source p (Nat.le_of_lt hp) hpn
        refine ⟨k, hk, hik, hkn, ?_, hsource'⟩
        intro hkj
        have hpi := hr.inj p i k (Nat.le_of_lt hp) (Nat.le_refl i) hk (by rw [hj, hkj])
        omega
      · intro p q k hp hq
        exact hr.inj p q k (Nat.le_of_lt hp) (Nat.le_of_lt hq)
    have hcard : (misplaced indices).card ≤ indices.length := by
      have hle := Finset.card_filter_le (Finset.range indices.length) fun p => indices[p]? ≠ some p
      rw [Finset.card_range] at hle
      exact hle
    obtain ⟨indices', vec', hloop, hr'⟩ := cycleLoop_spec hf indices.length hcard
    simp only [if_neg heq, guard, if_pos hlt, hget, hloop, Option.pure_def, Option.bind_some]
    exact ⟨_, rfl, hr'⟩

/-- Elements at indices that are in bounds. -/
theorem exists_mapM_getElem? (h : ∀ k ∈ indices, k < vec.length) :
    ∃ target, indices.mapM (fun k => vec[k]?) = some target ∧ target.length = indices.length ∧
      ∀ p k : ℕ, indices[p]? = some k → vec[k]? = target[p]? := by
  induction indices with
  | nil => exact ⟨[], rfl, rfl, nofun⟩
  | cons k indices ih =>
    obtain ⟨target, htarget, hlength, hget⟩ := ih fun k' hk' => h k' (List.mem_cons_of_mem k hk')
    have hlt := h k List.mem_cons_self
    have hk := List.getElem?_eq_getElem hlt
    refine ⟨vec[k] :: target, ?_, by rw [List.length_cons, List.length_cons, hlength], ?_⟩
    · rw [List.mapM_cons, hk, htarget]
      rfl
    · intro p k' hp
      cases p with
      | zero =>
        obtain rfl := Option.some_inj.mp hp
        exact hk
      | succ p => exact hget p k' hp

/-- The elements come to the positions of their indices. -/
theorem reorder_eq (hperm : indices.Perm (List.range vec.length)) :
    reorder indices vec = indices.mapM fun k => vec[k]? := by
  have hlength : indices.length = vec.length := by rw [hperm.length_eq, List.length_range]
  have hbound (k : ℕ) (hk : k ∈ indices) : k < vec.length :=
    List.mem_range.mp (hperm.mem_iff.mp hk)
  obtain ⟨target, htarget, hlengthTarget, hget⟩ := exists_mapM_getElem? hbound
  have hstart : Reordered target indices.length 0 indices vec := by
    refine ⟨rfl, hlength.symm, nofun, ?_, ?_⟩
    · intro p _ hp
      have hp' := List.getElem?_eq_getElem hp
      refine ⟨indices[p], hp', Nat.zero_le _, ?_, hget p _ hp'⟩
      rw [hlength]
      exact hbound _ (List.getElem_mem hp)
    · intro p q k _ _ hp hq
      have hnodup : indices.Nodup := hperm.nodup_iff.mpr List.nodup_range
      have hp' := (List.getElem?_eq_some_iff.mp hp).1
      exact (List.getElem?_inj hp' hnodup).mp (hp.trans hq.symm)
  obtain ⟨s, hs, hr⟩ := exists_foldlM_range
    (P := fun i (s : List ℕ × List V) => Reordered target indices.length i s.1 s.2)
    (f := reorderStep) (n := indices.length) (a := (indices, vec)) hstart
    fun i hi s hr => reorderStep_spec hr hi
  have hfinal : s.2 = target := by
    apply List.ext_getElem?
    intro p
    by_cases hp : p < indices.length
    · exact hr.done p hp
    · rw [List.getElem?_eq_none (by rw [hr.length_vec]; omega),
        List.getElem?_eq_none (by omega)]
  rw [htarget, ← hfinal, reorder, hs]
  rfl

/-- The elements come into the order in which the keys are sorted. -/
theorem mergeSortByKey_eq (c : Comparator (Keyed K)) {keys : List (Keyed K)}
    (hkeys : (keys.map Keyed.elementIndex).Perm (List.range vec.length)) :
    mergeSortByKey c keys vec =
      (mergeSort c keys).bind fun sorted => sorted.mapM fun key => vec[key.elementIndex]? := by
  rw [mergeSortByKey]
  cases hsort : mergeSort c keys with
  | none => rfl
  | some sorted =>
    have hperm := ((mergeSort_perm hsort).map Keyed.elementIndex).trans hkeys
    simp only [Option.bind_eq_bind, Option.bind_some]
    rw [reorder_eq hperm, List.mapM_map]
    rfl

/-- Looking up one element after the other. -/
theorem mapM_of_forall_some {α β : Type} {f : α → Option β} {g : α → β} {as : List α}
    (h : ∀ a ∈ as, f a = some (g a)) : as.mapM f = some (as.map g) := by
  induction as with
  | nil => rfl
  | cons a as ih =>
    rw [List.mapM_cons, h a List.mem_cons_self, ih fun a' ha' => h a' (List.mem_cons_of_mem a ha')]
    rfl

/-- An element and its key, where the keys are in the order of the elements. -/
theorem getElem?_of_mem_zip {keys : List (Keyed K)} {p : V × Keyed K}
    (hindex : keys.map Keyed.elementIndex = List.range vec.length) (hp : p ∈ vec.zip keys) :
    vec[p.2.elementIndex]? = some p.1 := by
  obtain ⟨i, hi⟩ := List.mem_iff_getElem?.mp hp
  obtain ⟨hv, hk⟩ := List.getElem?_zip_eq_some.mp hi
  have hlt : i < vec.length := (List.getElem?_eq_some_iff.mp hv).1
  have hmap : (keys.map Keyed.elementIndex)[i]? = some p.2.elementIndex := by
    rw [List.getElem?_map, hk]
    rfl
  rw [hindex, List.getElem?_range hlt] at hmap
  rw [← Option.some_inj.mp hmap]
  exact hv

/-- Sorting by keys in the order of the elements is sorting by a comparator that answers as for the
keys. -/
theorem mergeSortByKey_zip (c : Comparator (Keyed K)) (d : Comparator V) {keys : List (Keyed K)}
    (hindex : keys.map Keyed.elementIndex = List.range vec.length)
    (h : ∀ p ∈ vec.zip keys, ∀ q ∈ vec.zip keys, c p.2 q.2 = d p.1 q.1) :
    mergeSortByKey c keys vec = mergeSort d vec := by
  have hlength : vec.length = keys.length := by
    rw [← List.length_map (f := Keyed.elementIndex), hindex, List.length_range]
  have hfst : (vec.zip keys).map Prod.fst = vec := List.map_fst_zip (Nat.le_of_eq hlength)
  have hsnd : (vec.zip keys).map Prod.snd = keys := List.map_snd_zip (Nat.le_of_eq hlength.symm)
  have hkeys := mergeSort_map (c := fun p q => c p.2 q.2) (d := c) (f := Prod.snd)
    (fun _ _ => rfl) (vec.zip keys)
  have hvec := mergeSort_map (c := fun p q => d p.1 q.1) (d := d) (f := Prod.fst)
    (fun _ _ => rfl) (vec.zip keys)
  rw [hsnd] at hkeys
  rw [hfst, ← mergeSort_congr h] at hvec
  rw [mergeSortByKey_eq c (hindex ▸ List.Perm.refl _), hkeys, hvec]
  cases hsort : mergeSort (fun p q => c p.2 q.2) (vec.zip keys) with
  | none => rfl
  | some sorted =>
    simp only [Option.map_some, Option.bind_some, List.mapM_map]
    apply mapM_of_forall_some
    intro p hp
    exact getElem?_of_mem_zip hindex ((mergeSort_perm hsort).mem_iff.mp hp)

end SpiderMonkey.Vm.ArraySort
