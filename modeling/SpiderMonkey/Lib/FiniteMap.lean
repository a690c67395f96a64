import Mathlib.Data.List.Nodup
import Mathlib.Data.Set.Card
import Mathlib.Logic.Function.Basic

/-!
# Finite maps and lists of their entries

A map is a function to options. A list has its entries if it has each of them once, in any order. What
changes one key of the map changes one place of the list.
-/

namespace SpiderMonkey.Lib

variable {K V : Type} {l a b : List (K × V)} {f g : K → Option V} {k : K} {v w : V}

/-- A list has each entry of a map once, and nothing else. -/
structure Lists (l : List (K × V)) (f : K → Option V) : Prop where
  nodup : (l.map Prod.fst).Nodup
  mem : ∀ k v, (k, v) ∈ l ↔ f k = some v

namespace Lists

/-- The map without entries. -/
protected theorem nil : Lists [] (fun _ : K => (none : Option V)) := ⟨List.nodup_nil, by simp⟩

/-- A list is the list of one map. -/
theorem ext (h : Lists l f) (h' : Lists l g) : f = g := by
  funext k
  apply Option.ext
  intro v
  rw [← h.mem, h'.mem]

/-- What is listed first. -/
theorem middle (h : Lists (a ++ (k, v) :: b) f) : f k = some v :=
  (h.mem k v).mp (List.mem_append_right _ List.mem_cons_self)

/-- A key that the map does not have is not in the list. -/
theorem not_mem_of_eq_none (h : Lists l f) (hk : f k = none) : k ∉ l.map Prod.fst := by
  intro hmem
  obtain ⟨⟨k', v'⟩, he, rfl⟩ := List.mem_map.mp hmem
  rw [(h.mem k' v').mp he] at hk
  cases hk

/-- Conversely. -/
theorem eq_none_of_not_mem (h : Lists l f) (hk : k ∉ l.map Prod.fst) : f k = none := by
  cases hv : f k with
  | none => rfl
  | some v => exact absurd (List.mem_map_of_mem ((h.mem k v).mpr hv)) hk

/-- The keys before and behind an entry differ from its key. -/
theorem ne_of_mem (h : Lists (a ++ (k, v) :: b) f) {e : K × V} (he : e ∈ a ++ b) : e.1 ≠ k := by
  have hnodup := h.nodup
  rw [List.map_append, List.map_cons, List.nodup_middle, ← List.map_append] at hnodup
  exact ne_of_mem_of_not_mem (List.mem_map_of_mem he) (List.nodup_cons.mp hnodup).1

/-- A map has as many keys as a list of its entries has places. -/
theorem ncard (h : Lists l f) : {k | f k ≠ none}.ncard = l.length := by
  classical
  have hset : {k | f k ≠ none} = ((l.map Prod.fst).toFinset : Set K) := by
    ext k
    rw [List.coe_toFinset, Set.mem_ofPred_eq, Set.mem_ofPred_eq]
    exact ⟨fun hk => by_contra fun hmem => hk (h.eq_none_of_not_mem hmem),
      fun hmem hk => h.not_mem_of_eq_none hk hmem⟩
  rw [hset, Set.ncard_coe_finset, List.toFinset_card_of_nodup h.nodup, List.length_map]

/-- The map has no keys if and only if the list is empty. -/
theorem length_eq_zero_iff (h : Lists l f) : l.length = 0 ↔ ∀ k, f k = none := by
  rw [List.length_eq_zero_iff]
  apply Iff.intro
  · rintro rfl k
    exact h.eq_none_of_not_mem List.not_mem_nil
  · intro hnone
    apply List.eq_nil_iff_forall_not_mem.mpr
    rintro ⟨k, v⟩ he
    rw [h.mem, hnone] at he
    cases he

variable [DecidableEq K]

/-- A new entry behind the others. -/
theorem append_new (h : Lists l f) (hk : f k = none) :
    Lists (l ++ [(k, v)]) (Function.update f k (some v)) := by
  have hnew := h.not_mem_of_eq_none hk
  constructor
  · rw [List.map_append, List.map_singleton, List.nodup_append_comm]
    exact List.nodup_cons.mpr ⟨hnew, h.nodup⟩
  · intro k' v'
    rw [List.mem_append, List.mem_singleton, Prod.mk.injEq, h.mem, Function.update_apply]
    by_cases hkk : k' = k
    · simp [hkk, hk, eq_comm]
    · simp [hkk]

/-- The value of an entry is changed. -/
theorem set_value (h : Lists (a ++ (k, v) :: b) f) :
    Lists (a ++ (k, w) :: b) (Function.update f k (some w)) := by
  constructor
  · simpa using h.nodup
  · intro k' v'
    have hold := h.mem k' v'
    have hne := fun he => h.ne_of_mem (e := (k', v')) he
    simp only [List.mem_append, List.mem_cons, Prod.mk.injEq] at hold hne ⊢
    rw [Function.update_apply]
    by_cases hkk : k' = k
    · subst hkk
      have hno : ¬((k', v') ∈ a ∨ (k', v') ∈ b) := fun he => hne he rfl
      simp only [if_true, Option.some.injEq, true_and]
      tauto
    · simp only [hkk, if_false, false_and, false_or] at hold ⊢
      exact hold

/-- An entry is taken out. -/
theorem erase (h : Lists (a ++ (k, v) :: b) f) : Lists (a ++ b) (Function.update f k none) := by
  constructor
  · have hnodup := h.nodup
    rw [List.map_append, List.map_cons, List.nodup_middle, ← List.map_append] at hnodup
    exact (List.nodup_cons.mp hnodup).2
  · intro k' v'
    have hold := h.mem k' v'
    have hne := fun he => h.ne_of_mem (e := (k', v')) he
    rw [Function.update_apply]
    by_cases hkk : k' = k
    · rw [if_pos hkk]
      exact ⟨fun he => absurd hkk (hne he), fun he => by cases he⟩
    · simp only [List.mem_append, List.mem_cons, Prod.mk.injEq, hkk, false_and, false_or] at hold
      rw [if_neg hkk, List.mem_append, hold]

/-- The entries of a key are taken out. -/
theorem filter_ne (h : Lists l f) (k : K) :
    Lists (l.filter fun e => e.1 ≠ k) (Function.update f k none) := by
  constructor
  · exact h.nodup.sublist (List.filter_sublist.map _)
  · intro k' v'
    rw [List.mem_filter, h.mem, Function.update_apply, decide_eq_true_iff]
    by_cases hkk : k' = k
    · simp [hkk]
    · simp [hkk]

/-- The entry of a key is made anew, behind the others. -/
theorem renew (h : Lists l f) (k : K) (v : V) :
    Lists ((l.filter fun e => e.1 ≠ k) ++ [(k, v)]) (Function.update f k (some v)) := by
  have hnone : Function.update f k none k = none := Function.update_self ..
  have hnew := (h.filter_ne k).append_new (v := v) hnone
  rwa [Function.update_idem] at hnew

/-- The map of a list: the entry of a key is searched for. -/
theorem find (hnodup : (l.map Prod.fst).Nodup) :
    Lists l fun k => (l.find? fun e => e.1 = k).map Prod.snd := by
  refine ⟨hnodup, fun k v => ?_⟩
  induction l with
  | nil => simp
  | cons e l ih =>
    rw [List.map_cons, List.nodup_cons] at hnodup
    rw [List.mem_cons, List.find?_cons]
    by_cases hk : e.1 = k
    · have hno : (k, v) ∉ l := fun hmem => hnodup.1 (hk ▸ List.mem_map_of_mem hmem)
      simp only [hno, or_false, hk, decide_true, Option.map_some, Option.some.injEq]
      apply Iff.intro
      · rintro rfl
        rfl
      · intro hv
        rw [← hk, ← hv]
    · have hne : (k, v) ≠ e := fun he => hk (he ▸ rfl)
      simp only [hne, false_or, hk, decide_false]
      exact ih hnodup.2

/-- Searching a list of the entries of a map. -/
theorem find_eq (h : Lists l f) : (fun k => (l.find? fun e => e.1 = k).map Prod.snd) = f :=
  (find h.nodup).ext h

end Lists

end SpiderMonkey.Lib
