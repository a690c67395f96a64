import Mathlib.Data.List.Induction
import SpiderMonkey.Jit.LIR

/-!
# Adding moves to a group

A group of moves is one simultaneous assignment. `addAfter` is meant to add a move so that the group does
what it did and then the move. It leaves the group alone when the move stands for the value that its
destination had at first, and then a write of the destination that is in the group stays.
-/

namespace SpiderMonkey.Jit.LIR

variable {V : Type*} {group : LMoveGroup} {m : LMove} {ms : List LMove} {a : LAllocation}

/-- Perform a move. -/
def LMove.assign (m : LMove) (s : LAllocation → V) : LAllocation → V :=
  Function.update s m.dest (s m.source)

namespace LMoveGroup

/-! ## What a group does -/

/-- Perform the moves of a group at the same time. -/
def assign (group : LMoveGroup) (s : LAllocation → V) : LAllocation → V := fun a => s (group.sourceOf a)

/-- A move of a group is found by its destination. -/
theorem sourceOf_of_mem (h : m ∈ group.moves) : group.sourceOf m.dest = m.source := by
  have hfind : group.moves.find? (·.dest = m.dest) = some m := by
    have hnodup := group.nodup_dest
    generalize group.moves = moves at h hnodup
    induction moves with
    | nil => exact absurd h List.not_mem_nil
    | cons first rest ih =>
      rw [List.map_cons, List.nodup_cons] at hnodup
      rcases List.mem_cons.mp h with rfl | h
      · rw [List.find?_cons, decide_eq_true rfl]
      · have hne : first.dest ≠ m.dest := fun heq => hnodup.1 (heq ▸ List.mem_map_of_mem h)
        rw [List.find?_cons, decide_eq_false hne]
        exact ih h hnodup.2
  rw [sourceOf, hfind]
  rfl

/-- Storage has other storage as its source exactly if a move is from the one to the other. -/
theorem sourceOf_ne_iff : group.sourceOf a ≠ a ↔ ∃ w ∈ group.moves, w.dest = a ∧ w.source ≠ a := by
  apply Iff.intro
  · intro hne
    have hmem : a ∈ group.moves.map LMove.dest := by
      by_contra hnot
      exact hne (sourceOf_of_not_mem hnot)
    obtain ⟨w, hw, rfl⟩ := List.mem_map.mp hmem
    exact ⟨w, hw, rfl, sourceOf_of_mem hw ▸ hne⟩
  · rintro ⟨w, hw, rfl, hne⟩
    rw [sourceOf_of_mem hw]
    exact hne

/-! ## One added move -/

/-- A move restores its destination: the group moves the destination to the source of the move, and moves
something else to the destination. -/
def Restores (group : LMoveGroup) (m : LMove) : Prop :=
  (∃ r ∈ group.moves, r.dest = m.source ∧ r.source = m.dest) ∧
    ∃ w ∈ group.moves, w.dest = m.dest ∧ w.source ≠ m.dest

/-- When a move restores its destination. -/
theorem restores_iff : Restores group m ↔
    group.sourceOf m.source = m.dest ∧ group.sourceOf m.dest ≠ m.dest := by
  rw [sourceOf_ne_iff, Restores]
  apply and_congr_left
  rintro ⟨w, hw, hdest, hne⟩
  apply Iff.intro
  · rintro ⟨r, hr, hsource, hback⟩
    rw [← hsource, sourceOf_of_mem hr, hback]
  · intro hsource
    have hmem : m.source ∈ group.moves.map LMove.dest := by
      by_contra hnot
      rw [sourceOf_of_not_mem hnot] at hsource
      exact hnot (hsource ▸ hdest ▸ List.mem_map_of_mem hw)
    obtain ⟨r, hr, heq⟩ := List.mem_map.mp hmem
    exact ⟨r, hr, heq, by rw [← hsource, ← heq, sourceOf_of_mem hr]⟩

/-- What a group does after a move that does not restore its destination is added. -/
theorem assign_addAfter (h : ¬ Restores group m) (s : LAllocation → V) :
    (group.addAfter m).assign s = m.assign (group.assign s) := by
  funext a
  rw [LMove.assign, Function.update_apply, assign, assign, assign]
  rcases sourceOf_addAfter group m with hadd | ⟨hgroup, hself, -⟩
  · rw [hadd a]
    split_ifs <;> rfl
  · rw [hgroup]
    by_cases ha : a = m.dest
    · have hkept : group.sourceOf m.dest = m.dest := by
        by_contra hne
        exact h (restores_iff.mpr ⟨hself, hne⟩)
      rw [if_pos ha, ha, hkept, hself]
    · rw [if_neg ha]

/-- What is added to a group is left out if it restores its destination. -/
theorem addAfter_of_restores (h : Restores group m) : group.addAfter m = group := by
  rw [addAfter]
  exact dif_pos (restores_iff.mp h).1

/-! ## Runs -/

/-- Add moves one after another. -/
def addAllAfter (group : LMoveGroup) (ms : List LMove) : LMoveGroup := ms.foldl addAfter group

/-- Perform moves one after another. -/
def assignAll (ms : List LMove) (s : LAllocation → V) : LAllocation → V := ms.foldl (fun s m => m.assign s) s

/-- The group after all moves are added does what the group and then the moves do. -/
def Composes (group : LMoveGroup) (ms : List LMove) : Prop :=
  ∀ (V : Type) (s : LAllocation → V), (group.addAllAfter ms).assign s = assignAll ms (group.assign s)

/-- No move restores its destination when it is added. -/
def NoneRestores : LMoveGroup → List LMove → Prop
  | _, [] => True
  | group, m :: ms => ¬ Restores group m ∧ NoneRestores (group.addAfter m) ms

/-- Moves compose when none of them restores its destination. -/
theorem NoneRestores.composes (h : NoneRestores group ms) : Composes group ms := by
  induction ms generalizing group with
  | nil => exact fun _ _ => rfl
  | cons m ms ih =>
    intro V s
    have hrest := ih h.2 V s
    rw [assign_addAfter h.1] at hrest
    exact hrest

/-- One more move. -/
theorem noneRestores_concat :
    NoneRestores group (ms ++ [m]) ↔ NoneRestores group ms ∧ ¬ Restores (group.addAllAfter ms) m := by
  induction ms generalizing group with
  | nil => exact and_comm
  | cons first ms ih =>
    have hrest := @ih (group.addAfter first)
    rw [List.cons_append, NoneRestores, NoneRestores, hrest, and_assoc]
    rfl

/-- A move that restores its destination does not compose, after moves that do. -/
theorem not_composes_of_restores (hfront : NoneRestores group ms) (h : Restores (group.addAllAfter ms) m) :
    ¬ Composes group (ms ++ [m]) := by
  intro hall
  have hgroup : group.addAllAfter (ms ++ [m]) = group.addAllAfter ms := by
    rw [addAllAfter, List.foldl_append]
    exact addAfter_of_restores h
  have hrun := congrFun (hall LAllocation id) m.dest
  rw [hgroup, assignAll, List.foldl_append, List.foldl_cons, List.foldl_nil, ← assignAll,
    ← hfront.composes LAllocation id, LMove.assign, Function.update_self] at hrun
  have hboth := restores_iff.mp h
  exact hboth.2 (hrun.trans hboth.1)

/-- After each of the moves the group does what it and the moves so far do, if and only if none of them
restores its destination when it is added. -/
theorem addAfter_exact (group : LMoveGroup) (ms : List LMove) :
    (∀ front, front <+: ms → Composes group front) ↔ NoneRestores group ms := by
  induction ms using List.reverseRecOn with
  | nil =>
    apply iff_of_true _ trivial
    intro front hfront
    rw [List.prefix_nil.mp hfront]
    exact fun _ _ => rfl
  | append_singleton ms m ih =>
    rw [noneRestores_concat, ← ih]
    apply Iff.intro
    · intro h
      have hfront : ∀ front, front <+: ms → Composes group front := fun front hearlier =>
        h front (hearlier.trans (List.prefix_append _ _))
      refine ⟨hfront, fun hrestores => ?_⟩
      exact not_composes_of_restores (ih.mp hfront) hrestores (h _ List.prefix_rfl)
    · rintro ⟨hfront, hlast⟩ front hearlier
      rcases List.prefix_concat_iff.mp hearlier with rfl | hearlier
      · exact (noneRestores_concat.mpr ⟨ih.mp hfront, hlast⟩).composes
      · exact hfront front hearlier

/-- Two registers that are exchanged. -/
def exchange : LMoveGroup :=
  ⟨[⟨.register (.gpr 0), .register (.gpr 1), .general⟩, ⟨.register (.gpr 1), .register (.gpr 0), .general⟩],
    by decide⟩

/-- A move of one of two exchanged registers to the other one restores the other one. -/
theorem exchange_not_composes :
    ¬ Composes exchange [⟨.register (.gpr 0), .register (.gpr 1), .general⟩] := by
  intro h
  have hrun := congrFun (h LAllocation id) (.register (.gpr 1))
  exact absurd hrun (by decide)

end LMoveGroup

end SpiderMonkey.Jit.LIR
