import Mathlib.Data.List.Basic
import Mathlib.Logic.Function.Basic

/-!
# Singly linked lists over a pointer function

The nodes a pointer leads to, read off a function that gives each node the next one.
-/

namespace SpiderMonkey

variable {V : Type*} {next next' : V → Option V} {start stop : Option V} {l l' : List V}

/-- Following the pointers from `start` visits the nodes of the list and arrives at `stop`. -/
def LinkedTo (next : V → Option V) (stop : Option V) : Option V → List V → Prop
  | start, [] => start = stop
  | start, v :: l => start = some v ∧ LinkedTo next stop (next v) l

/-- Following the pointers from `start` visits exactly the nodes of the list and ends. -/
abbrev Linked (next : V → Option V) : Option V → List V → Prop := LinkedTo next none

/-- A list starts where its pointer points. -/
theorem LinkedTo.head?_eq (h : Linked next start l) : start = l.head? := by
  cases l with
  | nil => exact h
  | cons v l => exact h.1

/-- Only the pointers of the list's nodes matter. -/
theorem LinkedTo.congr (h : LinkedTo next stop start l) (heq : ∀ v ∈ l, next' v = next v) :
    LinkedTo next' stop start l := by
  induction l generalizing start with
  | nil => exact h
  | cons v l ih =>
    refine ⟨h.1, ?_⟩
    rw [heq v (by simp)]
    exact ih h.2 fun w hw => heq w (List.mem_cons_of_mem _ hw)

/-- A list in two parts arrives at the second part after the first. -/
theorem linkedTo_append :
    LinkedTo next stop start (l ++ l') ↔
      ∃ mid, LinkedTo next mid start l ∧ LinkedTo next stop mid l' := by
  induction l generalizing start with
  | nil => exact ⟨fun h => ⟨start, rfl, h⟩, fun ⟨_, hstart, h⟩ => hstart ▸ h⟩
  | cons v l ih =>
    rw [List.cons_append, LinkedTo, ih]
    exact ⟨fun ⟨hv, mid, h, h'⟩ => ⟨mid, ⟨hv, h⟩, h'⟩, fun ⟨mid, ⟨hv, h⟩, h'⟩ => ⟨hv, mid, h, h'⟩⟩

/-- The last node of a part points to the next part. -/
theorem LinkedTo.next_of_append {v : V} (h : LinkedTo next stop start (l ++ v :: l')) :
    LinkedTo next stop (next v) l' := by
  obtain ⟨mid, _, hmid⟩ := linkedTo_append.mp h
  exact hmid.2

/-- Pointing the last node of a list to another list joins them. -/
theorem LinkedTo.join {v : V} {mid : Option V} (h : LinkedTo next stop start (l ++ [v]))
    (hl : v ∉ l) (h' : Linked next mid l') (hl' : v ∉ l') (hv : next' v = mid)
    (hother : ∀ w, w ≠ v → next' w = next w) : Linked next' start (l ++ v :: l') := by
  obtain ⟨start', hfirst, hstart', _⟩ := linkedTo_append.mp h
  rw [Linked, linkedTo_append]
  refine ⟨start', hfirst.congr fun w hw => hother w fun heq => hl (heq ▸ hw), hstart', ?_⟩
  rw [hv]
  exact h'.congr fun w hw => hother w fun heq => hl' (heq ▸ hw)

end SpiderMonkey
