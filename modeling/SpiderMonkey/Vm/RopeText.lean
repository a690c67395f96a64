import SpiderMonkey.Vm.Rope
import Mathlib.Logic.Relation
import Mathlib.Order.WellFounded

/-!
# The text of strings

What the strings of a heap say, and which heaps are valid: ropes form a directed acyclic graph,
characters lie within their buffers, and a buffer has at most one extensible owner, within whose
length all other strings in the buffer lie.
-/

namespace SpiderMonkey.Vm.Rope

open Segments

namespace JSString

/-- The length that was put in the word. -/
theorem length_of_build {s : JSString} {length flags : ℕ} (hflags : flags < 2 ^ lengthShift)
    (hs : s.lengthAndFlags = buildLengthAndFlags length flags) : s.length = length := by
  have hor := Nat.two_pow_add_eq_or_of_lt hflags length
  rw [JSString.length, hs, buildLengthAndFlags, Nat.shiftLeft_eq, Nat.mul_comm, ← hor,
    Nat.shiftRight_eq_div_pow, Nat.mul_add_div (Nat.two_pow_pos lengthShift), Nat.div_eq_of_lt hflags,
    Nat.add_zero]

/-- The flags that were put in the word. -/
theorem flags_of_build {s : JSString} {length flags : ℕ} (hflags : flags < 2 ^ lengthShift)
    (hs : s.lengthAndFlags = buildLengthAndFlags length flags) : s.flags = flags := by
  have hor := Nat.two_pow_add_eq_or_of_lt hflags length
  rw [JSString.flags, hs, buildLengthAndFlags, Nat.shiftLeft_eq, Nat.mul_comm, ← hor, flagsMask,
    Nat.and_two_pow_sub_one_eq_mod, Nat.mul_add_mod, Nat.mod_eq_of_lt hflags]

/-- A string is a rope just if its flags say so. -/
theorem isRope_iff {s : JSString} : s.isRope = true ↔ s.flags = ropeFlags := decide_eq_true_iff

/-- A string is dependent just if its flags say so. -/
theorem isDependent_iff {s : JSString} : s.isDependent = true ↔ s.flags = dependentFlags :=
  decide_eq_true_iff

/-- A string is extensible just if its flags say so. -/
theorem isExtensible_iff {s : JSString} : s.isExtensible = true ↔ s.flags = extensibleFlags :=
  decide_eq_true_iff

/-- A dependent string is no rope. -/
theorem not_isRope_of_isDependent {s : JSString} (h : s.isDependent = true) : s.isRope = false := by
  rw [isDependent_iff] at h
  rw [← Bool.not_eq_true, isRope_iff, h]
  decide

/-- A dependent string is not extensible. -/
theorem not_isExtensible_of_isDependent {s : JSString} (h : s.isDependent = true) :
    s.isExtensible = false := by
  rw [isDependent_iff] at h
  rw [← Bool.not_eq_true, isExtensible_iff, h]
  decide

/-- An extensible string is no rope. -/
theorem not_isRope_of_isExtensible {s : JSString} (h : s.isExtensible = true) : s.isRope = false := by
  rw [isExtensible_iff] at h
  rw [← Bool.not_eq_true, isRope_iff, h]
  decide

end JSString

namespace Heap

/-- A string is a child of a rope. -/
def Child (h : Heap) (child rope : ℕ) : Prop :=
  (h.strings rope).isRope = true ∧
    ((h.strings rope).u1 = .left child ∨ (h.strings rope).u2 = .right child)

/-- A string is below a rope. -/
def Below (h : Heap) : ℕ → ℕ → Prop := Relation.TransGen h.Child

/-- What a string says. -/
inductive HasText (h : Heap) : ℕ → List UInt16 → Prop where
  | linear {str : ℕ} {chars : CharPtr} {text : List UInt16} : (h.strings str).isRope = false →
      (h.strings str).u1 = .chars chars →
      segment (h.buffers chars.buf) chars.offset (h.strings str).length = some text → HasText h str text
  | rope {str left right : ℕ} {text text' : List UInt16} : (h.strings str).isRope = true →
      (h.strings str).u1 = .left left → (h.strings str).u2 = .right right →
      HasText h left text → HasText h right text' → HasText h str (text ++ text')

/-- Which heaps are valid. -/
structure Valid (h : Heap) : Prop where
  acyclic : WellFounded h.Child
  rope : ∀ str, (h.strings str).isRope = true → ∃ left right,
    (h.strings str).u1 = .left left ∧ (h.strings str).u2 = .right right ∧
      (h.strings str).length = (h.strings left).length + (h.strings right).length
  linear : ∀ str, (h.strings str).isRope = false → ∃ chars, (h.strings str).u1 = .chars chars ∧
    chars.offset + (h.strings str).length ≤ (h.buffers chars.buf).length
  extensible : ∀ str, (h.strings str).isExtensible = true → ∃ buf capacity,
    (h.strings str).u1 = .chars ⟨buf, 0⟩ ∧ (h.strings str).u2 = .capacity capacity ∧
      capacity + 1 ≤ (h.buffers buf).length
  owner : ∀ str str' chars chars', (h.strings str).isExtensible = true →
    (h.strings str).u1 = .chars chars → (h.strings str').isRope = false →
    (h.strings str').u1 = .chars chars' → chars'.buf = chars.buf →
    chars'.offset + (h.strings str').length ≤ (h.strings str).length ∧
      ((h.strings str').isExtensible = true → str' = str)
  length_le : ∀ str, (h.strings str).length ≤ maxLength

/-- A string says one thing. -/
theorem HasText.unique {h : Heap} {str : ℕ} {text text' : List UInt16} (ht : h.HasText str text) :
    h.HasText str text' → text = text' := by
  induction ht generalizing text' with
  | linear hrope hchars htext =>
    intro ht'
    cases ht' with
    | linear hrope' hchars' htext' =>
      rw [hchars] at hchars'
      cases hchars'
      rw [htext] at htext'
      exact Option.some.inj htext'
    | rope hrope' => rw [hrope] at hrope'; cases hrope'
  | rope hrope hleft hright _ _ ihleft ihright =>
    intro ht'
    cases ht' with
    | linear hrope' => rw [hrope] at hrope'; cases hrope'
    | rope hrope' hleft' hright' htl htr =>
      rw [hleft] at hleft'
      rw [hright] at hright'
      cases hleft'
      cases hright'
      rw [ihleft htl, ihright htr]

/-- A valid string's children. -/
theorem Valid.children {h : Heap} (hv : h.Valid) {str : ℕ} (hrope : (h.strings str).isRope = true) :
    ∃ left right, (h.strings str).u1 = .left left ∧ (h.strings str).u2 = .right right ∧
      (h.strings str).length = (h.strings left).length + (h.strings right).length ∧
      h.Child left str ∧ h.Child right str := by
  obtain ⟨left, right, hleft, hright, hlength⟩ := hv.rope str hrope
  exact ⟨left, right, hleft, hright, hlength, ⟨hrope, Or.inl hleft⟩, ⟨hrope, Or.inr hright⟩⟩

/-- A valid string says something, as long as its length. -/
theorem Valid.exists_text {h : Heap} (hv : h.Valid) (str : ℕ) :
    ∃ text, h.HasText str text ∧ text.length = (h.strings str).length := by
  induction str using hv.acyclic.induction with
  | _ str ih =>
    cases hrope : (h.strings str).isRope with
    | false =>
      obtain ⟨chars, hchars, hle⟩ := hv.linear str hrope
      have htext : segment (h.buffers chars.buf) chars.offset (h.strings str).length =
          some (((h.buffers chars.buf).drop chars.offset).take (h.strings str).length) := if_pos hle
      exact ⟨_, .linear hrope hchars htext, length_of_segment htext⟩
    | true =>
      obtain ⟨left, right, hleft, hright, hlength, hchild, hchild'⟩ := hv.children hrope
      obtain ⟨text, htext, htl⟩ := ih left hchild
      obtain ⟨text', htext', htr⟩ := ih right hchild'
      refine ⟨text ++ text', .rope hrope hleft hright htext htext', ?_⟩
      rw [List.length_append, htl, htr, hlength]

/-- Nothing is below itself. -/
theorem Valid.not_below_self {h : Heap} (hv : h.Valid) (str : ℕ) : ¬ h.Below str str :=
  fun hbelow => hv.acyclic.transGen.irrefl.irrefl str hbelow

end Heap

end SpiderMonkey.Vm.Rope
