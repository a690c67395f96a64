import SpiderMonkey.Vm.RopeTraversal

/-!
# Flattening of ropes

A rope is flattened into a fresh buffer or into that of its leftmost string. Every string keeps its
text, the rope becomes a flat string, the ropes below it become dependent, and the heap stays valid.
Characters that are copied without flattening are the rope's text.
-/

namespace SpiderMonkey.Vm.Rope

open Segments

namespace Heap

variable {h h' : Heap} {T : ℕ → List UInt16}

/-- Texts stay if ropes are unchanged and other strings keep their texts. -/
theorem HasText.of_linear (hrope : ∀ y, (h.strings y).isRope = true → h'.strings y = h.strings y)
    (hlinear : ∀ y text, (h.strings y).isRope = false → h.HasText y text → h'.HasText y text)
    {str : ℕ} {text : List UInt16} (ht : h.HasText str text) : h'.HasText str text := by
  induction ht with
  | linear hstr hchars htext => exact hlinear _ _ hstr (.linear hstr hchars htext)
  | @rope str _ _ _ _ hstr hleft hright _ _ ihleft ihright =>
    have hsame := hrope str hstr
    rw [← hsame] at hstr hleft hright
    exact .rope hstr hleft hright ihleft ihright

/-- Changes to two strings commute. -/
theorem modify_comm (h : Heap) {a b : ℕ} (f g : JSString → JSString) (hne : a ≠ b) :
    (h.modify a f).modify b g = (h.modify b g).modify a f := by
  have hstrings : ∀ y, ((h.modify a f).modify b g).strings y =
      ((h.modify b g).modify a f).strings y := by
    intro y
    by_cases ha : y = a
    · rw [ha, strings_modify_of_ne g hne, strings_modify_self, strings_modify_self,
        strings_modify_of_ne g hne]
    · by_cases hb : y = b
      · rw [hb, strings_modify_self, strings_modify_of_ne f hne.symm, strings_modify_of_ne f hne.symm,
          strings_modify_self]
      · rw [strings_modify_of_ne g hb, strings_modify_of_ne f ha, strings_modify_of_ne f ha,
          strings_modify_of_ne g hb]
  exact congrArg (fun strings => (⟨strings, h.buffers⟩ : Heap)) (funext hstrings)

section fresh

variable {buf : ℕ} {cs : List UInt16}

/-- A buffer that no string points into can be set: texts stay. -/
theorem HasText.setBuffer (hfresh : ∀ str chars, (h.strings str).u1 = .chars chars → chars.buf ≠ buf)
    {str : ℕ} {text : List UInt16} (ht : h.HasText str text) : (h.setBuffer buf cs).HasText str text := by
  have hlinear : ∀ y text, (h.strings y).isRope = false → h.HasText y text →
      (h.setBuffer buf cs).HasText y text := by
    intro y text hy hy'
    cases hy' with
    | linear _ hchars hsegment =>
      rw [← buffers_setBuffer_of_ne cs (hfresh y _ hchars)] at hsegment
      exact .linear hy hchars hsegment
    | rope hrope => rw [hy] at hrope; cases hrope
  have hrope : ∀ y, (h.strings y).isRope = true → (h.setBuffer buf cs).strings y = h.strings y :=
    fun _ _ => rfl
  exact ht.of_linear hrope hlinear

/-- A buffer that no string points into can be set: the heap stays valid. -/
theorem Valid.setBuffer (hv : h.Valid)
    (hfresh : ∀ str chars, (h.strings str).u1 = .chars chars → chars.buf ≠ buf) :
    (h.setBuffer buf cs).Valid where
  acyclic := hv.acyclic
  rope := hv.rope
  linear str hstr := by
    obtain ⟨chars, hchars, hle⟩ := hv.linear str hstr
    refine ⟨chars, hchars, ?_⟩
    rw [buffers_setBuffer_of_ne cs (hfresh str chars hchars)]
    exact hle
  extensible str hstr := by
    obtain ⟨buf', capacity, hchars, hcapacity, hle⟩ := hv.extensible str hstr
    refine ⟨buf', capacity, hchars, hcapacity, ?_⟩
    have hne : buf' ≠ buf := hfresh str ⟨buf', 0⟩ hchars
    rw [buffers_setBuffer_of_ne cs hne]
    exact hle
  owner := hv.owner
  length_le := hv.length_le

end fresh

section dependent

variable {left : ℕ} {f : JSString → JSString}

/-- A child of a rope has it as parent also after a string becomes dependent. -/
theorem child_modify_iff (hleft : (h.strings left).isRope = false)
    (hf : (f (h.strings left)).isRope = false) (child rope : ℕ) :
    (h.modify left f).Child child rope ↔ h.Child child rope := by
  by_cases heq : rope = left
  · rw [heq, Child, Child, strings_modify_self, hleft, hf]
    constructor
    · intro hchild
      cases hchild.1
    · intro hchild
      cases hchild.1
  · rw [Child, Child, strings_modify_of_ne f heq]

/-- A string that becomes dependent keeps its text. -/
theorem HasText.modify (hleft : (h.strings left).isRope = false)
    (hf : (f (h.strings left)).isRope = false) (hu1 : (f (h.strings left)).u1 = (h.strings left).u1)
    (hlength : (f (h.strings left)).length = (h.strings left).length) {str : ℕ} {text : List UInt16}
    (ht : h.HasText str text) : (h.modify left f).HasText str text := by
  apply ht.of_linear
  · intro y hy
    apply strings_modify_of_ne
    intro heq
    rw [heq, hleft] at hy
    cases hy
  · intro y text hy hy'
    have hsame : ((h.modify left f).strings y).isRope = false ∧
        ((h.modify left f).strings y).u1 = (h.strings y).u1 ∧
        ((h.modify left f).strings y).length = (h.strings y).length := by
      by_cases heq : y = left
      · rw [heq, strings_modify_self]
        exact ⟨hf, hu1, hlength⟩
      · rw [strings_modify_of_ne f heq]
        exact ⟨hy, rfl, rfl⟩
    cases hy' with
    | linear _ hchars hsegment =>
      refine .linear hsame.1 (hsame.2.1.trans hchars) ?_
      rw [hsame.2.2]
      exact hsegment
    | rope hrope => rw [hy] at hrope; cases hrope

/-- An extensible string becomes dependent: the heap stays valid. -/
theorem Valid.modify (hv : h.Valid) (hleft : (h.strings left).isExtensible = true)
    (hf : (f (h.strings left)).isDependent = true)
    (hu1 : (f (h.strings left)).u1 = (h.strings left).u1)
    (hlength : (f (h.strings left)).length = (h.strings left).length) : (h.modify left f).Valid := by
  have hlinear := JSString.not_isRope_of_isExtensible hleft
  have hlinear' := JSString.not_isRope_of_isDependent hf
  have hself := strings_modify_self h left f
  have hother : ∀ y, y ≠ left → (h.modify left f).strings y = h.strings y :=
    fun y => strings_modify_of_ne f
  have hlength' : ∀ y, ((h.modify left f).strings y).length = (h.strings y).length := by
    intro y
    by_cases heq : y = left
    · rw [heq, hself, hlength]
    · rw [hother y heq]
  have hu1' : ∀ y, ((h.modify left f).strings y).u1 = (h.strings y).u1 := by
    intro y
    by_cases heq : y = left
    · rw [heq, hself, hu1]
    · rw [hother y heq]
  have hrope : ∀ y, ((h.modify left f).strings y).isRope = (h.strings y).isRope := by
    intro y
    by_cases heq : y = left
    · rw [heq, hself, hlinear, hlinear']
    · rw [hother y heq]
  have hextensible : ∀ y, ((h.modify left f).strings y).isExtensible = true →
      y ≠ left ∧ (h.strings y).isExtensible = true := by
    intro y hy
    by_cases heq : y = left
    · rw [heq, hself, JSString.not_isExtensible_of_isDependent hf] at hy
      cases hy
    · rw [hother y heq] at hy
      exact ⟨heq, hy⟩
  constructor
  · have hchild : (h.modify left f).Child = h.Child := by
      funext child rope
      exact propext (child_modify_iff hlinear hlinear' child rope)
    rw [hchild]
    exact hv.acyclic
  · intro y hy
    rw [hrope] at hy
    obtain ⟨l, r, hl, hr, hlr⟩ := hv.rope y hy
    have hne : y ≠ left := by
      intro heq
      rw [heq, hlinear] at hy
      cases hy
    refine ⟨l, r, ?_, ?_, ?_⟩
    · rw [hother y hne, hl]
    · rw [hother y hne, hr]
    · rw [hlength', hlength', hlength', hlr]
  · intro y hy
    rw [hrope] at hy
    rw [hu1', hlength']
    exact hv.linear y hy
  · intro y hy
    have hext := hextensible y hy
    rw [hother y hext.1]
    exact hv.extensible y hext.2
  · intro y z chars chars' hy hchars hz hchars' hbuf
    have hext := hextensible y hy
    rw [hu1'] at hchars hchars'
    rw [hrope] at hz
    have howner := hv.owner y z chars chars' hext.2 hchars hz hchars' hbuf
    rw [hlength', hlength']
    exact ⟨howner.1, fun hz' => howner.2 (hextensible z hz').2⟩
  · intro y
    rw [hlength']
    exact hv.length_le y

end dependent

end Heap

/-- What flattening a rope does to the heap. -/
structure Flattened (h : Heap) (root : ℕ) (h' : Heap) : Prop where
  valid : h'.Valid
  text : ∀ str text, h.HasText str text → h'.HasText str text
  extensible : (h'.strings root).isExtensible = true
  terminated : ∃ chars, (h'.strings root).u1 = .chars chars ∧
    (h'.buffers chars.buf)[chars.offset + (h'.strings root).length]? = some 0
  dependent : ∀ str, h.Below str root → (h.strings str).isRope = true →
    (h'.strings str).isDependent = true ∧ (h'.strings str).u2 = .base root

variable {w : Whole} {orig h h' : Heap} {T : ℕ → List UInt16} {P : Set ℕ} {pos : ℕ}

/-- Before the traversal only the root is in progress. -/
theorem Flattening.init (hv : orig.Valid) (hT : orig.Texts T) (hroot : (orig.strings w.root).isRope = true)
    (hpos : ∀ y chars, (orig.strings y).isRope = false → (orig.strings y).u1 = .chars chars →
      chars.buf = w.chars.buf → chars.offset + (T y).length ≤ pos) :
    Flattening w orig T (insert w.root ∅) pos orig where
  root := Set.mem_insert w.root ∅
  progress y hy := by
    cases hy with
    | inl heq => rw [heq]; exact hroot
    | inr hmem => exact hmem.elim
  asleep _ _ _ := rfl
  linear _ _ := rfl
  done y hy hy' := by
    rw [hy] at hy'
    cases hy'
  text y hy := by
    obtain ⟨chars, hchars, hsegment⟩ := hT.linear hy
    rw [hT.length hv] at hsegment
    exact ⟨chars, hchars, hsegment, hpos y chars hy hchars⟩
  below y child hchild hy := by
    rw [hchild.1] at hy
    cases hy

/-- Every string below a string that is done is done. -/
theorem Flattening.below_trans (hf : Flattening w orig T P pos h) {x : ℕ}
    (hchildren : ∀ child, orig.Child child x → (h.strings child).isRope = false) {y : ℕ}
    (hy : orig.Below y x) : (h.strings y).isRope = false := by
  induction hy using Relation.TransGen.head_induction_on with
  | single hchild => exact hchildren _ hchild
  | head hchild _ ih => exact hf.below _ _ hchild ih

/-- What a heap is like after the traversal: ropes are unchanged, other strings have their texts, and
the root is the one extensible string of its buffer. -/
structure Ended (w : Whole) (orig : Heap) (T : ℕ → List UInt16) (h : Heap) : Prop where
  rope : ∀ y, (h.strings y).isRope = true → h.strings y = orig.strings y
  linear : ∀ y, (h.strings y).isRope = false → ∃ chars, (h.strings y).u1 = .chars chars ∧
    segment (h.buffers chars.buf) chars.offset (h.strings y).length = some (T y) ∧
      (chars.buf = w.chars.buf → chars.offset + (T y).length ≤ (T w.root).length)
  origin : ∀ y, y ≠ w.root → (h.strings y).isRope = false → h.strings y = orig.strings y ∨
    (h.strings y).isDependent = true ∧ (h.strings y).u2 = .base w.root ∧
      ∃ offset, (h.strings y).u1 = .chars ⟨w.chars.buf, offset⟩
  root_extensible : (h.strings w.root).isExtensible = true
  root_length : (h.strings w.root).length = (T w.root).length
  root_u1 : (h.strings w.root).u1 = .chars ⟨w.chars.buf, 0⟩
  root_u2 : (h.strings w.root).u2 = .capacity w.capacity
  buffers : ∀ b, (h.buffers b).length = (orig.buffers b).length

namespace Ended

/-- Every string is as long as its text. -/
theorem length (he : Ended w orig T h) (hv : orig.Valid) (hT : orig.Texts T) (y : ℕ) :
    (h.strings y).length = (T y).length := by
  cases hy : (h.strings y).isRope with
  | true => rw [he.rope y hy, hT.length hv]
  | false =>
    obtain ⟨chars, _, hsegment, _⟩ := he.linear y hy
    exact (length_of_segment hsegment).symm

/-- Every string has its text. -/
theorem texts (he : Ended w orig T h) (hv : orig.Valid) (hT : orig.Texts T) : h.Texts T := by
  intro y
  induction y using hv.acyclic.induction with
  | _ y ih =>
    cases hy : (h.strings y).isRope with
    | false =>
      obtain ⟨chars, hchars, hsegment, _⟩ := he.linear y hy
      exact .linear hy hchars hsegment
    | true =>
      have hsame := he.rope y hy
      have hrope : (orig.strings y).isRope = true := by rw [← hsame]; exact hy
      obtain ⟨left, right, hleft, hright, _, hchild, hchild'⟩ := hv.children hrope
      rw [hT.rope hrope hleft hright]
      rw [← hsame] at hleft hright
      exact .rope hy hleft hright (ih left hchild) (ih right hchild')

/-- An extensible string is the root, or was extensible before and points to another buffer. -/
theorem isExtensible (he : Ended w orig T h)
    (honly : ∀ y chars, (orig.strings y).isExtensible = true → (orig.strings y).u1 = .chars chars →
      chars.buf ≠ w.chars.buf) {y : ℕ} (hy : (h.strings y).isExtensible = true) :
    y = w.root ∨ h.strings y = orig.strings y ∧ (orig.strings y).isExtensible = true ∧
      ∀ chars, (h.strings y).u1 = .chars chars → chars.buf ≠ w.chars.buf := by
  by_cases hroot : y = w.root
  · exact Or.inl hroot
  · have hsame : h.strings y = orig.strings y := by
      cases he.origin y hroot (JSString.not_isRope_of_isExtensible hy) with
      | inl hsame => exact hsame
      | inr hdependent =>
        rw [JSString.not_isExtensible_of_isDependent hdependent.1] at hy
        cases hy
    rw [hsame] at hy ⊢
    exact Or.inr ⟨rfl, hy, fun chars => honly y chars hy⟩

/-- A string that is no rope and points to another buffer is as it was. -/
theorem same (he : Ended w orig T h) {y : ℕ} {chars : CharPtr} (hy : (h.strings y).isRope = false)
    (hchars : (h.strings y).u1 = .chars chars) (hbuf : chars.buf ≠ w.chars.buf) :
    h.strings y = orig.strings y := by
  have hroot : y ≠ w.root := by
    intro heq
    rw [heq, he.root_u1] at hchars
    cases hchars
    exact hbuf rfl
  cases he.origin y hroot hy with
  | inl hsame => exact hsame
  | inr hdependent =>
    obtain ⟨_, _, offset, hu1⟩ := hdependent
    rw [hu1] at hchars
    cases hchars
    exact absurd rfl hbuf

/-- The heap is valid. -/
theorem valid (he : Ended w orig T h) (hv : orig.Valid) (hT : orig.Texts T)
    (hsize : w.capacity + 1 ≤ (orig.buffers w.chars.buf).length)
    (honly : ∀ y chars, (orig.strings y).isExtensible = true → (orig.strings y).u1 = .chars chars →
      chars.buf ≠ w.chars.buf) : h.Valid where
  acyclic := by
    apply Subrelation.wf _ hv.acyclic
    intro child y hchild
    rw [Heap.Child, he.rope y hchild.1] at hchild
    exact hchild
  rope y hy := by
    have hsame := he.rope y hy
    have hrope : (orig.strings y).isRope = true := by rw [← hsame]; exact hy
    obtain ⟨left, right, hleft, hright, _⟩ := hv.rope y hrope
    refine ⟨left, right, by rw [hsame, hleft], by rw [hsame, hright], ?_⟩
    rw [he.length hv hT, he.length hv hT, he.length hv hT, hT.rope hrope hleft hright,
      List.length_append]
  linear y hy := by
    obtain ⟨chars, hchars, hsegment, _⟩ := he.linear y hy
    exact ⟨chars, hchars, le_length_of_segment hsegment⟩
  extensible y hy := by
    cases he.isExtensible honly hy with
    | inl heq =>
      rw [heq]
      exact ⟨w.chars.buf, w.capacity, he.root_u1, he.root_u2, by rw [he.buffers]; exact hsize⟩
    | inr hother =>
      obtain ⟨buf, capacity, hchars, hcapacity, hle⟩ := hv.extensible y hother.2.1
      rw [hother.1]
      exact ⟨buf, capacity, hchars, hcapacity, by rw [he.buffers]; exact hle⟩
  owner y z chars chars' hy hchars hz hchars' hbuf := by
    rw [he.length hv hT, he.length hv hT]
    cases he.isExtensible honly hy with
    | inl heq =>
      rw [heq, he.root_u1] at hchars
      cases hchars
      obtain ⟨chars'', hchars'', _, hle⟩ := he.linear z hz
      rw [hchars'] at hchars''
      cases hchars''
      rw [heq]
      refine ⟨hle hbuf, fun hz' => ?_⟩
      cases he.isExtensible honly hz' with
      | inl heq' => exact heq'
      | inr hother => exact absurd hbuf (hother.2.2 chars' hchars')
    | inr hother =>
      have hne : chars'.buf ≠ w.chars.buf := by rw [hbuf]; exact hother.2.2 chars hchars
      have hsame := he.same hz hchars' hne
      rw [hother.1] at hchars
      rw [hsame] at hz hchars' ⊢
      have howner := hv.owner y z chars chars' hother.2.1 hchars hz hchars' hbuf
      rw [hT.length hv, hT.length hv] at howner
      exact howner
  length_le y := by
    rw [he.length hv hT, ← hT.length hv]
    exact hv.length_le y

end Ended

/-- The root is finished. -/
theorem finishRoot_ended (hv : orig.Valid) (hT : orig.Texts T) (hoffset : w.chars.offset = 0)
    (hlength : w.length = (T w.root).length)
    (hsize : w.length + 1 ≤ (h'.buffers w.chars.buf).length)
    (hbuffers : ∀ b, (h'.buffers b).length = (orig.buffers b).length)
    (hvisited : Visited w orig T ∅ w.root 0 pos h h') :
    ∃ h'', finishRoot w ⟨h', .finishNode, w.root, ⟨w.chars.buf, 0 + (T w.root).length⟩⟩ = some h'' ∧
      Ended w orig T h'' ∧ (h''.buffers w.chars.buf)[(T w.root).length]? = some 0 ∧
        ∀ y, orig.Below y w.root → (h''.strings y).isRope = false := by
  have hf := hvisited.flattening
  rw [Nat.zero_add] at hf ⊢
  have hchars : w.chars = ⟨w.chars.buf, 0⟩ := by rw [← hoffset]
  obtain ⟨cs, hcs⟩ : ∃ cs, overwrite (h'.buffers w.chars.buf) (T w.root).length [0] = some cs :=
    exists_overwrite (by rw [← hlength]; exact hsize)
  let f : JSString → JSString := fun s =>
    { s with
      lengthAndFlags := buildLengthAndFlags w.length extensibleFlags
      u1 := .chars w.chars
      u2 := .capacity w.capacity }
  let h1 := h'.setBuffer w.chars.buf cs
  have hfinish : finishRoot w ⟨h', .finishNode, w.root, ⟨w.chars.buf, (T w.root).length⟩⟩ =
      some (h1.modify w.root f) := by
    unfold finishRoot
    rw [if_pos (by rw [hoffset, hlength, Nat.zero_add])]
    change (Heap.write h' ⟨w.chars.buf, (T w.root).length⟩ [0]).bind _ = _
    rw [Heap.write, hcs]
    rfl
  have hself : (h1.modify w.root f).strings w.root = f (h'.strings w.root) :=
    Heap.strings_modify_self h1 w.root f
  have hother : ∀ y, y ≠ w.root → (h1.modify w.root f).strings y = h'.strings y :=
    fun y => Heap.strings_modify_of_ne f
  have hextensible : (f (h'.strings w.root)).isExtensible = true :=
    JSString.isExtensible_iff.mpr (JSString.flags_of_build (by decide) rfl)
  have hrootLength : (f (h'.strings w.root)).length = (T w.root).length := by
    rw [← hlength]
    exact JSString.length_of_build (by decide) rfl
  have hlinear := JSString.not_isRope_of_isExtensible hextensible
  have hbuffer : h1.buffers w.chars.buf = cs := Heap.buffers_setBuffer_self h' w.chars.buf cs
  -- The null is written behind all texts.
  have hsegment : ∀ b i n, (b = w.chars.buf → i + n ≤ (T w.root).length) →
      segment (h1.buffers b) i n = segment (h'.buffers b) i n := by
    intro b i n hle
    by_cases hb : b = w.chars.buf
    · rw [hb, hbuffer]
      exact segment_overwrite_of_le hcs (hle hb)
    · rw [Heap.buffers_setBuffer_of_ne cs hb]
  refine ⟨h1.modify w.root f, hfinish, ?_, ?_, ?_⟩
  · constructor
    · intro y hy
      have hne : y ≠ w.root := by
        intro heq
        rw [heq, hself, hlinear] at hy
        cases hy
      rw [hother y hne] at hy ⊢
      exact hf.asleep y (fun hmem => hmem.elim hne fun hmem => hmem.elim) hy
    · intro y hy
      by_cases heq : y = w.root
      · rw [heq, hself, hrootLength]
        refine ⟨⟨w.chars.buf, 0⟩, congrArg U1.chars hchars, ?_, fun _ => Nat.le_of_eq (Nat.zero_add _)⟩
        change segment (h1.buffers w.chars.buf) 0 _ = _
        rw [hsegment w.chars.buf 0 _ fun _ => Nat.le_of_eq (Nat.zero_add _)]
        exact hvisited.text
      · rw [hother y heq] at hy ⊢
        obtain ⟨chars, hchars, htext, hle⟩ := hf.text y hy
        refine ⟨chars, hchars, ?_, hle⟩
        rw [hf.length hv hT hy]
        change segment (h1.buffers chars.buf) _ _ = _
        rw [hsegment chars.buf _ _ hle]
        exact htext
    · intro y hne hy
      rw [hother y hne] at hy ⊢
      cases hrope : (orig.strings y).isRope with
      | false => exact Or.inl (hf.linear y hrope)
      | true =>
        obtain ⟨hbits, hu2, hu1⟩ := hf.done y hy hrope
        exact Or.inr ⟨JSString.isDependent_iff.mpr (JSString.flags_of_build (by decide) hbits), hu2, hu1⟩
    · rw [hself]
      exact hextensible
    · rw [hself]
      exact hrootLength
    · rw [hself]
      exact congrArg U1.chars hchars
    · rw [hself]
    · intro b
      rw [← hbuffers b]
      by_cases hb : b = w.chars.buf
      · rw [hb]
        change (h1.buffers w.chars.buf).length = _
        rw [hbuffer, length_overwrite hcs]
      · exact congrArg List.length (Heap.buffers_setBuffer_of_ne cs hb)
  · change (h1.buffers w.chars.buf)[(T w.root).length]? = some 0
    rw [hbuffer]
    have hzero := getElem?_segment (segment_overwrite_self hcs) Nat.zero_lt_one
    rw [Nat.add_zero] at hzero
    exact hzero.symm
  · intro y hy
    have hne : y ≠ w.root := fun heq => hv.not_below_self y (heq ▸ hy)
    rw [hother y hne]
    exact hf.below_trans hvisited.below hy

/-- The rope is flattened. -/
theorem Ended.flattened (he : Ended w orig T h) (hv : orig.Valid) (hT : orig.Texts T)
    (hsize : w.capacity + 1 ≤ (orig.buffers w.chars.buf).length)
    (honly : ∀ y chars, (orig.strings y).isExtensible = true → (orig.strings y).u1 = .chars chars →
      chars.buf ≠ w.chars.buf)
    (hzero : (h.buffers w.chars.buf)[(T w.root).length]? = some 0)
    (hbelow : ∀ y, orig.Below y w.root → (h.strings y).isRope = false) : Flattened orig w.root h where
  valid := he.valid hv hT hsize honly
  text str text htext := by
    rw [htext.unique (hT str)]
    exact he.texts hv hT str
  extensible := he.root_extensible
  terminated := ⟨⟨w.chars.buf, 0⟩, he.root_u1, by rw [he.root_length, Nat.zero_add]; exact hzero⟩
  dependent str hstr hrope := by
    have hne : str ≠ w.root := fun heq => hv.not_below_self str (heq ▸ hstr)
    have hlinear := hbelow str hstr
    cases he.origin str hne hlinear with
    | inl hsame => rw [hsame, hrope] at hlinear; cases hlinear
    | inr hdependent => exact ⟨hdependent.1, hdependent.2.1⟩

end SpiderMonkey.Vm.Rope
