import SpiderMonkey.Vm.RopeText

/-!
# Traversal of ropes

What holds while a rope is flattened: nodes in progress stay ropes, ropes that are not yet visited
are unchanged, and every other string has its text. A visit to a node ends, and leaves the node's
text in the buffer.
-/

namespace SpiderMonkey.Vm.Rope

open Segments

namespace Heap

variable {h h' : Heap} {T : ℕ → List UInt16}

/-- The string that is changed. -/
theorem strings_modify_self (h : Heap) (str : ℕ) (f : JSString → JSString) :
    (h.modify str f).strings str = f (h.strings str) := if_pos rfl

/-- Any other string. -/
theorem strings_modify_of_ne {str y : ℕ} (f : JSString → JSString) (hne : y ≠ str) :
    (h.modify str f).strings y = h.strings y := if_neg hne

/-- The buffer that is set. -/
theorem buffers_setBuffer_self (h : Heap) (buf : ℕ) (cs : List UInt16) :
    (h.setBuffer buf cs).buffers buf = cs := if_pos rfl

/-- Any other buffer. -/
theorem buffers_setBuffer_of_ne {buf b : ℕ} (cs : List UInt16) (hne : b ≠ buf) :
    (h.setBuffer buf cs).buffers b = h.buffers b := if_neg hne

/-- A heap's strings have these texts. -/
def Texts (h : Heap) (T : ℕ → List UInt16) : Prop := ∀ str, h.HasText str (T str)

/-- A valid heap's strings have texts. -/
theorem Valid.exists_texts (hv : h.Valid) : ∃ T, h.Texts T :=
  Classical.skolem.mp fun str => (hv.exists_text str).imp fun _ htext => htext.1

/-- A string is as long as its text. -/
theorem Texts.length (hT : h.Texts T) (hv : h.Valid) (str : ℕ) :
    (h.strings str).length = (T str).length := by
  obtain ⟨text, htext, hlength⟩ := hv.exists_text str
  rw [htext.unique (hT str)] at hlength
  exact hlength.symm

/-- The text of a rope. -/
theorem Texts.rope (hT : h.Texts T) {str left right : ℕ} (hrope : (h.strings str).isRope = true)
    (hleft : (h.strings str).u1 = .left left) (hright : (h.strings str).u2 = .right right) :
    T str = T left ++ T right :=
  (hT str).unique (.rope hrope hleft hright (hT left) (hT right))

/-- The text of a string that is no rope. -/
theorem Texts.linear (hT : h.Texts T) {str : ℕ} (hrope : (h.strings str).isRope = false) :
    ∃ chars, (h.strings str).u1 = .chars chars ∧
      segment (h.buffers chars.buf) chars.offset (h.strings str).length = some (T str) := by
  have htext := hT str
  generalize T str = text at htext ⊢
  cases htext with
  | linear _ hchars hsegment => exact ⟨_, hchars, hsegment⟩
  | rope hrope' => rw [hrope] at hrope'; cases hrope'

end Heap

/-- What stays while strings are visited: nodes in progress, strings that are no ropes, other buffers,
and the characters before a position. -/
structure Frame (buf : ℕ) (P : Set ℕ) (pos : ℕ) (h h' : Heap) : Prop where
  progress : ∀ y ∈ P, h'.strings y = h.strings y
  linear : ∀ y, (h.strings y).isRope = false → h'.strings y = h.strings y
  buffers : ∀ b, b ≠ buf → h'.buffers b = h.buffers b
  length : (h'.buffers buf).length = (h.buffers buf).length
  before : ∀ i n, i + n ≤ pos → segment (h'.buffers buf) i n = segment (h.buffers buf) i n

namespace Frame

variable {buf pos pos' : ℕ} {P : Set ℕ} {h h' h'' : Heap}

/-- Nothing happens. -/
theorem refl (buf : ℕ) (P : Set ℕ) (pos : ℕ) (h : Heap) : Frame buf P pos h h :=
  ⟨fun _ _ => rfl, fun _ _ => rfl, fun _ _ => rfl, rfl, fun _ _ _ => rfl⟩

/-- A string that is no rope does not become one. -/
theorem isRope (hf : Frame buf P pos h h') {y : ℕ} (hy : (h.strings y).isRope = false) :
    (h'.strings y).isRope = false := by
  rw [hf.linear y hy]
  exact hy

/-- One thing happens after another. -/
theorem trans (hf : Frame buf P pos h h') (hf' : Frame buf P pos' h' h'') (hle : pos ≤ pos') :
    Frame buf P pos h h'' where
  progress y hy := (hf'.progress y hy).trans (hf.progress y hy)
  linear y hy := (hf'.linear y (hf.isRope hy)).trans (hf.linear y hy)
  buffers b hb := (hf'.buffers b hb).trans (hf.buffers b hb)
  length := hf'.length.trans hf.length
  before i n hi := (hf'.before i n (Nat.le_trans hi hle)).trans (hf.before i n hi)

/-- Fewer nodes are in progress. -/
theorem mono {Q : Set ℕ} (hf : Frame buf P pos h h') (hQ : Q ⊆ P) : Frame buf Q pos h h' :=
  { hf with progress := fun y hy => hf.progress y (hQ hy) }

/-- A rope that is not in progress is changed. -/
theorem modify {str : ℕ} (f : JSString → JSString) (hstr : str ∉ P)
    (hrope : (h.strings str).isRope = true) : Frame buf P pos h (h.modify str f) where
  progress y hy := Heap.strings_modify_of_ne f fun heq => hstr (heq ▸ hy)
  linear y hy := Heap.strings_modify_of_ne f fun heq => by rw [heq, hrope] at hy; cases hy
  buffers _ _ := rfl
  length := rfl
  before _ _ _ := rfl

end Frame

/-- A traversal comes to a point. -/
def Reaches (w : Whole) (t t' : Traversal) : Prop :=
  ∃ n, ∀ m, traverse w (n + m) t = traverse w m t'

namespace Reaches

variable {w : Whole} {t t' t'' : Traversal}

/-- A traversal is where it is. -/
theorem refl (w : Whole) (t : Traversal) : Reaches w t t :=
  ⟨0, fun m => by rw [Nat.zero_add]⟩

/-- A traversal goes on. -/
theorem trans (ht : Reaches w t t') (ht' : Reaches w t' t'') : Reaches w t t'' := by
  obtain ⟨n, hn⟩ := ht
  obtain ⟨n', hn'⟩ := ht'
  exact ⟨n + n', fun m => by rw [Nat.add_assoc, hn, hn']⟩

/-- A visit that does not end the traversal. -/
theorem step (hstep : ∀ m, traverse w (m + 1) t = traverse w m t') : Reaches w t t' :=
  ⟨1, fun m => by rw [Nat.add_comm, hstep]⟩

end Reaches

/-- What holds while the rope is flattened. The original heap, its texts, the nodes in progress, and
where the next character goes are given. -/
structure Flattening (w : Whole) (orig : Heap) (T : ℕ → List UInt16) (P : Set ℕ) (pos : ℕ)
    (h : Heap) : Prop where
  root : w.root ∈ P
  progress : ∀ y ∈ P, (h.strings y).isRope = true
  asleep : ∀ y ∉ P, (h.strings y).isRope = true → h.strings y = orig.strings y
  linear : ∀ y, (orig.strings y).isRope = false → h.strings y = orig.strings y
  done : ∀ y, (h.strings y).isRope = false → (orig.strings y).isRope = true →
    (h.strings y).lengthAndFlags = buildLengthAndFlags (T y).length dependentFlags ∧
      (h.strings y).u2 = .base w.root ∧
      ∃ offset, (h.strings y).u1 = .chars ⟨w.chars.buf, offset⟩
  text : ∀ y, (h.strings y).isRope = false → ∃ chars, (h.strings y).u1 = .chars chars ∧
    segment (h.buffers chars.buf) chars.offset (T y).length = some (T y) ∧
      (chars.buf = w.chars.buf → chars.offset + (T y).length ≤ pos)
  below : ∀ y child, orig.Child child y → (h.strings y).isRope = false →
    (h.strings child).isRope = false

namespace Flattening

variable {w : Whole} {orig h h' : Heap} {T : ℕ → List UInt16} {P : Set ℕ} {pos pos' : ℕ}

/-- A rope was one from the start. -/
theorem isRope_orig (hf : Flattening w orig T P pos h) {y : ℕ} (hy : (h.strings y).isRope = true) :
    (orig.strings y).isRope = true := by
  by_contra hrope
  rw [Bool.not_eq_true] at hrope
  rw [hf.linear y hrope, hrope] at hy
  cases hy

/-- A string that is no rope is as long as its text. -/
theorem length (hf : Flattening w orig T P pos h) (hv : orig.Valid) (hT : orig.Texts T) {y : ℕ}
    (hy : (h.strings y).isRope = false) : (h.strings y).length = (T y).length := by
  cases hrope : (orig.strings y).isRope with
  | false => rw [hf.linear y hrope, hT.length hv]
  | true => exact JSString.length_of_build (by decide) (hf.done y hy hrope).1

/-- A node in progress is changed, and stays a rope. -/
theorem modify (hf : Flattening w orig T P pos h) {str : ℕ} (hstr : str ∈ P) {f : JSString → JSString}
    (hrope : (f (h.strings str)).isRope = true) : Flattening w orig T P pos (h.modify str f) := by
  have hself := Heap.strings_modify_self h str f
  have hne : ∀ y, ((h.modify str f).strings y).isRope = false → y ≠ str := by
    intro y hy heq
    rw [heq, hself, hrope] at hy
    cases hy
  have hother : ∀ y, y ≠ str → (h.modify str f).strings y = h.strings y :=
    fun y => Heap.strings_modify_of_ne f
  have hrope' := hf.progress str hstr
  constructor
  · exact hf.root
  · intro y hy
    by_cases heq : y = str
    · rw [heq, hself]
      exact hrope
    · rw [hother y heq]
      exact hf.progress y hy
  · intro y hy hy'
    have heq : y ≠ str := fun heq => hy (heq ▸ hstr)
    rw [hother y heq] at hy' ⊢
    exact hf.asleep y hy hy'
  · intro y hy
    have heq : y ≠ str := by
      intro heq
      rw [heq, hf.isRope_orig hrope'] at hy
      cases hy
    rw [hother y heq]
    exact hf.linear y hy
  · intro y hy
    have heq := hother y (hne y hy)
    rw [heq] at hy ⊢
    exact hf.done y hy
  · intro y hy
    have heq := hother y (hne y hy)
    rw [heq] at hy ⊢
    exact hf.text y hy
  · intro y child hchild hy
    have heq := hother y (hne y hy)
    rw [heq] at hy
    have hlinear := hf.below y child hchild hy
    have hneChild : child ≠ str := by
      intro heq
      rw [heq, hrope'] at hlinear
      cases hlinear
    rw [hother child hneChild]
    exact hlinear

/-- A node comes in progress. -/
theorem start (hf : Flattening w orig T P pos h) {str : ℕ} (hrope : (h.strings str).isRope = true) :
    Flattening w orig T (insert str P) pos h :=
  { hf with
    root := Set.mem_insert_of_mem str hf.root
    progress := by
      intro y hy
      cases hy with
      | inl heq => rw [heq]; exact hrope
      | inr hmem => exact hf.progress y hmem
    asleep := fun y hy => hf.asleep y fun hmem => hy (Set.mem_insert_of_mem str hmem) }

/-- Characters are copied to where the next character goes. -/
theorem copy (hf : Flattening w orig T P pos h) {cs cs' : List UInt16}
    (hcopy : overwrite (h.buffers w.chars.buf) pos cs = some cs') :
    Flattening w orig T P (pos + cs.length) (h.setBuffer w.chars.buf cs') :=
  { hf with
    text := by
      intro y hy
      obtain ⟨chars, hchars, hsegment, hle⟩ := hf.text y hy
      refine ⟨chars, hchars, ?_, fun hbuf => Nat.le_add_right_of_le (hle hbuf)⟩
      by_cases hbuf : chars.buf = w.chars.buf
      · rw [hbuf, Heap.buffers_setBuffer_self, segment_overwrite_of_le hcopy (hle hbuf), ← hbuf]
        exact hsegment
      · rw [Heap.buffers_setBuffer_of_ne cs' hbuf]
        exact hsegment }

/-- A node in progress becomes dependent. -/
theorem finish (hf : Flattening w orig T (insert y P) pos h) {offset : ℕ} {f : JSString → JSString}
    (hP : y ∉ P) (hroot : w.root ∈ P) (hend : pos = offset + (T y).length)
    (hlengthAndFlags : (f (h.strings y)).lengthAndFlags =
      buildLengthAndFlags (T y).length dependentFlags)
    (hu1 : (f (h.strings y)).u1 = .chars ⟨w.chars.buf, offset⟩)
    (hu2 : (f (h.strings y)).u2 = .base w.root)
    (htext : segment (h.buffers w.chars.buf) offset (T y).length = some (T y))
    (hbelow : ∀ child, orig.Child child y → (h.strings child).isRope = false) :
    Flattening w orig T P pos (h.modify y f) := by
  have hself := Heap.strings_modify_self h y f
  have hother : ∀ z, z ≠ y → (h.modify y f).strings z = h.strings z :=
    fun z => Heap.strings_modify_of_ne f
  have hlinear : (f (h.strings y)).isRope = false :=
    JSString.not_isRope_of_isDependent
      (JSString.isDependent_iff.mpr (JSString.flags_of_build (by decide) hlengthAndFlags))
  have hrope := hf.progress y (Set.mem_insert y P)
  have hstay : ∀ z, (h.strings z).isRope = false → ((h.modify y f).strings z).isRope = false := by
    intro z hz
    by_cases heq : z = y
    · rw [heq, hself]
      exact hlinear
    · rw [hother z heq]
      exact hz
  constructor
  · exact hroot
  · intro z hz
    rw [hother z fun heq => hP (heq ▸ hz)]
    exact hf.progress z (Set.mem_insert_of_mem y hz)
  · intro z hz hz'
    have hne : z ≠ y := by
      intro heq
      rw [heq, hself, hlinear] at hz'
      cases hz'
    rw [hother z hne] at hz' ⊢
    exact hf.asleep z (fun hmem => hmem.elim hne hz) hz'
  · intro z hz
    have hne : z ≠ y := by
      intro heq
      rw [heq, hf.isRope_orig hrope] at hz
      cases hz
    rw [hother z hne]
    exact hf.linear z hz
  · intro z hz hz'
    by_cases heq : z = y
    · rw [heq, hself]
      exact ⟨hlengthAndFlags, hu2, offset, hu1⟩
    · rw [hother z heq] at hz ⊢
      exact hf.done z hz hz'
  · intro z hz
    by_cases heq : z = y
    · rw [heq, hself]
      exact ⟨_, hu1, htext, fun _ => Nat.le_of_eq hend.symm⟩
    · rw [hother z heq] at hz ⊢
      exact hf.text z hz
  · intro z child hchild hz
    apply hstay
    by_cases heq : z = y
    · exact hbelow child (heq ▸ hchild)
    · rw [hother z heq] at hz
      exact hf.below z child hchild hz

end Flattening

/-- What a visit to a node does, until the node is finished: its children have their texts, and its own
text lies where it started. -/
structure Visited (w : Whole) (orig : Heap) (T : ℕ → List UInt16) (P : Set ℕ) (x start pos : ℕ)
    (h h' : Heap) : Prop where
  flattening : Flattening w orig T (insert x P) (start + (T x).length) h'
  frame : Frame w.chars.buf P pos h h'
  lengthAndFlags : (h'.strings x).lengthAndFlags = (h.strings x).lengthAndFlags
  parent : (h'.strings x).parent = (h.strings x).parent
  u1 : (h'.strings x).u1 = .chars ⟨w.chars.buf, start⟩
  text : segment (h'.buffers w.chars.buf) start (T x).length = some (T x)
  below : ∀ child, orig.Child child x → (h'.strings child).isRope = false

/-- Where a node's characters start is set before its children are visited. -/
theorem Visited.of_modify {w : Whole} {orig h h' : Heap} {T : ℕ → List UInt16} {P : Set ℕ}
    {x start pos : ℕ} {p : U1} (hx : x ∉ P) (hrope : (h.strings x).isRope = true)
    (hvisited : Visited w orig T P x start pos (h.modify x fun s => { s with u1 := p }) h') :
    Visited w orig T P x start pos h h' :=
  { hvisited with
    frame := (Frame.modify _ hx hrope).trans hvisited.frame (Nat.le_refl pos)
    lengthAndFlags := by rw [hvisited.lengthAndFlags, Heap.strings_modify_self]
    parent := by rw [hvisited.parent, Heap.strings_modify_self] }

/-- The children of a node were visited after other things that leave the node alone. -/
theorem Visited.of_frame {w : Whole} {orig h h' h'' : Heap} {T : ℕ → List UInt16} {P : Set ℕ}
    {x start pos pos' : ℕ} (hframe : Frame w.chars.buf (insert x P) pos h h') (hle : pos ≤ pos')
    (hvisited : Visited w orig T P x start pos' h' h'') : Visited w orig T P x start pos h h'' :=
  { hvisited with
    frame := (hframe.mono (Set.subset_insert x P)).trans hvisited.frame hle
    lengthAndFlags := by rw [hvisited.lengthAndFlags, hframe.progress x (Set.mem_insert x P)]
    parent := by rw [hvisited.parent, hframe.progress x (Set.mem_insert x P)] }

/-- The visit states that a parent gives to its children, and where it goes on. -/
inductive Progress : ℕ → Label → Prop where
  | left : Progress visitingLeft .visitRightChild
  | right : Progress visitingRight .finishNode

/-- A node in progress is still a rope. -/
theorem Progress.isRope {progress : ℕ} {next : Label} (hp : Progress progress next) {s : JSString}
    (hs : s.lengthAndFlags = progress) : s.isRope = true := by
  rw [JSString.isRope_iff, JSString.flags, hs]
  cases hp <;> decide

/-- A visit to a child ends, whatever its parent, and leaves the child's text in the buffer. -/
def Visits (w : Whole) (orig : Heap) (T : ℕ → List UInt16) (c : ℕ) : Prop :=
  ∀ (P : Set ℕ) (pos x progress : ℕ) (next : Label) (h : Heap), Progress progress next →
    Flattening w orig T P pos h → (∀ y ∈ P, orig.Below c y) → x ∈ P →
    pos + (T c).length ≤ (h.buffers w.chars.buf).length →
    ∃ t h', visitChild h x c progress next ⟨w.chars.buf, pos⟩ = some t ∧
      Reaches w t ⟨h', next, x, ⟨w.chars.buf, pos + (T c).length⟩⟩ ∧
      Flattening w orig T P (pos + (T c).length) h' ∧ Frame w.chars.buf P pos h h' ∧
      (h'.strings c).isRope = false ∧
      segment (h'.buffers w.chars.buf) pos (T c).length = some (T c)

variable {w : Whole} {orig h h' : Heap} {T : ℕ → List UInt16} {P : Set ℕ} {x left right pos start : ℕ}

/-- Once the left child is visited, so is the node. -/
theorem visit_right (hT : orig.Texts T) (hvisits : Visits w orig T right)
    (hrope : (orig.strings x).isRope = true) (hleft : (orig.strings x).u1 = .left left)
    (hright : (orig.strings x).u2 = .right right) (hP : ∀ y ∈ P, orig.Below x y)
    (hf : Flattening w orig T (insert x P) pos h) (hu1 : (h.strings x).u1 = .chars ⟨w.chars.buf, start⟩)
    (hu2 : (h.strings x).u2 = .right right) (hpos : pos = start + (T left).length)
    (hdone : (h.strings left).isRope = false)
    (htext : segment (h.buffers w.chars.buf) start (T left).length = some (T left))
    (hsize : start + (T x).length ≤ (h.buffers w.chars.buf).length) :
    ∃ h', Reaches w ⟨h, .visitRightChild, x, ⟨w.chars.buf, pos⟩⟩
        ⟨h', .finishNode, x, ⟨w.chars.buf, start + (T x).length⟩⟩ ∧
      Visited w orig T P x start pos h h' := by
  have hx : T x = T left ++ T right := hT.rope hrope hleft hright
  have hlength : (T x).length = (T left).length + (T right).length := by
    rw [hx, List.length_append]
  have hend : pos + (T right).length = start + (T x).length := by omega
  have hbelow : ∀ y ∈ insert x P, orig.Below right y := by
    intro y hy
    have hchild : orig.Below right x := .single ⟨hrope, Or.inr hright⟩
    cases hy with
    | inl heq => rw [heq]; exact hchild
    | inr hmem => exact hchild.trans (hP y hmem)
  obtain ⟨t, h', hvisit, hreaches, hf', hframe, hdone', htext'⟩ :=
    hvisits (insert x P) pos x visitingRight .finishNode h .right hf hbelow (Set.mem_insert x P)
      (by omega)
  rw [hend] at hreaches hf'
  have hstay := hframe.progress x (Set.mem_insert x P)
  have hfirst : ∀ m, traverse w (m + 1) ⟨h, .visitRightChild, x, ⟨w.chars.buf, pos⟩⟩ =
      traverse w m t := by
    intro m
    change (visitRightChild ⟨h, .visitRightChild, x, ⟨w.chars.buf, pos⟩⟩).bind (traverse w m) = _
    have heq : visitRightChild ⟨h, .visitRightChild, x, ⟨w.chars.buf, pos⟩⟩ = some t := by
      unfold visitRightChild
      dsimp only
      rw [hu2]
      exact hvisit
    rw [heq]
    rfl
  refine ⟨h', (Reaches.step hfirst).trans hreaches, ?_⟩
  exact
    { flattening := hf'
      frame := hframe.mono (Set.subset_insert x P)
      lengthAndFlags := by rw [hstay]
      parent := by rw [hstay]
      u1 := by rw [hstay]; exact hu1
      text := by
        have hbefore := hframe.before start (T left).length (Nat.le_of_eq hpos.symm)
        rw [hlength, hx]
        exact segment_append (hbefore.trans htext) (hpos ▸ htext')
      below := by
        intro child hchild
        cases hchild.2 with
        | inl heq =>
          rw [hleft] at heq
          cases heq
          exact hframe.isRope hdone
        | inr heq =>
          rw [hright] at heq
          cases heq
          exact hdone' }

/-- A node is visited. -/
theorem visit_first (hT : orig.Texts T) (hvisitsLeft : Visits w orig T left)
    (hvisits : Visits w orig T right) (hrope : (orig.strings x).isRope = true)
    (hleft : (orig.strings x).u1 = .left left) (hright : (orig.strings x).u2 = .right right)
    (hP : ∀ y ∈ P, orig.Below x y) (hx : x ∉ P) (hf : Flattening w orig T (insert x P) pos h)
    (hu1 : (h.strings x).u1 = .left left) (hu2 : (h.strings x).u2 = .right right)
    (hsize : pos + (T x).length ≤ (h.buffers w.chars.buf).length) :
    ∃ h', Reaches w ⟨h, .firstVisitNode, x, ⟨w.chars.buf, pos⟩⟩
        ⟨h', .finishNode, x, ⟨w.chars.buf, pos + (T x).length⟩⟩ ∧
      Visited w orig T P x pos pos h h' := by
  have hxT : T x = T left ++ T right := hT.rope hrope hleft hright
  have hlength : (T x).length = (T left).length + (T right).length := by
    rw [hxT, List.length_append]
  have hbelow : ∀ y ∈ insert x P, orig.Below left y := by
    intro y hy
    have hchild : orig.Below left x := .single ⟨hrope, Or.inl hleft⟩
    cases hy with
    | inl heq => rw [heq]; exact hchild
    | inr hmem => exact hchild.trans (hP y hmem)
  have hrope' : (h.strings x).isRope = true := hf.progress x (Set.mem_insert x P)
  let f : JSString → JSString := fun s => { s with u1 := .chars ⟨w.chars.buf, pos⟩ }
  have hf1 : Flattening w orig T (insert x P) pos (h.modify x f) :=
    hf.modify (Set.mem_insert x P) hrope'
  have hself : (h.modify x f).strings x = f (h.strings x) := Heap.strings_modify_self h x f
  obtain ⟨t, h2, hvisit, hreaches, hf2, hframe, hdone, htext⟩ :=
    hvisitsLeft (insert x P) pos x visitingLeft .visitRightChild (h.modify x f) .left hf1 hbelow
      (Set.mem_insert x P) (by change _ ≤ (h.buffers _).length; omega)
  have hstay : h2.strings x = f (h.strings x) :=
    (hframe.progress x (Set.mem_insert x P)).trans hself
  have hlength2 : (h2.buffers w.chars.buf).length = (h.buffers w.chars.buf).length := hframe.length
  have hu1' : (h2.strings x).u1 = .chars ⟨w.chars.buf, pos⟩ := by rw [hstay]
  have hu2' : (h2.strings x).u2 = .right right := by rw [hstay]; exact hu2
  obtain ⟨h', hreaches', hvisited⟩ :=
    visit_right hT hvisits hrope hleft hright hP hf2 hu1' hu2' rfl hdone htext (by omega)
  have hfirst : ∀ m, traverse w (m + 1) ⟨h, .firstVisitNode, x, ⟨w.chars.buf, pos⟩⟩ =
      traverse w m t := by
    intro m
    change (firstVisitNode ⟨h, .firstVisitNode, x, ⟨w.chars.buf, pos⟩⟩).bind (traverse w m) = _
    have heq : firstVisitNode ⟨h, .firstVisitNode, x, ⟨w.chars.buf, pos⟩⟩ = some t := by
      unfold firstVisitNode
      dsimp only
      rw [hu1]
      exact hvisit
    rw [heq]
    rfl
  refine ⟨h', ((Reaches.step hfirst).trans hreaches).trans hreaches', ?_⟩
  have hvisited' := Visited.of_frame hframe (Nat.le_add_right pos (T left).length) hvisited
  exact Visited.of_modify hx hrope' hvisited'

/-- A node that is visited is finished, and its parent goes on. -/
theorem finish_child {child progress start : ℕ} {next : Label} (hp : Progress progress next)
    (hroot : w.root ∈ P) (hchild : child ∉ P)
    (hprogress : (h.strings child).lengthAndFlags = progress) (hparent : (h.strings child).parent = x)
    (hvisited : Visited w orig T P child start pos h h') :
    ∃ h'', Reaches w ⟨h', .finishNode, child, ⟨w.chars.buf, start + (T child).length⟩⟩
        ⟨h'', next, x, ⟨w.chars.buf, start + (T child).length⟩⟩ ∧
      Flattening w orig T P (start + (T child).length) h'' ∧ Frame w.chars.buf P pos h h'' ∧
      (h''.strings child).isRope = false ∧
      segment (h''.buffers w.chars.buf) start (T child).length = some (T child) := by
  let f : JSString → JSString := fun s =>
    { s with
      lengthAndFlags := buildLengthAndFlags (T child).length dependentFlags
      u2 := .base w.root }
  have hself : (h'.modify child f).strings child = f (h'.strings child) :=
    Heap.strings_modify_self h' child f
  have hrope : (h'.strings child).isRope = true :=
    hvisited.flattening.progress child (Set.mem_insert child P)
  have hlinear : (f (h'.strings child)).isRope = false :=
    JSString.not_isRope_of_isDependent
      (JSString.isDependent_iff.mpr (JSString.flags_of_build (by decide) rfl))
  have hne : child ≠ w.root := fun heq => hchild (heq ▸ hroot)
  have hfinish : finishNode w ⟨h', .finishNode, child, ⟨w.chars.buf, start + (T child).length⟩⟩ =
      some ⟨h'.modify child f, next, x, ⟨w.chars.buf, start + (T child).length⟩⟩ := by
    unfold finishNode
    dsimp only
    rw [hvisited.u1]
    dsimp only
    rw [if_pos ⟨rfl, Nat.le_add_right start (T child).length⟩, hvisited.lengthAndFlags, hprogress,
      hvisited.parent, hparent, Nat.add_sub_cancel_left]
    cases hp with
    | left => rw [if_pos rfl]
    | right => rw [if_neg (by decide), if_pos rfl]
  have hstep : ∀ m, traverse w (m + 1)
      ⟨h', .finishNode, child, ⟨w.chars.buf, start + (T child).length⟩⟩ =
      traverse w m ⟨h'.modify child f, next, x, ⟨w.chars.buf, start + (T child).length⟩⟩ := by
    intro m
    change (if child = w.root then _ else (finishNode w _).bind (traverse w m)) = _
    rw [if_neg hne, hfinish]
    rfl
  refine ⟨h'.modify child f, Reaches.step hstep, ?_, ?_, ?_, hvisited.text⟩
  · exact hvisited.flattening.finish hchild hroot rfl rfl hvisited.u1 rfl hvisited.text hvisited.below
  · exact hvisited.frame.trans (Frame.modify f hchild hrope) (Nat.le_refl pos)
  · rw [hself]
    exact hlinear

/-- A string that is no rope is visited: its characters are copied. -/
theorem visits_linear (hv : orig.Valid) (hT : orig.Texts T) {c progress : ℕ} {next : Label}
    (hf : Flattening w orig T P pos h) (hc : (h.strings c).isRope = false)
    (hsize : pos + (T c).length ≤ (h.buffers w.chars.buf).length) :
    ∃ t h', visitChild h x c progress next ⟨w.chars.buf, pos⟩ = some t ∧
      Reaches w t ⟨h', next, x, ⟨w.chars.buf, pos + (T c).length⟩⟩ ∧
      Flattening w orig T P (pos + (T c).length) h' ∧ Frame w.chars.buf P pos h h' ∧
      (h'.strings c).isRope = false ∧
      segment (h'.buffers w.chars.buf) pos (T c).length = some (T c) := by
  obtain ⟨chars, hchars, hsegment, hle⟩ := hf.text c hc
  obtain ⟨cs, hcopy⟩ := exists_overwrite hsize
  have hlength := hf.length hv hT hc
  have hdisjoint : ¬ (chars.buf = w.chars.buf ∧ pos < chars.offset + (T c).length ∧
      chars.offset < pos + (T c).length) := fun hoverlap =>
    Nat.not_lt.mpr (hle hoverlap.1) hoverlap.2.1
  have hvisit : visitChild h x c progress next ⟨w.chars.buf, pos⟩ =
      some ⟨h.setBuffer w.chars.buf cs, next, x, ⟨w.chars.buf, pos + (T c).length⟩⟩ := by
    have hcopied : h.podCopy ⟨w.chars.buf, pos⟩ chars (T c).length =
        some (h.setBuffer w.chars.buf cs) := by
      rw [Heap.podCopy, hsegment]
      change (if _ then none else h.write ⟨w.chars.buf, pos⟩ (T c)) = _
      rw [if_neg hdisjoint, Heap.write, hcopy]
      rfl
    unfold visitChild
    dsimp only
    rw [hc, hchars, hlength]
    dsimp only
    rw [hcopied]
    rfl
  refine ⟨_, h.setBuffer w.chars.buf cs, hvisit, Reaches.refl w _, hf.copy hcopy, ?_, hc, ?_⟩
  · exact
      { progress := fun _ _ => rfl
        linear := fun _ _ => rfl
        buffers := fun b hb => Heap.buffers_setBuffer_of_ne cs hb
        length := by rw [Heap.buffers_setBuffer_self, length_overwrite hcopy]
        before := by
          intro i n hi
          rw [Heap.buffers_setBuffer_self, segment_overwrite_of_le hcopy hi] }
  · rw [Heap.buffers_setBuffer_self]
    exact segment_overwrite_self hcopy

/-- Every visit to a child ends. -/
theorem visits (hv : orig.Valid) (hT : orig.Texts T) (c : ℕ) : Visits w orig T c := by
  induction c using hv.acyclic.induction with
  | _ c ih =>
    intro P pos x progress next h hp hf hP _ hsize
    cases hc : (h.strings c).isRope with
    | false => exact visits_linear hv hT hf hc hsize
    | true =>
      have hcP : c ∉ P := fun hmem => hv.not_below_self c (hP c hmem)
      have hsame : h.strings c = orig.strings c := hf.asleep c hcP hc
      have hrope : (orig.strings c).isRope = true := by rw [← hsame]; exact hc
      obtain ⟨left, right, hleft, hright, _, hchild, hchild'⟩ := hv.children hrope
      let f : JSString → JSString := fun s => { s with parent := x, lengthAndFlags := progress }
      have hself : (h.modify c f).strings c = f (h.strings c) := Heap.strings_modify_self h c f
      have hf' : Flattening w orig T (insert c P) pos (h.modify c f) :=
        (hf.start hc).modify (Set.mem_insert c P) (hp.isRope rfl)
      have hu1 : ((h.modify c f).strings c).u1 = .left left := by
        rw [hself, ← hleft, ← hsame]
      have hu2 : ((h.modify c f).strings c).u2 = .right right := by
        rw [hself, ← hright, ← hsame]
      obtain ⟨h1, hreaches, hvisited⟩ := visit_first hT (ih left hchild) (ih right hchild') hrope hleft
        hright hP hcP hf' hu1 hu2 hsize
      obtain ⟨h2, hreaches', hf2, hframe, hdone, htext⟩ :=
        finish_child hp hf.root hcP (by rw [hself]) (by rw [hself]) hvisited
      refine ⟨_, h2, ?_, hreaches.trans hreaches', hf2, ?_, hdone, htext⟩
      · unfold visitChild
        dsimp only
        rw [hc]
        rfl
      · exact (Frame.modify f hcP hc).trans hframe (Nat.le_refl pos)

end SpiderMonkey.Vm.Rope
