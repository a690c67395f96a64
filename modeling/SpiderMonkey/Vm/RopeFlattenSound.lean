import SpiderMonkey.Vm.RopeFlatten

/-!
# Flattening keeps the text of every string

Both ways to flatten a rope, and copies of its characters. Where the leftmost string's buffer is
reused, first visits are simulated down the left spine, and the traversal starts at its end.
-/

namespace SpiderMonkey.Vm.Rope

open Segments

variable {w : Whole} {orig h h' : Heap} {T : ℕ → List UInt16} {P : Set ℕ} {pos : ℕ}

/-- From a rope, left children lead to the leftmost rope, whose left child is a given string. -/
inductive LeftSpine (h : Heap) (leftMostRope left : ℕ) : ℕ → Prop where
  | leftMost : (h.strings leftMostRope).isRope = true → (h.strings leftMostRope).u1 = .left left →
      (h.strings left).isRope = false → LeftSpine h leftMostRope left leftMostRope
  | child {str child : ℕ} : (h.strings str).isRope = true → (h.strings str).u1 = .left child →
      LeftSpine h leftMostRope left child → LeftSpine h leftMostRope left str

namespace LeftSpine

variable {leftMostRope left str : ℕ}

/-- A string on the spine is a rope. -/
theorem isRope (hs : LeftSpine h leftMostRope left str) : (h.strings str).isRope = true := by
  cases hs with
  | leftMost hrope => exact hrope
  | child hrope => exact hrope

/-- The left string is no rope. -/
theorem left_linear (hs : LeftSpine h leftMostRope left str) : (h.strings left).isRope = false := by
  induction hs with
  | leftMost _ _ hlinear => exact hlinear
  | child _ _ _ ih => exact ih

/-- The leftmost rope's left child. -/
theorem u1_leftMost (hs : LeftSpine h leftMostRope left str) :
    (h.strings leftMostRope).u1 = .left left := by
  induction hs with
  | leftMost _ hleft _ => exact hleft
  | child _ _ _ ih => exact ih

/-- The rope's text is as long as that of the left string at least. -/
theorem length_le (hs : LeftSpine h leftMostRope left str) (hv : h.Valid) :
    (h.strings left).length ≤ (h.strings str).length := by
  induction hs with
  | leftMost hrope hleft _ =>
    obtain ⟨l, r, hl, _, hlength⟩ := hv.rope _ hrope
    rw [hleft] at hl
    cases hl
    omega
  | child hrope hleft _ ih =>
    obtain ⟨l, r, hl, _, hlength⟩ := hv.rope _ hrope
    rw [hleft] at hl
    cases hl
    omega

/-- The left string becomes dependent: the spine stays. -/
theorem modify {f : JSString → JSString} (hs : LeftSpine h leftMostRope left str)
    (hf : (f (h.strings left)).isRope = false) : LeftSpine (h.modify left f) leftMostRope left str := by
  have hleft := hs.left_linear
  have hother : ∀ y, (h.strings y).isRope = true → (h.modify left f).strings y = h.strings y := by
    intro y hy
    apply Heap.strings_modify_of_ne
    intro heq
    rw [heq, hleft] at hy
    cases hy
  induction hs with
  | leftMost hrope hchild _ =>
    have hsame := hother _ hrope
    refine .leftMost (by rw [hsame, hrope]) (by rw [hsame, hchild]) ?_
    rw [Heap.strings_modify_self]
    exact hf
  | child hrope hchild _ ih =>
    have hsame := hother _ hrope
    exact .child (by rw [hsame, hrope]) (by rw [hsame, hchild]) ih

end LeftSpine

/-- The leftmost rope is found. -/
theorem findLeftMostRope_spine (hv : h.Valid) {rope : ℕ} (hrope : (h.strings rope).isRope = true) :
    ∃ N leftMostRope left, LeftSpine h leftMostRope left rope ∧
      ∀ n ≥ N, findLeftMostRope h n rope = some leftMostRope := by
  induction rope using hv.acyclic.induction with
  | _ rope ih =>
    obtain ⟨left, _, hleft, _, _, hchild, _⟩ := hv.children hrope
    cases hlinear : (h.strings left).isRope with
    | false =>
      refine ⟨1, rope, left, .leftMost hrope hleft hlinear, fun n hn => ?_⟩
      obtain ⟨m, rfl⟩ := Nat.exists_eq_add_of_le' hn
      rw [findLeftMostRope, hleft]
      exact if_neg (by rw [hlinear]; decide)
    | true =>
      obtain ⟨N, leftMostRope, left', hspine, hfind⟩ := ih left hchild hlinear
      refine ⟨N + 1, leftMostRope, left', .child hrope hleft hspine, fun n hn => ?_⟩
      obtain ⟨m, rfl⟩ := Nat.exists_eq_add_of_le' hn
      rw [← Nat.add_assoc, findLeftMostRope, hleft]
      exact (if_pos hlinear).trans (hfind (m + N) (Nat.le_add_left N m))

/-- First visits down the spine are simulated, the left string becomes dependent, and the traversal
starts at the leftmost rope's right child: this visits the node at the top. -/
theorem visit_spine (hv : orig.Valid) (hT : orig.Texts T) {f : JSString → JSString}
    {leftMostRope left str : ℕ} (hspine : LeftSpine orig leftMostRope left str)
    (hoffset : w.chars = ⟨w.chars.buf, 0⟩) {P : Set ℕ} {h : Heap} (hP : ∀ y ∈ P, orig.Below str y)
    (hstr : str ∉ P)
    (hf : Flattening w orig T (insert str P) (T left).length (h.modify left f))
    (hu1 : ((h.modify left f).strings str).u1 = (orig.strings str).u1)
    (hu2 : ((h.modify left f).strings str).u2 = (orig.strings str).u2)
    (hbelow : ∀ y, orig.Below y str → (h.modify left f).strings y = orig.strings y)
    (htext : segment (h.buffers w.chars.buf) 0 (T left).length = some (T left))
    (hsize : (T str).length ≤ (h.buffers w.chars.buf).length) :
    ∃ N h1, (∀ n ≥ N, simulateFirstVisits leftMostRope w.chars n str h = some h1) ∧
      h1.strings left = h.strings left ∧
      ∃ h', Reaches w ⟨h1.modify left f, .visitRightChild, leftMostRope, ⟨w.chars.buf, (T left).length⟩⟩
          ⟨h', .finishNode, str, ⟨w.chars.buf, 0 + (T str).length⟩⟩ ∧
        Visited w orig T P str 0 (T left).length (h.modify left f) h' := by
  let k : JSString → JSString := fun s => { s with u1 := .chars w.chars }
  induction hspine generalizing P h with
  | leftMost hrope hleft hlinear =>
    obtain ⟨_, right, hleft', hright, _⟩ := hv.rope _ hrope
    rw [hleft] at hleft'
    cases hleft'
    have hne : leftMostRope ≠ left := by
      intro heq
      rw [heq, hlinear] at hrope
      cases hrope
    have hrope' := hf.progress leftMostRope (Set.mem_insert leftMostRope P)
    have hf1 := hf.modify (Set.mem_insert leftMostRope P) (f := k) hrope'
    have hself := Heap.strings_modify_self (h.modify left f) leftMostRope k
    have hdone : (((h.modify left f).modify leftMostRope k).strings left).isRope = false := by
      rw [hf1.linear left hlinear]
      exact hlinear
    obtain ⟨h', hreaches, hvisited⟩ := visit_right hT (visits hv hT right) hrope hleft hright hP hf1
      (by rw [hself]; exact congrArg U1.chars hoffset) (by rw [hself]; exact hu2.trans hright)
      (Nat.zero_add _).symm hdone htext (by rw [Nat.zero_add]; exact hsize)
    refine ⟨1, h.modify leftMostRope k, ?_, Heap.strings_modify_of_ne k hne.symm, h', ?_, ?_⟩
    · intro n hn
      obtain ⟨m, rfl⟩ := Nat.exists_eq_add_of_le' hn
      rw [simulateFirstVisits, if_pos rfl]
    · rw [Heap.modify_comm h k f hne]
      exact hreaches
    · exact Visited.of_modify hstr hrope' hvisited
  | @child str child hrope hleft hspine ih =>
    obtain ⟨_, right, hleft', hright, _, hchild, _⟩ := hv.children hrope
    rw [hleft] at hleft'
    cases hleft'
    let p : JSString → JSString := fun s => { s with parent := str, lengthAndFlags := visitingLeft }
    let g := h.modify left f
    have hlinear := hspine.left_linear
    have hne : str ≠ left := by
      intro heq
      rw [heq, hlinear] at hrope
      cases hrope
    have hneChild : child ≠ left := by
      intro heq
      have hrope' := hspine.isRope
      rw [heq, hlinear] at hrope'
      cases hrope'
    have hneStr : child ≠ str := fun heq => hv.not_below_self str (.single (heq ▸ hchild))
    have hneLeftMost : str ≠ leftMostRope := by
      intro heq
      rw [heq, hspine.u1_leftMost] at hleft
      cases hleft
      exact hneChild rfl
    have hT' : T str = T child ++ T right := hT.rope hrope hleft hright
    have hlength : (T str).length = (T child).length + (T right).length := by
      rw [hT', List.length_append]
    have hP' : ∀ y ∈ insert str P, orig.Below child y := by
      intro y hy
      cases hy with
      | inl heq => rw [heq]; exact .single hchild
      | inr hmem => exact .head hchild (hP y hmem)
    have hchildP : child ∉ insert str P := fun hmem => hv.not_below_self child (hP' child hmem)
    have hrope' : (g.strings str).isRope = true := hf.progress str (Set.mem_insert str P)
    have hself : (g.modify str k).strings str = k (g.strings str) := Heap.strings_modify_self g str k
    have hselfChild : ((g.modify str k).modify child p).strings child =
        p ((g.modify str k).strings child) := Heap.strings_modify_self (g.modify str k) child p
    have hother : ∀ y, y ≠ str → y ≠ child →
        ((g.modify str k).modify child p).strings y = g.strings y := fun y hy hy' =>
      (Heap.strings_modify_of_ne p hy').trans (Heap.strings_modify_of_ne k hy)
    have hsameChild : (g.modify str k).strings child = orig.strings child :=
      (Heap.strings_modify_of_ne k hneStr).trans (hbelow child (.single hchild))
    have hropeChild : ((g.modify str k).strings child).isRope = true := by
      rw [hsameChild]
      exact hspine.isRope
    have hg : ((h.modify str k).modify child p).modify left f = (g.modify str k).modify child p := by
      rw [Heap.modify_comm _ p f hneChild, Heap.modify_comm h k f hne]
    have hf1 : Flattening w orig T (insert str P) (T left).length (g.modify str k) :=
      hf.modify (Set.mem_insert str P) hrope'
    have hf2 : Flattening w orig T (insert child (insert str P)) (T left).length
        ((g.modify str k).modify child p) :=
      (hf1.start hropeChild).modify (Set.mem_insert child _) (Progress.left.isRope rfl)
    rw [← hg] at hf2 hselfChild hother
    have hbelow' : ∀ y, orig.Below y child →
        (((h.modify str k).modify child p).modify left f).strings y = orig.strings y := by
      intro y hy
      have hyStr : orig.Below y str := hy.tail hchild
      have hy1 : y ≠ str := fun heq => hv.not_below_self y (heq ▸ hyStr)
      have hy2 : y ≠ child := fun heq => hv.not_below_self y (heq ▸ hy)
      rw [hother y hy1 hy2]
      exact hbelow y hyStr
    obtain ⟨N, h1, hsimulate, hsame, h2, hreaches, hvisited⟩ := ih hP' hchildP hf2
      (by rw [hselfChild, hsameChild]) (by rw [hselfChild, hsameChild]) hbelow' htext
      (by change _ ≤ (h.buffers _).length; omega)
    have hprogress : ((((h.modify str k).modify child p).modify left f).strings child).lengthAndFlags =
        visitingLeft := by rw [hselfChild]
    have hparent : ((((h.modify str k).modify child p).modify left f).strings child).parent = str := by
      rw [hselfChild]
    obtain ⟨h3, hreaches', hf3, hframe, hdone, htext3⟩ :=
      finish_child .left hf.root hchildP hprogress hparent hvisited
    rw [hg] at hframe
    have hframe3 : Frame w.chars.buf (insert str P) (T left).length (g.modify str k) h3 :=
      (Frame.modify p hchildP hropeChild).trans hframe (Nat.le_refl _)
    have hstay : h3.strings str = k (g.strings str) :=
      (hframe3.progress str (Set.mem_insert str P)).trans hself
    have hlength3 : (h3.buffers w.chars.buf).length = (h.buffers w.chars.buf).length := hframe3.length
    have hu1' : (h3.strings str).u1 = .chars ⟨w.chars.buf, 0⟩ := by
      rw [hstay]
      exact congrArg U1.chars hoffset
    have hu2' : (h3.strings str).u2 = .right right := by
      rw [hstay]
      exact hu2.trans hright
    obtain ⟨h', hreaches'', hvisited'⟩ := visit_right hT (visits hv hT right) hrope hleft hright hP hf3
      hu1' hu2' rfl hdone htext3 (by omega)
    refine ⟨N + 1, h1, ?_, ?_, h', (hreaches.trans hreaches').trans hreaches'', ?_⟩
    · intro n hn
      obtain ⟨m, rfl⟩ := Nat.exists_eq_add_of_le' hn
      have hu1Str : (h.strings str).u1 = .left child := by
        rw [← hleft, ← hu1, Heap.strings_modify_of_ne f hne]
      rw [← Nat.add_assoc, simulateFirstVisits, if_neg hneLeftMost, hu1Str]
      exact hsimulate (m + N) (Nat.le_add_left N m)
    · rw [hsame]
      exact (Heap.strings_modify_of_ne p hneChild.symm).trans (Heap.strings_modify_of_ne k hne.symm)
    · have hle : (T left).length ≤ 0 + (T child).length := by
        have hlength := hspine.length_le hv
        rw [hT.length hv, hT.length hv] at hlength
        omega
      exact Visited.of_modify hstr hrope' (Visited.of_frame hframe3 hle hvisited')

/-- A traversal that visits the root flattens it. -/
theorem traverse_flattened (hv : orig.Valid) (hT : orig.Texts T) {t : Traversal}
    (hchars : w.chars = ⟨w.chars.buf, 0⟩) (hlength : w.length = (T w.root).length)
    (hcapacity : w.length ≤ w.capacity) (hsize : w.capacity + 1 ≤ (orig.buffers w.chars.buf).length)
    (honly : ∀ y chars, (orig.strings y).isExtensible = true → (orig.strings y).u1 = .chars chars →
      chars.buf ≠ w.chars.buf)
    (hreaches : Reaches w t ⟨h', .finishNode, w.root, ⟨w.chars.buf, 0 + (T w.root).length⟩⟩)
    (hvisited : Visited w orig T ∅ w.root 0 pos orig h') :
    ∃ N h'', (∀ n ≥ N, traverse w n t = some h'') ∧ Flattened orig w.root h'' := by
  have hbuffers : ∀ b, (h'.buffers b).length = (orig.buffers b).length := by
    intro b
    by_cases hb : b = w.chars.buf
    · rw [hb, hvisited.frame.length]
    · rw [hvisited.frame.buffers b hb]
  have hsize' : w.length + 1 ≤ (h'.buffers w.chars.buf).length := by
    rw [hbuffers]
    omega
  obtain ⟨h'', hfinish, hended, hzero, hbelow⟩ :=
    finishRoot_ended hv hT (congrArg CharPtr.offset hchars) hlength hsize' hbuffers hvisited
  obtain ⟨N, hN⟩ := hreaches
  refine ⟨N + 1, h'', fun n hn => ?_, hended.flattened hv hT hsize honly hzero hbelow⟩
  obtain ⟨m, rfl⟩ := Nat.exists_eq_add_of_le hn
  have hstep : traverse w (m + 1) ⟨h', .finishNode, w.root, ⟨w.chars.buf, 0 + (T w.root).length⟩⟩ =
      some h'' := (if_pos rfl).trans hfinish
  rw [Nat.add_assoc, Nat.add_comm 1 m, hN (m + 1), hstep]

/-- What is allocated holds the characters and the null. -/
theorem lt_allocLength (length : ℕ) : length < allocLength length := by
  unfold allocLength
  dsimp only
  split
  · omega
  · exact Nat.lt_of_succ_le (Nat.le_pow_clog (by decide) (length + 1))

/-- A heap's strings keep their texts when a rope is flattened after another change that keeps them. -/
theorem Flattened.of_same {root : ℕ} {h1 : Heap} (hf : Flattened h1 root h')
    (htext : ∀ str text, h.HasText str text → h1.HasText str text)
    (hchild : ∀ child rope, h.Child child rope → h1.Child child rope)
    (hrope : ∀ str, (h.strings str).isRope = true → (h1.strings str).isRope = true) :
    Flattened h root h' :=
  { hf with
    text := fun str text ht => hf.text str text (htext str text ht)
    dependent := fun str hstr hstr' =>
      hf.dependent str (Relation.TransGen.mono hchild _ _ hstr) (hrope str hstr') }

/-- A rope is flattened into a fresh buffer. -/
theorem flattenFresh_flattened (hv : h.Valid) {root : ℕ} (hroot : (h.strings root).isRope = true)
    (a : Allocation h (allocLength (h.strings root).length)) :
    ∃ N h', (∀ n ≥ N, flattenFresh n h root (some a) = some (true, h')) ∧ Flattened h root h' := by
  let orig := h.setBuffer a.buf a.content
  let w : Whole := ⟨root, (h.strings root).length, ⟨a.buf, 0⟩,
    allocLength (h.strings root).length - 1⟩
  have hv' : orig.Valid := hv.setBuffer a.fresh
  obtain ⟨T, hT⟩ := hv'.exists_texts
  have hlength : (h.strings root).length = (T root).length := hT.length hv' root
  have hlt : (h.strings root).length < allocLength (h.strings root).length := lt_allocLength _
  have hbuffer : (orig.buffers a.buf).length = allocLength (h.strings root).length := by
    rw [Heap.buffers_setBuffer_self, a.length_eq]
  have hf : Flattening w orig T (insert root ∅) 0 orig :=
    Flattening.init hv' hT hroot fun y chars _ hchars hbuf => absurd hbuf (a.fresh y chars hchars)
  obtain ⟨left, right, hleft, hright, _⟩ := hv'.children hroot
  obtain ⟨h1, hreaches, hvisited⟩ := visit_first hT (visits hv' hT left) (visits hv' hT right) hroot
    hleft hright (fun y hy => hy.elim) (Set.notMem_empty root) hf hleft hright
    (by change 0 + _ ≤ (orig.buffers a.buf).length; omega)
  obtain ⟨N, h', htraverse, hflattened⟩ := traverse_flattened hv' hT rfl hlength
    (Nat.le_sub_one_of_lt hlt) (by change _ - 1 + 1 ≤ (orig.buffers a.buf).length; omega)
    (fun y chars _ hchars => a.fresh y chars hchars) hreaches hvisited
  refine ⟨N, h', fun n hn => ?_, ?_⟩
  · change (traverse w n _).bind _ = _
    rw [htraverse n hn]
    rfl
  · exact hflattened.of_same (fun str text ht => ht.setBuffer a.fresh) (fun _ _ hchild => hchild)
      fun _ hstr => hstr

/-- The extensible string whose buffer is reused becomes dependent, with the length that it has. -/
theorem toDependent {s s' : JSString} (hs : s.isExtensible = true)
    (hbits : s'.lengthAndFlags = s.lengthAndFlags ^^^ (extensibleFlags ||| dependentFlags)) :
    s'.isDependent = true ∧ s'.length = s.length := by
  rw [JSString.isExtensible_iff, JSString.flags] at hs
  rw [JSString.isDependent_iff, JSString.flags, JSString.length, JSString.length, hbits,
    Nat.and_xor_distrib_right, hs, Nat.shiftRight_xor_distrib]
  exact ⟨by decide, Nat.xor_zero _⟩

/-- A rope is flattened into the buffer of its leftmost string. -/
theorem flattenReusing_flattened (hv : h.Valid) {root leftMostRope left capacity : ℕ} {chars : CharPtr}
    (hspine : LeftSpine h leftMostRope left root) (hleft : (h.strings left).isExtensible = true)
    (hu1 : (h.strings left).u1 = .chars chars) (hu2 : (h.strings left).u2 = .capacity capacity)
    (hcapacity : (h.strings root).length ≤ capacity) :
    ∃ N h', (∀ n ≥ N, flattenReusing n h root leftMostRope left chars capacity = some h') ∧
      Flattened h root h' := by
  let f : JSString → JSString := fun s =>
    { s with
      lengthAndFlags := (h.strings left).lengthAndFlags ^^^ (extensibleFlags ||| dependentFlags)
      u2 := .base root }
  let orig := h.modify left f
  let w : Whole := ⟨root, (h.strings root).length, chars, capacity⟩
  have htoDependent : (f (h.strings left)).isDependent = true ∧
      (f (h.strings left)).length = (h.strings left).length := toDependent hleft rfl
  obtain ⟨hdependent, hsame⟩ := htoDependent
  have hlinear := JSString.not_isRope_of_isDependent hdependent
  have hlinear' := JSString.not_isRope_of_isExtensible hleft
  have hv' : orig.Valid := hv.modify hleft hdependent rfl hsame
  have hself : orig.strings left = f (h.strings left) := Heap.strings_modify_self h left f
  have hother : ∀ y, y ≠ left → orig.strings y = h.strings y :=
    fun y => Heap.strings_modify_of_ne f
  obtain ⟨T, hT⟩ := hv'.exists_texts
  obtain ⟨buf, capacity', hchars', hcapacity', hbuffer⟩ := hv.extensible left hleft
  rw [hu1] at hchars'
  rw [hu2] at hcapacity'
  cases hchars'
  cases hcapacity'
  have hroot : (h.strings root).isRope = true := hspine.isRope
  have hroot' : orig.strings root = h.strings root := by
    apply hother
    intro heq
    rw [heq, hlinear'] at hroot
    cases hroot
  have hlength : (h.strings root).length = (T root).length := by
    rw [← hroot']
    exact hT.length hv' root
  have hleftLength : (h.strings left).length = (T left).length := by
    rw [← hsame, ← hself]
    exact hT.length hv' left
  have howner : ∀ y chars, (orig.strings y).isRope = false → (orig.strings y).u1 = .chars chars →
      chars.buf = buf → chars.offset + (T y).length ≤ (T left).length := by
    intro y chars hy hchars hbuf
    by_cases heq : y = left
    · rw [heq, hself] at hchars
      cases hu1.symm.trans hchars
      rw [heq, Nat.zero_add]
    · rw [← hT.length hv' y]
      rw [hother y heq] at hy hchars ⊢
      have hle := (hv.owner left y ⟨buf, 0⟩ chars hleft hu1 hy hchars hbuf).1
      rw [hleftLength] at hle
      exact hle
  have honly : ∀ y chars, (orig.strings y).isExtensible = true → (orig.strings y).u1 = .chars chars →
      chars.buf ≠ buf := by
    intro y chars hy hchars hbuf
    have hne : y ≠ left := by
      intro heq
      rw [heq, hself, JSString.not_isExtensible_of_isDependent hdependent] at hy
      cases hy
    rw [hother y hne] at hy hchars
    have hsame := (hv.owner left y ⟨buf, 0⟩ chars hleft hu1 (JSString.not_isRope_of_isExtensible hy)
      hchars hbuf).2 hy
    exact hne hsame
  have hf : Flattening w orig T (insert root ∅) (T left).length orig :=
    Flattening.init hv' hT (by rw [hroot']; exact hroot) howner
  have htext : segment (h.buffers buf) 0 (T left).length = some (T left) := by
    have horig : (orig.strings left).isRope = false := by rw [hself]; exact hlinear
    obtain ⟨chars, hchars, hsegment⟩ := hT.linear horig
    rw [hself] at hchars
    cases hu1.symm.trans hchars
    rw [hT.length hv' left] at hsegment
    exact hsegment
  obtain ⟨N, h1, hsimulate, hsameLeft, h2, hreaches, hvisited⟩ :=
    visit_spine hv' hT (hspine.modify hlinear) rfl (fun y hy => hy.elim)
      (Set.notMem_empty root) hf rfl rfl (fun _ _ => rfl) htext
      (by rw [← hlength]; exact Nat.le_trans (Nat.le_succ_of_le hcapacity) hbuffer)
  obtain ⟨N', h', htraverse, hflattened⟩ := traverse_flattened hv' hT rfl hlength hcapacity hbuffer
    honly hreaches hvisited
  refine ⟨max N N', h', fun n hn => ?_, ?_⟩
  · unfold flattenReusing
    dsimp only
    rw [hsimulate n (Nat.le_trans (Nat.le_max_left N N') hn)]
    change traverse w n ⟨h1.modify left _, _, _, ⟨buf, 0 + (h1.strings left).length⟩⟩ = _
    rw [hsameLeft, hleftLength, Nat.zero_add]
    exact htraverse n (Nat.le_trans (Nat.le_max_right N N') hn)
  · refine hflattened.of_same (fun str text ht => ht.modify hlinear' hlinear rfl hsame)
      (fun child rope => (Heap.child_modify_iff hlinear' hlinear child rope).mpr) fun str hstr => ?_
    have hne : str ≠ left := by
      intro heq
      rw [heq, hlinear'] at hstr
      cases hstr
    rw [hother str hne]
    exact hstr

/-- What a copy of a string's characters does: the text is copied and the copy goes on with the stack,
or the stack fails to grow. -/
theorem copyLoop_text (canGrow : ℕ → Bool) {str : ℕ} {text : List UInt16} (ht : h.HasText str text)
    (nodeStack : List ℕ) (out : List UInt16) (pos : ℕ) (hsize : pos + text.length ≤ out.length) :
    ∃ n, ((∃ k, canGrow k = false) ∧
        ∀ m, copyLoop canGrow h (n + m) str nodeStack out pos = some none) ∨
      ∃ out', overwrite out pos text = some out' ∧ ∀ m,
        copyLoop canGrow h (n + m) str nodeStack out pos = match nodeStack with
          | [] => some (some (out', pos + text.length))
          | next :: nodeStack => copyLoop canGrow h m next nodeStack out' (pos + text.length) := by
  induction ht generalizing nodeStack out pos with
  | @linear str chars text hrope hchars htext =>
    obtain ⟨out', hout⟩ := exists_overwrite hsize
    refine ⟨1, Or.inr ⟨out', hout, fun m => ?_⟩⟩
    rw [Nat.add_comm, copyLoop, hrope, hchars]
    dsimp only
    rw [htext, ← length_of_segment htext]
    change (overwrite out pos text).bind _ = _
    rw [hout]
    cases nodeStack with
    | nil => rfl
    | cons next nodeStack => rfl
  | @rope str left right text text' hrope hleft hright _ _ ihleft ihright =>
    rw [List.length_append] at hsize
    have hfirst : ∀ m, copyLoop canGrow h (m + 1) str nodeStack out pos =
        if canGrow nodeStack.length then copyLoop canGrow h m left (right :: nodeStack) out pos
        else some none := by
      intro m
      rw [copyLoop, hrope, hleft, hright]
      rfl
    cases hgrow : canGrow nodeStack.length with
    | false =>
      refine ⟨1, Or.inl ⟨⟨_, hgrow⟩, fun m => ?_⟩⟩
      rw [Nat.add_comm, hfirst, hgrow]
      rfl
    | true =>
      obtain ⟨n, hn⟩ := ihleft (right :: nodeStack) out pos (by omega)
      cases hn with
      | inl hfail =>
        refine ⟨n + 1, Or.inl ⟨hfail.1, fun m => ?_⟩⟩
        rw [Nat.add_right_comm, hfirst, hgrow]
        exact hfail.2 m
      | inr hcopied =>
        obtain ⟨out1, hout1, hn⟩ := hcopied
        have hsize' : pos + text.length + text'.length ≤ out1.length := by
          rw [length_overwrite hout1]
          omega
        obtain ⟨n', hn'⟩ := ihright nodeStack out1 (pos + text.length) hsize'
        have hgo : ∀ m, copyLoop canGrow h (n + n' + 1 + m) str nodeStack out pos =
            copyLoop canGrow h (n' + m) right nodeStack out1 (pos + text.length) := by
          intro m
          rw [Nat.add_right_comm, hfirst, hgrow, Nat.add_assoc]
          exact hn (n' + m)
        refine ⟨n + n' + 1, hn'.imp ?_ ?_⟩
        · intro hfail
          exact ⟨hfail.1, fun m => (hgo m).trans (hfail.2 m)⟩
        · intro hcopied
          obtain ⟨out2, hout2, hn2⟩ := hcopied
          refine ⟨out2, overwrite_append hout1 hout2, fun m => ?_⟩
          rw [hgo m, hn2 m, List.length_append, Nat.add_assoc]

/-- A copy of a rope's characters is its text, and a null if one is asked for. Memory may run out when
the stack grows. -/
theorem copyNonPureCharsInternal_text (canGrow : ℕ → Bool) {root : ℕ} {text : List UInt16}
    (ht : h.HasText root text) (hlength : (h.strings root).length = text.length) {out : List UInt16}
    (hout : out.length = text.length + 1) (nullTerminate : Bool) :
    ∃ N, ∀ n ≥ N, ∃ copied,
      copyNonPureCharsInternal canGrow n h root (some out) nullTerminate = some copied ∧
        (copied = none → ∃ k, canGrow k = false) ∧
        ∀ cs, copied = some cs → cs.take text.length = text ∧
          (nullTerminate = true → cs[text.length]? = some 0) := by
  obtain ⟨N, hN⟩ := copyLoop_text canGrow ht [] out 0 (by omega)
  have hloop : ∀ n ≥ N, ((∃ k, canGrow k = false) ∧ copyLoop canGrow h n root [] out 0 = some none) ∨
      ∃ out', overwrite out 0 text = some out' ∧
        copyLoop canGrow h n root [] out 0 = some (some (out', 0 + text.length)) := by
    intro n hn
    obtain ⟨m, rfl⟩ := Nat.exists_eq_add_of_le hn
    exact hN.imp (fun hfail => ⟨hfail.1, hfail.2 m⟩) fun hcopied =>
      hcopied.imp fun _ hcopied => ⟨hcopied.1, hcopied.2 m⟩
  refine ⟨N, fun n hn => ?_⟩
  cases hloop n hn with
  | inl hfail =>
    refine ⟨none, ?_, fun _ => hfail.1, by rintro cs ⟨⟩⟩
    unfold copyNonPureCharsInternal
    dsimp only
    rw [hfail.2]
    rfl
  | inr hcopied =>
    obtain ⟨out', hout', hcopied⟩ := hcopied
    rw [Nat.zero_add] at hcopied
    have htake : out'.take text.length = text := by
      have hself := segment_overwrite_self hout'
      rw [Segments.segment, if_pos (by rw [length_overwrite hout']; omega)] at hself
      exact Option.some.inj hself
    have hlength' := length_overwrite hout'
    obtain ⟨out'', hout''⟩ : ∃ out'', overwrite out' text.length [0] = some out'' :=
      exists_overwrite (by rw [hlength', hout]; exact Nat.le_refl _)
    unfold copyNonPureCharsInternal
    dsimp only
    rw [hcopied, hlength]
    cases nullTerminate with
    | false =>
      refine ⟨some out', ?_, by rintro ⟨⟩, fun cs hcs => ?_⟩
      · change (if _ then _ else _) = _
        rw [if_pos rfl]
        rfl
      · cases hcs
        exact ⟨htake, by rintro ⟨⟩⟩
    | true =>
      refine ⟨some out'', ?_, by rintro ⟨⟩, fun cs hcs => ?_⟩
      · change (if _ then _ else _) = _
        rw [if_pos rfl, if_pos rfl, hout'']
        rfl
      · cases hcs
        refine ⟨?_, fun _ => ?_⟩
        · have hbefore : segment out'' 0 text.length = segment out' 0 text.length :=
            segment_overwrite_of_le hout'' (Nat.le_of_eq (Nat.zero_add _))
          rw [segment_overwrite_self hout', Segments.segment,
            if_pos (by rw [length_overwrite hout'', hlength', hout]; omega)] at hbefore
          exact Option.some.inj hbefore
        · have hzero := getElem?_segment (segment_overwrite_self hout'') Nat.zero_lt_one
          exact hzero.symm

/-- A rope is flattened, into a fresh buffer or its leftmost string's, unless a fresh buffer is needed
and cannot be allocated; then nothing changes. A copy has the same characters. -/
theorem flattenInternal_flattened (hv : h.Valid) {root : ℕ} (hroot : (h.strings root).isRope = true)
    (alloc : Option (Allocation h (allocLength (h.strings root).length))) :
    ∃ N, ∀ n ≥ N, ∃ done h', flattenInternal n h root alloc = some (done, h') ∧
      (done = true → Flattened h root h') ∧ (done = false → h' = h ∧ alloc = none) := by
  obtain ⟨N, leftMostRope, left, hspine, hfind⟩ := findLeftMostRope_spine hv hroot
  have hfresh : ∃ N, ∀ n ≥ N, ∃ done h', flattenFresh n h root alloc = some (done, h') ∧
      (done = true → Flattened h root h') ∧ (done = false → h' = h ∧ alloc = none) := by
    cases alloc with
    | none => exact ⟨0, fun _ _ => ⟨false, h, rfl, by rintro ⟨⟩, fun _ => ⟨rfl, rfl⟩⟩⟩
    | some a =>
      obtain ⟨N, h', hfresh, hflattened⟩ := flattenFresh_flattened hv hroot a
      exact ⟨N, fun n hn => ⟨true, h', hfresh n hn, fun _ => hflattened, by rintro ⟨⟩⟩⟩
  obtain ⟨N', hN'⟩ := hfresh
  have hstart : ∀ n ≥ N, (h.strings left).isExtensible = false →
      flattenInternal n h root alloc = flattenFresh n h root alloc := by
    intro n hn hleft
    simp only [flattenInternal, hfind n hn, hspine.u1_leftMost, hleft, Option.bind_eq_bind, Option.bind_some]
  have hextensible : ∀ n ≥ N, ∀ chars capacity, (h.strings left).isExtensible = true →
      (h.strings left).u1 = .chars chars → (h.strings left).u2 = .capacity capacity →
      flattenInternal n h root alloc =
        if capacity ≥ (h.strings root).length then
          (flattenReusing n h root leftMostRope left chars capacity).bind fun h => some (true, h)
        else flattenFresh n h root alloc := by
    intro n hn chars capacity hleft hchars hcapacity
    simp only [flattenInternal, hfind n hn, hspine.u1_leftMost, hleft, hchars, hcapacity, Option.bind_eq_bind,
      Option.bind_some]
  cases hleft : (h.strings left).isExtensible with
  | false =>
    refine ⟨max N N', fun n hn => ?_⟩
    rw [hstart n (Nat.le_trans (Nat.le_max_left N N') hn) hleft]
    exact hN' n (Nat.le_trans (Nat.le_max_right N N') hn)
  | true =>
    obtain ⟨buf, capacity, hchars, hcapacity, _⟩ := hv.extensible left hleft
    by_cases hle : (h.strings root).length ≤ capacity
    · obtain ⟨N2, h', hreuse, hflattened⟩ :=
        flattenReusing_flattened hv hspine hleft hchars hcapacity hle
      refine ⟨max N N2, fun n hn => ⟨true, h', ?_, fun _ => hflattened, by rintro ⟨⟩⟩⟩
      rw [hextensible n (Nat.le_trans (Nat.le_max_left N N2) hn) _ _ hleft hchars hcapacity, if_pos hle,
        hreuse n (Nat.le_trans (Nat.le_max_right N N2) hn)]
      rfl
    · refine ⟨max N N', fun n hn => ?_⟩
      rw [hextensible n (Nat.le_trans (Nat.le_max_left N N') hn) _ _ hleft hchars hcapacity, if_neg hle]
      exact hN' n (Nat.le_trans (Nat.le_max_right N N') hn)

/-- Flattening a rope keeps the text of every string, keeps the heap valid, and changes nothing if a
buffer is needed and cannot be allocated. Copies of a rope's characters are its text, unless memory
runs out. -/
theorem flattenInternal_sound (hv : h.Valid) {root : ℕ} (hroot : (h.strings root).isRope = true) :
    (∀ alloc : Option (Allocation h (allocLength (h.strings root).length)), ∃ N, ∀ n ≥ N, ∃ done h',
      flattenInternal n h root alloc = some (done, h') ∧
        (done = true → Flattened h root h') ∧ (done = false → h' = h ∧ alloc = none)) ∧
      ∀ (canGrow : ℕ → Bool) (alloc : Option (List UInt16)) (nullTerminate : Bool),
        (∀ out, alloc = some out → out.length = (h.strings root).length + 1) →
        ∃ N, ∀ n ≥ N, ∃ copied,
          copyNonPureCharsInternal canGrow n h root alloc nullTerminate = some copied ∧
            (copied = none → alloc = none ∨ ∃ k, canGrow k = false) ∧
            ∀ cs text, copied = some cs → h.HasText root text → cs.take text.length = text ∧
              (nullTerminate = true → cs[text.length]? = some 0) := by
  refine ⟨fun alloc => flattenInternal_flattened hv hroot alloc, ?_⟩
  intro canGrow alloc nullTerminate hout
  obtain ⟨text, htext, hlength⟩ := hv.exists_text root
  cases alloc with
  | none => exact ⟨0, fun _ _ => ⟨none, rfl, fun _ => Or.inl rfl, nofun⟩⟩
  | some out =>
    have hsize : out.length = text.length + 1 := by rw [hout out rfl, hlength]
    obtain ⟨N, hN⟩ :=
      copyNonPureCharsInternal_text canGrow htext hlength.symm hsize nullTerminate
    refine ⟨N, fun n hn => ?_⟩
    obtain ⟨copied, hcopied, hfail, hcs⟩ := hN n hn
    refine ⟨copied, hcopied, fun hnone => Or.inr (hfail hnone), fun cs text' heq htext' => ?_⟩
    rw [htext'.unique htext]
    exact hcs cs heq

/-- A rope of an extensible string and one that depends on it. -/
def appended : Heap where
  strings
    | 0 => ⟨buildLengthAndFlags 2 ropeFlags, .left 1, .right 2, 0⟩
    | 1 => ⟨buildLengthAndFlags 1 extensibleFlags, .chars ⟨0, 0⟩, .capacity 3, 0⟩
    | 2 => ⟨buildLengthAndFlags 1 dependentFlags, .chars ⟨0, 0⟩, .base 1, 0⟩
    | _ + 3 => ⟨buildLengthAndFlags 0 dependentFlags, .chars ⟨0, 0⟩, .base 1, 0⟩
  buffers _ := [97, 0, 0, 0]

/-- Every other string is empty. -/
theorem appended_strings (n : ℕ) : appended.strings (n + 3) =
    ⟨buildLengthAndFlags 0 dependentFlags, .chars ⟨0, 0⟩, .base 1, 0⟩ := rfl

/-- The three strings, and all others. -/
theorem eq_or_ge_three (str : ℕ) : str = 0 ∨ str = 1 ∨ str = 2 ∨ ∃ n, str = n + 3 := by
  rcases str with _ | _ | _ | n <;> simp

/-- The heap is valid. -/
theorem appended_valid : appended.Valid where
  acyclic := by
    have hchild : ∀ child rope, appended.Child child rope → rope = 0 ∧ child ≠ 0 := by
      intro child rope hchild
      obtain rfl | rfl | rfl | ⟨n, rfl⟩ := eq_or_ge_three rope
      · cases hchild.2 with
        | inl heq => cases heq; exact ⟨rfl, by decide⟩
        | inr heq => cases heq; exact ⟨rfl, by decide⟩
      · cases hchild.1
      · cases hchild.1
      · rw [Heap.Child, appended_strings] at hchild
        cases hchild.1
    have hleaf : ∀ n, n ≠ 0 → Acc appended.Child n :=
      fun n hn => ⟨n, fun child hn' => absurd (hchild child n hn').1 hn⟩
    constructor
    intro n
    exact ⟨n, fun child hn => hleaf child (hchild child n hn).2⟩
  rope str hstr := by
    obtain rfl | rfl | rfl | ⟨n, rfl⟩ := eq_or_ge_three str
    · exact ⟨1, 2, rfl, rfl, rfl⟩
    · cases hstr
    · cases hstr
    · rw [appended_strings] at hstr
      cases hstr
  linear str hstr := by
    obtain rfl | rfl | rfl | ⟨n, rfl⟩ := eq_or_ge_three str
    · cases hstr
    · exact ⟨⟨0, 0⟩, rfl, by decide⟩
    · exact ⟨⟨0, 0⟩, rfl, by decide⟩
    · rw [appended_strings]
      exact ⟨⟨0, 0⟩, rfl, by decide⟩
  extensible str hstr := by
    obtain rfl | rfl | rfl | ⟨n, rfl⟩ := eq_or_ge_three str
    · cases hstr
    · exact ⟨0, 3, rfl, rfl, by decide⟩
    · cases hstr
    · rw [appended_strings] at hstr
      cases hstr
  owner str str' chars chars' hstr hchars hstr' hchars' _ := by
    obtain rfl | rfl | rfl | ⟨n, rfl⟩ := eq_or_ge_three str
    · cases hstr
    · obtain rfl | rfl | rfl | ⟨n, rfl⟩ := eq_or_ge_three str'
      · cases hstr'
      · cases hchars'
        exact ⟨by decide, fun _ => rfl⟩
      · cases hchars'
        exact ⟨by decide, by rintro ⟨⟩⟩
      · rw [appended_strings] at hchars' ⊢
        cases hchars'
        exact ⟨by decide, by rintro ⟨⟩⟩
    · cases hstr
    · rw [appended_strings] at hstr
      cases hstr
  length_le str := by
    obtain rfl | rfl | rfl | ⟨n, rfl⟩ := eq_or_ge_three str
    · decide
    · decide
    · decide
    · rw [appended_strings]
      decide

/-- The string that is appended to is reused. -/
theorem flattenInternal_sound_appended : ∃ N, ∀ n ≥ N, ∃ done h',
    flattenInternal n appended 0 none = some (done, h') ∧ (done = true → Flattened appended 0 h') ∧
      (done = false → h' = appended ∧ (none : Option (Allocation appended (allocLength
        (appended.strings 0).length))) = none) := by
  have hroot : (appended.strings 0).isRope = true := rfl
  exact (flattenInternal_sound appended_valid hroot).1 none

end SpiderMonkey.Vm.Rope
