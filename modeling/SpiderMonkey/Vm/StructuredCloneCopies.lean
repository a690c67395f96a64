import Mathlib.Data.List.Forall2
import SpiderMonkey.Vm.StructuredCloneNumbering

/-!
# Copies of objects

What clones contain while a graph is written and read. An object whose properties are written has the
rest of them left; its clone has copies of those before. All other objects are copied at once.
-/

namespace SpiderMonkey.Vm.StructuredClone

/-- Objects with properties that are left, the innermost first. -/
abbrev Frames : Type := List (ℕ × List (PropertyId × Value))

/-- The properties of an object that are left. -/
def leftOf : Frames → ℕ → List (PropertyId × Value)
  | [], _ => []
  | frame :: frames, obj => if frame.1 = obj then frame.2 else leftOf frames obj

/-- An object and its clone have the same number. -/
def CloneOf (w : WriterState) (r : ReaderState) (obj c : ℕ) : Prop :=
  ∃ i : ℕ, w.memory[i]? = some obj ∧ r.allObjs[i]? = some (Value.object c)

/-- A value and its copy. -/
inductive CopyOf (w : WriterState) (r : ReaderState) : Value → Value → Prop where
  | undefined : CopyOf w r .undefined .undefined
  | null : CopyOf w r .null .null
  | boolean (b : Bool) : CopyOf w r (.boolean b) (.boolean b)
  | number (d : UInt64) : CopyOf w r (.number d) (.number (canonicalizeNaN d))
  | string (chars : List UInt16) : CopyOf w r (.string chars) (.string chars)
  | object {obj c : ℕ} (h : CloneOf w r obj c) : CopyOf w r (.object obj) (.object c)

/-- A property and its copy. -/
def CopiedProperty (w : WriterState) (r : ReaderState) (p p' : PropertyId × Value) : Prop :=
  p'.1 = p.1 ∧ CopyOf w r p.2 p'.2

/-- An object is copied at once, and refers to no other. -/
def isLeaf : Obj → Bool
  | .plain _ _ => false
  | .typedArray _ _ _ _ => false
  | _ => true

/-- An object and its clone, as far as properties are copied. -/
inductive CopiedObj (w : WriterState) (r : ReaderState) (left : List (PropertyId × Value)) :
    Obj → Obj → Prop where
  | plain {isArray : Bool} {done copies : List (PropertyId × Value)}
      (h : List.Forall₂ (CopiedProperty w r) done copies) :
      CopiedObj w r left (.plain isArray (done ++ left)) (.plain isArray copies)
  | typedArray {type byteOffset length : UInt32} {buffer c : ℕ} (h : CloneOf w r buffer c) :
      CopiedObj w r left (.typedArray type buffer byteOffset length) (.typedArray type c byteOffset length)
  | leaf {o : Obj} (h : isLeaf o = true) : CopiedObj w r left o (startedObj o)

/-- Frames are those of the writer's stacks. -/
structure Stacked (heap : ℕ → Obj) (frames : Frames) (w : WriterState) : Prop where
  objs : w.objs = frames.map fun frame => frame.1
  counts : w.counts = frames.map fun frame => frame.2.length
  ids : w.ids = frames.flatMap fun frame => frame.2.map Prod.fst
  left : ∀ frame ∈ frames, ∃ isArray done, heap frame.1 = .plain isArray (done ++ frame.2)
  distinct : (frames.map fun frame => frame.1).Nodup
  met : ∀ frame ∈ frames, frame.1 ∈ w.memory

/-- The reader's stack is that of the clones of frames, and clones have what was copied. -/
structure Copies (heap : ℕ → Obj) (frames : Frames) (w : WriterState) (r : ReaderState) : Prop where
  objs : List.Forall₂ (fun obj v => ∃ c, v = Value.object c ∧ CloneOf w r obj c)
    (frames.map fun frame => frame.1) r.objs
  contents : ∀ obj c, CloneOf w r obj c →
    ∃ o, r.heap[c]? = some o ∧ CopiedObj w r (leftOf frames obj) (heap obj) o

section steps

variable {heap : ℕ → Obj} {frames : Frames} {w w' : WriterState} {r r' : ReaderState} {obj c : ℕ}

/-- An object has one clone. -/
theorem CloneOf.unique {c' : ℕ} (h : CloneOf w r obj c) (hnodup : w.memory.Nodup)
    (h' : CloneOf w r obj c') : c = c' := by
  obtain ⟨i, hi, hc⟩ := h
  obtain ⟨i', hi', hc'⟩ := h'
  have hii : i = i' := by
    apply (List.getElem?_inj (List.getElem?_eq_some_iff.mp hi).1 hnodup).mp
    rw [hi, hi']
  rw [hii, hc'] at hc
  cases hc
  rfl

/-- What has the number of an object was read where the object is. -/
theorem Numbers.isClone {pending : Option ℕ} (h : Numbers pending w r) (hclone : CloneOf w r obj c)
    (hpending : pending ≠ some obj) : IsClone w r obj c := by
  obtain ⟨i, hi, hc⟩ := hclone
  obtain ⟨c', hc', hclone'⟩ := h.numbered i obj hi hpending
  rw [hc] at hc'
  cases hc'
  exact hclone'

/-- Copies stay when clones do. -/
theorem CopyOf.mono {v v' : Value} (h : CopyOf w r v v')
    (hclones : ∀ obj c, CloneOf w r obj c → CloneOf w' r' obj c) : CopyOf w' r' v v' := by
  cases h with
  | undefined => exact .undefined
  | null => exact .null
  | boolean b => exact .boolean b
  | number d => exact .number d
  | string chars => exact .string chars
  | object h => exact .object (hclones _ _ h)

/-- Copies of objects stay when clones do. -/
theorem CopiedObj.mono {left : List (PropertyId × Value)} {o o' : Obj} (h : CopiedObj w r left o o')
    (hclones : ∀ obj c, CloneOf w r obj c → CloneOf w' r' obj c) : CopiedObj w' r' left o o' := by
  cases h with
  | plain h => exact .plain (h.imp fun p p' hp => ⟨hp.1, hp.2.mono hclones⟩)
  | typedArray h => exact .typedArray (hclones _ _ h)
  | leaf h => exact .leaf h

/-- The clones are the same when no number is given. -/
theorem cloneOf_congr (hmemory : w'.memory = w.memory) (hallObjs : r'.allObjs = r.allObjs) :
    CloneOf w' r' obj c ↔ CloneOf w r obj c := by rw [CloneOf, CloneOf, hmemory, hallObjs]

/-- There is one more clone when an object is written and read. -/
theorem cloneOf_append {v : Value} (hlength : r.allObjs.length = w.memory.length) {obj' c' : ℕ}
    (hmemory : w'.memory = w.memory ++ [obj]) (hallObjs : r'.allObjs = r.allObjs ++ [v]) :
    CloneOf w' r' obj' c' ↔ CloneOf w r obj' c' ∨ obj' = obj ∧ v = .object c' := by
  constructor
  · rintro ⟨i, hi, hc⟩
    rw [hmemory] at hi
    rw [hallObjs] at hc
    rcases Nat.lt_or_ge i w.memory.length with hlt | hge
    · rw [List.getElem?_append_left hlt] at hi
      rw [List.getElem?_append_left (by rw [hlength]; exact hlt)] at hc
      exact Or.inl ⟨i, hi, hc⟩
    · rw [List.getElem?_append_right hge, List.getElem?_singleton] at hi
      rw [List.getElem?_append_right (by rw [hlength]; exact hge), hlength,
        List.getElem?_singleton] at hc
      split at hi
      · rename_i hzero
        rw [if_pos hzero] at hc
        exact Or.inr ⟨(Option.some.inj hi).symm, Option.some.inj hc⟩
      · cases hi
  · intro h
    rw [CloneOf, hmemory, hallObjs]
    cases h with
    | inl hold =>
      obtain ⟨i, hi, hc⟩ := hold
      exact ⟨i, getElem?_of_prefix (List.prefix_append _ _) hi,
        getElem?_of_prefix (List.prefix_append _ _) hc⟩
    | inr hnew =>
      obtain ⟨rfl, rfl⟩ := hnew
      exact ⟨w.memory.length, by rw [List.getElem?_concat_length],
        by rw [← hlength, List.getElem?_concat_length]⟩

/-- There is one more clone when a typed array is read. -/
theorem cloneOf_set {k obj' c' : ℕ} (hk : w.memory[k]? = some obj)
    (hnull : r.allObjs[k]? = some .null) (hmemory : w'.memory = w.memory)
    (hallObjs : r'.allObjs = r.allObjs.set k (.object c)) :
    CloneOf w' r' obj' c' ↔ CloneOf w r obj' c' ∨ obj' = obj ∧ c' = c := by
  have hklt := (List.getElem?_eq_some_iff.mp hnull).1
  rw [CloneOf, CloneOf, hmemory, hallObjs]
  constructor
  · rintro ⟨i, hi, hc⟩
    by_cases hik : k = i
    · rw [← hik] at hi hc
      rw [hk] at hi
      rw [List.getElem?_set_self hklt] at hc
      cases hi
      cases hc
      exact Or.inr ⟨rfl, rfl⟩
    · rw [List.getElem?_set_ne hik] at hc
      exact Or.inl ⟨i, hi, hc⟩
  · intro h
    cases h with
    | inl hold =>
      obtain ⟨i, hi, hc⟩ := hold
      have hik : k ≠ i := by
        intro heq
        rw [← heq, hnull] at hc
        cases hc
      exact ⟨i, hi, by rw [List.getElem?_set_ne hik]; exact hc⟩
    | inr hnew =>
      obtain ⟨rfl, rfl⟩ := hnew
      exact ⟨k, hk, List.getElem?_set_self hklt⟩

/-- An object that is in no frame has no properties left. -/
theorem leftOf_of_notMem (h : obj ∉ frames.map fun frame => frame.1) : leftOf frames obj = [] := by
  induction frames with
  | nil => rfl
  | cons frame frames ih =>
    rw [List.map_cons, List.mem_cons, not_or] at h
    rw [leftOf, if_neg fun heq => h.1 heq.symm]
    exact ih h.2

/-- Frames of other objects do not matter. -/
theorem leftOf_append_of_forall {pushed : Frames} (h : ∀ frame ∈ pushed, frame.1 ≠ obj) :
    leftOf (pushed ++ frames) obj = leftOf frames obj := by
  induction pushed with
  | nil => rfl
  | cons frame pushed ih =>
    rw [List.cons_append, leftOf, if_neg (h frame List.mem_cons_self)]
    exact ih fun frame' hframe' => h frame' (List.mem_cons_of_mem frame hframe')

/-- The properties that an object's frame has. -/
theorem leftOf_append {pushed : Frames} {left : List (PropertyId × Value)}
    (h : ∀ frame ∈ pushed, frame.1 ≠ obj) :
    leftOf (pushed ++ (obj, left) :: frames) obj = left := by
  rw [leftOf_append_of_forall h]
  exact if_pos rfl

/-- A frame matters to its own object only. -/
theorem leftOf_append_of_ne {pushed : Frames} {left left' : List (PropertyId × Value)} {obj' : ℕ}
    (h : obj' ≠ obj) :
    leftOf (pushed ++ (obj, left) :: frames) obj' = leftOf (pushed ++ (obj, left') :: frames) obj' := by
  induction pushed with
  | nil =>
    change (if obj = obj' then _ else _) = if obj = obj' then _ else _
    rw [if_neg h.symm, if_neg h.symm]
  | cons frame pushed ih =>
    rw [List.cons_append, List.cons_append, leftOf, leftOf, ih]

/-- Copied properties have the same keys. -/
theorem map_fst_of_copied {done copies : List (PropertyId × Value)}
    (h : List.Forall₂ (CopiedProperty w r) done copies) :
    copies.map Prod.fst = done.map Prod.fst := by
  induction h with
  | nil => rfl
  | cons hp _ ih => rw [List.map_cons, List.map_cons, hp.1, ih]

/-- Clones of objects stay when clones do. -/
theorem objs_mono {objs : List ℕ} {values : List Value}
    (h : List.Forall₂ (fun obj v => ∃ c, v = Value.object c ∧ CloneOf w r obj c) objs values)
    (hclones : ∀ obj c, CloneOf w r obj c → CloneOf w' r' obj c) :
    List.Forall₂ (fun obj v => ∃ c, v = Value.object c ∧ CloneOf w' r' obj c) objs values := by
  refine h.imp fun obj v hv => ?_
  obtain ⟨c, hc, hclone⟩ := hv
  exact ⟨c, hc, hclones obj c hclone⟩

/-- A leaf has no properties. -/
theorem isPlain_of_isLeaf {o : Obj} (h : isLeaf o = true) : isPlain o = false := by
  cases o with
  | plain isArray props => cases h
  | _ => rfl

namespace Copies

/-- Words are written and read. -/
theorem outputs {words : List UInt64} (h : Copies heap frames w r) (h' : Outputs w words w')
    (hobjs : r'.objs = r.objs) (hallObjs : r'.allObjs = r.allObjs) (hheap : r'.heap = r.heap) :
    Copies heap frames w' r' := by
  have hclones : ∀ obj c, CloneOf w' r' obj c ↔ CloneOf w r obj c :=
    fun obj c => cloneOf_congr h'.memory hallObjs
  constructor
  · rw [hobjs]
    exact objs_mono h.objs fun obj c hclone => (hclones obj c).mpr hclone
  · intro obj c hclone
    obtain ⟨o, ho, hcopied⟩ := h.contents obj c ((hclones obj c).mp hclone)
    exact ⟨o, by rw [hheap]; exact ho, hcopied.mono fun _ _ h => (hclones _ _).mpr h⟩

/-- A placeholder stands for a typed array. -/
theorem pend {words : List UInt64} (h : Copies heap frames w r) (h' : Remembers w obj words w')
    (hlength : r.allObjs.length = w.memory.length) (hobjs : r'.objs = r.objs)
    (hallObjs : r'.allObjs = r.allObjs ++ [.null]) (hheap : r'.heap = r.heap) :
    Copies heap frames w' r' := by
  have hclones : ∀ obj c, CloneOf w' r' obj c ↔ CloneOf w r obj c := by
    intro obj' c'
    rw [cloneOf_append hlength h'.memory hallObjs, or_iff_left]
    rintro ⟨_, ⟨⟩⟩
  constructor
  · rw [hobjs]
    exact objs_mono h.objs fun obj c hclone => (hclones obj c).mpr hclone
  · intro obj c hclone
    obtain ⟨o, ho, hcopied⟩ := h.contents obj c ((hclones obj c).mp hclone)
    exact ⟨o, by rw [hheap]; exact ho, hcopied.mono fun _ _ h => (hclones _ _).mpr h⟩

/-- One more object has a clone. Its own frame, if any, is the first. -/
theorem extend {o : Obj} {pushed : Frames} (h : Copies heap frames w r)
    (hclones : ∀ obj' c', CloneOf w' r' obj' c' ↔ CloneOf w r obj' c' ∨ obj' = obj ∧ c' = c)
    (hc : c = r.heap.length) (hobjs : r'.objs = pushed.map (fun _ => Value.object c) ++ r.objs)
    (hheap : r'.heap = r.heap ++ [o]) (hpushed : ∀ frame ∈ pushed, frame.1 = obj)
    (hnew : ∀ c', ¬ CloneOf w r obj c')
    (hcopied : CopiedObj w' r' (leftOf (pushed ++ frames) obj) (heap obj) o) :
    Copies heap (pushed ++ frames) w' r' := by
  have hmono : ∀ obj' c', CloneOf w r obj' c' → CloneOf w' r' obj' c' :=
    fun obj' c' hclone => (hclones obj' c').mpr (Or.inl hclone)
  constructor
  · rw [hobjs, List.map_append]
    apply List.rel_append
    · rw [List.forall₂_map_left_iff, List.forall₂_map_right_iff, List.forall₂_same]
      exact fun frame hframe => ⟨c, rfl, (hclones _ _).mpr (Or.inr ⟨hpushed frame hframe, rfl⟩)⟩
    · exact objs_mono h.objs hmono
  · intro obj' c' hclone
    cases (hclones obj' c').mp hclone with
    | inl hold =>
      obtain ⟨o', ho', hcopied'⟩ := h.contents obj' c' hold
      have hne : obj' ≠ obj := fun heq => hnew c' (heq ▸ hold)
      rw [leftOf_append_of_forall fun frame hframe heq => hne (heq.symm.trans (hpushed frame hframe)),
        hheap]
      exact ⟨o', getElem?_of_prefix (List.prefix_append _ _) ho', hcopied'.mono hmono⟩
    | inr heq =>
      obtain ⟨rfl, rfl⟩ := heq
      refine ⟨o, ?_, hcopied⟩
      rw [hheap, hc, List.getElem?_concat_length]

/-- A property of an object is copied. -/
theorem define {pushed : Frames} {left : List (PropertyId × Value)} {id : PropertyId} {v v' : Value}
    (h : Copies heap (pushed ++ (obj, (id, v) :: left) :: frames) w r)
    (hvalid : ValidObj heap (heap obj)) (hplain : isPlain (heap obj) = true)
    (hpushed : ∀ frame ∈ pushed, frame.1 ≠ obj) (hnodup : w.memory.Nodup) (hclone : CloneOf w r obj c)
    (hone : ∀ obj', CloneOf w r obj' c → obj' = obj) (hv : CopyOf w r v v') :
    ∃ isArray copies, r.heap[c]? = some (.plain isArray copies) ∧
      ∀ r' : ReaderState, r'.allObjs = r.allObjs → r'.objs = r.objs →
        r'.heap = r.heap.set c (.plain isArray (CloneReader.defineProperty copies id v')) →
          Copies heap (pushed ++ (obj, left) :: frames) w r' := by
  obtain ⟨o, ho, hcopied⟩ := h.contents obj c hclone
  rw [leftOf_append hpushed] at hcopied
  have hlt := (List.getElem?_eq_some_iff.mp ho).1
  generalize hobj : heap obj = source at hcopied hvalid hplain
  cases hcopied with
  | typedArray _ => cases hplain
  | leaf hleaf => exact absurd (isPlain_of_isLeaf hleaf) (by rw [hplain]; decide)
  | @plain isArray done copies hdone =>
    refine ⟨isArray, copies, ho, fun r' hallObjs hobjs hheap => ?_⟩
    have hclones : ∀ obj c, CloneOf w r obj c → CloneOf w r' obj c :=
      fun _ _ hclone => (cloneOf_congr rfl hallObjs).mpr hclone
    have hid : id ∉ copies.map Prod.fst := by
      have hkeys := hvalid.1
      rw [List.map_append, List.map_cons, List.nodup_append] at hkeys
      rw [map_fst_of_copied hdone]
      exact fun hmem => hkeys.2.2 id hmem id List.mem_cons_self rfl
    constructor
    · rw [hobjs]
      have hframes := objs_mono h.objs hclones
      rw [List.map_append, List.map_cons] at hframes ⊢
      exact hframes
    · intro obj' c' hclone'
      have hold := (cloneOf_congr rfl hallObjs).mp hclone'
      by_cases hobj' : obj' = obj
      · have hc' : c' = c := (hobj' ▸ hold).unique hnodup hclone
        have hcopy : CopiedProperty w r' (id, v) (id, v') := ⟨rfl, hv.mono hclones⟩
        have hall : List.Forall₂ (CopiedProperty w r') (done ++ [(id, v)]) (copies ++ [(id, v')]) :=
          List.rel_append (hdone.imp fun p p' hp => ⟨hp.1, hp.2.mono hclones⟩) (.cons hcopy .nil)
        refine ⟨_, by rw [hheap, hc', List.getElem?_set_self hlt], ?_⟩
        rw [hobj', leftOf_append hpushed, hobj, CloneReader.defineProperty, if_neg hid]
        have hdone' : done ++ (id, v) :: left = (done ++ [(id, v)]) ++ left := by
          rw [List.append_assoc]
          rfl
        rw [hdone']
        exact .plain hall
      · obtain ⟨o', ho', hcopied'⟩ := h.contents obj' c' hold
        have hne : c ≠ c' := by
          intro heq
          rw [← heq] at hold
          exact hobj' (hone obj' hold)
        rw [leftOf_append_of_ne hobj'] at hcopied'
        refine ⟨o', ?_, hcopied'.mono hclones⟩
        rw [hheap, List.getElem?_set_ne hne]
        exact ho'

/-- The first object on the reader's stack is the clone of the first frame's. -/
theorem top {left : List (PropertyId × Value)} {v : Value} {rest : List Value}
    (h : Copies heap ((obj, left) :: frames) w r) (hobjs : r.objs = v :: rest) :
    ∃ c, v = .object c ∧ CloneOf w r obj c := by
  have hframes := h.objs
  rw [hobjs, List.map_cons] at hframes
  cases hframes with
  | cons hframe _ => exact hframe

/-- The properties of an object are all copied. -/
theorem pop (h : Copies heap ((obj, []) :: frames) w r)
    (hdistinct : (((obj, []) :: frames : Frames).map fun frame => frame.1).Nodup)
    (hmemory : w'.memory = w.memory) (hallObjs : r'.allObjs = r.allObjs)
    (hobjs : ∀ top rest, r.objs = top :: rest → r'.objs = rest) (hheap : r'.heap = r.heap) :
    Copies heap frames w' r' := by
  have hclones : ∀ obj c, CloneOf w' r' obj c ↔ CloneOf w r obj c :=
    fun _ _ => cloneOf_congr hmemory hallObjs
  have hnotMem := (List.nodup_cons.mp hdistinct).1
  constructor
  · have hframes := h.objs
    rw [List.map_cons] at hframes
    generalize hr : r.objs = values at hframes
    cases hframes with
    | cons hframe hrest =>
      rw [hobjs _ _ hr]
      exact objs_mono hrest fun obj c hclone => (hclones obj c).mpr hclone
  · intro obj' c' hclone'
    obtain ⟨o', ho', hcopied'⟩ := h.contents obj' c' ((hclones obj' c').mp hclone')
    have hleft : leftOf ((obj, []) :: frames) obj' = leftOf frames obj' := by
      by_cases heq : obj = obj'
      · rw [leftOf, if_pos heq, leftOf_of_notMem (heq ▸ hnotMem)]
      · rw [leftOf, if_neg heq]
    rw [hleft] at hcopied'
    rw [hheap]
    exact ⟨o', ho', hcopied'.mono fun _ _ hc => (hclones _ _).mpr hc⟩

end Copies

end steps

end SpiderMonkey.Vm.StructuredClone
