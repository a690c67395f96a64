import SpiderMonkey.Vm.StructuredCloneObjects

/-!
# Numbers of objects

The writer numbers objects when it first meets them, and the reader when it has made them. An object
that was read is the clone of the one that was written at the same position. Numbers agree if each
number is that of an object for the writer and of its clone for the reader; a typed array whose buffer
is read has no clone yet.
-/

namespace SpiderMonkey.Vm.StructuredClone

/-- An item of the first part of a list. -/
theorem getElem?_of_prefix {A : Type} {l l' : List A} {i : ℕ} {a : A} (h : l <+: l')
    (ha : l[i]? = some a) : l'[i]? = some a := by
  obtain ⟨more, rfl⟩ := h
  rw [List.getElem?_append_left (List.getElem?_eq_some_iff.mp ha).1]
  exact ha

/-- A list is the first part of an equal one. -/
theorem prefix_of_eq {A : Type} {l l' : List A} (h : l' = l) : l <+: l' :=
  ⟨[], by rw [List.append_nil, h]⟩

/-- What the writer adds to, and never takes back. -/
structure WriterState.Grows (w w' : WriterState) : Prop where
  out : w.out <+: w'.out
  memory : w.memory <+: w'.memory
  starts : ∀ start ∈ w.starts, start ∈ w'.starts
  fresh : ∀ start ∈ w'.starts, start ∈ w.starts ∨ w.out.length ≤ start.2
  ends : ∀ t ∈ w.ends, t ∈ w'.ends

namespace WriterState.Grows

variable {w w' w'' : WriterState}

/-- The writer stays. -/
theorem refl (w : WriterState) : Grows w w :=
  ⟨List.prefix_rfl, List.prefix_rfl, fun _ h => h, fun _ h => Or.inl h, fun _ h => h⟩

/-- The writer goes on and on. -/
theorem trans (h : Grows w w') (h' : Grows w' w'') : Grows w w'' where
  out := h.out.trans h'.out
  memory := h.memory.trans h'.memory
  starts start hs := h'.starts start (h.starts start hs)
  fresh start hs := by
    cases h'.fresh start hs with
    | inl hold => exact h.fresh start hold
    | inr hle => exact Or.inr (Nat.le_trans h.out.length_le hle)
  ends t ht := h'.ends t (h.ends t ht)

end WriterState.Grows

namespace CloneWriter

variable {A B : Type} {env : WriteEnvironment} {heap : ℕ → Obj}

/-- What holds from one state to a later one when words, numbers and starts are added. -/
structure Growth (R : WriterState → WriterState → Prop) : Prop where
  refl : ∀ w, R w w
  trans : ∀ {w w' w'' : WriterState}, R w w' → R w' w'' → R w w''
  adds : ∀ {w w' : WriterState}, w.out <+: w'.out → w.memory <+: w'.memory →
    (∀ start ∈ w.starts, start ∈ w'.starts) →
      (∀ start ∈ w'.starts, start ∈ w.starts ∨ w.out.length ≤ start.2) → w'.ends = w.ends → R w w'

/-- The writer takes nothing back. -/
theorem growth_grows : Growth WriterState.Grows where
  refl := .refl
  trans := .trans
  adds hout hmemory hstarts hfresh hends :=
    ⟨hout, hmemory, hstarts, hfresh, fun _ ht => by rw [hends]; exact ht⟩

/-- No ends of objects are written. -/
theorem growth_ends : Growth fun w w' => w'.ends = w.ends where
  refl _ := rfl
  trans h h' := h'.trans h
  adds _ _ _ _ hends := hends

/-- A part of the writer takes a state to one that is related. -/
def Adds (R : WriterState → WriterState → Prop) (x : CloneWriter A) : Prop := ∀ w, R w (x w).2

namespace Adds

variable {R : WriterState → WriterState → Prop} (hR : Growth R)

include hR

/-- Nothing is done. -/
theorem pure (a : A) : Adds R (Pure.pure a : CloneWriter A) := hR.refl

/-- The writer fails. -/
theorem fail : Adds R (fail : CloneWriter A) := hR.refl

/-- The state is looked at. -/
theorem get : Adds R get := hR.refl

/-- One thing is done after another. -/
theorem bind {x : CloneWriter A} {f : A → CloneWriter B} (hx : Adds R x) (hf : ∀ a, Adds R (f a)) :
    Adds R (x >>= f) := by
  intro w
  change R w (CloneWriter.bind x f w).2
  rw [CloneWriter.bind]
  have hgrows := hx w
  cases hxw : x w with
  | mk result w1 =>
    rw [hxw] at hgrows
    cases result with
    | none => exact hgrows
    | some a => exact hR.trans hgrows (hf a w1)

omit hR in
/-- Either case of a condition. -/
theorem ite {c : Prop} [Decidable c] {x y : CloneWriter A} (hx : Adds R x) (hy : Adds R y) :
    Adds R (if c then x else y) := by
  split
  · exact hx
  · exact hy

/-- The engine does something. -/
theorem external : Adds R (external env) := by
  intro w
  have hsame : R w { w with ticks := w.ticks + 1 } :=
    hR.adds List.prefix_rfl List.prefix_rfl (fun _ hs => hs) (fun _ hs => Or.inl hs) rfl
  unfold CloneWriter.external
  dsimp only
  split
  · exact hsame
  · exact hsame

/-- Words are appended. -/
theorem append (words : List UInt64) : Adds R (append env words) :=
  bind hR (external hR) fun _ w =>
    hR.adds (List.prefix_append w.out words) List.prefix_rfl (fun _ hs => hs) (fun _ hs => Or.inl hs) rfl

/-- A pair is written. -/
theorem writePair (tag data : UInt32) : Adds R (writePair env tag data) := append hR _

/-- A string is written. -/
theorem writeString (tag : UInt32) (chars : List UInt16) : Adds R (writeString env tag chars) :=
  bind hR (external hR) fun _ => bind hR (writePair hR _ _) fun _ => .ite (pure hR ()) (append hR _)

/-- Bytes are written. -/
theorem writeBytes (bytes : List UInt8) : Adds R (writeBytes env bytes) :=
  .ite (pure hR ()) (append hR _)

/-- An object gets a number. -/
theorem addToMemory (obj : ℕ) : Adds R (addToMemory env obj) := by
  refine bind hR (get hR) fun _ => .ite (fail hR) (bind hR (external hR) fun _ w => ?_)
  refine hR.adds List.prefix_rfl (List.prefix_append w.memory [obj])
    (fun _ hs => List.mem_append_left _ hs) (fun start hs => ?_) rfl
  cases List.mem_append.mp hs with
  | inl hold => exact Or.inl hold
  | inr hnew =>
    rw [List.mem_singleton.mp hnew]
    exact Or.inr (Nat.le_refl _)

/-- An object is met. -/
theorem startObject (obj : ℕ) : Adds R (startObject env obj) := by
  refine bind hR (get hR) fun s => ?_
  cases s.memory.idxOf? obj with
  | some i => exact bind hR (writePair hR _ _) fun _ => pure hR true
  | none => exact bind hR (addToMemory hR obj) fun _ => .ite (fail hR) (pure hR false)

variable {sw : Value → CloneWriter Unit}

/-- A typed array is written. -/
theorem writeTypedArray (hstart : ∀ v, Adds R (sw v)) (obj : ℕ) :
    Adds R (writeTypedArray env heap sw obj) := by
  unfold CloneWriter.writeTypedArray
  cases heap obj with
  | typedArray type buffer byteOffset length =>
    exact bind hR (writePair hR _ _) fun _ => bind hR (append hR _) fun _ =>
      bind hR (hstart _) fun _ => append hR _
  | _ => exact fail hR

/-- Items are written for a callback. -/
theorem writeHostItems (hstart : ∀ v, Adds R (sw v)) (items : List HostItem) :
    Adds R (writeHostItems env heap sw items) := by
  induction items with
  | nil => exact pure hR ()
  | cons item items ih =>
    refine bind hR ?_ fun _ => ih
    cases item with
    | pair tag data => exact writePair hR tag data
    | bytes bytes => exact writeBytes hR bytes
    | typedArray obj => exact writeTypedArray hR hstart obj

/-- The stacks change. -/
theorem modify {f : WriterState → WriterState} (hout : ∀ w, (f w).out = w.out)
    (hmemory : ∀ w, (f w).memory = w.memory) (hstarts : ∀ w, (f w).starts = w.starts)
    (hends : ∀ w, (f w).ends = w.ends) : Adds R (modify f) := by
  intro w
  change R w (f w)
  refine hR.adds ?_ ?_ ?_ ?_ (hends w)
  · exact prefix_of_eq (hout w)
  · exact prefix_of_eq (hmemory w)
  · exact fun start hs => by rw [← hstarts w] at hs; exact hs
  · exact fun start hs => by rw [hstarts w] at hs; exact Or.inl hs

/-- An object is written. -/
theorem writeObject (hstart : ∀ v, Adds R (sw v)) (obj : ℕ) :
    Adds R (writeObject env heap sw obj) := by
  unfold CloneWriter.writeObject
  cases heap obj with
  | plain isArray props =>
    refine bind hR (external hR) fun _ => bind hR (modify hR ?_ ?_ ?_ ?_) fun _ =>
      bind hR (external hR) fun _ => bind hR (modify hR ?_ ?_ ?_ ?_) fun _ => writePair hR _ _
    all_goals exact fun _ => rfl
  | booleanObject b => exact writePair hR _ _
  | numberObject d => exact bind hR (writePair hR _ _) fun _ => append hR _
  | stringObject chars => exact writeString hR _ _
  | date d => exact bind hR (writePair hR _ _) fun _ => append hR _
  | regexp flags source => exact bind hR (writePair hR _ _) fun _ => writeString hR _ _
  | arrayBuffer bytes => exact bind hR (writePair hR _ _) fun _ => writeBytes hR _
  | typedArray type buffer byteOffset length => exact writeTypedArray hR hstart obj
  | host tag data items =>
    exact .ite (bind hR (writePair hR _ _) fun _ => bind hR (writeHostItems hR hstart items) fun _ =>
      external hR) (fail hR)

/-- A value is written. -/
theorem startWrite (n : ℕ) (v : Value) : Adds R (CloneWriter.startWrite env heap n v) := by
  induction n generalizing v with
  | zero => exact fail hR
  | succ n ih =>
    cases v with
    | string chars => exact writeString hR _ _
    | number d => exact append hR _
    | boolean b => exact writePair hR _ _
    | null => exact writePair hR _ _
    | undefined => exact writePair hR _ _
    | object obj =>
      exact bind hR (startObject hR obj) fun backref => .ite (pure hR ()) (writeObject hR ih obj)

omit hR in
/-- Properties are written. -/
theorem writeProperties (depth n : ℕ) :
    Adds WriterState.Grows (CloneWriter.writeProperties env heap depth n) := by
  have hR := growth_grows
  induction n with
  | zero => exact fail hR
  | succ n ih =>
    refine bind hR (get hR) fun s => ?_
    split
    · refine bind hR (modify hR ?_ ?_ ?_ ?_) fun _ => bind hR (external hR) fun _ => ?_
      iterate 4 exact fun _ => rfl
      split
      · refine bind hR ?_ fun _ => bind hR (external hR) fun _ => bind hR (startWrite hR depth _) fun _ => ih
        unfold writeId
        split
        · exact writePair hR _ _
        · exact writeString hR _ _
      · exact ih
    · refine bind hR ?_ fun _ => bind hR ?_ fun _ => bind hR (modify hR ?_ ?_ ?_ ?_) fun _ => ih
      · exact fun w => ⟨List.prefix_rfl, List.prefix_rfl, fun _ hs => hs, fun _ hs => Or.inl hs,
          fun _ ht => List.mem_append_left _ ht⟩
      · exact writePair hR sctagNull 0
      all_goals exact fun _ => rfl
    · exact pure hR ()
    · exact fail hR

end Adds

end CloneWriter

/-- The writer's own numbers: objects have one each, and one position before the end of the output. -/
structure WriterState.Numbered (w : WriterState) : Prop where
  nodup : w.memory.Nodup
  bound : w.memory.length ≤ maxMemory
  starts : ∀ obj p, (obj, p) ∈ w.starts → obj ∈ w.memory ∧ p < w.out.length
  positions : ∀ obj obj' p, (obj, p) ∈ w.starts → (obj', p) ∈ w.starts → obj = obj'

/-- An object that was read is the clone of one that was written: it was read from where that one is. -/
def IsClone (w : WriterState) (r : ReaderState) (obj c : ℕ) : Prop :=
  ∃ p, (obj, p) ∈ w.starts ∧ .object p c ∈ r.trace

/-- All references were to clones of the objects that have these numbers, and all objects were read
from one position each, where one object is. -/
structure Linked (w : WriterState) (r : ReaderState) : Prop where
  references : ∀ i v, .backReference i v ∈ r.trace →
    ∃ obj c, w.memory[i.toNat]? = some obj ∧ v = .object c ∧ IsClone w r obj c
  unique : ∀ p p' c, .object p c ∈ r.trace → .object p' c ∈ r.trace → p = p'
  before : ∀ p c, .object p c ∈ r.trace → p < w.out.length
  positions : ∀ p c, .object p c ∈ r.trace →
    ∀ obj obj', (obj, p) ∈ w.starts → (obj', p) ∈ w.starts → obj = obj'

/-- The writer and the reader agree on numbers. One object may have no clone yet. -/
structure Numbers (pending : Option ℕ) (w : WriterState) (r : ReaderState) : Prop where
  writer : w.Numbered
  point : r.point = w.out.length
  length : r.allObjs.length = w.memory.length
  numbered : ∀ i obj : ℕ, w.memory[i]? = some obj → pending ≠ some obj →
    ∃ c, r.allObjs[i]? = some (Value.object c) ∧ IsClone w r obj c
  fresh : ∀ p c, .object p c ∈ r.trace → c < r.heap.length
  linked : Linked w r

section steps

variable {pending : Option ℕ} {w w' : WriterState} {r r' : ReaderState} {obj c : ℕ}

/-- A clone stays one. -/
theorem IsClone.mono (h : IsClone w r obj c) (hstarts : ∀ start ∈ w.starts, start ∈ w'.starts)
    (htrace : ∀ p, .object p c ∈ r.trace → .object p c ∈ r'.trace) : IsClone w' r' obj c := by
  obtain ⟨p, hstart, hobject⟩ := h
  exact ⟨p, hstarts _ hstart, htrace p hobject⟩

/-- What is linked stays linked when the writer gives numbers further on. -/
theorem Linked.extend (h : Linked w r) (hmemory : w.memory <+: w'.memory)
    (hstarts : ∀ start ∈ w.starts, start ∈ w'.starts)
    (hfresh : ∀ start ∈ w'.starts, start ∈ w.starts ∨ w.out.length ≤ start.2)
    (hout : w.out.length ≤ w'.out.length) : Linked w' r where
  references i v hv := by
    obtain ⟨obj, c, hnumber, hobject, hclone⟩ := h.references i v hv
    exact ⟨obj, c, getElem?_of_prefix hmemory hnumber, hobject, hclone.mono hstarts fun _ h => h⟩
  unique := h.unique
  before p c hp := Nat.lt_of_lt_of_le (h.before p c hp) hout
  positions p c hp obj obj' hobj hobj' := by
    have hold : ∀ obj, (obj, p) ∈ w'.starts → (obj, p) ∈ w.starts := fun obj hobj =>
      (hfresh _ hobj).resolve_right (Nat.not_le.mpr (h.before p c hp))
    exact h.positions p c hp obj obj' (hold obj hobj) (hold obj' hobj')

/-- What is linked stays linked when the writer goes on. -/
theorem Linked.grow (h : Linked w r) (hgrows : w.Grows w') : Linked w' r :=
  h.extend hgrows.memory hgrows.starts hgrows.fresh hgrows.out.length_le

/-- What is linked stays linked when no links are added. -/
theorem Linked.later (h : Linked w r) (hlater : CloneReader.Later r r') : Linked w r' where
  references i v hv := by
    obtain ⟨obj, c, hmemory, hobject, hclone⟩ := h.references i v ((hlater _ rfl).mp hv)
    exact ⟨obj, c, hmemory, hobject, hclone.mono (fun _ h => h) fun p hp => (hlater _ rfl).mpr hp⟩
  unique p p' c hp hp' := h.unique p p' c ((hlater _ rfl).mp hp) ((hlater _ rfl).mp hp')
  before p c hp := h.before p c ((hlater _ rfl).mp hp)
  positions p c hp := h.positions p c ((hlater _ rfl).mp hp)

/-- A clone is that of one object. -/
theorem Linked.eq_of_isClone (h : Linked w r) {obj' : ℕ} (hclone : IsClone w r obj c)
    (hclone' : IsClone w r obj' c) : obj = obj' := by
  obtain ⟨p, hstart, hobject⟩ := hclone
  obtain ⟨p', hstart', hobject'⟩ := hclone'
  have hp : p = p' := h.unique p p' c hobject hobject'
  rw [← hp] at hstart'
  exact h.positions p c hobject obj obj' hstart hstart'

/-- The writer writes some words, and gives no numbers. -/
structure Outputs (w : WriterState) (words : List UInt64) (w' : WriterState) : Prop where
  memory : w'.memory = w.memory
  starts : w'.starts = w.starts
  out : w'.out = w.out ++ words

/-- The writer gives an object a number, and writes some words for it. -/
structure Remembers (w : WriterState) (obj : ℕ) (words : List UInt64) (w' : WriterState) : Prop where
  memory : w'.memory = w.memory ++ [obj]
  starts : w'.starts = w.starts ++ [(obj, w.out.length)]
  out : w'.out = w.out ++ words
  room : w.memory.length < maxMemory
  new : obj ∉ w.memory

/-- Words are written. -/
theorem CloneWriter.Writes.outputs {words : List UInt64}
    (h : CloneWriter.Writes w words w') : Outputs w words w' := by
  obtain ⟨ticks, rfl⟩ := h
  exact ⟨rfl, rfl, rfl⟩

/-- The writer takes nothing back when it writes words. -/
theorem Outputs.grows {words : List UInt64} (h : Outputs w words w') (hends : ∀ t ∈ w.ends, t ∈ w'.ends) :
    w.Grows w' where
  out := by
    rw [h.out]
    exact List.prefix_append _ _
  memory := by
    exact prefix_of_eq h.memory
  starts _ hs := by
    rw [h.starts]
    exact hs
  fresh _ hs := by
    rw [h.starts] at hs
    exact Or.inl hs
  ends := hends

/-- Words are written after an object got its number. -/
theorem Remembers.outputs {words words' : List UInt64} {w1 : WriterState}
    (h : Remembers w obj words w1) (h' : Outputs w1 words' w') : Remembers w obj (words ++ words') w' :=
  ⟨h'.memory.trans h.memory, h'.starts.trans h.starts, by rw [h'.out, h.out, List.append_assoc], h.room,
    h.new⟩

/-- The writer's own numbers stay when words are written. -/
theorem WriterState.Numbered.outputs {words : List UInt64} (h : w.Numbered) (h' : Outputs w words w') :
    w'.Numbered where
  nodup := by rw [h'.memory]; exact h.nodup
  bound := by rw [h'.memory]; exact h.bound
  starts obj p hstart := by
    rw [h'.starts] at hstart
    obtain ⟨hmem, hlt⟩ := h.starts obj p hstart
    rw [h'.memory, h'.out, List.length_append]
    exact ⟨hmem, Nat.lt_add_right _ hlt⟩
  positions := by rw [h'.starts]; exact h.positions

/-- The writer's own numbers stay when an object gets one. -/
theorem WriterState.Numbered.remembers {words : List UInt64} (h : w.Numbered)
    (h' : Remembers w obj words w') (hwords : words ≠ []) : w'.Numbered where
  nodup := by
    rw [h'.memory, List.nodup_append]
    refine ⟨h.nodup, List.pairwise_singleton _ obj, fun a ha b hb => ?_⟩
    rw [List.mem_singleton] at hb
    rw [hb]
    exact fun heq => h'.new (heq ▸ ha)
  bound := by
    rw [h'.memory, List.length_append]
    exact h'.room
  starts obj' p hstart := by
    have hpos := List.length_pos_iff.mpr hwords
    rw [h'.starts, List.mem_append, List.mem_singleton] at hstart
    rw [h'.memory, h'.out, List.length_append]
    cases hstart with
    | inl hold =>
      obtain ⟨hmem, hlt⟩ := h.starts obj' p hold
      exact ⟨List.mem_append_left [obj] hmem, by omega⟩
    | inr hnew =>
      cases hnew
      exact ⟨List.mem_append_right w.memory (List.mem_singleton_self obj), by omega⟩
  positions o o' p ho ho' := by
    rw [h'.starts, List.mem_append, List.mem_singleton] at ho ho'
    cases ho with
    | inl hold =>
      cases ho' with
      | inl hold' => exact h.positions o o' p hold hold'
      | inr hnew' =>
        cases hnew'
        exact absurd (h.starts o _ hold).2 (Nat.lt_irrefl _)
    | inr hnew =>
      cases hnew
      cases ho' with
      | inl hold' => exact absurd (h.starts o' _ hold').2 (Nat.lt_irrefl _)
      | inr hnew' => cases hnew'; rfl

/-- What is linked stays linked when words are written. -/
theorem Linked.outputs {words : List UInt64} (h : Linked w r) (h' : Outputs w words w') : Linked w' r := by
  refine h.extend ?_ ?_ ?_ ?_
  · exact prefix_of_eq h'.memory
  · exact fun start hs => by rw [h'.starts]; exact hs
  · exact fun start hs => by rw [h'.starts] at hs; exact Or.inl hs
  · rw [h'.out, List.length_append]
    exact Nat.le_add_right _ _

/-- What is linked stays linked when an object gets a number. -/
theorem Linked.remembers {words : List UInt64} (h : Linked w r) (h' : Remembers w obj words w') :
    Linked w' r := by
  refine h.extend ⟨[obj], h'.memory.symm⟩ ?_ (fun start hs => ?_) ?_
  · exact fun start hs => by rw [h'.starts]; exact List.mem_append_left _ hs
  · rw [h'.starts, List.mem_append, List.mem_singleton] at hs
    cases hs with
    | inl hold => exact Or.inl hold
    | inr hnew => rw [hnew]; exact Or.inr (Nat.le_refl _)
  · rw [h'.out, List.length_append]
    exact Nat.le_add_right _ _

/-- What is linked stays linked when an object is recorded. -/
theorem Linked.recorded (h : Linked w r) (hnumbered : w.Numbered) {p c : ℕ} (hp : p < w.out.length)
    (htrace : ∀ e, e.isLink = true → (e ∈ r'.trace ↔ e ∈ r.trace ∨ e = .object p c))
    (hfresh : ∀ p', .object p' c ∉ r.trace) : Linked w r' where
  references i v hv := by
    have hold : Event.backReference i v ∈ r.trace := by
      cases (htrace _ rfl).mp hv with
      | inl hmem => exact hmem
      | inr heq => cases heq
    obtain ⟨obj, c', hnumber, hobject, hclone⟩ := h.references i v hold
    exact ⟨obj, c', hnumber, hobject,
      hclone.mono (fun _ hs => hs) fun p' hp' => (htrace _ rfl).mpr (Or.inl hp')⟩
  unique p1 p2 c' hp1 hp2 := by
    cases (htrace _ rfl).mp hp1 with
    | inl hold1 =>
      cases (htrace _ rfl).mp hp2 with
      | inl hold2 => exact h.unique p1 p2 c' hold1 hold2
      | inr hnew2 => cases hnew2; exact absurd hold1 (hfresh p1)
    | inr hnew1 =>
      cases hnew1
      cases (htrace _ rfl).mp hp2 with
      | inl hold2 => exact absurd hold2 (hfresh p2)
      | inr hnew2 => cases hnew2; rfl
  before p' c' hp' := by
    cases (htrace _ rfl).mp hp' with
    | inl hold => exact h.before p' c' hold
    | inr hnew => cases hnew; exact hp
  positions p' _ _ obj obj' := hnumbered.positions obj obj' p'

/-- What is linked stays linked when an object that has a number is referred to. -/
theorem Linked.referred {i : UInt32} (h : Linked w r) (hi : w.memory[i.toNat]? = some obj)
    (hclone : IsClone w r obj c)
    (htrace : ∀ e, e.isLink = true → (e ∈ r'.trace ↔ e ∈ r.trace ∨ e = .backReference i (.object c))) :
    Linked w r' := by
  have hobject : ∀ p c', Event.object p c' ∈ r'.trace → Event.object p c' ∈ r.trace := by
    intro p c' hp
    cases (htrace _ rfl).mp hp with
    | inl hmem => exact hmem
    | inr heq => cases heq
  have hclones : ∀ obj c, IsClone w r obj c → IsClone w r' obj c :=
    fun _ _ hclone => hclone.mono (fun _ hs => hs) fun _ hp => (htrace _ rfl).mpr (Or.inl hp)
  refine ⟨fun j v hv => ?_, ?_, ?_, ?_⟩
  · cases (htrace _ rfl).mp hv with
    | inl hmem =>
      obtain ⟨obj', c', hnumber, hval, hclone'⟩ := h.references j v hmem
      exact ⟨obj', c', hnumber, hval, hclones obj' c' hclone'⟩
    | inr heq =>
      cases heq
      exact ⟨obj, c, hi, rfl, hclones obj c hclone⟩
  · exact fun p p' c' hp hp' => h.unique p p' c' (hobject p c' hp) (hobject p' c' hp')
  · exact fun p c' hp => h.before p c' (hobject p c' hp)
  · exact fun p c' hp => h.positions p c' (hobject p c' hp)

namespace Numbers

/-- An object that is made is none that was recorded. -/
theorem not_recorded (h : Numbers pending w r) (hc : r.heap.length ≤ c) (p : ℕ) :
    .object p c ∉ r.trace :=
  fun hmem => absurd (h.fresh p c hmem) (Nat.not_lt.mpr hc)

/-- Words are written and read. -/
theorem outputs {words : List UInt64} (h : Numbers pending w r) (h' : Outputs w words w')
    (hlater : CloneReader.Later r r') (hallObjs : r'.allObjs = r.allObjs)
    (hheap : r.heap.length ≤ r'.heap.length) (hpoint : r'.point = r.point + words.length) :
    Numbers pending w' r' where
  writer := h.writer.outputs h'
  point := by rw [hpoint, h'.out, List.length_append, h.point]
  length := by rw [hallObjs, h'.memory, h.length]
  numbered i obj hi hpending := by
    rw [h'.memory] at hi
    obtain ⟨c, hc, hclone⟩ := h.numbered i obj hi hpending
    rw [hallObjs]
    exact ⟨c, hc, hclone.mono (fun start hs => by rw [h'.starts]; exact hs)
      fun p hp => (hlater _ rfl).mpr hp⟩
  fresh p c hp := Nat.lt_of_lt_of_le (h.fresh p c ((hlater _ rfl).mp hp)) hheap
  linked := (h.linked.later hlater).outputs h'

/-- An object is written for the first time, and read. -/
theorem object {words : List UInt64} (h : Numbers pending w r) (h' : Remembers w obj words w')
    (hwords : words ≠ []) (hallObjs : r'.allObjs = r.allObjs ++ [.object c])
    (htrace : ∀ e, e.isLink = true → (e ∈ r'.trace ↔ e ∈ r.trace ∨ e = .object r.point c))
    (hc : r.heap.length ≤ c) (hheap : c < r'.heap.length)
    (hpoint : r'.point = r.point + words.length) : Numbers pending w' r' := by
  have hstarts : ∀ start ∈ w.starts, start ∈ w'.starts := by
    intro start hs
    rw [h'.starts]
    exact List.mem_append_left _ hs
  have hold : ∀ p c', Event.object p c' ∈ r.trace → Event.object p c' ∈ r'.trace :=
    fun p c' hp => (htrace _ rfl).mpr (Or.inl hp)
  refine ⟨h.writer.remembers h' hwords, ?_, ?_, ?_, ?_, ?_⟩
  · rw [hpoint, h'.out, List.length_append, h.point]
  · rw [hallObjs, h'.memory, List.length_append, List.length_append, h.length]
    rfl
  · intro i obj' hi hpending
    rw [h'.memory] at hi
    rcases Nat.lt_or_ge i w.memory.length with hlt | hge
    · rw [List.getElem?_append_left hlt] at hi
      obtain ⟨c', hc', hclone⟩ := h.numbered i obj' hi hpending
      refine ⟨c', ?_, hclone.mono hstarts fun p hp => hold p c' hp⟩
      rw [hallObjs, List.getElem?_append_left (by rw [h.length]; exact hlt)]
      exact hc'
    · rw [List.getElem?_append_right hge, List.getElem?_singleton] at hi
      split at hi
      · rename_i hzero
        cases hi
        refine ⟨c, ?_, w.out.length, ?_, (htrace _ rfl).mpr (Or.inr ?_)⟩
        · rw [hallObjs, List.getElem?_append_right (by rw [h.length]; exact hge), h.length, hzero]
          rfl
        · rw [h'.starts]
          exact List.mem_append_right _ (List.mem_singleton_self _)
        · rw [h.point]
      · cases hi
  · intro p c' hp
    cases (htrace _ rfl).mp hp with
    | inl hmem => exact Nat.lt_trans (Nat.lt_of_lt_of_le (h.fresh p c' hmem) hc) hheap
    | inr heq => cases heq; exact hheap
  · refine (h.linked.remembers h').recorded (h.writer.remembers h' hwords) ?_ htrace (h.not_recorded hc)
    rw [h.point, h'.out, List.length_append]
    exact Nat.lt_add_of_pos_right (List.length_pos_iff.mpr hwords)

/-- A typed array is written for the first time, and a placeholder stands for it. -/
theorem pend {words : List UInt64} {v : Value} (h : Numbers none w r) (h' : Remembers w obj words w')
    (hwords : words ≠ []) (hlater : CloneReader.Later r r') (hallObjs : r'.allObjs = r.allObjs ++ [v])
    (hheap : r.heap.length ≤ r'.heap.length) (hpoint : r'.point = r.point + words.length) :
    Numbers (some obj) w' r' := by
  have hstarts : ∀ start ∈ w.starts, start ∈ w'.starts := by
    intro start hs
    rw [h'.starts]
    exact List.mem_append_left _ hs
  refine ⟨h.writer.remembers h' hwords, ?_, ?_, ?_, ?_, ?_⟩
  · rw [hpoint, h'.out, List.length_append, h.point]
  · rw [hallObjs, h'.memory, List.length_append, List.length_append, h.length]
    rfl
  · intro i obj' hi hpending
    rw [h'.memory] at hi
    rcases Nat.lt_or_ge i w.memory.length with hlt | hge
    · rw [List.getElem?_append_left hlt] at hi
      obtain ⟨c', hc', hclone⟩ := h.numbered i obj' hi (by rintro ⟨⟩)
      refine ⟨c', ?_, hclone.mono hstarts fun p hp => (hlater _ rfl).mpr hp⟩
      rw [hallObjs, List.getElem?_append_left (by rw [h.length]; exact hlt)]
      exact hc'
    · rw [List.getElem?_append_right hge, List.getElem?_singleton] at hi
      split at hi
      · cases hi
        exact absurd rfl hpending
      · cases hi
  · exact fun p c' hp => Nat.lt_of_lt_of_le (h.fresh p c' ((hlater _ rfl).mp hp)) hheap
  · exact (h.linked.later hlater).remembers h'

/-- A typed array is read. -/
theorem settle {words : List UInt64} {k p : ℕ} (h : Numbers (some obj) w r) (h' : Outputs w words w')
    (hk : w.memory[k]? = some obj) (hstart : (obj, p) ∈ w.starts)
    (hallObjs : r'.allObjs = r.allObjs.set k (.object c))
    (htrace : ∀ e, e.isLink = true → (e ∈ r'.trace ↔ e ∈ r.trace ∨ e = .object p c))
    (hc : r.heap.length ≤ c) (hheap : c < r'.heap.length)
    (hpoint : r'.point = r.point + words.length) : Numbers none w' r' := by
  have hstarts : ∀ start ∈ w.starts, start ∈ w'.starts := fun start hs => by rw [h'.starts]; exact hs
  have hklt : k < r.allObjs.length := by
    rw [h.length]
    exact (List.getElem?_eq_some_iff.mp hk).1
  refine ⟨h.writer.outputs h', ?_, ?_, ?_, ?_, ?_⟩
  · rw [hpoint, h'.out, List.length_append, h.point]
  · rw [hallObjs, h'.memory, List.length_set, h.length]
  · intro i obj' hi _
    rw [h'.memory] at hi
    by_cases hobj : obj = obj'
    · have hik : i = k := by
        apply (List.getElem?_inj (List.getElem?_eq_some_iff.mp hi).1 h.writer.nodup).mp
        rw [hi, hk, hobj]
      refine ⟨c, ?_, p, ?_, (htrace _ rfl).mpr (Or.inr rfl)⟩
      · rw [hallObjs, hik, List.getElem?_set_self hklt]
      · rw [← hobj]
        exact hstarts _ hstart
    · obtain ⟨c', hc', hclone⟩ := h.numbered i obj' hi fun heq => hobj (Option.some.inj heq)
      refine ⟨c', ?_, hclone.mono hstarts fun p hp => (htrace _ rfl).mpr (Or.inl hp)⟩
      have hik : k ≠ i := by
        intro heq
        rw [heq, hi] at hk
        exact hobj (Option.some.inj hk).symm
      rw [hallObjs, List.getElem?_set_ne hik]
      exact hc'
  · intro p' c' hp
    cases (htrace _ rfl).mp hp with
    | inl hmem => exact Nat.lt_trans (Nat.lt_of_lt_of_le (h.fresh p' c' hmem) hc) hheap
    | inr heq => cases heq; exact hheap
  · refine (h.linked.outputs h').recorded (h.writer.outputs h') ?_ htrace (h.not_recorded hc)
    rw [h'.out, List.length_append]
    exact Nat.lt_add_right _ (h.writer.starts obj p hstart).2

/-- A reference is written and read. -/
theorem reference {words : List UInt64} {i : UInt32} {v : Value} (h : Numbers pending w r)
    (h' : Outputs w words w') (hi : w.memory[i.toNat]? = some obj) (hpending : pending ≠ some obj)
    (hv : r.allObjs[i.toNat]? = some v) (hallObjs : r'.allObjs = r.allObjs)
    (htrace : ∀ e, e.isLink = true → (e ∈ r'.trace ↔ e ∈ r.trace ∨ e = .backReference i v))
    (hheap : r'.heap = r.heap) (hpoint : r'.point = r.point + words.length) :
    Numbers pending w' r' := by
  have hstarts : ∀ start ∈ w.starts, start ∈ w'.starts := fun start hs => by rw [h'.starts]; exact hs
  have hobject : ∀ p c', Event.object p c' ∈ r'.trace → Event.object p c' ∈ r.trace := by
    intro p c' hp
    cases (htrace _ rfl).mp hp with
    | inl hmem => exact hmem
    | inr heq => cases heq
  refine ⟨h.writer.outputs h', ?_, ?_, ?_, ?_, ?_⟩
  · rw [hpoint, h'.out, List.length_append, h.point]
  · rw [hallObjs, h'.memory, h.length]
  · intro j obj' hj hpending'
    rw [h'.memory] at hj
    obtain ⟨c', hc', hclone⟩ := h.numbered j obj' hj hpending'
    rw [hallObjs]
    exact ⟨c', hc', hclone.mono hstarts fun _ hp => (htrace _ rfl).mpr (Or.inl hp)⟩
  · intro p c' hp
    rw [hheap]
    exact h.fresh p c' (hobject p c' hp)
  · obtain ⟨c, hc, hclone⟩ := h.numbered _ obj hi hpending
    have hvc : v = .object c := Option.some.inj (hv.symm.trans hc)
    rw [hvc] at htrace
    refine (h.linked.outputs h').referred (by rw [h'.memory]; exact hi) ?_ htrace
    exact hclone.mono hstarts fun _ hp => hp

end Numbers

end steps

end SpiderMonkey.Vm.StructuredClone
