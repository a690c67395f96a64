import SpiderMonkey.Vm.StructuredCloneCopies

/-!
# Values that were written and read

What the writer starts to write for a value, and what the reader starts to read there. Numbers agree
before and after, and what is read is a copy.
-/

namespace SpiderMonkey.Vm.StructuredClone

/-- The words of a value that is no object. -/
def valueWords : Value → List UInt64
  | .undefined => [pairToUInt64 sctagUndefined 0]
  | .null => [pairToUInt64 sctagNull 0]
  | .boolean b => [pairToUInt64 sctagBoolean (if b then 1 else 0)]
  | .number d => [canonicalizeNaN d]
  | .string chars => CloneWriter.stringWords sctagString chars
  | .object _ => []

/-- A value when its objects are replaced by others. -/
def Value.image (f : ℕ → ℕ) : Value → Value
  | .number d => .number (canonicalizeNaN d)
  | .object obj => .object (f obj)
  | v => v

/-- The frame of an object that was started, if it has properties. -/
def frameOf (obj : ℕ) : Obj → Frames
  | .plain _ props => [(obj, props)]
  | _ => []

/-- The frame of an object is its own. -/
theorem fst_of_mem_frameOf {obj : ℕ} {o : Obj} {frame : ℕ × List (PropertyId × Value)}
    (h : frame ∈ frameOf obj o) : frame.1 = obj := by
  cases o with
  | plain isArray props =>
    rw [frameOf, List.mem_singleton] at h
    rw [h]
  | _ => cases h

/-- An object has a frame if it has properties. -/
theorem map_frameOf {A : Type} (obj : ℕ) (o : Obj) (a : A) (l : List A) :
    (frameOf obj o).map (fun _ => a) ++ l = if isPlain o then a :: l else l := by
  cases o with
  | _ => rfl

/-- An object that was started is a copy, with all properties left. -/
theorem copiedObj_startedObj {w : WriterState} {r : ReaderState} {o : Obj} (obj : ℕ) (frames : Frames)
    (hno : NoTypedArray o) : CopiedObj w r (leftOf (frameOf obj o ++ frames) obj) o (startedObj o) := by
  cases o with
  | plain isArray props =>
    have hleft : leftOf (frameOf obj (.plain isArray props) ++ frames) obj = props := if_pos rfl
    rw [hleft]
    have hdone : List.Forall₂ (CopiedProperty w r) [] [] := .nil
    exact .plain hdone
  | typedArray type buffer byteOffset length => exact absurd hno id
  | _ => exact .leaf rfl

namespace CloneWriter

variable {env : WriteEnvironment} {heap : ℕ → Obj} {w w' : WriterState} {obj : ℕ}

/-- A value that is no object is written. -/
theorem writes_startWrite {n : ℕ} {v : Value} (hv : v.isObject = false)
    (h : startWrite env heap n v w = (some (), w')) : Writes w (valueWords v) w' := by
  cases n with
  | zero => cases h
  | succ n =>
    cases v with
    | undefined => exact writes_writePair h
    | null => exact writes_writePair h
    | boolean b => exact writes_writePair h
    | number d => exact writes_write h
    | string chars => exact writes_writeString h
    | object obj => cases hv

/-- An object that was given a number. -/
theorem addToMemory_some (h : addToMemory env obj w = (some (), w')) :
    w.memory.length < maxMemory ∧ ∃ ticks, w' = { w with
      ticks
      memory := w.memory ++ [obj]
      starts := w.starts ++ [(obj, w.out.length)] } := by
  obtain ⟨s, w1, h1, h2⟩ := bind_some h
  cases h1
  by_cases hroom : w.memory.length ≥ maxMemory
  · rw [if_pos hroom] at h2
    cases h2
  · rw [if_neg hroom] at h2
    obtain ⟨_, w2, h2, h3⟩ := bind_some h2
    rw [external_some h2] at h3
    cases h3
    exact ⟨Nat.lt_of_not_le hroom, w.ticks + 1, rfl⟩

/-- An object that was met before is written as a reference, and any other gets a number. -/
theorem startObject_some {backref : Bool} (h : startObject env obj w = (some backref, w')) :
    (backref = true ∧ ∃ i : ℕ, w.memory[i]? = some obj ∧
      Writes w [pairToUInt64 sctagBackReferenceObject (UInt32.ofNat i)] w') ∨
    (backref = false ∧ obj ∉ w.memory ∧ w.memory.length < maxMemory ∧ ∃ ticks, w' = { w with
      ticks
      memory := w.memory ++ [obj]
      starts := w.starts ++ [(obj, w.out.length)] }) := by
  obtain ⟨s, w1, h1, h2⟩ := bind_some h
  cases h1
  cases hi : w.memory.idxOf? obj with
  | some i =>
    rw [hi] at h2
    obtain ⟨_, w1, h1, h3⟩ := bind_some h2
    cases h3
    refine Or.inl ⟨rfl, i, ?_, writes_writePair h1⟩
    rw [List.idxOf?_eq_some_iff] at hi
    obtain ⟨hlt, heq, _⟩ := hi
    rw [List.getElem?_eq_getElem hlt, heq]
  | none =>
    rw [hi] at h2
    obtain ⟨_, w1, h1, h3⟩ := bind_some h2
    obtain ⟨hroom, hw1⟩ := addToMemory_some h1
    split at h3
    · cases h3
    · cases h3
      exact Or.inr ⟨rfl, List.idxOf?_eq_none_iff.mp hi, hroom, hw1⟩

/-- The stacks stay when words are written. -/
theorem Writes.stacked {frames : Frames} {words : List UInt64} (h : Writes w words w')
    (hstacked : Stacked heap frames w) : Stacked heap frames w' := by
  obtain ⟨ticks, rfl⟩ := h
  exact ⟨hstacked.objs, hstacked.counts, hstacked.ids, hstacked.left, hstacked.distinct, hstacked.met⟩

/-- An object other than a typed array is written when it got its number. -/
theorem remembers_writeObject {frames : Frames} {sw : Value → CloneWriter Unit} {ticks : ℕ}
    (hno : NoTypedArray (heap obj)) (hstacked : Stacked heap frames w) (hnew : obj ∉ w.memory)
    (hroom : w.memory.length < maxMemory)
    (h : writeObject env heap sw obj { w with
      ticks
      memory := w.memory ++ [obj]
      starts := w.starts ++ [(obj, w.out.length)] } = (some (), w')) :
    Remembers w obj (objectWords (heap obj)) w' ∧
      Stacked heap (frameOf obj (heap obj) ++ frames) w' := by
  have hmet : ∀ frame ∈ frames, frame.1 ∈ w.memory ++ [obj] :=
    fun frame hframe => List.mem_append_left _ (hstacked.met frame hframe)
  by_cases hplain : isPlain (heap obj) = false
  · have hwrites := writes_writeObject hplain hno h
    have hframe : frameOf obj (heap obj) = [] := by
      cases ho : heap obj with
      | plain isArray props => rw [ho] at hplain; cases hplain
      | _ => rfl
    rw [hframe]
    obtain ⟨ticks', rfl⟩ := hwrites
    exact ⟨⟨rfl, rfl, rfl, hroom, hnew⟩, hstacked.objs, hstacked.counts, hstacked.ids, hstacked.left,
      hstacked.distinct, hmet⟩
  · unfold writeObject at h
    cases ho : heap obj with
    | plain isArray props =>
      rw [ho] at h
      obtain ⟨_, w1, h1, h2⟩ := bind_some h
      obtain ⟨_, w2, h2, h3⟩ := bind_some h2
      obtain ⟨_, w3, h3, h4⟩ := bind_some h3
      obtain ⟨_, w4, h4, h5⟩ := bind_some h4
      rw [external_some h1] at h2
      cases h2
      rw [external_some h3] at h4
      cases h4
      obtain ⟨ticks', rfl⟩ := writes_writePair h5
      refine ⟨⟨rfl, rfl, ?_, hroom, hnew⟩, ?_, ?_, ?_, ?_, ?_, ?_⟩
      · cases isArray with
        | true => rfl
        | false => rfl
      · exact congrArg (obj :: ·) hstacked.objs
      · exact congrArg (props.length :: ·) hstacked.counts
      · exact congrArg (props.map Prod.fst ++ ·) hstacked.ids
      · intro frame hframe
        cases List.mem_cons.mp hframe with
        | inl heq => rw [heq]; exact ⟨isArray, [], ho⟩
        | inr hmem => exact hstacked.left frame hmem
      · refine List.nodup_cons.mpr ⟨fun hmem => ?_, hstacked.distinct⟩
        obtain ⟨frame, hframe, heq⟩ := List.mem_map.mp hmem
        have hobj : frame.1 = obj := heq
        exact hnew (hobj ▸ hstacked.met frame hframe)
      · intro frame hframe
        cases List.mem_cons.mp hframe with
        | inl heq => rw [heq]; exact List.mem_append_right _ (List.mem_singleton_self obj)
        | inr hmem => exact hmet frame hmem
    | _ => rw [ho] at hplain; exact absurd rfl hplain

end CloneWriter

namespace CloneReader

variable {env : Environment} {r r' : ReaderState} {may : Prop} {good : ReaderState → Prop}
  {rest : List UInt64} {n : ℕ}

/-- A value is read whose tag is none of a typed array or a reference. -/
theorem follows_startRead {tag data : UInt32} {words : List UInt64} {Q : Value → ReaderState → Prop}
    (hr : At r (pairToUInt64 tag data :: words)) (hreference : tag ≠ sctagBackReferenceObject)
    (htyped : tag ≠ sctagTypedArrayObject)
    (hv1 : ¬ (sctagTypedArrayV1Min ≤ tag ∧ tag ≤ sctagTypedArrayV1Max))
    (hQ : ∀ r1, Onward r r1 → At r1 words → r1.point = r.point + 1 →
      Follows may good (readValue env (startRead env n) tag data) r1 fun v r2 =>
        Follows may good (appendIfObject env r.point v) r2 Q) :
    Follows may good (startRead env (n + 1)) r Q := by
  have htell : Follows may good tell r fun p r1 => p = r.point ∧ r1 = r := .of_ok rfl ⟨rfl, rfl⟩
  refine htell.bind fun p r1 hQ1 => ?_
  obtain ⟨rfl, rfl⟩ := hQ1
  refine (follows_readPair hr).bind fun p r2 hQ2 => ?_
  obtain ⟨rfl, honward, hat, hpoint⟩ := hQ2
  refine .ite_neg hreference (.ite_neg htyped (.ite_neg hv1 ?_))
  exact (hQ r2 honward hat hpoint).bind fun v r3 hQ3 => hQ3

variable (hmay : MayFail env may good)

include hmay

/-- An object is appended to all objects. -/
theorem follows_appendIfObject {p c : ℕ} (hgood : good r) :
    Follows may good (appendIfObject env p (.object c)) r fun v r' =>
      v = .object c ∧ r'.allObjs = r.allObjs ++ [.object c] ∧
        (∀ e, e.isLink = true → (e ∈ r'.trace ↔ e ∈ r.trace ∨ e = .object p c)) ∧
        r'.heap = r.heap ∧ r'.objs = r.objs ∧ r'.words = r.words ∧ r'.point = r.point := by
  have happend : Follows may good (appendObject env (.object c)) r fun _ r1 =>
      Later r r1 ∧ r1.allObjs = r.allObjs ++ [.object c] ∧ r1.heap = r.heap ∧ r1.objs = r.objs ∧
        r1.words = r.words ∧ r1.point = r.point := by
    refine (follows_external hmay hgood).bind fun _ r1 hQ1 => .of_ok rfl ?_
    exact ⟨hQ1.1.later.trans (.of_same rfl), congrArg (· ++ [Value.object c]) hQ1.1.allObjs, hQ1.1.heap,
      hQ1.1.objs, hQ1.2⟩
  refine happend.bind fun _ r1 hQ1 => ?_
  obtain ⟨hlater, hallObjs, hsame⟩ := hQ1
  have hrecord : Follows may good (record (.object p c)) r1 fun _ r2 =>
      r2 = { r1 with trace := r1.trace ++ [.object p c] } := .of_ok rfl rfl
  refine hrecord.bind fun _ r2 hQ2 => .pure ⟨rfl, ?_, ?_, ?_⟩
  · rw [hQ2]
    exact hallObjs
  · intro e he
    rw [hQ2, List.mem_append, List.mem_singleton, hlater e he]
  · rw [hQ2]
    exact hsame

/-- A value that is no object is read. -/
theorem follows_startRead_primitive {v : Value} (hv : v.isObject = false) (hvalid : v.Valid)
    (hr : At r (valueWords v ++ rest)) (hgood : good r) :
    Follows may good (startRead env (n + 1)) r fun v' r' =>
      v' = v.image id ∧ Onward r r' ∧ At r' rest ∧ r'.point = r.point + (valueWords v).length := by
  have hone : ∀ b : Bool, decide ((if b then 1 else 0 : UInt32) ≠ 0) = b := by decide
  cases v with
  | undefined =>
    refine follows_startRead hr (by decide) (by decide) (by decide) fun r1 honward hat hpoint => ?_
    unfold readValue
    exact .ite_neg (by decide) (.ite_pos rfl (.pure (.pure ⟨rfl, honward, hat, hpoint⟩)))
  | null =>
    refine follows_startRead hr (by decide) (by decide) (by decide) fun r1 honward hat hpoint => ?_
    unfold readValue
    exact .ite_pos rfl (.pure (.pure ⟨rfl, honward, hat, hpoint⟩))
  | boolean b =>
    refine follows_startRead hr (by decide) (by decide) (by decide) fun r1 honward hat hpoint => ?_
    unfold readValue
    refine .ite_neg (by decide) (.ite_neg (by decide) (.ite_pos rfl (.pure (.pure ?_))))
    exact ⟨by rw [hone b]; rfl, honward, hat, hpoint⟩
  | number d =>
    have htag := tagOf_canonicalizeNaN_le d
    have hword := pairToUInt64_tagOf_dataOf (canonicalizeNaN d)
    change At r (canonicalizeNaN d :: rest) at hr
    rw [← hword] at hr
    refine follows_startRead hr (ne_of_le_floatMax htag (by decide)) (ne_of_le_floatMax htag (by decide))
      ?_ fun r1 honward hat hpoint => ?_
    · exact fun hv1 => absurd (UInt32.le_trans hv1.1 htag) (by decide)
    unfold readValue
    iterate 14 refine .ite_neg (ne_of_le_floatMax htag (by decide)) ?_
    refine .ite_pos htag ?_
    change Follows may good (if ¬ checkDouble (pairToUInt64 _ _) then _ else _) r1 _
    rw [hword]
    refine .ite_neg (not_not.mpr (checkDouble_canonicalizeNaN d)) ?_
    exact .pure (.pure ⟨rfl, honward, hat, hpoint⟩)
  | string chars =>
    refine follows_startRead hr (by decide) (by decide) (by decide) fun r1 honward hat hpoint => ?_
    unfold readValue
    iterate 4 refine .ite_neg (by decide) ?_
    refine .ite_pos rfl ?_
    refine (follows_readString hmay hat hvalid (hmay.steady r r1 honward.later hgood)).bind
      fun a r2 hQ2 => .pure (.pure ?_)
    obtain ⟨rfl, honward2, hat2, hpoint2⟩ := hQ2
    refine ⟨rfl, honward.trans honward2, hat2, ?_⟩
    rw [hpoint2, hpoint, valueWords, CloneWriter.stringWords, List.length_cons]
    omega
  | object obj => cases hv

end CloneReader

end SpiderMonkey.Vm.StructuredClone
