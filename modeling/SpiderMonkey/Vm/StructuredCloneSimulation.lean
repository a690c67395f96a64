import SpiderMonkey.Vm.StructuredCloneStart

/-!
# Reading what was written, step by step

The reader follows the writer from value to value and from property to property. It may fail only in
runs that are not exact: where the engine fails, or where the end of an object was not written.
-/

namespace SpiderMonkey.Vm.StructuredClone

open CloneReader

/-- No callback writes a typed array for an object. -/
def WritesNoTypedArray (o : Obj) : Prop :=
  ∀ tag data items, o = .host tag data items → ∀ obj, .typedArray obj ∉ items

/-- What the simulation relies on: objects are valid, callbacks write no typed arrays and read what was
written, and in exact runs the engine does not fail. -/
structure Setting (heap : ℕ → Obj) (renv : Environment) (final : WriterState) (exact : Prop) : Prop where
  valid : ∀ obj, ValidObj heap (heap obj)
  items : ∀ obj p, (obj, p) ∈ final.starts → WritesNoTypedArray (heap obj)
  reads : ∀ obj p, (obj, p) ∈ final.starts → HostReads renv (heap obj) (p + 1)
  succeeds : exact → Succeeds renv

/-- The writer and the reader at the same position. Some properties may have been written but not
copied, and the reader's stack may have more objects. -/
structure Related (heap : ℕ → Obj) (exact : Prop) (pending : Option ℕ) (lag : ℕ) (frames copied : Frames)
    (w : WriterState) (r : ReaderState) : Prop where
  numbers : Numbers pending w r
  stacked : Stacked heap frames w
  copies : exact → Copies heap copied w r
  lag : r.objs.length = w.objs.length + lag

/-- What was written is read: a copy, with a frame for an object that was started. -/
structure ReadAs (heap : ℕ → Obj) (exact : Prop) (pending : Option ℕ) (lag : ℕ) (frames copied : Frames)
    (w w' : WriterState) (r : ReaderState) (rest : List UInt64) (v v' : Value) (r' : ReaderState)
    (pushed : Frames) : Prop where
  left : At r' rest
  related : Related heap exact pending lag (pushed ++ frames) (pushed ++ copied) w' r'
  copy : CopyOf w' r' v v'
  allObjs : r.allObjs <+: r'.allObjs
  pushed : ∀ frame ∈ pushed, frame.1 ∉ w.memory

/-- What is written for a value, and that the reader makes a copy of it. -/
def Simulates (heap : ℕ → Obj) (renv : Environment) (final : WriterState) (exact : Prop) (m : ℕ)
    (w w' : WriterState) (v : Value) (pending : Option ℕ) (frames : Frames) : Prop :=
  ∃ u words, w'.out = w.out ++ u :: words ∧ tagOf u ≠ sctagTransferMapHeader ∧
    ∀ lag copied r rest, Related heap exact pending lag frames copied w r → At r (u :: words ++ rest) →
      Follows (¬ exact) (Linked final) (startRead renv m) r fun v' r' =>
        ∃ pushed, ReadAs heap exact pending lag frames copied w w' r rest v v' r' pushed

/-- A tag that is none of a typed array, a reference, or a transfer map. -/
def OwnTag (tag : UInt32) : Prop :=
  tag ≠ sctagBackReferenceObject ∧ tag ≠ sctagTypedArrayObject ∧
    ¬ (sctagTypedArrayV1Min ≤ tag ∧ tag ≤ sctagTypedArrayV1Max) ∧ tag ≠ sctagTransferMapHeader

instance (tag : UInt32) : Decidable (OwnTag tag) := inferInstanceAs (Decidable (_ ∧ _))

section values

variable {env : WriteEnvironment} {heap : ℕ → Obj} {renv : Environment} {final : WriterState}
  {exact : Prop} {w w' : WriterState} {r r' : ReaderState} {pending : Option ℕ} {lag : ℕ}
  {frames copied : Frames} {rest : List UInt64}

/-- How the reader may fail. -/
theorem Setting.mayFail (h : Setting heap renv final exact) :
    MayFail renv (¬ exact) (Linked final) :=
  ⟨fun hfails hexact => hfails (h.succeeds hexact), fun _ _ hlater hlinked => hlinked.later hlater⟩

/-- No object but a typed array writes one. -/
theorem Setting.noTypedArray (h : Setting heap renv final exact) {obj p : ℕ}
    (hstart : (obj, p) ∈ final.starts)
    (htyped : ∀ type buffer byteOffset length, heap obj ≠ .typedArray type buffer byteOffset length) :
    NoTypedArray (heap obj) := by
  cases ho : heap obj with
  | typedArray type buffer byteOffset length => exact absurd ho (htyped type buffer byteOffset length)
  | host tag data items => exact h.items obj p hstart tag data items ho
  | _ => trivial

/-- Words are written and read without any object. -/
theorem Related.outputs {words : List UInt64} (h : Related heap exact pending lag frames copied w r)
    (h' : CloneWriter.Writes w words w') (honward : Onward r r')
    (hpoint : r'.point = r.point + words.length) :
    Related heap exact pending lag frames copied w' r' where
  numbers := h.numbers.outputs h'.outputs honward.later honward.allObjs (by rw [honward.heap]) hpoint
  stacked := h'.stacked h.stacked
  copies hexact := (h.copies hexact).outputs h'.outputs honward.objs honward.allObjs honward.heap
  lag := by
    obtain ⟨ticks, rfl⟩ := h'
    rw [honward.objs]
    exact h.lag

/-- The tag of an object other than a typed array. -/
theorem ownTag_objectTag {o : Obj} (hvalid : ValidObj heap o) (hno : NoTypedArray o) :
    OwnTag (objectTag o) := by
  cases o with
  | plain isArray props =>
    cases isArray with
    | true => exact (by decide : OwnTag sctagArrayObject)
    | false => exact (by decide : OwnTag sctagObjectObject)
  | booleanObject b => exact (by decide : OwnTag sctagBooleanObject)
  | numberObject d => exact (by decide : OwnTag sctagNumberObject)
  | stringObject chars => exact (by decide : OwnTag sctagStringObject)
  | date d => exact (by decide : OwnTag sctagDateObject)
  | regexp flags source => exact (by decide : OwnTag sctagRegexpObject)
  | arrayBuffer bytes => exact (by decide : OwnTag sctagArrayBufferObject)
  | typedArray type buffer byteOffset length => exact absurd hno id
  | host tag data items =>
    refine ⟨ne_of_userMin_le hvalid.1 (by decide), ne_of_userMin_le hvalid.1 (by decide), ?_,
      ne_of_userMin_le hvalid.1 (by decide)⟩
    exact fun hv1 => absurd (UInt32.le_trans hvalid.1 hv1.2) (by decide)

/-- What is written for a value that is no object, and read. -/
theorem simulates_primitive (hs : Setting heap renv final exact) {n m : ℕ} {v : Value}
    (hv : v.isObject = false) (hvalid : v.Valid) (hgrows : w'.Grows final)
    (h : CloneWriter.startWrite env heap n v w = (some (), w')) :
    Simulates heap renv final exact (m + 1) w w' v pending frames := by
  have hwrites := CloneWriter.writes_startWrite hv h
  have hgrows' : w.Grows final := (CloneWriter.Adds.startWrite CloneWriter.growth_grows n v w).trans (by rw [h]; exact hgrows)
  have hcons : ∃ u words, valueWords v = u :: words ∧ tagOf u ≠ sctagTransferMapHeader := by
    cases v with
    | undefined => exact ⟨_, _, rfl, by decide⟩
    | null => exact ⟨_, _, rfl, by decide⟩
    | boolean b => exact ⟨_, _, rfl, by rw [tagOf_pairToUInt64]; decide⟩
    | number d => exact ⟨_, _, rfl, ne_of_le_floatMax (tagOf_canonicalizeNaN_le d) (by decide)⟩
    | string chars => exact ⟨_, _, rfl, by rw [tagOf_pairToUInt64]; decide⟩
    | object obj => cases hv
  obtain ⟨u, words, hwords, htag⟩ := hcons
  rw [hwords] at hwrites
  refine ⟨u, words, hwrites.outputs.out, htag, fun lag copied r rest hrelated hr => ?_⟩
  rw [← hwords] at hr
  have hgood : Linked final r := hrelated.numbers.linked.grow hgrows'
  refine (follows_startRead_primitive hs.mayFail hv hvalid hr hgood).mono fun v' r' hQ => ⟨[], ?_⟩
  obtain ⟨rfl, honward, hat, hpoint⟩ := hQ
  rw [hwords] at hpoint
  refine ⟨hat, hrelated.outputs hwrites honward hpoint, ?_, ?_, ?_⟩
  · cases v with
    | undefined => exact .undefined
    | null => exact .null
    | boolean b => exact .boolean b
    | number d => exact .number d
    | string chars => exact .string chars
    | object obj => cases hv
  · exact prefix_of_eq honward.allObjs
  · exact fun frame hframe => absurd hframe List.not_mem_nil

/-- A reference is read. -/
theorem follows_readBackReference {may : Prop} {good : ReaderState → Prop} {i : UInt32} {v : Value}
    (hv : r.allObjs[i.toNat]? = some v) :
    Follows may good (readBackReference i) r fun a r' =>
      a = v ∧ r' = { r with trace := r.trace ++ [.backReference i v] } := by
  have hrun : readBackReference i r =
      (.ok v, { r with trace := r.trace ++ [.backReference i v] }) := by
    unfold readBackReference
    rw [hv]
  exact .of_ok hrun ⟨rfl, rfl⟩

/-- What is written for an object that was met before, and read. -/
theorem simulates_reference {m i obj : ℕ} (hi : w.memory[i]? = some obj) (hpending : pending ≠ some obj)
    (hwrites : CloneWriter.Writes w [pairToUInt64 sctagBackReferenceObject (UInt32.ofNat i)] w') :
    Simulates heap renv final exact (m + 1) w w' (.object obj) pending frames := by
  refine ⟨_, [], hwrites.outputs.out, by rw [tagOf_pairToUInt64]; decide,
    fun lag copied r rest hrelated hr => ?_⟩
  have hlt : i < 2 ^ 32 := by
    have hlength := (List.getElem?_eq_some_iff.mp hi).1
    have hbound := hrelated.numbers.writer.bound
    have hmax : maxMemory < 2 ^ 32 := by decide
    omega
  have hnat : (UInt32.ofNat i).toNat = i := UInt32.toNat_ofNat_of_lt' hlt
  obtain ⟨c, hc, hclone⟩ := hrelated.numbers.numbered i obj hi hpending
  have htell : Follows (¬ exact) (Linked final) tell r fun p r1 => p = r.point ∧ r1 = r :=
    .of_ok rfl ⟨rfl, rfl⟩
  refine htell.bind fun p r1 hQ1 => ?_
  obtain ⟨rfl, rfl⟩ := hQ1
  refine (follows_readPair hr).bind fun p r2 hQ2 => ?_
  obtain ⟨rfl, honward, hat, hpoint⟩ := hQ2
  refine .ite_pos rfl ?_
  have hv : r2.allObjs[(UInt32.ofNat i).toNat]? = some (.object c) := by
    rw [hnat, honward.allObjs]
    exact hc
  refine (follows_readBackReference hv).mono fun v' r' hQ => ⟨[], ?_⟩
  obtain ⟨rfl, rfl⟩ := hQ
  have hclone' : CloneOf w' { r2 with trace := r2.trace ++ [.backReference (UInt32.ofNat i) (.object c)] }
      obj c := ⟨i, by rw [hwrites.outputs.memory]; exact hi, by rw [← hnat]; exact hv⟩
  refine ⟨hat, ⟨?_, hwrites.stacked hrelated.stacked, ?_, ?_⟩, .object hclone', ?_, ?_⟩
  · have hi' : w.memory[(UInt32.ofNat i).toNat]? = some obj := by rw [hnat]; exact hi
    refine hrelated.numbers.reference hwrites.outputs hi' hpending
      (by rw [hnat]; exact hc) honward.allObjs (fun e he => ?_) honward.heap hpoint
    rw [List.mem_append, List.mem_singleton, honward.later e he]
  · exact fun hexact => (hrelated.copies hexact).outputs hwrites.outputs honward.objs honward.allObjs
      honward.heap
  · obtain ⟨ticks, rfl⟩ := hwrites
    exact (congrArg List.length honward.objs).trans hrelated.lag
  · change r1.allObjs <+: r2.allObjs
    exact prefix_of_eq honward.allObjs
  · exact fun frame hframe => absurd hframe List.not_mem_nil

/-- What is written for an object other than a typed array that is met for the first time, and read. -/
theorem simulates_object (hs : Setting heap renv final exact) {sw : Value → CloneWriter Unit}
    {m obj ticks : ℕ} (hno : NoTypedArray (heap obj)) (hstacked : Stacked heap frames w)
    (hnew : obj ∉ w.memory) (hroom : w.memory.length < maxMemory) (hgrows : w'.Grows final)
    (hgrows' : w.Grows final)
    (h : CloneWriter.writeObject env heap sw obj { w with
      ticks
      memory := w.memory ++ [obj]
      starts := w.starts ++ [(obj, w.out.length)] } = (some (), w')) :
    Simulates heap renv final exact (m + 1) w w' (.object obj) pending frames := by
  obtain ⟨hremembers, hstacked'⟩ := CloneWriter.remembers_writeObject hno hstacked hnew hroom h
  have hvalid := hs.valid obj
  have htag := ownTag_objectTag hvalid hno
  refine ⟨_, _, hremembers.out, by rw [tagOf_pairToUInt64]; exact htag.2.2.2,
    fun lag copied r rest hrelated hr => ?_⟩
  have hgood : Linked final r := hrelated.numbers.linked.grow hgrows'
  refine follows_startRead hr htag.1 htag.2.1 htag.2.2.1 fun r1 honward hat hpoint => ?_
  have hhost : HostReads renv (heap obj) r1.point := by
    have hstart : (obj, w.out.length) ∈ w'.starts := by
      rw [hremembers.starts]
      exact List.mem_append_right _ (List.mem_singleton_self _)
    rw [hpoint, hrelated.numbers.point]
    exact hs.reads obj w.out.length (hgrows.starts _ hstart)
  have hgood1 : Linked final r1 := hgood.later honward.later
  refine (follows_readValue hs.mayFail hvalid hno hhost hat hgood1).mono fun v r2 hQ2 => ?_
  obtain ⟨rfl, hgrown, hat2, hpoint2⟩ := hQ2
  rw [honward.heap, honward.objs] at hgrown
  rw [honward.heap]
  have hgrown' := Grown.of_onward honward hgrown
  have hgood2 : Linked final r2 := hgood.later hgrown'.later
  refine (follows_appendIfObject hs.mayFail hgood2).mono fun v' r3 hQ3 => ?_
  obtain ⟨rfl, hallObjs, htrace, hheap, hobjs, hwords, hpoint3⟩ := hQ3
  rw [hgrown'.allObjs] at hallObjs
  rw [hgrown'.heap] at hheap
  rw [hgrown'.objs] at hobjs
  have hclones : ∀ obj' c', CloneOf w' r3 obj' c' ↔ CloneOf w r obj' c' ∨
      obj' = obj ∧ c' = r.heap.length := by
    intro obj' c'
    rw [cloneOf_append hrelated.numbers.length hremembers.memory hallObjs]
    refine or_congr Iff.rfl (and_congr Iff.rfl ⟨fun heq => ?_, fun heq => by rw [heq]⟩)
    cases heq
    rfl
  have hnone : ∀ c', ¬ CloneOf w r obj c' := by
    rintro c' ⟨i, hi, _⟩
    exact hnew (List.mem_of_getElem? hi)
  refine ⟨frameOf obj (heap obj), ?_, ⟨?_, hstacked', ?_, ?_⟩, .object ((hclones _ _).mpr (Or.inr ⟨rfl, rfl⟩)),
    ?_, ?_⟩
  · rw [At, hwords, hpoint3]
    exact hat2
  · refine hrelated.numbers.object hremembers (List.cons_ne_nil _ _) hallObjs (fun e he => ?_)
      (Nat.le_refl _) ?_ ?_
    · rw [htrace e he, hgrown'.later e he]
    · rw [hheap, List.length_append]
      exact Nat.lt_succ_self _
    · rw [hpoint3, hpoint2, hpoint, objectWords, List.length_cons]
      omega
  · intro hexact
    refine (hrelated.copies hexact).extend hclones rfl ?_ hheap (fun _ => fst_of_mem_frameOf) hnone
      (copiedObj_startedObj obj copied hno)
    rw [hobjs, map_frameOf]
  · have hlag := hrelated.lag
    rw [hrelated.stacked.objs, List.length_map] at hlag
    rw [hobjs, hstacked'.objs, List.map_append, List.length_append, List.length_map, List.length_map,
      ← map_frameOf obj (heap obj), List.length_append, List.length_map, hlag, Nat.add_assoc]
  · rw [hallObjs]
    exact List.prefix_append _ _
  · exact fun frame hframe => by rw [fst_of_mem_frameOf hframe]; exact hnew

/-- What is written for an object other than a typed array, and read. -/
theorem simulates_untyped (hs : Setting heap renv final exact) {n m obj : ℕ}
    (htyped : ∀ type buffer byteOffset length, heap obj ≠ .typedArray type buffer byteOffset length)
    (hpending : pending ≠ some obj) (hstacked : Stacked heap frames w)
    (hgrows : w'.Grows final) (h : CloneWriter.startWrite env heap n (.object obj) w = (some (), w')) :
    Simulates heap renv final exact (m + 1) w w' (.object obj) pending frames := by
  cases n with
  | zero => cases h
  | succ n =>
    have hgrows' : w.Grows final :=
      (CloneWriter.Adds.startWrite CloneWriter.growth_grows (n + 1) (.object obj) w).trans (by rw [h]; exact hgrows)
    obtain ⟨backref, w1, h1, h2⟩ := CloneWriter.bind_some h
    cases CloneWriter.startObject_some h1 with
    | inl hreference =>
      obtain ⟨rfl, i, hi, hwrites⟩ := hreference
      cases h2
      exact simulates_reference hi hpending hwrites
    | inr hobject =>
      obtain ⟨rfl, hnew, hroom, ticks, hw1⟩ := hobject
      have hstart : (obj, w.out.length) ∈ final.starts := by
        have hadds : w1.Grows (CloneWriter.writeObject env heap (CloneWriter.startWrite env heap n) obj w1).2 :=
          CloneWriter.Adds.writeObject CloneWriter.growth_grows
            (CloneWriter.Adds.startWrite CloneWriter.growth_grows n) obj w1
        change CloneWriter.writeObject env heap (CloneWriter.startWrite env heap n) obj w1 = _ at h2
        rw [h2] at hadds
        refine hgrows.starts _ (hadds.starts _ ?_)
        rw [hw1]
        exact List.mem_append_right _ (List.mem_singleton_self _)
      rw [hw1] at h2
      exact simulates_object hs (hs.noTypedArray hstart htyped) hstacked hnew hroom hgrows hgrows' h2

/-- A typed array is made, if the buffer is one that it fits. -/
theorem follows_newTypedArray (hs : Setting heap renv final exact) {arrayType nelems : UInt32}
    {buffer : ℕ} {word : UInt64} (hgood : Linked final r)
    (hbuffer : exact → ∃ bytes, r.heap[buffer]? = some (.arrayBuffer bytes) ∧
      fromBuffer (bytesPerTypedArrayElement arrayType) bytes.length word.toUInt32 nelems = some nelems) :
    Follows (¬ exact) (Linked final) (newTypedArray renv arrayType buffer word nelems) r fun c r' =>
      c = r.heap.length ∧ ∃ len, (exact → len = nelems) ∧
        Grown (.typedArray arrayType buffer word.toUInt32 len) r.objs r r' ∧ r'.words = r.words ∧
          r'.point = r.point := by
  have hget : Follows (¬ exact) (Linked final) (getObj buffer) r fun o r1 =>
      o = r.heap[buffer]? ∧ r1 = r := .of_ok rfl ⟨rfl, rfl⟩
  refine hget.bind fun o r1 hQ1 => ?_
  obtain ⟨rfl, rfl⟩ := hQ1
  have hfails : (∀ bytes, r1.heap[buffer]? ≠ some (.arrayBuffer bytes)) →
      Follows (¬ exact) (Linked final) (badData "typed array arguments" : CloneReader ℕ) r1 fun c r' =>
        c = r1.heap.length ∧ ∃ len, (exact → len = nelems) ∧
          Grown (.typedArray arrayType buffer word.toUInt32 len) r1.objs r1 r' ∧ r'.words = r1.words ∧
            r'.point = r1.point := by
    refine fun hnone => .of_error rfl hgood fun hexact => ?_
    obtain ⟨bytes, hbytes, _⟩ := hbuffer hexact
    exact hnone bytes hbytes
  cases ho : r1.heap[buffer]? with
  | none => exact hfails fun bytes heq => by rw [ho] at heq; cases heq
  | some o =>
    cases o with
    | arrayBuffer bytes =>
      dsimp only
      cases hfrom : fromBuffer (bytesPerTypedArrayElement arrayType) bytes.length word.toUInt32 nelems with
      | none =>
        refine .of_error rfl hgood fun hexact => ?_
        obtain ⟨bytes', hbytes', hfits⟩ := hbuffer hexact
        rw [ho] at hbytes'
        cases hbytes'
        rw [hfrom] at hfits
        cases hfits
      | some len =>
        refine (follows_newObject hs.mayFail _ hgood).bind fun c r2 hQ2 => .of_ok rfl ?_
        obtain ⟨rfl, hgrown, hwords, hpoint⟩ := hQ2
        refine ⟨rfl, len, fun hexact => ?_, ⟨?_, hgrown.objs, hgrown.allObjs, hgrown.heap⟩, hwords, hpoint⟩
        · obtain ⟨bytes', hbytes', hfits⟩ := hbuffer hexact
          rw [ho] at hbytes'
          cases hbytes'
          rw [hfrom] at hfits
          exact Option.some.inj hfits
        · exact hgrown.later.trans (.of_record (e := .byteOffset word len
            (bytesPerTypedArrayElement arrayType) bytes.length) rfl rfl)
    | _ => exact hfails fun bytes heq => by rw [ho] at heq; cases heq

/-- The type of a typed array is read. -/
theorem follows_readArrayType {may : Prop} {good : ReaderState → Prop} {type : UInt32}
    (hr : At r (type.toUInt64 :: rest)) (htype : type ≤ typeUint8Clamped) :
    Follows may good readArrayType r fun a r' =>
      a = type.toUInt64 ∧ Onward r r' ∧ At r' rest ∧ r'.point = r.point + 1 := by
  have hvisit : Follows may good (visit fun s => .arrayType s.point) r fun _ r1 =>
      r1 = { r with sites := r.sites ++ [.arrayType r.point] } := .of_ok rfl rfl
  refine hvisit.bind fun _ r1 hQ1 => ?_
  have honward1 : Onward r r1 := by rw [hQ1]; exact ⟨.of_same rfl, rfl, rfl, rfl, rfl⟩
  have hr1 : At r1 (type.toUInt64 :: rest) := by rw [hQ1]; exact hr
  refine (follows_readWord hr1).bind fun a r2 hQ2 => ?_
  obtain ⟨rfl, honward2, hat2, hpoint2⟩ := hQ2
  refine .ite_neg ?_ ?_
  · rw [UInt32.toUInt32_toUInt64]
    exact UInt32.not_lt.mpr htype
  have hrecord : Follows may good (record (.arrayType type.toUInt64)) r2 fun _ r3 =>
      r3 = { r2 with trace := r2.trace ++ [.arrayType type.toUInt64] } := .of_ok rfl rfl
  refine hrecord.bind fun _ r3 hQ3 => .pure ⟨rfl, ?_, ?_, ?_⟩
  · have hlater : Later r2 r3 := .of_record (e := .arrayType type.toUInt64) rfl (by rw [hQ3])
    rw [hQ3] at hlater ⊢
    exact (honward1.trans honward2).trans ⟨hlater, rfl, rfl, rfl, rfl⟩
  · rw [hQ3]
    exact hat2
  · rw [hQ3]
    exact hpoint2.trans (by rw [hQ1])

/-- Recording a site changes nothing else. -/
theorem follows_visit {may : Prop} {good : ReaderState → Prop} (site : ReaderState → Site)
    (hr : At r rest) : Follows may good (visit site) r fun _ r' =>
      Onward r r' ∧ At r' rest ∧ r'.point = r.point :=
  .of_ok rfl ⟨⟨.of_same rfl, rfl, rfl, rfl, rfl⟩, hr, rfl⟩

/-- What is recorded, other than links, changes nothing else. -/
theorem follows_record {may : Prop} {good : ReaderState → Prop} {e : Event} (he : e.isLink = false)
    (hr : At r rest) : Follows may good (record e) r fun _ r' =>
      Onward r r' ∧ At r' rest ∧ r'.point = r.point :=
  .of_ok rfl ⟨⟨.of_record he rfl, rfl, rfl, rfl, rfl⟩, hr, rfl⟩

/-- The reader goes on without reading. -/
theorem Related.onward (h : Related heap exact pending lag frames copied w r) (honward : Onward r r')
    (hpoint : r'.point = r.point) : Related heap exact pending lag frames copied w r' :=
  h.outputs (.refl w) honward hpoint

/-- The buffer and the offset of a typed array are read. -/
theorem follows_readBuffer {m buffer : ℕ} {w4 : WriterState} {type byteOffset nelems : UInt32}
    {u : UInt64} {words : List UInt64}
    (hsimulates : ∀ lag copied r rest, Related heap exact pending lag frames copied w r →
      At r (u :: words ++ rest) → Follows (¬ exact) (Linked final) (startRead renv m) r fun v' r' =>
        ∃ pushed, ReadAs heap exact pending lag frames copied w w4 r rest (.object buffer) v' r' pushed)
    (hwrites : CloneWriter.Writes w4 [byteOffset.toUInt64] w')
    (hrelated : Related heap exact pending lag frames copied w r)
    (hr : At r (u :: words ++ byteOffset.toUInt64 :: rest)) :
    Follows (¬ exact) (Linked final) (readBuffer renv (startRead renv m) type nelems false) r
      fun p r' => p.2 = byteOffset.toUInt64 ∧
        ∃ pushed, ReadAs heap exact pending lag frames copied w w' r rest (.object buffer) p.1 r' pushed := by
  refine .ite_neg (by decide) ?_
  refine (follows_visit _ hr).bind fun _ r1 hQ1 => ?_
  obtain ⟨honward1, hat1, hpoint1⟩ := hQ1
  refine (hsimulates lag copied r1 _ (hrelated.onward honward1 hpoint1) hat1).bind fun v r2 hQ2 => ?_
  obtain ⟨pushed, hread⟩ := hQ2
  refine (follows_visit _ hread.left).bind fun _ r3 hQ3 => ?_
  obtain ⟨honward3, hat3, hpoint3⟩ := hQ3
  refine (follows_readWord hat3).bind fun n r4 hQ4 => .pure ?_
  obtain ⟨rfl, honward4, hat4, hpoint4⟩ := hQ4
  have honward := honward3.trans honward4
  refine ⟨rfl, pushed, hat4, ?_, ?_, ?_, hread.pushed⟩
  · exact hread.related.outputs hwrites honward (by rw [hpoint4, hpoint3]; rfl)
  · exact hread.copy.mono fun _ _ hclone =>
      (cloneOf_congr hwrites.outputs.memory honward.allObjs).mpr hclone
  · rw [honward.allObjs, ← honward1.allObjs]
    exact hread.allObjs

/-- The buffer of a typed array was copied. -/
theorem Related.buffer (h : Related heap exact pending lag frames copied w r) (hexact : exact)
    {buffer c : ℕ} {bytes : List UInt8} (hbuffer : heap buffer = .arrayBuffer bytes)
    (hclone : CloneOf w r buffer c) : r.heap[c]? = some (.arrayBuffer bytes) := by
  obtain ⟨o, ho, hcopied⟩ := (h.copies hexact).contents buffer c hclone
  rw [hbuffer] at hcopied
  cases hcopied with
  | leaf _ => exact ho

/-- A typed array is made and takes the place of its placeholder. -/
theorem Related.settle {obj k p buffer c : ℕ} {type byteOffset length len : UInt32}
    (h : Related heap exact (some obj) lag frames copied w r)
    (ho : heap obj = .typedArray type buffer byteOffset length) (hk : w.memory[k]? = some obj)
    (hnull : r.allObjs[k]? = some .null) (hstart : (obj, p) ∈ w.starts) (hclone : CloneOf w r buffer c)
    (hlen : exact → len = length) (hallObjs : r'.allObjs = r.allObjs.set k (.object r.heap.length))
    (htrace : ∀ e, e.isLink = true → (e ∈ r'.trace ↔ e ∈ r.trace ∨ e = .object p r.heap.length))
    (hheap : r'.heap = r.heap ++ [.typedArray type c byteOffset len]) (hobjs : r'.objs = r.objs)
    (hpoint : r'.point = r.point) :
    Related heap exact none lag frames copied w r' ∧ CloneOf w r' obj r.heap.length := by
  have hclones : ∀ obj' c', CloneOf w r' obj' c' ↔ CloneOf w r obj' c' ∨
      obj' = obj ∧ c' = r.heap.length := fun _ _ => cloneOf_set hk hnull rfl hallObjs
  have hnone : ∀ c', ¬ CloneOf w r obj c' := by
    rintro c' ⟨i, hi, hc'⟩
    have hik : i = k := by
      apply (List.getElem?_inj (List.getElem?_eq_some_iff.mp hi).1 h.numbers.writer.nodup).mp
      rw [hi, hk]
    rw [hik, hnull] at hc'
    cases hc'
  refine ⟨⟨?_, h.stacked, fun hexact => ?_, ?_⟩, (hclones _ _).mpr (Or.inr ⟨rfl, rfl⟩)⟩
  · have houtputs : Outputs w [] w := ⟨rfl, rfl, by rw [List.append_nil]⟩
    refine h.numbers.settle houtputs hk hstart hallObjs htrace (Nat.le_refl _) ?_ hpoint
    rw [hheap, List.length_append]
    exact Nat.lt_succ_self _
  · have hcopied : CopiedObj w r' (leftOf ([] ++ copied) obj) (heap obj)
        (.typedArray type c byteOffset len) := by
      rw [ho, ← hlen hexact]
      exact .typedArray ((hclones _ _).mpr (Or.inl hclone))
    have hpushed : ∀ frame ∈ ([] : Frames), frame.1 = obj :=
      fun frame hframe => absurd hframe List.not_mem_nil
    have hobjs' : r'.objs = ([] : Frames).map (fun _ => Value.object r.heap.length) ++ r.objs := hobjs
    exact (h.copies hexact).extend hclones rfl hobjs' hheap hpushed hnone hcopied
  · rw [hobjs]
    exact h.lag

/-- A typed array is read after its type. -/
theorem follows_readTypedArray (hs : Setting heap renv final exact) {m obj buffer : ℕ}
    {type byteOffset length : UInt32} {u u0 : UInt64} {words words0 : List UInt64}
    {r0 : ReaderState} {w3 w4 : WriterState}
    (ho : heap obj = .typedArray type buffer byteOffset length)
    (hremembers : Remembers w obj (u0 :: words0) w3) (hstacked : Stacked heap frames w3)
    (hsimulates : ∀ lag copied r rest, Related heap exact (some obj) lag frames copied w3 r →
      At r (u :: words ++ rest) → Follows (¬ exact) (Linked final) (startRead renv m) r fun v' r' =>
        ∃ pushed, ReadAs heap exact (some obj) lag frames copied w3 w4 r rest (.object buffer) v' r' pushed)
    (hwrites : CloneWriter.Writes w4 [byteOffset.toUInt64] w') (hgrows4 : w3.Grows w4)
    (hgrows : w'.Grows final) (hgrows' : w.Grows final)
    (hrelated : Related heap exact none lag frames copied w r0) (honward : Onward r0 r)
    (hpoint : r.point = r0.point + (u0 :: words0).length)
    (hr : At r (u :: words ++ byteOffset.toUInt64 :: rest)) :
    Follows (¬ exact) (Linked final) (readTypedArray renv (startRead renv m) r0.point type length false) r
      fun v' r' => ∃ pushed,
        ReadAs heap exact none lag frames copied w w' r0 rest (.object obj) v' r' pushed := by
  have hvalid := hs.valid obj
  rw [ho] at hvalid
  obtain ⟨htype, bytes, hbuffer, hfits⟩ := hvalid
  have hgood : Linked final r := (hrelated.numbers.linked.grow hgrows').later honward.later
  refine .ite_neg (UInt32.not_lt.mpr htype) ?_
  have hcount : Follows (¬ exact) (Linked final) countObjects r fun k r1 =>
      k = w.memory.length ∧ r1 = r :=
    .of_ok rfl ⟨by rw [honward.allObjs, hrelated.numbers.length], rfl⟩
  refine hcount.bind fun k r1 hQ1 => ?_
  obtain ⟨rfl, rfl⟩ := hQ1
  have happend : Follows (¬ exact) (Linked final) (appendObject renv .null) r1 fun _ r2 =>
      Later r1 r2 ∧ r2.allObjs = r0.allObjs ++ [.null] ∧ r2.heap = r0.heap ∧ r2.objs = r0.objs ∧
        At r2 (u :: words ++ byteOffset.toUInt64 :: rest) ∧ r2.point = r1.point := by
    refine (follows_external hs.mayFail hgood).bind fun _ r2 hQ2 => .of_ok rfl ?_
    obtain ⟨honward2, hwords2, hpoint2⟩ := hQ2
    have hall := honward.trans honward2
    refine ⟨honward2.later.trans (.of_same rfl), congrArg (· ++ [Value.null]) hall.allObjs, hall.heap,
      hall.objs, ?_, hpoint2⟩
    change ∃ before, r2.words = _ ∧ r2.point = _
    rw [hwords2, hpoint2]
    exact hr
  refine happend.bind fun _ r2 hQ2 => ?_
  obtain ⟨hlater2, hallObjs2, hheap2, hobjs2, hat2, hpoint2⟩ := hQ2
  have hlater : Later r0 r2 := honward.later.trans hlater2
  have hrelated2 : Related heap exact (some obj) lag frames copied w3 r2 := by
    refine ⟨?_, hstacked, fun hexact => ?_, ?_⟩
    · exact hrelated.numbers.pend hremembers (List.cons_ne_nil _ _) hlater hallObjs2 (by rw [hheap2])
        (by rw [hpoint2, hpoint])
    · exact (hrelated.copies hexact).pend hremembers hrelated.numbers.length hobjs2 hallObjs2 hheap2
    · rw [hobjs2, hrelated.lag, hstacked.objs, hrelated.stacked.objs]
  refine (follows_readBuffer hsimulates hwrites hrelated2 hat2).bind fun p r3 hQ3 => ?_
  obtain ⟨v, word⟩ := p
  obtain ⟨hword, pushed, hread⟩ := hQ3
  obtain rfl : word = byteOffset.toUInt64 := hword
  have hcopy := hread.copy
  have hmemory : w'.memory[w.memory.length]? = some obj := by
    rw [hwrites.outputs.memory]
    refine getElem?_of_prefix hgrows4.memory ?_
    rw [hremembers.memory, List.getElem?_concat_length]
  have hnull : r3.allObjs[w.memory.length]? = some .null := by
    refine getElem?_of_prefix hread.allObjs ?_
    rw [hallObjs2, ← hrelated.numbers.length, List.getElem?_concat_length]
  have hstart : (obj, r0.point) ∈ w'.starts := by
    rw [hwrites.outputs.starts]
    refine hgrows4.starts _ ?_
    rw [hremembers.starts, hrelated.numbers.point]
    exact List.mem_append_right _ (List.mem_singleton_self _)
  cases hcopy with
  | @object _ c hclone =>
    have htoObject : Follows (¬ exact) (Linked final) (toObject (.object c)) r3 fun c' r4 =>
        c' = c ∧ Onward r3 r4 ∧ At r4 rest ∧ r4.point = r3.point :=
      (follows_record rfl hread.left).bind fun _ r4 hQ4 => .pure ⟨rfl, hQ4⟩
    refine htoObject.bind fun c' r4 hQ4 => ?_
    obtain ⟨rfl, honward4, hat4, hpoint4⟩ := hQ4
    have hrelated4 := hread.related.onward honward4 hpoint4
    have hclone4 : CloneOf w' r4 buffer c' := (cloneOf_congr rfl honward4.allObjs).mpr hclone
    have hgood4 : Linked final r4 := hrelated4.numbers.linked.grow hgrows
    have hmade : exact → ∃ bytes, r4.heap[c']? = some (.arrayBuffer bytes) ∧
        fromBuffer (bytesPerTypedArrayElement type) bytes.length byteOffset.toUInt64.toUInt32 length =
          some length := by
      refine fun hexact => ⟨bytes, hrelated4.buffer hexact hbuffer hclone4, ?_⟩
      rw [UInt32.toUInt32_toUInt64]
      exact hfits.fromBuffer (bytesPerTypedArrayElement_pos type)
    refine (follows_newTypedArray hs hgood4 hmade).bind fun c5 r5 hQ5 => ?_
    obtain ⟨rfl, len, hlen, hgrown, hwords5, hpoint5⟩ := hQ5
    have hrecord : Follows (¬ exact) (Linked final) (record (.object r0.point r4.heap.length)) r5
        fun _ r6 => r6 = { r5 with trace := r5.trace ++ [.object r0.point r4.heap.length] } := .of_ok rfl rfl
    refine hrecord.bind fun _ r6 hQ6 => ?_
    have hset : Follows (¬ exact) (Linked final) (setObject w.memory.length (.object r4.heap.length)) r6
        fun _ r7 => r7 = { r6 with
          allObjs := r6.allObjs.set w.memory.length (.object r4.heap.length) } := .of_ok rfl rfl
    refine hset.bind fun _ r7 hQ7 => .pure ⟨pushed, ?_⟩
    rw [hQ6] at hQ7
    have htrace : ∀ e, e.isLink = true →
        (e ∈ r7.trace ↔ e ∈ r4.trace ∨ e = .object r0.point r4.heap.length) := by
      intro e he
      rw [hQ7, List.mem_append, List.mem_singleton, hgrown.later e he]
    have hallObjs7 : r7.allObjs = r4.allObjs.set w.memory.length (.object r4.heap.length) := by
      rw [hQ7, ← hgrown.allObjs]
    rw [UInt32.toUInt32_toUInt64] at hgrown
    have hheap7 : r7.heap = r4.heap ++ [.typedArray type c' byteOffset len] := by
      rw [hQ7]
      exact hgrown.heap
    have hobjs7 : r7.objs = r4.objs := by
      rw [hQ7]
      exact hgrown.objs
    have hpoint7 : r7.point = r4.point := by
      rw [hQ7]
      exact hpoint5
    obtain ⟨hrelated7, hclone7⟩ := hrelated4.settle ho hmemory (by rw [honward4.allObjs]; exact hnull) hstart
      hclone4 hlen hallObjs7 htrace hheap7 hobjs7 hpoint7
    refine ⟨?_, hrelated7, .object hclone7, ?_, ?_⟩
    · rw [hQ7, At]
      change ∃ before, r5.words = _ ∧ r5.point = _
      rw [hwords5, hpoint5]
      exact hat4
    · -- the objects before the placeholder stay
      rw [hallObjs7, honward4.allObjs, ← hrelated.numbers.length]
      obtain ⟨more, hmore⟩ := hread.allObjs
      rw [← hmore, hallObjs2, List.append_assoc, List.set_append_right _ _ (Nat.le_refl _)]
      exact List.prefix_append _ _
    · intro frame hframe hmem
      refine hread.pushed frame hframe ?_
      rw [hremembers.memory]
      exact List.mem_append_left _ hmem

/-- What is written for a typed array, and read. -/
theorem simulates_typedArray (hs : Setting heap renv final exact) {n m obj buffer : ℕ}
    {type byteOffset length : UInt32} (ho : heap obj = .typedArray type buffer byteOffset length)
    (hstacked : Stacked heap frames w) (hgrows : w'.Grows final)
    (h : CloneWriter.startWrite env heap n (.object obj) w = (some (), w')) :
    Simulates heap renv final exact (m + 2) w w' (.object obj) none frames := by
  cases n with
  | zero => cases h
  | succ n =>
    have hgrows' : w.Grows final :=
      (CloneWriter.Adds.startWrite CloneWriter.growth_grows (n + 1) (.object obj) w).trans (by rw [h]; exact hgrows)
    obtain ⟨backref, w1, h1, h2⟩ := CloneWriter.bind_some h
    cases CloneWriter.startObject_some h1 with
    | inl hreference =>
      obtain ⟨rfl, i, hi, hwrites⟩ := hreference
      cases h2
      exact simulates_reference hi (by rintro ⟨⟩) hwrites
    | inr hobject =>
      obtain ⟨rfl, hnew, hroom, ticks, hw1⟩ := hobject
      change CloneWriter.writeObject env heap (CloneWriter.startWrite env heap n) obj w1 = _ at h2
      unfold CloneWriter.writeObject CloneWriter.writeTypedArray at h2
      rw [ho] at h2
      obtain ⟨_, w2, h2, h3⟩ := CloneWriter.bind_some h2
      obtain ⟨_, w3, h3, h4⟩ := CloneWriter.bind_some h3
      obtain ⟨_, w4, h4, h5⟩ := CloneWriter.bind_some h4
      have hfirst := (CloneWriter.writes_writePair h2).trans (CloneWriter.writes_write h3)
      have hlast := CloneWriter.writes_write h5
      have hvalid := hs.valid obj
      rw [ho] at hvalid
      obtain ⟨htype, bytes, hbuffer, _⟩ := hvalid
      have hremembers : Remembers w obj [pairToUInt64 sctagTypedArrayObject length, type.toUInt64] w3 := by
        have houtputs := hfirst.outputs
        rw [hw1] at houtputs
        exact ⟨houtputs.memory, houtputs.starts, houtputs.out, hroom, hnew⟩
      have hstacked3 : Stacked heap frames w3 := by
        refine hfirst.stacked ?_
        rw [hw1]
        exact ⟨hstacked.objs, hstacked.counts, hstacked.ids, hstacked.left, hstacked.distinct,
          fun frame hframe => List.mem_append_left _ (hstacked.met frame hframe)⟩
      have hgrows4 : w3.Grows w4 := by
        have hadds : w3.Grows (CloneWriter.startWrite env heap n (.object buffer) w3).2 :=
          CloneWriter.Adds.startWrite CloneWriter.growth_grows n (.object buffer) w3
        rw [h4] at hadds
        exact hadds
      have hgrows5 : w4.Grows final := by
        have hadds : w4.Grows (CloneWriter.write env byteOffset.toUInt64 w4).2 :=
          CloneWriter.Adds.append CloneWriter.growth_grows [byteOffset.toUInt64] w4
        rw [h5] at hadds
        exact hadds.trans hgrows
      have hpending : some obj ≠ some buffer := by
        intro heq
        rw [← Option.some.inj heq, ho] at hbuffer
        cases hbuffer
      have hnot : ∀ type buffer' byteOffset length,
          heap buffer ≠ .typedArray type buffer' byteOffset length := by
        intro _ _ _ _ heq
        rw [hbuffer] at heq
        cases heq
      obtain ⟨u, words, hout, _, hsimulates⟩ :=
        simulates_untyped (m := m) hs hnot hpending hstacked3 hgrows5 h4
      refine ⟨pairToUInt64 sctagTypedArrayObject length,
        type.toUInt64 :: (u :: words ++ [byteOffset.toUInt64]), ?_, by rw [tagOf_pairToUInt64]; decide, fun lag copied r rest hrelated hr => ?_⟩
      · rw [hlast.outputs.out, hout, hremembers.out]
        simp only [List.append_assoc, List.cons_append, List.nil_append]
      have htell : Follows (¬ exact) (Linked final) tell r fun p r1 => p = r.point ∧ r1 = r :=
        .of_ok rfl ⟨rfl, rfl⟩
      refine htell.bind fun p r1 hQ1 => ?_
      obtain ⟨rfl, rfl⟩ := hQ1
      refine (follows_readPair hr).bind fun p r2 hQ2 => ?_
      obtain ⟨rfl, honward2, hat2, hpoint2⟩ := hQ2
      refine .ite_neg (by decide : sctagTypedArrayObject ≠ sctagBackReferenceObject) (.ite_pos rfl ?_)
      refine (follows_readArrayType hat2 htype).bind fun word r3 hQ3 => ?_
      obtain ⟨rfl, honward3, hat3, hpoint3⟩ := hQ3
      rw [UInt32.toUInt32_toUInt64]
      refine follows_readTypedArray hs ho hremembers hstacked3 hsimulates hlast hgrows4 hgrows hgrows'
        hrelated (honward2.trans honward3) ?_ ?_
      · rw [hpoint3, hpoint2]
        rfl
      · have hwords : u :: words ++ byteOffset.toUInt64 :: rest =
            (u :: words ++ [byteOffset.toUInt64]) ++ rest := by rw [List.append_assoc]; rfl
        rw [hwords]
        exact hat3

/-- What is written for a value, and read. -/
theorem simulates_startWrite (hs : Setting heap renv final exact) {n m : ℕ} {v : Value}
    (hvalid : v.Valid) (hstacked : Stacked heap frames w) (hgrows : w'.Grows final)
    (h : CloneWriter.startWrite env heap n v w = (some (), w')) :
    Simulates heap renv final exact (m + 2) w w' v none frames := by
  cases v with
  | object obj =>
    by_cases htyped : ∃ type buffer byteOffset length, heap obj = .typedArray type buffer byteOffset length
    · obtain ⟨type, buffer, byteOffset, length, ho⟩ := htyped
      exact simulates_typedArray hs ho hstacked hgrows h
    · have hnot : ∀ type buffer byteOffset length, heap obj ≠ .typedArray type buffer byteOffset length :=
        fun type buffer byteOffset length ho => htyped ⟨type, buffer, byteOffset, length, ho⟩
      exact simulates_untyped hs hnot (by rintro ⟨⟩) hstacked hgrows h
  | _ => exact simulates_primitive hs rfl hvalid hgrows h

end values

end SpiderMonkey.Vm.StructuredClone
