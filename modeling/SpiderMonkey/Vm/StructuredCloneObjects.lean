import SpiderMonkey.Vm.StructuredCloneFollows

/-!
# Objects that are cloned

What is written for an object other than a typed array, and what the reader makes of it. Which values
and objects can be cloned, as the engine has them.
-/

namespace SpiderMonkey.Vm.StructuredClone

/-- The first tag that callbacks may use. -/
def sctagUserMin : UInt32 := 0xFFFF8000

/-- A value as the engine has them: strings have a greatest length. -/
def Value.Valid : Value → Prop
  | .string chars => chars.length ≤ maxStringLength
  | _ => True

/-- A typed array as the engine makes them: it lies within its buffer. -/
structure TypedArrayFits (size byteLength : ℕ) (byteOffset length : UInt32) : Prop where
  aligned : size ∣ byteOffset.toNat
  length_lt : length.toNat < int32Max / size
  byteOffset_lt : byteOffset.toNat < int32Max - length.toNat * size
  fits : byteOffset.toNat + length.toNat * size ≤ byteLength

/-- An object as the engine has them. Keys are distinct, and callbacks use their own tags. -/
def ValidObj (heap : ℕ → Obj) : Obj → Prop
  | .plain _ props => (props.map Prod.fst).Nodup ∧ ∀ p ∈ props, p.2.Valid ∧
    ∀ chars, p.1 = .name chars → chars.length ≤ maxStringLength
  | .booleanObject _ => True
  | .numberObject _ => True
  | .stringObject chars => chars.length ≤ maxStringLength
  | .date d => isNaN d = true ∨ isTimeClipped d = true
  | .regexp _ source => source.length ≤ maxStringLength
  | .arrayBuffer bytes => bytes.length < 2 ^ 32
  | .typedArray type buffer byteOffset length => type ≤ typeUint8Clamped ∧ ∃ bytes,
    heap buffer = .arrayBuffer bytes ∧
      TypedArrayFits (bytesPerTypedArrayElement type) bytes.length byteOffset length
  | .host tag _ items => sctagUserMin ≤ tag ∧ ∀ bytes, .bytes bytes ∈ items → bytes.length < 2 ^ 32

/-- A typed array that fits can be made. -/
theorem TypedArrayFits.fromBuffer {size byteLength : ℕ} {byteOffset length : UInt32} (hsize : 0 < size)
    (h : TypedArrayFits size byteLength byteOffset length) :
    fromBuffer size byteLength byteOffset length = some length := by
  have hmax : length ≠ 0xFFFFFFFF := by
    intro heq
    have hlt := h.length_lt
    have hle := Nat.div_le_self int32Max size
    rw [heq] at hlt
    change 4294967295 < _ at hlt
    have hint : int32Max = 2147483647 := rfl
    omega
  have hbytes : length.toNat * size < int32Max := by
    have hle := Nat.mul_le_mul_right size (Nat.succ_le_of_lt h.length_lt)
    have hdiv := Nat.div_mul_le_self int32Max size
    rw [Nat.succ_mul] at hle
    omega
  have hint : int32Max = 2147483647 := rfl
  have hoffset := h.byteOffset_lt
  have hfits := h.fits
  have hmod : length.toNat * size % 2 ^ 32 = length.toNat * size := Nat.mod_eq_of_lt (by omega)
  have hsum : (length.toNat * size + byteOffset.toNat) % 2 ^ 32 =
      length.toNat * size + byteOffset.toNat := Nat.mod_eq_of_lt (by omega)
  have halign : byteOffset.toNat % size = 0 := Nat.mod_eq_zero_of_dvd h.aligned
  unfold StructuredClone.fromBuffer
  dsimp only
  rw [if_neg (by omega), if_neg fun hmax' => hmax hmax'.1, if_neg hmax, hmod, hsum,
    if_neg (by have := h.length_lt; omega), if_neg (by omega)]

/-- The tag of an object's first word. -/
def objectTag : Obj → UInt32
  | .plain isArray _ => if isArray then sctagArrayObject else sctagObjectObject
  | .booleanObject _ => sctagBooleanObject
  | .numberObject _ => sctagNumberObject
  | .stringObject _ => sctagStringObject
  | .date _ => sctagDateObject
  | .regexp _ _ => sctagRegexpObject
  | .arrayBuffer _ => sctagArrayBufferObject
  | .typedArray _ _ _ _ => sctagTypedArrayObject
  | .host tag _ _ => tag

/-- The data of an object's first word. -/
def objectData : Obj → UInt32
  | .plain _ _ => 0
  | .booleanObject b => if b then 1 else 0
  | .numberObject _ => 0
  | .stringObject chars => UInt32.ofNat chars.length
  | .date _ => 0
  | .regexp flags _ => flags
  | .arrayBuffer bytes => UInt32.ofNat bytes.length
  | .typedArray _ _ _ length => length
  | .host _ data _ => data

/-- The words of an item that a callback writes, if it is no typed array. -/
def itemWords : HostItem → List UInt64
  | .pair tag data => [pairToUInt64 tag data]
  | .bytes bytes => wordsOfBytes bytes
  | .typedArray _ => []

/-- The words of an object after the first, if it is no typed array. -/
def objectRest : Obj → List UInt64
  | .plain _ _ => []
  | .booleanObject _ => []
  | .numberObject d => [canonicalizeNaN d]
  | .stringObject chars => wordsOfChars chars
  | .date d => [canonicalizeNaN d]
  | .regexp _ source => CloneWriter.stringWords sctagString source
  | .arrayBuffer bytes => wordsOfBytes bytes
  | .typedArray _ _ _ _ => []
  | .host _ _ items => items.flatMap itemWords

/-- The words of an object. -/
def objectWords (o : Obj) : List UInt64 := pairToUInt64 (objectTag o) (objectData o) :: objectRest o

/-- What is read for an item of a callback. -/
def shapeOf : HostItem → HostShape
  | .pair _ _ => .pair
  | .bytes bytes => .bytes bytes.length
  | .typedArray _ => .typedArray

/-- An object is no typed array, and no callback writes one for it. -/
def NoTypedArray : Obj → Prop
  | .typedArray _ _ _ _ => False
  | .host _ _ items => ∀ obj, .typedArray obj ∉ items
  | _ => True

/-- What an object is when it is read, other than a typed array: without properties, and with one value
for all that are no numbers. -/
def startedObj : Obj → Obj
  | .plain isArray _ => .plain isArray []
  | .numberObject d => .numberObject (canonicalizeNaN d)
  | .date d => .date (canonicalizeNaN d)
  | o => o

/-- Whether an object has properties that are read later. -/
def isPlain : Obj → Bool
  | .plain _ _ => true
  | _ => false

namespace CloneWriter

variable {env : WriteEnvironment} {heap : ℕ → Obj} {w w' : WriterState}

/-- Items are written for a callback. -/
theorem writes_writeHostItems {startWrite : Value → CloneWriter Unit} {items : List HostItem}
    (hitems : ∀ obj, .typedArray obj ∉ items)
    (h : writeHostItems env heap startWrite items w = (some (), w')) :
    Writes w (items.flatMap itemWords) w' := by
  induction items generalizing w with
  | nil =>
    cases h
    exact Writes.refl w'
  | cons item items ih =>
    obtain ⟨_, w1, h1, h2⟩ := bind_some h
    have hrest := ih (fun obj hobj => hitems obj (List.mem_cons_of_mem item hobj)) h2
    rw [List.flatMap_cons]
    cases item with
    | pair tag data => exact (writes_writePair h1).trans hrest
    | bytes bytes => exact (writes_writeBytes h1).trans hrest
    | typedArray obj => exact absurd List.mem_cons_self (hitems obj)

/-- An object is written. -/
theorem writes_writeObject {startWrite : Value → CloneWriter Unit} {obj : ℕ}
    (hplain : isPlain (heap obj) = false) (hno : NoTypedArray (heap obj))
    (h : writeObject env heap startWrite obj w = (some (), w')) :
    Writes w (objectWords (heap obj)) w' := by
  unfold writeObject at h
  cases ho : heap obj with
  | plain isArray props => rw [ho] at hplain; cases hplain
  | booleanObject b => rw [ho] at h; exact writes_writePair h
  | numberObject d =>
    rw [ho] at h
    obtain ⟨_, w1, h1, h2⟩ := bind_some h
    exact (writes_writePair h1).trans (writes_write h2)
  | stringObject chars => rw [ho] at h; exact writes_writeString h
  | date d =>
    rw [ho] at h
    obtain ⟨_, w1, h1, h2⟩ := bind_some h
    exact (writes_writePair h1).trans (writes_write h2)
  | regexp flags source =>
    rw [ho] at h
    obtain ⟨_, w1, h1, h2⟩ := bind_some h
    exact (writes_writePair h1).trans (writes_writeString h2)
  | arrayBuffer bytes =>
    rw [ho] at h
    obtain ⟨_, w1, h1, h2⟩ := bind_some h
    exact (writes_writePair h1).trans (writes_writeBytes h2)
  | typedArray type buffer byteOffset length => rw [ho] at hno; cases hno
  | host tag data items =>
    rw [ho] at h hno
    change (if env.hasCallback then _ else _ : CloneWriter Unit) w = _ at h
    split at h
    · obtain ⟨_, w1, h1, h2⟩ := bind_some h
      obtain ⟨_, w2, h2, h3⟩ := bind_some h2
      have hall := ((writes_writePair h1).trans (writes_writeHostItems hno h2)).trans
        (writes_external h3)
      rw [List.append_nil] at hall
      exact hall
    · cases h

end CloneWriter

/-- A callback reads the items that were written for an object, from a position on. -/
def HostReads (env : Environment) (o : Obj) (point : ℕ) : Prop :=
  ∀ tag data items, o = .host tag data items →
    ∃ shapes, env.readHost = some shapes ∧ shapes tag data point = items.map shapeOf

namespace CloneReader

variable {env : Environment} {heap : ℕ → Obj} {r r' : ReaderState} {may : Prop}
  {good : ReaderState → Prop} {rest : List UInt64} {sr : CloneReader Value}

/-- Numbers are below the tags. -/
theorem canonicalizeNaN_le (d : UInt64) : (canonicalizeNaN d).toNat ≤ 0xFFF0000000000000 := by
  by_cases h : isNaN d = true
  · have hd : canonicalizeNaN d = 0x7FF8000000000000 := if_pos h
    rw [hd]
    decide
  · have hd : canonicalizeNaN d = d := if_neg h
    have hle : (d &&& 0x7FFFFFFFFFFFFFFF).toNat ≤ 0x7FF0000000000000 := by
      rw [isNaN, decide_eq_true_iff, gt_iff_lt, UInt64.lt_iff_toNat_lt] at h
      exact Nat.not_lt.mp h
    rw [UInt64.toNat_and] at hle
    change d.toNat &&& (2 ^ 63 - 1) ≤ _ at hle
    rw [Nat.and_two_pow_sub_one_eq_mod] at hle
    have hlt := d.toNat_lt
    rw [hd]
    omega

/-- The upper half of a number is no other tag. -/
theorem tagOf_canonicalizeNaN_le (d : UInt64) : tagOf (canonicalizeNaN d) ≤ sctagFloatMax := by
  have hle := canonicalizeNaN_le d
  rw [UInt32.le_iff_toNat_le, tagOf, UInt64.toNat_toUInt32, UInt64.toNat_shiftRight]
  change (canonicalizeNaN d).toNat >>> 32 % 2 ^ 32 ≤ 0xFFF00000
  rw [Nat.shiftRight_eq_div_pow]
  omega

/-- A number is a double. -/
theorem checkDouble_canonicalizeNaN (d : UInt64) : checkDouble (canonicalizeNaN d) = true := by
  have hcheck := checkDouble_of_le_floatMax (dataOf (canonicalizeNaN d)) (tagOf_canonicalizeNaN_le d)
  rw [pairToUInt64_tagOf_dataOf] at hcheck
  exact hcheck

/-- A time stays one that clipping leaves alone, or no number. -/
theorem date_canonicalizeNaN {d : UInt64} (h : isNaN d = true ∨ isTimeClipped d = true) :
    isNaN (canonicalizeNaN d) = true ∨ isTimeClipped (canonicalizeNaN d) = true := by
  by_cases hnan : isNaN d = true
  · have hd : canonicalizeNaN d = 0x7FF8000000000000 := if_pos hnan
    rw [hd]
    exact Or.inl (by decide)
  · have hd : canonicalizeNaN d = d := if_neg hnan
    rw [hd]
    exact h

/-- A tag of a callback is no other tag. -/
theorem ne_of_userMin_le {tag c : UInt32} (htag : sctagUserMin ≤ tag) (hc : c < sctagUserMin) :
    tag ≠ c := by
  intro heq
  rw [heq] at htag
  exact UInt32.not_lt.mpr htag hc

/-- An object is made, and others may be the ones whose properties are read. -/
structure Grown (o : Obj) (objs : List Value) (r r' : ReaderState) : Prop where
  later : Later r r'
  objs : r'.objs = objs
  allObjs : r'.allObjs = r.allObjs
  heap : r'.heap = r.heap ++ [o]

/-- Something is read before an object is made. -/
theorem Grown.of_onward {o : Obj} {objs : List Value} {r1 : ReaderState} (h : Onward r r1)
    (h' : Grown o objs r1 r') : Grown o objs r r' :=
  ⟨h.later.trans h'.later, h'.objs, h'.allObjs.trans h.allObjs, by rw [h'.heap, h.heap]⟩

/-- Items are read for a callback. -/
theorem follows_readHostItems {items : List HostItem} (hitems : ∀ obj, .typedArray obj ∉ items)
    (hbytes : ∀ bytes, .bytes bytes ∈ items → bytes.length < 2 ^ 32)
    (hr : At r (items.flatMap itemWords ++ rest)) :
    Follows may good (readHostItems env sr (items.map shapeOf)) r fun a r' =>
      a = items ∧ Onward r r' ∧ At r' rest ∧ r'.point = r.point + (items.flatMap itemWords).length := by
  induction items generalizing r with
  | nil => exact .pure ⟨rfl, .refl r, hr, rfl⟩
  | cons item items ih =>
    rw [List.flatMap_cons, List.append_assoc] at hr
    have hitem : Follows may good (readHostItem env sr (shapeOf item)) r fun a r' =>
        a = item ∧ Onward r r' ∧ At r' (items.flatMap itemWords ++ rest) ∧
          r'.point = r.point + (itemWords item).length := by
      cases item with
      | pair tag data =>
        refine (follows_readPair hr).bind fun p r1 hQ1 => .pure ⟨?_, hQ1.2⟩
        rw [hQ1.1]
      | bytes bytes =>
        refine (follows_readBytes hr (hbytes bytes List.mem_cons_self)).bind fun a r1 hQ1 => .pure ⟨?_, hQ1.2⟩
        rw [hQ1.1]
      | typedArray obj => exact absurd List.mem_cons_self (hitems obj)
    refine hitem.bind fun a r1 hQ1 => ?_
    have hrest := ih (fun obj hobj => hitems obj (List.mem_cons_of_mem item hobj))
      (fun bytes hmem => hbytes bytes (List.mem_cons_of_mem item hmem)) hQ1.2.2.1
    refine hrest.bind fun a' r2 hQ2 => .pure ⟨by rw [hQ1.1, hQ2.1], hQ1.2.1.trans hQ2.2.1, hQ2.2.2.1, ?_⟩
    rw [hQ2.2.2.2, hQ1.2.2.2, List.flatMap_cons, List.length_append, Nat.add_assoc]

variable (hmay : MayFail env may good)

include hmay

/-- An object is made. -/
theorem follows_newObject (o : Obj) (hgood : good r) :
    Follows may good (newObject env o) r fun c r' => c = r.heap.length ∧ Grown o r.objs r r' ∧
      r'.words = r.words ∧ r'.point = r.point := by
  refine (follows_external hmay hgood).bind fun _ r1 hQ1 => ?_
  have hlater : Later r { r1 with heap := r1.heap ++ [o] } := hQ1.1.later.trans (.of_same rfl)
  refine .of_ok rfl ⟨by rw [hQ1.1.heap], ⟨hlater, hQ1.1.objs, hQ1.1.allObjs, ?_⟩, hQ1.2⟩
  change r1.heap ++ [o] = _
  rw [hQ1.1.heap]

/-- An object is made from what was read. -/
theorem follows_newObject_after {r1 : ReaderState} {k : ℕ} (o : Obj) (honward : Onward r r1)
    (hr : At r1 rest) (hpoint : r1.point = r.point + k) (hgood : good r) :
    Follows may good (do
        let obj ← newObject env o
        pure (Value.object obj)) r1 fun v r' =>
      v = .object r.heap.length ∧ Grown o r.objs r r' ∧ At r' rest ∧ r'.point = r.point + k := by
  refine (follows_newObject hmay o (hmay.steady r r1 honward.later hgood)).bind fun c r2 hQ2 => ?_
  obtain ⟨rfl, hgrown, hwords2, hpoint2⟩ := hQ2
  rw [honward.objs] at hgrown
  refine .pure ⟨by rw [honward.heap], .of_onward honward hgrown, ?_, hpoint2.trans hpoint⟩
  rw [At, hwords2, hpoint2]
  exact hr

/-- A plain object or an array is started. -/
theorem follows_readPlain (isArray : Bool) (hr : At r rest) (hgood : good r) :
    Follows may good (readPlain env isArray) r fun v r' =>
      v = .object r.heap.length ∧ Grown (.plain isArray []) (.object r.heap.length :: r.objs) r r' ∧
        At r' rest ∧ r'.point = r.point := by
  refine (follows_newObject hmay (.plain isArray []) hgood).bind fun c r1 hQ1 => ?_
  obtain ⟨rfl, hgrown, hwords, hpoint⟩ := hQ1
  refine (follows_external hmay (hmay.steady r r1 hgrown.later hgood)).bind fun _ r2 hQ2 => ?_
  have hopen : Follows may good openObjects r2 fun objs r3 => objs = r.objs ∧ r3 = r2 :=
    .of_ok rfl ⟨by rw [hQ2.1.objs, hgrown.objs], rfl⟩
  refine hopen.bind fun objs r3 hQ3 => ?_
  obtain ⟨rfl, rfl⟩ := hQ3
  have hset : Follows may good (setOpenObjects (.object r.heap.length :: r.objs)) r3 fun _ r4 =>
      r4 = { r3 with objs := .object r.heap.length :: r.objs } := .of_ok rfl rfl
  refine hset.bind fun _ r4 hQ4 => .pure ⟨rfl, ?_, ?_, ?_⟩
  · rw [hQ4]
    exact ⟨hgrown.later.trans (hQ2.1.later.trans (.of_same rfl)), rfl,
      hQ2.1.allObjs.trans hgrown.allObjs, hQ2.1.heap.trans hgrown.heap⟩
  · rw [hQ4, At]
    change ∃ before, r3.words = _ ∧ r3.point = _
    rw [hQ2.2.1, hQ2.2.2, hwords, hpoint]
    exact hr
  · rw [hQ4]
    exact hQ2.2.2.trans hpoint

/-- An array buffer is read. -/
theorem follows_readArrayBuffer {bytes : List UInt8} (hr : At r (wordsOfBytes bytes ++ rest))
    (hlength : bytes.length < 2 ^ 32) (hgood : good r) :
    Follows may good (readArrayBuffer env (UInt32.ofNat bytes.length)) r fun v r' =>
      v = .object r.heap.length ∧ Grown (.arrayBuffer bytes) r.objs r r' ∧ At r' rest ∧
        r'.point = r.point + (wordsOfBytes bytes).length := by
  have hnat : (UInt32.ofNat bytes.length).toNat = bytes.length := UInt32.toNat_ofNat_of_lt' hlength
  unfold readArrayBuffer
  rw [hnat]
  refine (follows_newObject hmay _ hgood).bind fun c r1 hQ1 => ?_
  obtain ⟨rfl, hgrown, hwords, hpoint⟩ := hQ1
  have hr1 : At r1 (wordsOfBytes bytes ++ rest) := by rw [At, hwords, hpoint]; exact hr
  refine (follows_readBytes hr1 hlength).bind fun a r2 hQ2 => ?_
  obtain ⟨rfl, honward, hat, hpoint2⟩ := hQ2
  have hrecord : Follows may good (record (.copy a.length a.length)) r2 fun _ r3 =>
      r3 = { r2 with trace := r2.trace ++ [.copy a.length a.length] } := .of_ok rfl rfl
  refine hrecord.bind fun _ r3 hQ3 => .of_ok rfl ⟨rfl, ?_, ?_, ?_⟩
  · have hlater3 : Later r2 r3 := .of_record (e := .copy a.length a.length) rfl (by rw [hQ3])
    refine ⟨(hgrown.later.trans (honward.later.trans hlater3)).trans (.of_same rfl), ?_, ?_, ?_⟩
    · change r3.objs = _
      rw [hQ3]
      exact honward.objs.trans hgrown.objs
    · change r3.allObjs = _
      rw [hQ3]
      exact honward.allObjs.trans hgrown.allObjs
    · change r3.heap.set r.heap.length _ = _
      have hheap : r3.heap = r1.heap := by rw [hQ3]; exact honward.heap
      rw [hheap, hgrown.heap, List.set_append_right _ _ (Nat.le_refl _), Nat.sub_self]
      rfl
  · rw [hQ3]
    exact hat
  · rw [hQ3]
    exact hpoint2.trans (by rw [hpoint])

/-- An object is read. -/
theorem follows_readValue {o : Obj} (hvalid : ValidObj heap o) (hno : NoTypedArray o)
    (hhost : HostReads env o r.point) (hr : At r (objectRest o ++ rest)) (hgood : good r) :
    Follows may good (readValue env sr (objectTag o) (objectData o)) r fun v r' =>
      v = .object r.heap.length ∧
        Grown (startedObj o) (if isPlain o then .object r.heap.length :: r.objs else r.objs) r r' ∧
        At r' rest ∧ r'.point = r.point + (objectRest o).length := by
  have hone : ∀ b : Bool, decide ((if b then 1 else 0 : UInt32) ≠ 0) = b := by decide
  cases o with
  | plain isArray props =>
    cases isArray with
    | true =>
      change Follows may good (readValue env sr sctagArrayObject 0) r _
      unfold readValue
      iterate 9 refine .ite_neg (by decide) ?_
      exact .ite_pos rfl (follows_readPlain hmay true hr hgood)
    | false =>
      change Follows may good (readValue env sr sctagObjectObject 0) r _
      unfold readValue
      iterate 10 refine .ite_neg (by decide) ?_
      exact .ite_pos rfl (follows_readPlain hmay false hr hgood)
  | booleanObject b =>
    change Follows may good (readValue env sr sctagBooleanObject (if b then 1 else 0)) r _
    unfold readValue
    iterate 3 refine .ite_neg (by decide) ?_
    refine .ite_pos rfl ?_
    rw [hone b]
    exact follows_newObject_after hmay _ (.refl r) hr rfl hgood
  | numberObject d =>
    change Follows may good (readValue env sr sctagNumberObject 0) r _
    unfold readValue
    iterate 6 refine .ite_neg (by decide) ?_
    refine .ite_pos rfl ?_
    refine (follows_readDouble hr).bind fun a r1 hQ1 => ?_
    obtain ⟨rfl, honward, hat, hpoint⟩ := hQ1
    refine .ite_neg (not_not.mpr (checkDouble_canonicalizeNaN d)) ?_
    exact follows_newObject_after hmay _ honward hat hpoint hgood
  | stringObject chars =>
    change Follows may good (readValue env sr sctagStringObject (UInt32.ofNat chars.length)) r _
    unfold readValue
    iterate 5 refine .ite_neg (by decide) ?_
    refine .ite_pos rfl ?_
    refine (follows_readString hmay hr hvalid hgood).bind fun a r1 hQ1 => ?_
    obtain ⟨rfl, honward, hat, hpoint⟩ := hQ1
    exact follows_newObject_after hmay _ honward hat hpoint hgood
  | date d =>
    change Follows may good (readValue env sr sctagDateObject 0) r _
    unfold readValue
    iterate 7 refine .ite_neg (by decide) ?_
    refine .ite_pos rfl ?_
    refine (follows_readDouble hr).bind fun a r1 hQ1 => ?_
    obtain ⟨rfl, honward, hat, hpoint⟩ := hQ1
    refine .ite_neg (not_not.mpr (checkDouble_canonicalizeNaN d)) ?_
    refine .ite_neg ?_ ?_
    · intro hbad
      cases date_canonicalizeNaN hvalid with
      | inl hnan => exact hbad.1 hnan
      | inr hclipped => exact hbad.2 hclipped
    exact follows_newObject_after hmay _ honward hat hpoint hgood
  | regexp flags source =>
    change Follows may good (readValue env sr sctagRegexpObject flags) r _
    unfold readValue
    iterate 8 refine .ite_neg (by decide) ?_
    refine .ite_pos rfl ?_
    refine (follows_readPair hr).bind fun p r1 hQ1 => ?_
    obtain ⟨rfl, honward, hat, hpoint⟩ := hQ1
    refine .ite_neg (not_not.mpr rfl) ?_
    refine (follows_readString hmay hat hvalid (hmay.steady r r1 honward.later hgood)).bind
      fun a r2 hQ2 => ?_
    obtain ⟨rfl, honward2, hat2, hpoint2⟩ := hQ2
    have honward2 := honward.trans honward2
    refine (follows_external hmay (hmay.steady r r2 honward2.later hgood)).bind fun _ r3 hQ3 => ?_
    have honward3 := honward2.trans hQ3.1
    have hat3 : At r3 rest := by rw [At, hQ3.2.1, hQ3.2.2]; exact hat2
    refine follows_newObject_after hmay _ honward3 hat3 ?_ hgood
    rw [hQ3.2.2, hpoint2, hpoint, objectRest, CloneWriter.stringWords, List.length_cons]
    omega
  | arrayBuffer bytes =>
    change Follows may good (readValue env sr sctagArrayBufferObject (UInt32.ofNat bytes.length)) r _
    unfold readValue
    iterate 13 refine .ite_neg (by decide) ?_
    exact .ite_pos rfl (follows_readArrayBuffer hmay hr hvalid hgood)
  | typedArray type buffer byteOffset length => exact absurd hno id
  | host tag data items =>
    change Follows may good (readValue env sr tag data) r _
    unfold readValue
    iterate 14 refine .ite_neg (ne_of_userMin_le hvalid.1 (by decide)) ?_
    refine .ite_neg ?_ ?_
    · intro hle
      exact absurd (UInt32.le_trans hvalid.1 hle) (by decide)
    obtain ⟨shapes, hshapes, hread⟩ := hhost tag data items rfl
    unfold readHost
    rw [hshapes]
    change Follows may good (tell >>= _) r _
    have htell : Follows may good tell r fun p r1 => p = r.point ∧ r1 = r := .of_ok rfl ⟨rfl, rfl⟩
    refine htell.bind fun p r1 hQ1 => ?_
    obtain ⟨rfl, rfl⟩ := hQ1
    rw [hread]
    refine (follows_readHostItems hno hvalid.2 hr).bind fun a r2 hQ2 => ?_
    obtain ⟨rfl, honward, hat, hpoint⟩ := hQ2
    exact follows_newObject_after hmay _ honward hat hpoint hgood

end CloneReader

end SpiderMonkey.Vm.StructuredClone
