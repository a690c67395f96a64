import SpiderMonkey.Vm.StructuredCloneReaderSafe

/-!
# Safety of reading structured clones

Reading ends, and never reads beyond the input. Whether all else that it does is in range depends on
the sites where parts of typed arrays are read: the upper half of a word is ignored, a value in the
place of a buffer is taken for an object, and a product of 32 bits wraps around.
-/

namespace SpiderMonkey.Vm.StructuredClone

namespace CloneReader

variable {A B : Type} {env : Environment} {s s' : ReaderState} {d d' : ℕ}

/-- What follows in a run. -/
theorem KeepsAt.of_run (s' : ReaderState) {x : CloneReader A} {y : CloneReader A}
    {Q : A → ReaderState → Prop}
    (hx : x s = y s') (hwords : s'.words = s.words) (hsites : ∀ site ∈ s.sites, site ∈ s'.sites)
    (hpoint : s.point ≤ s'.point) (hy : KeepsAt env s' d y Q) : KeepsAt env s d x Q := by
  obtain ⟨hwords', hsites', hresult⟩ := hy
  rw [KeepsAt, hx]
  refine ⟨hwords'.trans hwords, fun site hsite => hsites' site (hsites site hsite), ?_⟩
  cases hys : y s' with
  | mk result s1 =>
    rw [hys] at hresult
    cases result with
    | error e => exact hresult
    | ok a => exact ⟨hresult.1, by have := hresult.2.1; omega, hresult.2.2⟩

/-- One thing after two others. -/
theorem bind_assoc {C : Type} (x : CloneReader A) (f : A → CloneReader B) (g : B → CloneReader C) :
    (x >>= f) >>= g = x >>= fun a => f a >>= g := by
  funext s
  change CloneReader.bind (CloneReader.bind x f) g s = CloneReader.bind x (fun a => f a >>= g) s
  unfold CloneReader.bind
  cases x s with
  | mk result s1 =>
    cases result with
    | error e => rfl
    | ok a => rfl

/-- A word is there. -/
theorem readWord_ok {u : UInt64} (hword : s.words[s.point]? = some u) :
    readWord s = (.ok u, { s with
      point := s.point + 1
      trace := s.trace ++ [.input s.point 1] }) := by
  have hlt := (List.getElem?_eq_some_iff.mp hword).1
  unfold readWord
  rw [if_neg (Nat.ne_of_lt hlt)]
  dsimp only
  rw [hword]

/-- The rest of a typed array, once what stands for its buffer is read. If this is no object, a site
is not sound, unless the input ends. -/
theorem keeps_readBuffer_rest (hs : Safe env s) (arrayType nelems : UInt32) (v : Value)
    (hv : v.isObject = true ∨ ∃ site ∈ s.sites, s.point < s.words.length → ¬ site.Sound s.words)
    {rest : ℕ → CloneReader A} {Q : A → ReaderState → Prop}
    (hrest : ∀ obj s', Safe env s' → KeepsAt env s' 0 (rest obj) Q) :
    KeepsAt env s 0 (do
      visit fun s => .byteOffset s.point (bytesPerTypedArrayElement arrayType) nelems
        (objectAt s.heap v)
      let n ← readWord
      let buffer ← toObject v
      let obj ← newTypedArray env arrayType buffer n nelems
      rest obj) Q := by
  let o : Option Obj := objectAt s.heap v
  have ho : ∀ obj, v = .object obj → o = s.heap[obj]? := by
    intro obj hobj
    cases hobj
    rfl
  let site : Site := .byteOffset s.point (bytesPerTypedArrayElement arrayType) nelems o
  let s1 : ReaderState := { s with sites := s.sites ++ [site] }
  have hkept : ∀ site' ∈ s.sites, site' ∈ s1.sites :=
    fun site' hsite' => List.mem_append_left [site] hsite'
  have hmem : site ∈ s1.sites := List.mem_append_right s.sites (List.mem_singleton_self site)
  by_cases hsound : site.Sound s.words
  · have hs1 : Safe env s1 := ⟨hs.agree.visit hsound rfl rfl rfl, hs.point_le, hs.objs, hs.heap⟩
    refine KeepsAt.of_run s1 (bind_ok rfl) rfl hkept (Nat.le_refl _) ?_
    refine ((keeps_readWord hs1).mono (Nat.zero_le 1) fun _ _ hQ => hQ).bind
      fun n s2 hs2 hw2 _ hsites2 hQ2 => ?_
    cases hv' : v.isObject with
    | true =>
      refine (keeps_toObject hs2 hv').bind fun buffer s3 hs3 hw3 _ _ hQ3 => ?_
      have hword : ∀ bytes, s3.heap[buffer]? = some (.arrayBuffer bytes) →
          (fromBuffer (bytesPerTypedArrayElement arrayType) bytes.length n.toUInt32 nelems).isSome =
            true → n.toNat < 2 ^ 32 := by
        intro bytes hbytes
        have ho' : o = some (.arrayBuffer bytes) := by
          rw [← hbytes, hQ3.2, hQ2.2.2.2]
          exact ho buffer hQ3.1
        exact hsound n bytes hQ2.1 ho'
      refine (keeps_newTypedArray hs3 arrayType buffer nelems hword).bind
        fun obj s4 hs4 _ _ _ _ => hrest obj s4 hs4
    | false =>
      let s3 : ReaderState := { s2 with trace := s2.trace ++ [.toObject v] }
      have hlt : s.point < s.words.length := (List.getElem?_eq_some_iff.mp hQ2.1).1
      obtain ⟨site', hsite', hunsound⟩ := hv.resolve_left (by rw [hv']; decide)
      have hfault : toObject v s2 = (.error .fault, s3) := by
        cases v with
        | object obj => cases hv'
        | _ => rfl
      have hmem' : site' ∈ s3.sites := hsites2 site' (hkept site' hsite')
      have hwords : s3.words = s.words := hw2
      refine .of_error (bind_error hfault) rfl (fun _ hsite => hsite) ?_ (by intro h; cases h)
      refine Agree.of_not ?_ hmem' (by rw [hwords]; exact hunsound hlt)
        (List.mem_append_right _ (List.mem_singleton_self _)) (e := .toObject v) ?_
      · rw [List.forall_mem_append, List.forall_mem_singleton]
        exact ⟨hs2.agree.reads, fun h => by cases h⟩
      · intro hobject
        rw [Event.InRange, hv'] at hobject
        cases hobject
  · -- The offset is taken for its lower half, unless the engine fails.
    have hbad : ∃ word bytes, s.words[s.point]? = some word ∧ o = some (.arrayBuffer bytes) ∧
        (fromBuffer (bytesPerTypedArrayElement arrayType) bytes.length word.toUInt32 nelems).isSome =
          true ∧ ¬ word.toNat < 2 ^ 32 := by
      by_contra hnone
      refine hsound fun word bytes hword ho hsome => ?_
      by_contra hlt
      exact hnone ⟨word, bytes, hword, ho, hsome, hlt⟩
    obtain ⟨word, bytes, hword, ho, hsome, hlt⟩ := hbad
    obtain ⟨len, hfrom⟩ := Option.isSome_iff_exists.mp hsome
    cases v with
    | object buffer =>
      have hbuffer : s.heap[buffer]? = some (.arrayBuffer bytes) := ho
      have hpoint : s.point < s.words.length := (List.getElem?_eq_some_iff.mp hword).1
      have hsize : bytes.length < 2 ^ 32 := hs.heap bytes (List.mem_of_getElem? hbuffer)
      let e : Event := .input s.point 1
      let s2 : ReaderState := { s1 with
        point := s.point + 1
        trace := s.trace ++ [e] ++ [.toObject (.object buffer)] }
      have hrun : (do
          visit fun s => .byteOffset s.point (bytesPerTypedArrayElement arrayType) nelems s.heap[buffer]?
          let n ← readWord
          let buffer ← toObject (.object buffer)
          let obj ← newTypedArray env arrayType buffer n nelems
          rest obj) s = (newTypedArray env arrayType buffer word nelems >>= rest) s2 := by
        have hvisit : visit (fun s => .byteOffset s.point (bytesPerTypedArrayElement arrayType) nelems
            s.heap[buffer]?) s = (.ok (), s1) := rfl
        have hread : readWord s1 = (.ok word, { s1 with
            point := s.point + 1
            trace := s.trace ++ [e] }) := readWord_ok (s := s1) hword
        exact (bind_ok hvisit).trans (bind_ok hread)
      have hreads : ∀ e ∈ s2.trace, e.isInput = true → e.InRange s2.words.length := by
        rw [List.forall_mem_append, List.forall_mem_append, List.forall_mem_singleton,
          List.forall_mem_singleton]
        exact ⟨⟨hs.agree.reads, fun _ => hpoint⟩, fun h => by cases h⟩
      have hnew : newTypedArray env arrayType buffer word nelems s2 = (do
          let obj ← newObject env (.typedArray arrayType buffer word.toUInt32 len)
          record (.byteOffset word len (bytesPerTypedArrayElement arrayType) bytes.length)
          pure obj) s2 := by
        have hget : getObj buffer s2 = (.ok (some (.arrayBuffer bytes)), s2) := by
          rw [← hbuffer]
          rfl
        refine (bind_ok hget).trans ?_
        dsimp only
        rw [hfrom]
      by_cases hgood : env.succeeds s.ticks = true
      · let e' : Event := .byteOffset word len (bytesPerTypedArrayElement arrayType) bytes.length
        let s3 : ReaderState := { s2 with
          ticks := s.ticks + 1
          heap := s.heap ++ [.typedArray arrayType buffer word.toUInt32 len]
          trace := s2.trace ++ [e'] }
        have hexternal : external env s2 = (.ok (), { s2 with ticks := s.ticks + 1 }) := if_pos hgood
        have hmade : newTypedArray env arrayType buffer word nelems s2 = (.ok s.heap.length, s3) := by
          have hobject : newObject env (.typedArray arrayType buffer word.toUInt32 len) s2 =
              (.ok s.heap.length, { s2 with
                ticks := s.ticks + 1
                heap := s.heap ++ [.typedArray arrayType buffer word.toUInt32 len] }) :=
            bind_ok hexternal
          rw [hnew]
          exact bind_ok hobject
        have hout : ¬ e'.InRange s3.words.length := by
          intro hin
          have hin := hin.2
          omega
        have hreads' : ∀ e ∈ s3.trace, e.isInput = true → e.InRange s3.words.length := by
          rw [List.forall_mem_append, List.forall_mem_singleton]
          exact ⟨hreads, fun h => by cases h⟩
        have hs3 : Safe env s3 := by
          refine ⟨Agree.of_not hreads' hmem hsound (List.mem_append_right _ (List.mem_singleton_self e'))
            hout, hpoint, hs.objs, ?_⟩
          intro bytes hmem'
          cases List.mem_append.mp hmem' with
          | inl hmem' => exact hs.heap bytes hmem'
          | inr hmem' => cases List.mem_singleton.mp hmem'
        exact KeepsAt.of_run _ (hrun.trans (bind_ok hmade)) rfl hkept (Nat.le_succ _)
          (hrest s.heap.length s3 hs3)
      · have hexternal : external env s2 =
            (.error (.error "external"), { s2 with ticks := s.ticks + 1 }) := if_neg hgood
        have hmade : newTypedArray env arrayType buffer word nelems s2 =
            (.error (.error "external"), { s2 with ticks := s.ticks + 1 }) := by
          rw [hnew]
          exact bind_error (bind_error hexternal)
        exact .of_error (hrun.trans (bind_error hmade)) rfl hkept
          (Agree.of_fails hreads hmem hsound fun hsucceeds => hgood (hsucceeds _))
          (by intro h; cases h)
    | _ =>
      have hnone : none = some (Obj.arrayBuffer bytes) := ho
      cases hnone

/-- What is read is an object, or a primitive value or an object that was read before, with its
words. -/
def ReadsAs (s : ReaderState) (v : Value) (s' : ReaderState) : Prop :=
  v.isObject = true ∨ ∃ u, s.words[s.point]? = some u ∧
    ((∃ k, primitiveWords u = some k ∧ s'.point = s.point + k) ∨
      tagOf u = sctagBackReferenceObject ∧ s.allObjs[(dataOf u).toNat]? = some v ∧
        s'.point = s.point + 1)

/-- If no object is read where a buffer should be, its site is not sound, unless the input ends. -/
theorem ReadsAs.unsound {v : Value} (hv : ReadsAs s v s') (hwords : s'.words = s.words)
    (hsites : Site.buffer s.point s.allObjs ∈ s'.sites) : v.isObject = true ∨
      ∃ site ∈ s'.sites, s'.point < s'.words.length → ¬ site.Sound s'.words := by
  cases hobject : v.isObject with
  | true => exact Or.inl rfl
  | false =>
    refine Or.inr ⟨_, hsites, fun hlt hsound => ?_⟩
    obtain ⟨u, hu, hcases⟩ := hv.resolve_left (by rw [hobject]; decide)
    rw [hwords] at hlt hsound
    obtain ⟨hprimitive, hreference⟩ := hsound u hu
    cases hcases with
    | inl hk =>
      obtain ⟨k, hk, hpoint⟩ := hk
      have hle := hprimitive k hk
      omega
    | inr hback =>
      have hle := (hreference v hback.1 hback.2.1).resolve_left (by rw [hobject]; decide)
      have hpoint := hback.2.2
      omega

/-- A typed array other than one of version 1 is read, up to the rest. -/
theorem keeps_readBuffer {startRead : CloneReader Value} (hs : Safe env s) (arrayType nelems : UInt32)
    (hstart : ∀ s1, Safe env s1 → s1.words = s.words → s1.point = s.point →
      KeepsAt env s1 1 startRead (ReadsAs s1))
    (hprimitive : Succeeds env → ∀ s1, s1.words = s.words → s1.point = s.point →
      ¬ (Site.buffer s1.point s1.allObjs).Sound s1.words → ∃ v s2, startRead s1 = (.ok v, s2) ∧
        v.isObject = false ∧ s2.words = s1.words ∧ s1.point ≤ s2.point ∧
          s2.point < s2.words.length ∧ s2.sites = s1.sites ∧
            ∀ e ∈ s2.trace, e ∈ s1.trace ∨ e.InRange s1.words.length)
    {rest : ℕ → CloneReader A} {Q : A → ReaderState → Prop}
    (hrest : ∀ obj s', Safe env s' → KeepsAt env s' 0 (rest obj) Q) :
    KeepsAt env s 0 (do
      let (v, n) ← readBuffer env startRead arrayType nelems false
      let buffer ← toObject v
      let obj ← newTypedArray env arrayType buffer n nelems
      rest obj) Q := by
  let after (v : Value) : CloneReader A := do
    visit fun s => .byteOffset s.point (bytesPerTypedArrayElement arrayType) nelems
      (objectAt s.heap v)
    let n ← readWord
    let buffer ← toObject v
    let obj ← newTypedArray env arrayType buffer n nelems
    rest obj
  let site : Site := .buffer s.point s.allObjs
  let s1 : ReaderState := { s with sites := s.sites ++ [site] }
  have hkept : ∀ site' ∈ s.sites, site' ∈ s1.sites :=
    fun site' hsite' => List.mem_append_left [site] hsite'
  have hmem : site ∈ s1.sites := List.mem_append_right s.sites (List.mem_singleton_self site)
  have hrun : (do
      let (v, n) ← readBuffer env startRead arrayType nelems false
      let buffer ← toObject v
      let obj ← newTypedArray env arrayType buffer n nelems
      rest obj) s = (startRead >>= after) s1 := by
    have hvisit : visit (fun s => .buffer s.point s.allObjs) s = (.ok (), s1) := rfl
    unfold readBuffer
    rw [if_neg (by decide), bind_assoc]
    refine (bind_ok hvisit).trans ?_
    rw [bind_assoc]
    refine congrFun (congrArg (fun f => startRead >>= f) (funext fun v => ?_)) s1
    rw [bind_assoc]
    refine congrArg (fun f => visit _ >>= f) (funext fun _ => ?_)
    rw [bind_assoc]
    rfl
  by_cases hsafe : Safe env s1
  · refine KeepsAt.of_run _ hrun rfl hkept (Nat.le_refl _) ?_
    refine ((hstart s1 hsafe rfl rfl).mono (Nat.zero_le 1) fun _ _ hQ => hQ).bind
      fun v s2 hs2 hw2 _ hsites2 hQ2 => ?_
    exact keeps_readBuffer_rest hs2 arrayType nelems v
      (hQ2.unsound hw2 (hsites2 site hmem)) hrest
  · -- The engine does not fail, and no object is read where the buffer should be.
    have hunsound : ¬ site.Sound s.words := fun hsound =>
      hsafe ⟨hs.agree.visit hsound rfl rfl rfl, hs.point_le, hs.objs, hs.heap⟩
    have hsucceeds : Succeeds env := by
      by_contra hfails
      exact hsafe ⟨Agree.of_fails hs.agree.reads hmem hunsound hfails, hs.point_le, hs.objs, hs.heap⟩
    obtain ⟨v, s2, hread, hv, hwords, hpoint, hlt, hsites, htrace⟩ :=
      hprimitive hsucceeds s1 rfl rfl hunsound
    obtain ⟨u, hu⟩ : ∃ u, s2.words[s2.point]? = some u := ⟨_, List.getElem?_eq_getElem hlt⟩
    let o : Option Obj := objectAt s2.heap v
    let s3 : ReaderState := { s2 with
      sites := s2.sites ++
        [.byteOffset s2.point (bytesPerTypedArrayElement arrayType) nelems o]
      point := s2.point + 1
      trace := s2.trace ++ [.input s2.point 1] ++ [.toObject v] }
    have hfault : after v s2 = (.error .fault, s3) := by
      let s2' : ReaderState := { s2 with
        sites := s2.sites ++
          [.byteOffset s2.point (bytesPerTypedArrayElement arrayType) nelems o] }
      have hvisit : visit (fun s => .byteOffset s.point (bytesPerTypedArrayElement arrayType) nelems
          (objectAt s.heap v)) s2 = (.ok (), s2') := rfl
      have hword := readWord_ok (s := s2') hu
      have hobject : ∀ s' : ReaderState, toObject v s' =
          (.error .fault, { s' with trace := s'.trace ++ [.toObject v] }) := by
        intro s'
        cases v with
        | object obj => cases hv
        | _ => rfl
      exact (bind_ok hvisit).trans ((bind_ok hword).trans (bind_error (hobject _)))
    have hwords3 : s3.words = s.words := hwords
    refine .of_error (hrun.trans ((bind_ok hread).trans hfault)) hwords ?_ ?_ (by intro h; cases h)
    · intro site' hsite'
      have hsite2 : site' ∈ s2.sites := by rw [hsites]; exact hkept site' hsite'
      exact List.mem_append_left _ hsite2
    · refine Agree.of_not ?_ ?_ (by rw [hwords3]; exact hunsound : ¬ site.Sound s3.words)
        (List.mem_append_right _ (List.mem_singleton_self _)) (e := .toObject v) ?_
      · rw [List.forall_mem_append, List.forall_mem_append, List.forall_mem_singleton,
          List.forall_mem_singleton]
        refine ⟨⟨fun e he hinput => ?_, fun _ => hlt⟩, fun h => by cases h⟩
        rw [hwords3]
        cases htrace e he with
        | inl hmem' => exact hs.agree.reads e hmem' hinput
        | inr hin => exact hin
      · have hsite2 : site ∈ s2.sites := by rw [hsites]; exact hmem
        exact List.mem_append_left _ hsite2
      · intro hin
        rw [Event.InRange, hv] at hin
        cases hin

/-- A typed array is read. -/
theorem keeps_readTypedArray {startRead : CloneReader Value} (hs : Safe env s) (point : ℕ)
    (arrayType nelems : UInt32) (v1Read : Bool)
    (hstart : ∀ s1, Safe env s1 → s1.words = s.words → s1.point = s.point →
      KeepsAt env s1 1 startRead (ReadsAs s1))
    (hprimitive : Succeeds env → ∀ s1, s1.words = s.words → s1.point = s.point →
      ¬ (Site.buffer s1.point s1.allObjs).Sound s1.words → ∃ v s2, startRead s1 = (.ok v, s2) ∧
        v.isObject = false ∧ s2.words = s1.words ∧ s1.point ≤ s2.point ∧
          s2.point < s2.words.length ∧ s2.sites = s1.sites ∧
            ∀ e ∈ s2.trace, e ∈ s1.trace ∨ e.InRange s1.words.length) :
    KeepsAt env s 0 (readTypedArray env startRead point arrayType nelems v1Read)
      fun v _ => v.isObject = true := by
  refine .ite (fun _ => keeps_badData hs _) fun _ => ?_
  have hcount : KeepsAt env s 0 countObjects fun _ s' => s' = s :=
    .of_ok rfl rfl (fun _ hsite => hsite) hs (Nat.le_refl _) rfl
  refine hcount.bind fun i s1 hs1 hw1 _ _ hQ1 => ?_
  refine (keeps_appendObject hs1 .null).bind fun _ s2 hs2 hw2 _ _ hQ2 => ?_
  have hwords : s2.words = s.words := hw2.trans hw1
  have hpoint : s2.point = s.point := by rw [hQ2, hQ1]
  have hrest : ∀ obj s', Safe env s' → KeepsAt env s' 0 (do
      record (.object point obj)
      setObject i (.object obj)
      pure (Value.object obj)) fun v _ => v.isObject = true := by
    intro obj s3 hs3
    refine (keeps_record hs3 (e := .object point obj) trivial).bind fun _ s4 hs4 _ _ _ _ => ?_
    have hset : KeepsAt env s4 0 (setObject i (.object obj)) fun _ _ => True :=
      keeps_update hs4 rfl rfl rfl rfl rfl hs4.objs hs4.heap trivial
    exact hset.bind fun _ s5 hs5 _ _ _ _ => .pure hs5 rfl
  cases v1Read with
  | true =>
    refine (keeps_readBuffer_v1 hs2 startRead arrayType nelems).bind fun p s3 hs3 _ _ _ hQ3 => ?_
    obtain ⟨v, word⟩ := p
    refine (keeps_toObject hs3 hQ3.1).bind fun buffer s4 hs4 _ _ _ _ => ?_
    have hzero : word = 0 := hQ3.2
    refine (keeps_newTypedArray hs4 arrayType buffer nelems fun _ _ _ => by rw [hzero]; decide).bind
      fun obj s5 hs5 _ _ _ _ => hrest obj s5 hs5
  | false =>
    refine keeps_readBuffer hs2 arrayType nelems ?_ ?_ hrest
    · intro s3 hs3 hw3 hp3
      exact hstart s3 hs3 (hw3.trans hwords) (hp3.trans hpoint)
    · intro hsucceeds s3 hw3 hp3
      exact hprimitive hsucceeds s3 (hw3.trans hwords) (hp3.trans hpoint)

/-- The type of a typed array is read. -/
theorem keeps_readArrayType (hs : Safe env s) : KeepsAt env s 1 readArrayType fun _ s' =>
    s'.point = s.point + 1 := by
  let site : Site := .arrayType s.point
  let s1 : ReaderState := { s with sites := s.sites ++ [site] }
  have hvisit : visit (fun s => .arrayType s.point) s = (.ok (), s1) := rfl
  have hkept : ∀ site' ∈ s.sites, site' ∈ s1.sites :=
    fun site' hsite' => List.mem_append_left [site] hsite'
  have hmem : site ∈ s1.sites := List.mem_append_right s.sites (List.mem_singleton_self site)
  by_cases hsound : site.Sound s.words
  · have hs1 : Safe env s1 := ⟨hs.agree.visit hsound rfl rfl rfl, hs.point_le, hs.objs, hs.heap⟩
    refine KeepsAt.of_run _ (bind_ok hvisit) rfl hkept (Nat.le_refl _) ?_
    refine (keeps_readWord hs1).bind fun word s2 hs2 _ _ _ hQ2 => ?_
    refine .ite (fun _ => .pure hs2 hQ2.2.1) fun haccepted => ?_
    have hle : word.toUInt32 ≤ typeUint8Clamped := UInt32.not_lt.mp haccepted
    have hlt := hsound word hQ2.1 hle
    have hin : word.toNat ≤ typeUint8Clamped.toNat := by
      rw [← toNat_toUInt32_of_lt hlt]
      exact UInt32.le_iff_toNat_le.mp hle
    refine (keeps_record hs2 (e := .arrayType word) hin).bind fun _ s3 hs3 _ _ _ hQ3 => ?_
    exact .pure hs3 (by rw [hQ3.1, hQ2.2.1])
  · have hbad : ∃ word, s.words[s.point]? = some word ∧ word.toUInt32 ≤ typeUint8Clamped ∧
        ¬ word.toNat < 2 ^ 32 := by
      by_contra hnone
      refine hsound fun word hword hle => ?_
      by_contra hlt
      exact hnone ⟨word, hword, hle, hlt⟩
    obtain ⟨word, hword, hle, hlt⟩ := hbad
    have hpoint : s.point < s.words.length := (List.getElem?_eq_some_iff.mp hword).1
    let s2 : ReaderState := { s1 with
      point := s.point + 1
      trace := s.trace ++ [.input s.point 1] ++ [.arrayType word] }
    have hrun : readArrayType s = (.ok word, s2) := by
      refine (bind_ok hvisit).trans ((bind_ok (readWord_ok (s := s1) hword)).trans ?_)
      exact congrFun (if_neg (UInt32.not_lt.mpr hle)) _
    have hreads : ∀ e ∈ s2.trace, e.isInput = true → e.InRange s2.words.length := by
      rw [List.forall_mem_append, List.forall_mem_append, List.forall_mem_singleton,
        List.forall_mem_singleton]
      exact ⟨⟨hs.agree.reads, fun _ => hpoint⟩, fun h => by cases h⟩
    have hout : ¬ (Event.arrayType word).InRange s2.words.length := by
      intro hin
      have hin : word.toNat ≤ 8 := hin
      omega
    have hagree : Agree env s2 := Agree.of_not hreads hmem hsound
      (List.mem_append_right _ (List.mem_singleton_self _)) hout
    exact .of_ok hrun rfl hkept ⟨hagree, hpoint, hs.objs, hs.heap⟩ (Nat.le_refl _) rfl

/-- A value other than a typed array or a reference is read. -/
theorem keeps_readValue {startRead : CloneReader Value} (hs : Safe env s)
    (hcallbacks : env.readHost = none) (u : UInt64) :
    KeepsAt env s 0 (readValue env startRead (tagOf u) (dataOf u)) fun v s' =>
      v.isObject = true ∨ ∃ k, primitiveWords u = some (1 + k) ∧ s'.point = s.point + k := by
  have hnew : ∀ s1, Safe env s1 → ∀ o, (∀ bytes, o = .arrayBuffer bytes → bytes.length < 2 ^ 32) →
      KeepsAt env s1 0 (do
        let obj ← newObject env o
        pure (Value.object obj)) fun v s' =>
          v.isObject = true ∨ ∃ k, primitiveWords u = some (1 + k) ∧ s'.point = s.point + k :=
    fun s1 hs1 o ho => (keeps_newObject hs1 ho).bind fun obj s2 hs2 _ _ _ _ => .pure hs2 (Or.inl rfl)
  have hplain : ∀ isArray, KeepsAt env s 0 (readPlain env isArray) fun v s' =>
      v.isObject = true ∨ ∃ k, primitiveWords u = some (1 + k) ∧ s'.point = s.point + k := by
    intro isArray
    refine (keeps_newObject hs (o := .plain isArray []) fun _ h => by cases h).bind
      fun obj s1 hs1 _ _ _ _ => ?_
    refine (keeps_external hs1).bind fun _ s2 hs2 _ _ _ _ => ?_
    have hget : KeepsAt env s2 0 openObjects fun objs s' => objs = s2.objs ∧ s' = s2 :=
      .of_ok rfl rfl (fun _ hsite => hsite) hs2 (Nat.le_refl _) ⟨rfl, rfl⟩
    refine hget.bind fun objs s3 hs3 _ _ _ hQ3 => ?_
    have hset : KeepsAt env s3 0 (setOpenObjects (.object obj :: objs)) fun _ _ => True := by
      refine keeps_update hs3 rfl rfl rfl rfl rfl ?_ hs3.heap trivial
      intro v hv
      cases List.mem_cons.mp hv with
      | inl heq => rw [heq]; rfl
      | inr hmem => rw [hQ3.1] at hmem; exact hs2.objs v hmem
    exact hset.bind fun _ s4 hs4 _ _ _ _ => .pure hs4 (Or.inl rfl)
  unfold readValue
  refine .ite (fun htag => .pure hs (Or.inr ⟨0, if_pos (Or.inl htag), rfl⟩)) fun _ => ?_
  refine .ite (fun htag => .pure hs (Or.inr ⟨0, if_pos (Or.inr (Or.inl htag)), rfl⟩)) fun _ => ?_
  refine .ite (fun htag => .pure hs (Or.inr ⟨0, if_pos (Or.inr (Or.inr htag)), rfl⟩)) fun _ => ?_
  refine .ite (fun _ => hnew s hs _ fun _ h => by cases h) fun _ => ?_
  refine .ite (fun htag => ?_) fun _ => ?_
  · refine (keeps_readString hs (dataOf u)).bind fun chars s1 hs1 _ _ _ hQ1 => .pure hs1 (Or.inr ?_)
    refine ⟨howMany (dataOf u).toNat 4, ?_, hQ1.2⟩
    rw [primitiveWords, htag, if_neg (by decide), if_pos rfl, if_neg hQ1.1]
  refine .ite (fun _ => (keeps_readString hs _).bind fun chars s1 hs1 _ _ _ _ =>
    hnew s1 hs1 _ fun _ h => by cases h) fun _ => ?_
  refine .ite (fun _ => ?_) fun _ => ?_
  · refine ((keeps_readDouble hs).mono (Nat.zero_le 1) fun _ _ hQ => hQ).bind
      fun d s1 hs1 _ _ _ _ => ?_
    exact .ite (fun _ => keeps_badData hs1 _) fun _ => hnew s1 hs1 _ fun _ h => by cases h
  refine .ite (fun _ => ?_) fun _ => ?_
  · refine ((keeps_readDouble hs).mono (Nat.zero_le 1) fun _ _ hQ => hQ).bind
      fun d s1 hs1 _ _ _ _ => ?_
    refine .ite (fun _ => keeps_badData hs1 _) fun _ => ?_
    exact .ite (fun _ => keeps_badData hs1 _) fun _ => hnew s1 hs1 _ fun _ h => by cases h
  refine .ite (fun _ => ?_) fun _ => ?_
  · refine ((keeps_readPair hs).mono (Nat.zero_le 1) fun _ _ hQ => hQ).bind
      fun p s1 hs1 _ _ _ _ => ?_
    refine .ite (fun _ => keeps_badData hs1 _) fun _ => ?_
    refine (keeps_readString hs1 _).bind fun source s2 hs2 _ _ _ _ => ?_
    exact (keeps_external hs2).bind fun _ s3 hs3 _ _ _ _ => hnew s3 hs3 _ fun _ h => by cases h
  refine .ite (fun _ => hplain true) fun _ => ?_
  refine .ite (fun _ => hplain false) fun _ => ?_
  refine .ite (fun _ => keeps_badData hs _) fun _ => ?_
  refine .ite (fun _ => keeps_badData hs _) fun _ => ?_
  refine .ite (fun _ => (keeps_readArrayBuffer hs _).mono (Nat.le_refl 0) fun _ _ hv => Or.inl hv)
    fun _ => ?_
  refine .ite (fun htag => ?_) fun _ => ?_
  · refine .ite (fun _ => keeps_badData hs _) fun _ => .pure hs (Or.inr ⟨0, ?_, rfl⟩)
    rw [primitiveWords, if_neg, if_neg (ne_of_le_floatMax htag (by decide)), if_pos htag]
    rw [not_or, not_or]
    exact ⟨ne_of_le_floatMax htag (by decide), ne_of_le_floatMax htag (by decide),
      ne_of_le_floatMax htag (by decide)⟩
  · unfold readHost
    rw [hcallbacks]
    exact keeps_badData hs _

/-- The words of an array are there. -/
theorem readArray_ok {size nelems : ℕ} (hnelems : nelems < 2 ^ 32)
    (hle : s.point + howMany nelems (8 / size) ≤ s.words.length) :
    ∃ words, readArray size nelems s = (.ok words, { s with
      point := s.point + howMany nelems (8 / size)
      trace := s.trace ++ [.input s.point (howMany nelems (8 / size))] }) := by
  have hfew : ¬ (nelems + (8 / size - 1) ≥ 2 ^ 64 ∨
      howMany nelems (8 / size) > s.words.length - s.point) := by
    have hle : 8 / size ≤ 8 := Nat.div_le_self 8 size
    omega
  refine ⟨(s.words.drop s.point).take (howMany nelems (8 / size)), ?_⟩
  unfold readArray
  dsimp only
  rw [if_neg hfew, Segments.segment, if_pos hle]

/-- An object is referred to. -/
theorem readBackReference_ok {data : UInt32} {v : Value} (hv : s.allObjs[data.toNat]? = some v) :
    readBackReference data s =
      (.ok v, { s with trace := s.trace ++ [.backReference data v] }) := by
  unfold readBackReference
  rw [hv]

/-- There is no object to refer to. -/
theorem readBackReference_error {data : UInt32} (hv : s.allObjs[data.toNat]? = none) :
    readBackReference data s = (.error (.error "invalid back reference in input"), s) := by
  unfold readBackReference
  rw [hv]
  rfl

/-- The engine does something, if it does not fail. -/
theorem external_ok (hsucceeds : Succeeds env) (s : ReaderState) :
    external env s = (.ok (), { s with ticks := s.ticks + 1 }) := if_pos (hsucceeds _)

/-- A string is there. -/
theorem readString_ok (hsucceeds : Succeeds env) {nchars : UInt32}
    (hmax : ¬ nchars.toNat > maxStringLength)
    (hle : s.point + howMany nchars.toNat 4 ≤ s.words.length) :
    ∃ chars, readString env nchars s = (.ok chars, { s with
      point := s.point + howMany nchars.toNat 4
      ticks := s.ticks + 1 + 1
      trace := s.trace ++ [.input s.point (howMany nchars.toNat 4)] }) := by
  let s1 : ReaderState := { s with ticks := s.ticks + 1 }
  have hread : ∃ words, readArray 2 nchars.toNat s1 = (.ok words, { s1 with
      point := s1.point + howMany nchars.toNat 4
      trace := s1.trace ++ [.input s1.point (howMany nchars.toNat 4)] }) :=
    readArray_ok nchars.toNat_lt hle
  obtain ⟨words, hwords⟩ := hread
  refine ⟨(charsOf words).take nchars.toNat, ?_⟩
  unfold readString
  rw [if_neg hmax]
  have hchars : readChars nchars.toNat s1 = (.ok ((charsOf words).take nchars.toNat), { s1 with
      point := s1.point + howMany nchars.toNat 4
      trace := s1.trace ++ [.input s1.point (howMany nchars.toNat 4)] }) := bind_ok hwords
  exact (bind_ok (external_ok hsucceeds s)).trans ((bind_ok hchars).trans
    (bind_ok (external_ok hsucceeds _)))

/-- A primitive value is read. -/
theorem readValue_primitive (hsucceeds : Succeeds env) (startRead : CloneReader Value) {u : UInt64}
    {k : ℕ} (hk : primitiveWords u = some (1 + k)) (hle : s.point + k ≤ s.words.length) :
    ∃ v s', readValue env startRead (tagOf u) (dataOf u) s = (.ok v, s') ∧ v.isObject = false ∧
      s'.words = s.words ∧ s'.point = s.point + k ∧ s'.sites = s.sites ∧
        ∀ e ∈ s'.trace, e ∈ s.trace ∨ e.InRange s.words.length := by
  unfold primitiveWords at hk
  split at hk
  · have hzero : k = 0 := by
      have hsome := Option.some.inj hk
      omega
    rename_i htag
    rw [hzero]
    cases htag with
    | inl htag =>
      refine ⟨.null, s, ?_, rfl, rfl, rfl, rfl, fun _ he => Or.inl he⟩
      rw [readValue, htag]
      rfl
    | inr htag =>
      cases htag with
      | inl htag =>
        refine ⟨.undefined, s, ?_, rfl, rfl, rfl, rfl, fun _ he => Or.inl he⟩
        rw [readValue, htag]
        rfl
      | inr htag =>
        refine ⟨.boolean (dataOf u ≠ 0), s, ?_, rfl, rfl, rfl, rfl, fun _ he => Or.inl he⟩
        rw [readValue, htag]
        rfl
  · split at hk
    · rename_i htag
      split at hk
      · cases hk
      · rename_i hmax
        have hk : howMany (dataOf u).toNat 4 = k := by
          have hsome := Option.some.inj hk
          omega
        rw [← hk] at hle ⊢
        obtain ⟨chars, hchars⟩ := readString_ok hsucceeds hmax hle
        let s1 : ReaderState := { s with
          point := s.point + howMany (dataOf u).toNat 4
          ticks := s.ticks + 1 + 1
          trace := s.trace ++ [.input s.point (howMany (dataOf u).toNat 4)] }
        refine ⟨.string chars, s1, ?_, rfl, rfl, rfl, rfl, ?_⟩
        · rw [readValue, htag]
          exact bind_ok hchars
        · rw [List.forall_mem_append, List.forall_mem_singleton]
          exact ⟨fun _ he => Or.inl he, Or.inr hle⟩
    · split at hk
      · rename_i hfloat
        have hzero : k = 0 := by
          have hsome := Option.some.inj hk
          omega
        rw [hzero]
        have hne : ∀ c, sctagFloatMax < c → tagOf u ≠ c := fun c => ne_of_le_floatMax hfloat
        have hcheck := checkDouble_of_le_floatMax (dataOf u) hfloat
        refine ⟨.number (pairToUInt64 (tagOf u) (dataOf u)), s, ?_, rfl, rfl, rfl, rfl,
          fun _ he => Or.inl he⟩
        rw [readValue, if_neg (hne _ (by decide)), if_neg (hne _ (by decide)),
          if_neg (hne _ (by decide)), if_neg (hne _ (by decide)), if_neg (hne _ (by decide)),
          if_neg (hne _ (by decide)), if_neg (hne _ (by decide)), if_neg (hne _ (by decide)),
          if_neg (hne _ (by decide)), if_neg (hne _ (by decide)), if_neg (hne _ (by decide)),
          if_neg (hne _ (by decide)), if_neg (hne _ (by decide)), if_neg (hne _ (by decide)),
          if_pos hfloat, if_neg (by rw [hcheck]; decide)]
        rfl
      · cases hk

/-- A primitive value has a word. -/
theorem primitiveWords_pos {u : UInt64} {k : ℕ} (hk : primitiveWords u = some k) : 1 ≤ k := by
  unfold primitiveWords at hk
  split at hk
  · cases hk
    exact Nat.le_refl 1
  · split at hk
    · split at hk
      · cases hk
      · cases hk
        exact Nat.le_add_right 1 _
    · split at hk
      · cases hk
        exact Nat.le_refl 1
      · cases hk

/-- The tags of primitive values. -/
theorem tagOf_of_primitiveWords {u : UInt64} {k : ℕ} (hk : primitiveWords u = some k) :
    tagOf u ≠ sctagBackReferenceObject ∧ tagOf u ≠ sctagTypedArrayObject ∧
      ¬ sctagTypedArrayV1Min ≤ tagOf u := by
  unfold primitiveWords at hk
  split at hk
  · rename_i htag
    rcases htag with htag | htag | htag <;> rw [htag] <;> decide
  · split at hk
    · rename_i htag
      rw [htag]
      decide
    · split at hk
      · rename_i hfloat
        refine ⟨ne_of_le_floatMax hfloat (by decide), ne_of_le_floatMax hfloat (by decide), ?_⟩
        intro hle
        have hlt : sctagFloatMax < tagOf u :=
          UInt32.lt_of_lt_of_le (by decide : sctagFloatMax < sctagTypedArrayV1Min) hle
        exact UInt32.not_lt.mpr hfloat hlt
      · cases hk

/-- Where a buffer's site is not sound, no object is read, if the engine does not fail. -/
theorem startRead_unsound (hsucceeds : Succeeds env) {n : ℕ} (hn : s.words.length < n + s.point)
    (hunsound : ¬ (Site.buffer s.point s.allObjs).Sound s.words) : ∃ v s2,
      startRead env n s = (.ok v, s2) ∧ v.isObject = false ∧ s2.words = s.words ∧
        s.point ≤ s2.point ∧ s2.point < s2.words.length ∧ s2.sites = s.sites ∧
          ∀ e ∈ s2.trace, e ∈ s.trace ∨ e.InRange s.words.length := by
  have hbad : ∃ u, s.words[s.point]? = some u ∧
      ((∃ k, primitiveWords u = some k ∧ s.point + k < s.words.length) ∨
        ∃ v, tagOf u = sctagBackReferenceObject ∧ s.allObjs[(dataOf u).toNat]? = some v ∧
          v.isObject = false ∧ s.point + 1 < s.words.length) := by
    by_contra hnone
    refine hunsound fun u hu => ⟨fun k hk => ?_, fun v htag hv => ?_⟩
    · by_contra hlt
      exact hnone ⟨u, hu, Or.inl ⟨k, hk, Nat.lt_of_not_le hlt⟩⟩
    · cases hobject : v.isObject with
      | true => exact Or.inl rfl
      | false =>
        refine Or.inr ?_
        by_contra hlt
        exact hnone ⟨u, hu, Or.inr ⟨v, htag, hv, hobject, Nat.lt_of_not_le hlt⟩⟩
  obtain ⟨u, hu, hcases⟩ := hbad
  have hlt : s.point < s.words.length := (List.getElem?_eq_some_iff.mp hu).1
  obtain ⟨m, rfl⟩ : ∃ m, n = m + 1 := ⟨n - 1, by omega⟩
  let s1 : ReaderState := { s with
    point := s.point + 1
    trace := s.trace ++ [.input s.point 1] }
  have htell : tell s = (.ok s.point, s) := rfl
  have hpair : readPair s = (.ok (tagOf u, dataOf u), s1) := bind_ok (readWord_ok hu)
  have htrace : ∀ e ∈ s1.trace, e ∈ s.trace ∨ e.InRange s.words.length := by
    rw [List.forall_mem_append, List.forall_mem_singleton]
    exact ⟨fun _ he => Or.inl he, Or.inr hlt⟩
  cases hcases with
  | inl hprimitive =>
    obtain ⟨k, hk, hend⟩ := hprimitive
    obtain ⟨j, rfl⟩ := Nat.exists_eq_add_of_le (primitiveWords_pos hk)
    obtain ⟨htag1, htag2, htag3⟩ := tagOf_of_primitiveWords hk
    have hle : s1.point + j ≤ s1.words.length := by
      change s.point + 1 + j ≤ s.words.length
      omega
    obtain ⟨v, s2, hread, hv, hwords, hpoint, hsites, htrace2⟩ :=
      readValue_primitive hsucceeds (startRead env m) hk hle
    have hpoint : s2.point = s.point + 1 + j := hpoint
    refine ⟨v, s2, ?_, hv, hwords, by omega, by rw [hwords]; change _ < s.words.length; omega, hsites,
      ?_⟩
    · refine (bind_ok htell).trans ((bind_ok hpair).trans ?_)
      refine (congrFun (if_neg htag1) _).trans ((congrFun (if_neg htag2) _).trans
        ((congrFun (if_neg fun hv1 => htag3 hv1.1) _).trans ((bind_ok hread).trans ?_)))
      cases v with
      | object obj => cases hv
      | _ => rfl
    · intro e he
      cases htrace2 e he with
      | inl hmem => exact htrace e hmem
      | inr hin => exact Or.inr hin
  | inr hback =>
    obtain ⟨v, htag, hv, hobject, hend⟩ := hback
    let s2 : ReaderState := { s1 with trace := s1.trace ++ [.backReference (dataOf u) v] }
    refine ⟨v, s2, ?_, hobject, rfl, Nat.le_succ _, hend, rfl, ?_⟩
    · refine (bind_ok htell).trans ((bind_ok hpair).trans ?_)
      exact (congrFun (if_pos htag) _).trans (readBackReference_ok hv)
    · rw [List.forall_mem_append, List.forall_mem_singleton]
      exact ⟨htrace, Or.inr trivial⟩

/-- A value is read. -/
theorem keeps_startRead (hcallbacks : env.readHost = none) (n : ℕ) :
    ∀ s, Safe env s → s.words.length < n + s.point →
      KeepsAt env s 1 (startRead env n) (ReadsAs s) := by
  induction n with
  | zero =>
    intro s hs hn
    have hle := hs.point_le
    omega
  | succ n ih =>
    intro s hs hn
    have htell : KeepsAt env s 0 tell fun p s' => s' = s :=
      .of_ok rfl rfl (fun _ hsite => hsite) hs (Nat.le_refl _) rfl
    refine htell.bind fun point s0 hs0 _ _ _ hQ0 => ?_
    rw [hQ0]
    refine (keeps_readPair hs).bind fun p s1 hs1 hw1 hp1 _ hQ1 => ?_
    obtain ⟨u, hu, rfl, hpoint, hall⟩ := hQ1
    have harray : ∀ s2 point arrayType nelems v1Read, Safe env s2 → s2.words = s.words →
        s.point + 1 ≤ s2.point → KeepsAt env s2 0
          (readTypedArray env (startRead env n) point arrayType nelems v1Read) (ReadsAs s) := by
      intro s2 point arrayType nelems v1Read hs2 hw2 hp2
      refine (keeps_readTypedArray hs2 point arrayType nelems v1Read ?_ ?_).mono (Nat.le_refl 0)
        fun _ _ hv => Or.inl hv
      · intro s3 hs3 hw3 hp3
        exact ih s3 hs3 (by rw [hw3, hw2, hp3]; omega)
      · intro hsucceeds s3 hw3 hp3
        exact startRead_unsound hsucceeds (by rw [hw3, hw2, hp3]; omega)
    refine .ite (fun htag => ?_) fun _ => .ite (fun _ => ?_) fun _ => .ite (fun _ => ?_) fun _ => ?_
    · cases hv : s1.allObjs[(dataOf u).toNat]? with
      | none =>
        exact .of_error (readBackReference_error hv) rfl (fun _ hsite => hsite) hs1.agree (by intro h; cases h)
      | some v =>
        let s2 : ReaderState := { s1 with trace := s1.trace ++ [.backReference (dataOf u) v] }
        have hagree : Agree env s2 :=
          hs1.agree.record (e := .backReference (dataOf u) v) trivial rfl rfl rfl
        refine .of_ok (readBackReference_ok hv) rfl (fun _ hsite => hsite) ⟨hagree, hs1.point_le, hs1.objs, hs1.heap⟩
          (Nat.le_refl _) (Or.inr ⟨u, hu, Or.inr ⟨htag, ?_, hpoint⟩⟩)
        rw [← hall]
        exact hv
    · refine ((keeps_readArrayType hs1).mono (Nat.zero_le 1) fun _ _ hQ => hQ).bind
        fun arrayType s2 hs2 hw2 _ _ hQ2 => harray s2 _ _ _ _ hs2 (hw2.trans hw1) (by omega)
    · exact harray s1 _ _ _ _ hs1 hw1 hp1
    · refine (keeps_readValue hs1 hcallbacks u).bind fun v s2 hs2 _ _ _ hQ2 => ?_
      have hreads : ReadsAs s v s2 := by
        refine hQ2.imp id fun hk => ?_
        obtain ⟨k, hk, hk'⟩ := hk
        exact ⟨u, hu, Or.inl ⟨1 + k, hk, by omega⟩⟩
      cases v with
      | object obj =>
        refine (keeps_appendObject hs2 (.object obj)).bind fun _ s3 hs3 _ _ _ _ => ?_
        refine (keeps_record hs3 (e := .object point obj) trivial).bind fun _ s4 hs4 _ _ _ _ => ?_
        exact .pure hs4 (Or.inl rfl)
      | _ => exact .pure hs2 hreads

/-- A key is read. -/
theorem keeps_readId (hs : Safe env s) : KeepsAt env s 1 (readId env) fun _ _ => True := by
  refine (keeps_readPair hs).bind fun p s1 hs1 _ _ _ _ => ?_
  refine .ite (fun _ => .pure hs1 trivial) fun _ => .ite (fun _ => ?_) fun _ => ?_
  · refine (keeps_readString hs1 _).bind fun chars s2 hs2 _ _ _ _ => ?_
    exact (keeps_external hs2).bind fun _ s3 hs3 _ _ _ _ => .pure hs3 trivial
  · exact .ite (fun _ => .pure hs1 trivial) fun _ => keeps_badData hs1 _

/-- A property is defined. -/
theorem keeps_defineGeneric (hs : Safe env s) (obj : ℕ) (id : PropertyId) (v : Value) :
    KeepsAt env s 0 (defineGeneric env obj id v) fun _ _ => True := by
  refine (keeps_external hs).bind fun _ s1 hs1 _ _ _ _ => ?_
  have hget : KeepsAt env s1 0 (getObj obj) fun _ _ => True :=
    .of_ok rfl rfl (fun _ hsite => hsite) hs1 (Nat.le_refl _) trivial
  refine hget.bind fun o s2 hs2 _ _ _ _ => ?_
  match o with
  | some (.plain isArray props) =>
    refine keeps_update hs2 rfl rfl rfl rfl rfl hs2.objs ?_ trivial
    intro bytes hmem
    cases List.mem_or_eq_of_mem_set hmem with
    | inl hmem => exact hs2.heap bytes hmem
    | inr heq => cases heq
  | none => exact .pure hs2 trivial
  | some (.booleanObject _) => exact .pure hs2 trivial
  | some (.numberObject _) => exact .pure hs2 trivial
  | some (.stringObject _) => exact .pure hs2 trivial
  | some (.date _) => exact .pure hs2 trivial
  | some (.regexp _ _) => exact .pure hs2 trivial
  | some (.arrayBuffer _) => exact .pure hs2 trivial
  | some (.typedArray _ _ _ _) => exact .pure hs2 trivial
  | some (.host _ _ _) => exact .pure hs2 trivial

/-- Properties are read, each from a word at least. -/
theorem keeps_readProperties (hcallbacks : env.readHost = none) (depth n : ℕ) :
    ∀ s, Safe env s → s.words.length < n + s.point → s.words.length < depth + s.point →
      KeepsAt env s 0 (readProperties env depth n) fun _ _ => True := by
  induction n with
  | zero =>
    intro s hs hn _
    have hle := hs.point_le
    omega
  | succ n ih =>
    intro s hs hn hdepth
    have hget : KeepsAt env s 0 openObjects fun objs s' => objs = s.objs ∧ s' = s :=
      .of_ok rfl rfl (fun _ hsite => hsite) hs (Nat.le_refl _) ⟨rfl, rfl⟩
    refine hget.bind fun objs s0 hs0 _ _ _ hQ0 => ?_
    rw [hQ0.1, hQ0.2]
    cases hobjs : s.objs with
    | nil => exact .pure hs trivial
    | cons top rest =>
      have hall : ∀ v ∈ top :: rest, v.isObject = true := by
        rw [← hobjs]
        exact hs.objs
      refine (keeps_toObject hs (hall top List.mem_cons_self)).bind fun obj s1 hs1 hw1 hp1 _ _ => ?_
      refine (keeps_readId hs1).bind_zero fun id s2 hs2 hw2 hp2 _ _ => ?_
      cases id with
      | none =>
        have hset : KeepsAt env s2 0 (setOpenObjects rest) fun _ _ => True :=
          keeps_update hs2 rfl rfl rfl rfl rfl
            (fun v hv => hall v (List.mem_cons_of_mem top hv)) hs2.heap trivial
        refine hset.bind fun _ s3 hs3 hw3 hp3 _ _ => ?_
        exact ih s3 hs3 (by rw [hw3, hw2, hw1]; omega) (by rw [hw3, hw2, hw1]; omega)
      | some id =>
        refine ((keeps_startRead hcallbacks depth s2 hs2 (by rw [hw2, hw1]; omega)).mono
          (Nat.zero_le 1) fun _ _ hQ => hQ).bind fun v s3 hs3 hw3 hp3 _ _ => ?_
        refine (keeps_defineGeneric hs3 obj id v).bind fun _ s4 hs4 hw4 hp4 _ _ => ?_
        exact ih s4 hs4 (by rw [hw4, hw3, hw2, hw1]; omega) (by rw [hw4, hw3, hw2, hw1]; omega)

/-- What starts like no transfer map has none. -/
theorem keeps_readMap (hs : Safe env s)
    (hheader : ∀ u, s.words[s.point]? = some u → tagOf u ≠ sctagTransferMapHeader) :
    KeepsAt env s 0 (readMap env) fun _ _ => True := by
  have htell : KeepsAt env s 0 tell fun _ s' => s' = s :=
    .of_ok rfl rfl (fun _ hsite => hsite) hs (Nat.le_refl _) rfl
  refine htell.bind fun headerPos s0 hs0 _ _ _ hQ0 => ?_
  rw [hQ0]
  by_cases hend : s.point = s.words.length
  · have hrun : getPair s = (.error (.error "truncated"), s) := if_pos hend
    exact .of_error (bind_error hrun) rfl (fun _ hsite => hsite) hs.agree (by intro h; cases h)
  · have hlt : s.point < s.words.length := Nat.lt_of_le_of_ne hs.point_le hend
    have hword : s.words[s.point]? = some s.words[s.point] := List.getElem?_eq_getElem hlt
    let s1 : ReaderState := { s with trace := s.trace ++ [.input s.point 1] }
    have hrun : getPair s = (.ok (tagOf s.words[s.point], dataOf s.words[s.point]), s1) := by
      unfold getPair
      rw [if_neg hend, hword]
    have hs1 : Safe env s1 := ⟨hs.agree.record (e := .input s.point 1) hlt rfl rfl rfl, hs.point_le,
      hs.objs, hs.heap⟩
    refine KeepsAt.of_run _ (bind_ok hrun) rfl (fun _ hsite => hsite) (Nat.le_refl _) ?_
    refine .ite (fun _ => .pure hs1 trivial) fun htag => ?_
    exact absurd (not_or.mp htag).1 (not_not_intro (hheader _ hword))

/-- What reading does is in range: it reads within the input, takes only objects for objects, copies no
more bytes into a buffer than it has, and accepts only words that are in range as a whole. -/
def InRange (words : List UInt64) (s : ReaderState) : Prop := ∀ e ∈ s.trace, e.InRange words.length

/-- An engine that does not fail, without callbacks. -/
def engine : Environment := ⟨fun _ => true, none, fun _ => []⟩

/-- A typed array of one byte. -/
def oneByte : List UInt64 :=
  [pairToUInt64 sctagTypedArrayObject 1, 1, pairToUInt64 sctagArrayBufferObject 1, 7, 0]

/-- A typed array with null in the place of its buffer. -/
def nullBuffer : List UInt64 :=
  [pairToUInt64 sctagTypedArrayObject 0, 0, pairToUInt64 sctagNull 0, 0]

end CloneReader

end SpiderMonkey.Vm.StructuredClone
