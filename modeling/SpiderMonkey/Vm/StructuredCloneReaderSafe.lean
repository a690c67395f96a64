import SpiderMonkey.Vm.StructuredCloneReader

/-!
# Safe reading

What a reader of structured clones may do, and at which sites it does more. Each part of the reader
keeps the two in agreement: all that is done is in range just if all sites are sound.
-/

namespace SpiderMonkey.Vm.StructuredClone

open Segments

/-- What may be done: reading within the input, objects that are objects, copies that fit, and words
that are in range as a whole. -/
def Event.InRange (total : ℕ) : Event → Prop
  | .input point n => point + n ≤ total
  | .toObject v => v.isObject = true
  | .copy copied byteLength => copied ≤ byteLength
  | .arrayType word => word.toNat ≤ typeUint8Clamped.toNat
  | .byteOffset word length size byteLength =>
    size ∣ word.toNat ∧ word.toNat + length.toNat * size ≤ byteLength
  | .object _ _ => True
  | .backReference _ _ => True

instance (total : ℕ) (e : Event) : Decidable (e.InRange total) := by
  cases e <;> unfold Event.InRange <;> infer_instance

/-- Whether an event reads the input. -/
def Event.isInput : Event → Bool
  | .input _ _ => true
  | _ => false

/-- The number of words of a primitive value that starts with a word, if one does. -/
def primitiveWords (u : UInt64) : Option ℕ :=
  if tagOf u = sctagNull ∨ tagOf u = sctagUndefined ∨ tagOf u = sctagBoolean then some 1
  else if tagOf u = sctagString then
    if (dataOf u).toNat > maxStringLength then none else some (1 + howMany (dataOf u).toNat 4)
  else if tagOf u ≤ sctagFloatMax then some 1
  else none

/-- What must hold at a site: a word whose lower half is accepted has no upper half, no primitive value
and no typed array that is being read is in the place of a buffer, unless the input ends there, and
the size of a buffer of version 1 has 32 bits, unless the input is too short for it. -/
def Site.Sound (words : List UInt64) : Site → Prop
  | .arrayType point => ∀ word, words[point]? = some word → word.toUInt32 ≤ typeUint8Clamped →
    word.toNat < 2 ^ 32
  | .buffer point allObjs => ∀ u, words[point]? = some u →
    (∀ k, primitiveWords u = some k → words.length ≤ point + k) ∧
      ∀ v, tagOf u = sctagBackReferenceObject → allObjs[(dataOf u).toNat]? = some v →
        v.isObject = true ∨ words.length ≤ point + 1
  | .byteOffset point size nelems o => ∀ word bytes, words[point]? = some word →
    o = some (.arrayBuffer bytes) →
      (fromBuffer size bytes.length word.toUInt32 nelems).isSome = true → word.toNat < 2 ^ 32
  | .v1Buffer point type nelems =>
    nelems.toNat * bytesPerTypedArrayElement type < 2 ^ 32 ∨
      howMany nelems.toNat (8 / bytesPerTypedArrayElement type) > words.length - point

namespace CloneReader

variable {A B : Type} {env : Environment} {s s' : ReaderState} {d d' : ℕ}

/-- What comes after a result. -/
theorem bind_ok {x : CloneReader A} {f : A → CloneReader B} {a : A} (hx : x s = (.ok a, s')) :
    (x >>= f) s = f a s' := by
  change CloneReader.bind x f s = _
  rw [CloneReader.bind, hx]

/-- Nothing comes after an error. -/
theorem bind_error {x : CloneReader A} {f : A → CloneReader B} {e : Stop}
    (hx : x s = (.error e, s')) : (x >>= f) s = (.error e, s') := by
  change CloneReader.bind x f s = _
  rw [CloneReader.bind, hx]

/-- All operations of the engine succeed. -/
def Succeeds (env : Environment) : Prop := ∀ t, env.succeeds t = true

/-- All that was done is in range. -/
def Fine (s : ReaderState) : Prop := ∀ e ∈ s.trace, e.InRange s.words.length

/-- All sites are sound. -/
def AllSound (s : ReaderState) : Prop := ∀ site ∈ s.sites, site.Sound s.words

/-- All that was done is in range if all sites are sound; and only then, if the engine does not fail. -/
structure Agree (env : Environment) (s : ReaderState) : Prop where
  fine : AllSound s → Fine s
  sound : Succeeds env → Fine s → AllSound s
  reads : ∀ e ∈ s.trace, e.isInput = true → e.InRange s.words.length

/-- What holds while the input is read. -/
structure Safe (env : Environment) (s : ReaderState) : Prop where
  agree : Agree env s
  point_le : s.point ≤ s.words.length
  objs : ∀ v ∈ s.objs, v.isObject = true
  heap : ∀ bytes, .arrayBuffer bytes ∈ s.heap → bytes.length < 2 ^ 32

/-- Reading from a state keeps it safe, takes some words, and has a result of a kind. -/
def KeepsAt (env : Environment) (s : ReaderState) (d : ℕ) (x : CloneReader A)
    (Q : A → ReaderState → Prop) : Prop :=
  (x s).2.words = s.words ∧ (∀ site ∈ s.sites, site ∈ (x s).2.sites) ∧
    match x s with
    | (.ok a, s') => Safe env s' ∧ s.point + d ≤ s'.point ∧ Q a s'
    | (.error e, s') => Agree env s' ∧ e ≠ .unfinished

namespace KeepsAt

variable {x : CloneReader A} {f : A → CloneReader B} {Q : A → ReaderState → Prop}
  {R : B → ReaderState → Prop}

/-- A result, and what holds of it. -/
theorem of_ok {a : A} (hx : x s = (.ok a, s')) (hwords : s'.words = s.words)
    (hsites : ∀ site ∈ s.sites, site ∈ s'.sites) (hsafe : Safe env s') (hpoint : s.point + d ≤ s'.point)
    (hQ : Q a s') : KeepsAt env s d x Q := by
  rw [KeepsAt, hx]
  exact ⟨hwords, hsites, hsafe, hpoint, hQ⟩

/-- An error. -/
theorem of_error {e : Stop} (hx : x s = (.error e, s')) (hwords : s'.words = s.words)
    (hsites : ∀ site ∈ s.sites, site ∈ s'.sites) (hagree : Agree env s') (he : e ≠ .unfinished) :
    KeepsAt env s d x Q := by
  rw [KeepsAt, hx]
  exact ⟨hwords, hsites, hagree, he⟩

/-- One thing is read after another. -/
theorem bind (hx : KeepsAt env s d x Q)
    (hf : ∀ a s', Safe env s' → s'.words = s.words → s.point + d ≤ s'.point →
      (∀ site ∈ s.sites, site ∈ s'.sites) → Q a s' → KeepsAt env s' (d' - d) (f a) R) :
    KeepsAt env s d' (x >>= f) R := by
  obtain ⟨hwords, hsites, hresult⟩ := hx
  have hrun : (x >>= f) s = match x s with
    | (.ok a, s') => f a s'
    | (.error e, s') => (.error e, s') := rfl
  cases hxs : x s with
  | mk result s1 =>
    rw [hxs] at hwords hsites hresult hrun
    cases result with
    | error e => exact of_error hrun hwords hsites hresult.1 hresult.2
    | ok a =>
      obtain ⟨hsafe, hpoint, hQ⟩ := hresult
      obtain ⟨hwords', hsites', hresult'⟩ := hf a s1 hsafe hwords hpoint hsites hQ
      change (x >>= f) s = f a s1 at hrun
      rw [KeepsAt, hrun]
      refine ⟨hwords'.trans hwords, fun site hsite => hsites' site (hsites site hsite), ?_⟩
      cases hfs : f a s1 with
      | mk result' s2 =>
        rw [hfs] at hresult'
        cases result' with
        | error e => exact hresult'
        | ok b => exact ⟨hresult'.1, by have := hresult'.2.1; omega, hresult'.2.2⟩

/-- One thing is read after another, and no progress is asked for. -/
theorem bind_zero (hx : KeepsAt env s d x Q)
    (hf : ∀ a s', Safe env s' → s'.words = s.words → s.point + d ≤ s'.point →
      (∀ site ∈ s.sites, site ∈ s'.sites) → Q a s' → KeepsAt env s' 0 (f a) R) :
    KeepsAt env s 0 (x >>= f) R :=
  hx.bind fun a s' hs' hwords hpoint hsites hQ => by
    rw [Nat.zero_sub]
    exact hf a s' hs' hwords hpoint hsites hQ

/-- Less is said of the result. -/
theorem mono {Q' : A → ReaderState → Prop} (hx : KeepsAt env s d x Q) (hd : d' ≤ d)
    (hQ : ∀ a s', Q a s' → Q' a s') : KeepsAt env s d' x Q' := by
  obtain ⟨hwords, hsites, hresult⟩ := hx
  refine ⟨hwords, hsites, ?_⟩
  cases hxs : x s with
  | mk result s1 =>
    rw [hxs] at hresult
    cases result with
    | error e => exact hresult
    | ok a => exact ⟨hresult.1, by have := hresult.2.1; omega, hQ a s1 hresult.2.2⟩

/-- A value is returned. -/
theorem pure (hs : Safe env s) {a : A} (hQ : Q a s) : KeepsAt env s 0 (Pure.pure a) Q :=
  of_ok rfl rfl (fun _ hsite => hsite) hs (Nat.le_refl _) hQ

/-- Both cases of a condition. -/
theorem ite {c : Prop} [Decidable c] {y : CloneReader A} (hx : c → KeepsAt env s d x Q)
    (hy : ¬ c → KeepsAt env s d y Q) : KeepsAt env s d (if c then x else y) Q := by
  by_cases hc : c
  · rw [if_pos hc]
    exact hx hc
  · rw [if_neg hc]
    exact hy hc

end KeepsAt

/-- Other things change. -/
theorem Agree.of_same (h : Agree env s) (hwords : s'.words = s.words) (htrace : s'.trace = s.trace)
    (hsites : s'.sites = s.sites) : Agree env s' where
  fine := by rw [AllSound, Fine, hwords, htrace, hsites]; exact h.fine
  sound := by rw [AllSound, Fine, hwords, htrace, hsites]; exact h.sound
  reads := by rw [hwords, htrace]; exact h.reads

/-- More is done in a trace. -/
theorem fine_append {trace : List Event} {e : Event} {total : ℕ} :
    (∀ e' ∈ trace ++ [e], e'.InRange total) ↔ (∀ e' ∈ trace, e'.InRange total) ∧ e.InRange total := by
  rw [List.forall_mem_append, List.forall_mem_singleton]

/-- Something that is in range is done. -/
theorem Agree.record (h : Agree env s) {e : Event} (he : e.InRange s.words.length)
    (hwords : s'.words = s.words) (htrace : s'.trace = s.trace ++ [e]) (hsites : s'.sites = s.sites) :
    Agree env s' where
  fine hsound := by
    rw [AllSound, hwords, hsites] at hsound
    rw [Fine, hwords, htrace, fine_append]
    exact ⟨h.fine hsound, he⟩
  sound hgood hfine := by
    rw [Fine, hwords, htrace, fine_append] at hfine
    rw [AllSound, hwords, hsites]
    exact h.sound hgood hfine.1
  reads := by
    rw [hwords, htrace, List.forall_mem_append, List.forall_mem_singleton]
    exact ⟨h.reads, fun _ => he⟩

/-- A site that is sound is visited. -/
theorem Agree.visit (h : Agree env s) {site : Site} (hsite : site.Sound s.words)
    (hwords : s'.words = s.words) (htrace : s'.trace = s.trace) (hsites : s'.sites = s.sites ++ [site]) :
    Agree env s' where
  fine hsound := by
    rw [AllSound, hwords, hsites, List.forall_mem_append] at hsound
    rw [Fine, hwords, htrace]
    exact h.fine hsound.1
  sound hgood hfine := by
    rw [Fine, hwords, htrace] at hfine
    rw [AllSound, hwords, hsites, List.forall_mem_append, List.forall_mem_singleton]
    exact ⟨h.sound hgood hfine, hsite⟩
  reads := by
    rw [hwords, htrace]
    exact h.reads

/-- Something is done that is not in range, after a site that is not sound. -/
theorem Agree.of_not (hreads : ∀ e ∈ s.trace, e.isInput = true → e.InRange s.words.length)
    {site : Site} (hsite : site ∈ s.sites) (hunsound : ¬ site.Sound s.words) {e : Event}
    (he : e ∈ s.trace) (hout : ¬ e.InRange s.words.length) : Agree env s where
  fine hsound := absurd (hsound site hsite) hunsound
  sound _ hfine := absurd (hfine e he) hout
  reads := hreads

/-- A site is not sound, and the engine may fail. -/
theorem Agree.of_fails (hreads : ∀ e ∈ s.trace, e.isInput = true → e.InRange s.words.length)
    {site : Site} (hsite : site ∈ s.sites) (hunsound : ¬ site.Sound s.words) (hfails : ¬ Succeeds env) :
    Agree env s where
  fine hsound := absurd (hsound site hsite) hunsound
  sound hgood := absurd hgood hfails
  reads := hreads

section primitives

/-- An error changes nothing. -/
theorem keeps_badData (hs : Safe env s) {Q : A → ReaderState → Prop} (text : String) :
    KeepsAt env s d (badData text) Q :=
  .of_error rfl rfl (fun _ hsite => hsite) hs.agree (by intro h; cases h)

/-- A word is read. -/
theorem keeps_readWord (hs : Safe env s) : KeepsAt env s 1 readWord fun u s' =>
    s.words[s.point]? = some u ∧ s'.point = s.point + 1 ∧ s'.allObjs = s.allObjs ∧ s'.heap = s.heap := by
  by_cases hend : s.point = s.words.length
  · refine .of_error (e := .error "truncated") ?_ rfl (fun _ hsite => hsite) hs.agree (by intro h; cases h)
    exact if_pos hend
  · have hlt : s.point < s.words.length := Nat.lt_of_le_of_ne hs.point_le hend
    have hword : s.words[s.point]? = some s.words[s.point] := List.getElem?_eq_getElem hlt
    have hrun : readWord s = (.ok s.words[s.point], { s with
        point := s.point + 1
        trace := s.trace ++ [.input s.point 1] }) := by
      unfold readWord
      rw [if_neg hend]
      dsimp only
      rw [hword]
    have hagree : Agree env { s with
        point := s.point + 1
        trace := s.trace ++ [.input s.point 1] } :=
      hs.agree.record (e := .input s.point 1) hlt rfl rfl rfl
    exact .of_ok hrun rfl (fun _ hsite => hsite) ⟨hagree, hlt, hs.objs, hs.heap⟩ (Nat.le_refl _)
      ⟨hword, rfl, rfl, rfl⟩

/-- The words of an array are read. -/
theorem keeps_readArray (hs : Safe env s) (size nelems : ℕ) :
    KeepsAt env s 0 (readArray size nelems) fun _ s' =>
      s'.point = s.point + howMany nelems (8 / size) ∧ s'.allObjs = s.allObjs ∧ s'.heap = s.heap := by
  by_cases hend : nelems + (8 / size - 1) ≥ 2 ^ 64 ∨
      howMany nelems (8 / size) > s.words.length - s.point
  · refine .of_error (e := .error "truncated") ?_ rfl (fun _ hsite => hsite) hs.agree (by intro h; cases h)
    exact if_pos hend
  · have hfit : s.point + howMany nelems (8 / size) ≤ s.words.length := by
      have := hs.point_le
      omega
    have hrun : readArray size nelems s = (.ok ((s.words.drop s.point).take (howMany nelems (8 / size))),
        { s with
          point := s.point + howMany nelems (8 / size)
          trace := s.trace ++ [.input s.point (howMany nelems (8 / size))] }) := by
      unfold readArray
      dsimp only
      rw [if_neg hend, Segments.segment, if_pos hfit]
    have hagree : Agree env { s with
        point := s.point + howMany nelems (8 / size)
        trace := s.trace ++ [.input s.point (howMany nelems (8 / size))] } :=
      hs.agree.record (e := .input s.point (howMany nelems (8 / size))) hfit rfl rfl rfl
    exact .of_ok hrun rfl (fun _ hsite => hsite) ⟨hagree, hfit, hs.objs, hs.heap⟩ (Nat.le_add_right _ _)
      ⟨rfl, rfl, rfl⟩

/-- The engine does something. -/
theorem keeps_external (hs : Safe env s) : KeepsAt env s 0 (external env) fun _ s' =>
    s'.point = s.point ∧ s'.allObjs = s.allObjs ∧ s'.heap = s.heap := by
  have hagree : Agree env { s with ticks := s.ticks + 1 } := hs.agree.of_same rfl rfl rfl
  by_cases hgood : env.succeeds s.ticks = true
  · have hrun : external env s = (.ok (), { s with ticks := s.ticks + 1 }) := if_pos hgood
    exact .of_ok hrun rfl (fun _ hsite => hsite) ⟨hagree, hs.point_le, hs.objs, hs.heap⟩ (Nat.le_refl _)
      ⟨rfl, rfl, rfl⟩
  · have hrun : external env s = (.error (.error "external"), { s with ticks := s.ticks + 1 }) :=
      if_neg hgood
    exact .of_error hrun rfl (fun _ hsite => hsite) hagree (by intro h; cases h)

/-- An object is made. -/
theorem keeps_newObject (hs : Safe env s) {o : Obj}
    (ho : ∀ bytes, o = .arrayBuffer bytes → bytes.length < 2 ^ 32) :
    KeepsAt env s 0 (newObject env o) fun _ s' => s'.point = s.point ∧ s'.allObjs = s.allObjs := by
  have hheap : ∀ h : List Obj, (∀ bytes, .arrayBuffer bytes ∈ h → bytes.length < 2 ^ 32) →
      ∀ bytes, .arrayBuffer bytes ∈ h ++ [o] → bytes.length < 2 ^ 32 := by
    intro h hh bytes hmem
    cases List.mem_append.mp hmem with
    | inl hmem => exact hh bytes hmem
    | inr hmem => exact ho bytes (List.mem_singleton.mp hmem).symm
  refine (keeps_external hs).bind fun _ s1 hs1 _ _ _ hQ => ?_
  exact .of_ok rfl rfl (fun _ hsite => hsite)
    ⟨hs1.agree.of_same rfl rfl rfl, hs1.point_le, hs1.objs, hheap s1.heap hs1.heap⟩ (Nat.le_refl _)
    ⟨hQ.1, hQ.2.1⟩

/-- Something that is in range is recorded. -/
theorem keeps_record (hs : Safe env s) {e : Event} (he : e.InRange s.words.length) :
    KeepsAt env s 0 (record e) fun _ s' =>
      s'.point = s.point ∧ s'.allObjs = s.allObjs ∧ s'.heap = s.heap :=
  .of_ok rfl rfl (fun _ hsite => hsite)
    ⟨hs.agree.record he rfl rfl rfl, hs.point_le, hs.objs, hs.heap⟩ (Nat.le_refl _) ⟨rfl, rfl, rfl⟩

/-- A value that is an object is taken for one. -/
theorem keeps_toObject (hs : Safe env s) {v : Value} (hv : v.isObject = true) :
    KeepsAt env s 0 (toObject v) fun obj s' => v = .object obj ∧ s'.heap = s.heap := by
  refine (keeps_record hs (e := .toObject v) hv).bind fun _ s1 hs1 _ _ _ hQ => ?_
  cases v with
  | object obj => exact .pure hs1 ⟨rfl, hQ.2.2⟩
  | _ => cases hv

/-- A part of the state that only the reader itself sees is changed. -/
theorem keeps_update {Q : A → ReaderState → Prop} {x : CloneReader A} {a : A} (hs : Safe env s)
    (hx : x s = (.ok a, s')) (hwords : s'.words = s.words) (hpoint : s'.point = s.point)
    (htrace : s'.trace = s.trace) (hsites : s'.sites = s.sites)
    (hobjs : ∀ v ∈ s'.objs, v.isObject = true)
    (hheap : ∀ bytes, .arrayBuffer bytes ∈ s'.heap → bytes.length < 2 ^ 32) (hQ : Q a s') :
    KeepsAt env s 0 x Q :=
  .of_ok hx hwords (fun site hsite => by rw [hsites]; exact hsite)
    ⟨hs.agree.of_same hwords htrace hsites, by rw [hpoint, hwords]; exact hs.point_le, hobjs, hheap⟩
    (Nat.le_of_eq hpoint.symm) hQ

/-- An object is appended to the list of all objects. -/
theorem keeps_appendObject (hs : Safe env s) (v : Value) :
    KeepsAt env s 0 (appendObject env v) fun _ s' => s'.point = s.point :=
  (keeps_external hs).bind fun _ _ hs1 _ _ _ hQ =>
    keeps_update hs1 rfl rfl rfl rfl rfl hs1.objs hs1.heap hQ.1

/-- A pair is read. -/
theorem keeps_readPair (hs : Safe env s) : KeepsAt env s 1 readPair fun p s' =>
    ∃ u, s.words[s.point]? = some u ∧ p = (tagOf u, dataOf u) ∧ s'.point = s.point + 1 ∧
      s'.allObjs = s.allObjs :=
  (keeps_readWord hs).bind fun u _ hs1 _ _ _ hQ => .pure hs1 ⟨u, hQ.1, rfl, hQ.2.1, hQ.2.2.1⟩

/-- A number is read. -/
theorem keeps_readDouble (hs : Safe env s) : KeepsAt env s 1 readDouble fun _ _ => True :=
  (keeps_readWord hs).bind fun _ _ hs1 _ _ _ _ => .pure hs1 trivial

/-- Bytes are read. -/
theorem keeps_readBytes (hs : Safe env s) (nbytes : ℕ) :
    KeepsAt env s 0 (readBytes nbytes) fun bytes _ => bytes.length ≤ nbytes :=
  (keeps_readArray hs 1 nbytes).bind fun _ _ hs1 _ _ _ _ => .pure hs1 (List.length_take_le _ _)

/-- Characters are read. -/
theorem keeps_readChars (hs : Safe env s) (nchars : ℕ) :
    KeepsAt env s 0 (readChars nchars) fun _ s' => s'.point = s.point + howMany nchars 4 :=
  (keeps_readArray hs 2 nchars).bind fun _ _ hs1 _ _ _ hQ => .pure hs1 hQ.1

/-- A string is read. -/
theorem keeps_readString (hs : Safe env s) (nchars : UInt32) :
    KeepsAt env s 0 (readString env nchars) fun _ s' =>
      ¬ nchars.toNat > maxStringLength ∧ s'.point = s.point + howMany nchars.toNat 4 := by
  unfold readString
  by_cases hlength : nchars.toNat > maxStringLength
  · rw [if_pos hlength]
    exact keeps_badData hs _
  · rw [if_neg hlength]
    refine (keeps_external hs).bind fun _ s1 hs1 _ _ _ hQ1 => ?_
    refine (keeps_readChars hs1 nchars.toNat).bind fun _ s2 hs2 _ _ _ hQ2 => ?_
    refine (keeps_external hs2).bind fun _ s3 hs3 _ _ _ hQ3 => ?_
    exact .pure hs3 ⟨hlength, by rw [hQ3.1, hQ2, hQ1.1]⟩

end primitives

/-- An array buffer is read. -/
theorem keeps_readArrayBuffer (hs : Safe env s) (nbytes : UInt32) :
    KeepsAt env s 0 (readArrayBuffer env nbytes) fun v _ => v.isObject = true := by
  have hnbytes := nbytes.toNat_lt
  have hzeros : ∀ bytes : List UInt8,
      Obj.arrayBuffer (List.replicate nbytes.toNat 0) = .arrayBuffer bytes → bytes.length < 2 ^ 32 := by
    intro bytes heq
    cases heq
    rw [List.length_replicate]
    exact hnbytes
  refine (keeps_newObject hs hzeros).bind fun obj s1 hs1 _ _ _ _ => ?_
  refine (keeps_readBytes hs1 nbytes.toNat).bind fun bytes s2 hs2 _ _ _ hbytes => ?_
  refine (keeps_record hs2 (e := .copy nbytes.toNat nbytes.toNat) (Nat.le_refl _)).bind
    fun _ s3 hs3 _ _ _ _ => ?_
  refine keeps_update hs3 rfl rfl rfl rfl rfl hs3.objs ?_ rfl
  intro bytes hmem
  cases List.mem_or_eq_of_mem_set hmem with
  | inl hmem => exact hs3.heap bytes hmem
  | inr heq =>
    cases heq
    exact Nat.lt_of_le_of_lt hbytes hnbytes

/-- The number of bytes of an element. -/
theorem bytesPerTypedArrayElement_cases (arrayType : UInt32) :
    bytesPerTypedArrayElement arrayType = 1 ∨ bytesPerTypedArrayElement arrayType = 2 ∨
      bytesPerTypedArrayElement arrayType = 4 ∨ bytesPerTypedArrayElement arrayType = 8 := by
  unfold bytesPerTypedArrayElement
  split
  · exact Or.inl rfl
  · split
    · exact Or.inr (Or.inl rfl)
    · split
      · exact Or.inr (Or.inr (Or.inl rfl))
      · exact Or.inr (Or.inr (Or.inr rfl))

/-- An array buffer of version 1 is read. -/
theorem keeps_readBuffer_v1 (hs : Safe env s) (startRead : CloneReader Value)
    (arrayType nelems : UInt32) : KeepsAt env s 0 (readBuffer env startRead arrayType nelems true)
      fun p _ => p.1.isObject = true ∧ p.2 = 0 := by
  let size := bytesPerTypedArrayElement arrayType
  let nbytes := nelems.toNat * size % 2 ^ 32
  let site : Site := .v1Buffer s.point arrayType nelems
  let s1 : ReaderState := { s with sites := s.sites ++ [site] }
  have hnelems := nelems.toNat_lt
  have hnbytes : nbytes < 2 ^ 32 := Nat.mod_lt _ (by decide)
  have hpoint := hs.point_le
  have hmem : site ∈ s1.sites := List.mem_append_right s.sites (List.mem_singleton_self site)
  have hkept : ∀ site' ∈ s.sites, site' ∈ s1.sites :=
    fun site' hsite' => List.mem_append_left [site] hsite'
  have hvisit : visit (fun s => .v1Buffer s.point arrayType nelems) s = (.ok (), s1) := rfl
  by_cases hsound : site.Sound s.words
  · have hs1 : Safe env s1 := ⟨hs.agree.visit hsound rfl rfl rfl, hs.point_le, hs.objs, hs.heap⟩
    have hvisits : KeepsAt env s 0 (visit fun s => .v1Buffer s.point arrayType nelems)
        fun _ s' => s' = s1 := .of_ok hvisit rfl hkept hs1 (Nat.le_refl _) rfl
    have hzeros : ∀ bytes : List UInt8,
        Obj.arrayBuffer (List.replicate nbytes 0) = .arrayBuffer bytes → bytes.length < 2 ^ 32 := by
      intro bytes heq
      cases heq
      rw [List.length_replicate]
      exact hnbytes
    refine hvisits.bind fun _ s1' hs1' _ _ _ heq => ?_
    have hread : KeepsAt env s1' 0 (readV1ArrayBuffer env arrayType nelems)
        fun v _ => v.isObject = true := by
      refine (keeps_newObject hs1' hzeros).bind fun obj s2 hs2 hw2 _ _ hQ2 => ?_
      refine (keeps_readArray hs2 size nelems.toNat).bind fun words s3 hs3 hw3 _ _ hQ3 => ?_
      have hfit : nelems.toNat * size ≤ nbytes := by
        have hle := hs3.point_le
        rw [hQ3.1, hQ2.1, hw3, hw2, heq] at hle
        change s.point + howMany nelems.toNat (8 / size) ≤ s.words.length at hle
        cases hsound with
        | inl hlt => exact Nat.le_of_eq (Nat.mod_eq_of_lt hlt).symm
        | inr hshort =>
          change howMany nelems.toNat (8 / size) > s.words.length - s.point at hshort
          omega
      refine (keeps_record hs3 (e := .copy (nelems.toNat * size) nbytes) hfit).bind
        fun _ s4 hs4 _ _ _ _ => ?_
      refine .ite (fun hover => absurd hfit (Nat.not_le.mpr hover)) fun _ => ?_
      refine keeps_update hs4 rfl rfl rfl rfl rfl hs4.objs ?_ rfl
      intro bytes hmem
      cases List.mem_or_eq_of_mem_set hmem with
      | inl hmem => exact hs4.heap bytes hmem
      | inr heq =>
        cases heq
        exact Nat.lt_of_le_of_lt (List.length_take_le _ _) hnbytes
    exact hread.bind fun v _ hs5 _ _ _ hv => .pure hs5 ⟨hv, rfl⟩
  · -- The engine fails, or bytes are copied beyond the buffer.
    have hover : ¬ nelems.toNat * size ≤ nbytes := by
      intro hle
      exact hsound (Or.inl (Nat.lt_of_le_of_lt hle hnbytes))
    have hwords : howMany nelems.toNat (8 / size) ≤ s.words.length - s.point :=
      Nat.not_lt.mp fun hshort => hsound (Or.inr hshort)
    by_cases hgood : env.succeeds s.ticks = true
    · let e : Event := .copy (nelems.toNat * size) nbytes
      let e' : Event := .input s.point (howMany nelems.toNat (8 / size))
      let s2 : ReaderState := { s1 with
        ticks := s.ticks + 1
        heap := s.heap ++ [.arrayBuffer (List.replicate nbytes 0)]
        point := s.point + howMany nelems.toNat (8 / size)
        trace := s.trace ++ [e'] ++ [e] }
      have hfew : ¬ (nelems.toNat + (8 / size - 1) ≥ 2 ^ 64 ∨
          howMany nelems.toNat (8 / size) > s.words.length - s.point) := by
        have hle : 8 / size ≤ 8 := Nat.div_le_self 8 size
        omega
      have hsegment : segment s.words s.point (howMany nelems.toNat (8 / size)) =
          some ((s.words.drop s.point).take (howMany nelems.toNat (8 / size))) :=
        if_pos (by omega)
      have hrun : readBuffer env startRead arrayType nelems true s = (.error .fault, s2) := by
        have hexternal : external env s1 = (.ok (), { s1 with ticks := s.ticks + 1 }) := if_pos hgood
        have hread : ∀ s' : ReaderState, s'.words = s.words → s'.point = s.point →
            readArray size nelems.toNat s' =
              (.ok ((s.words.drop s.point).take (howMany nelems.toNat (8 / size))), { s' with
                point := s.point + howMany nelems.toNat (8 / size)
                trace := s'.trace ++ [e'] }) := by
          intro s' hw hp
          unfold readArray
          dsimp only
          rw [hw, hp, if_neg hfew, hsegment]
        let s3 : ReaderState := { s1 with
          ticks := s.ticks + 1
          heap := s.heap ++ [.arrayBuffer (List.replicate nbytes 0)] }
        have hnew : newObject env (.arrayBuffer (List.replicate nbytes 0)) s1 =
            (.ok s.heap.length, s3) := bind_ok hexternal
        have hv1 : readV1ArrayBuffer env arrayType nelems s1 = (.error .fault, s2) := by
          refine (bind_ok hnew).trans ((bind_ok (hread s3 rfl rfl)).trans ?_)
          exact (congrFun (if_pos (Nat.lt_of_not_le hover)) _)
        exact (bind_ok hvisit).trans (bind_error hv1)
      refine .of_error hrun rfl hkept ?_ (by intro h; cases h)
      refine Agree.of_not ?_ hmem hsound (List.mem_append_right _ (List.mem_singleton_self e)) hover
      intro e'' he''
      rw [List.mem_append, List.mem_append, List.mem_singleton, List.mem_singleton] at he''
      cases he'' with
      | inr heq => rw [heq]; intro h; cases h
      | inl he'' =>
        cases he'' with
        | inl hmem' => exact hs.agree.reads e'' hmem'
        | inr heq =>
          rw [heq]
          intro _
          change s.point + howMany nelems.toNat (8 / size) ≤ s.words.length
          omega
    · have hrun : readBuffer env startRead arrayType nelems true s =
          (.error (.error "external"), { s1 with ticks := s.ticks + 1 }) := by
        have hexternal : external env s1 =
            (.error (.error "external"), { s1 with ticks := s.ticks + 1 }) := if_neg hgood
        exact (bind_ok hvisit).trans (bind_error (bind_error (bind_error hexternal)))
      exact .of_error hrun rfl hkept
        (Agree.of_fails hs.agree.reads hmem hsound fun hsucceeds => hgood (hsucceeds _))
        (by intro h; cases h)

/-- The lower half of a word that has no upper half. -/
theorem toNat_toUInt32_of_lt {word : UInt64} (h : word.toNat < 2 ^ 32) :
    word.toUInt32.toNat = word.toNat := by
  rw [UInt64.toNat_toUInt32]
  exact Nat.mod_eq_of_lt h

/-- A typed array lies within its buffer. -/
theorem fromBuffer_spec {size byteLength : ℕ} {byteOffset nelems len : UInt32} (hsize : 0 < size)
    (h : fromBuffer size byteLength byteOffset nelems = some len) :
    size ∣ byteOffset.toNat ∧ byteOffset.toNat + len.toNat * size ≤ byteLength := by
  unfold fromBuffer at h
  dsimp only at h
  split at h
  · cases h
  · rename_i hoffset
    rw [not_or, Nat.not_lt, not_ne_iff] at hoffset
    split at h
    · cases h
    · generalize (if nelems = 0xFFFFFFFF then UInt32.ofNat ((byteLength - byteOffset.toNat) / size)
        else nelems) = n at h
      split at h
      · cases h
      · rename_i hbound
        rw [not_or, Nat.not_le, Nat.not_le] at hbound
        split at h
        · cases h
        · rename_i hfit
          rw [Nat.not_lt] at hfit
          cases h
          have hbytes : len.toNat * size < int32Max := by
            have hle := Nat.mul_le_mul_right size (Nat.succ_le_of_lt hbound.1)
            have hdiv := Nat.div_mul_le_self int32Max size
            rw [Nat.succ_mul] at hle
            omega
          have hmod : len.toNat * size % 2 ^ 32 = len.toNat * size :=
            Nat.mod_eq_of_lt (Nat.lt_trans hbytes (by decide))
          rw [hmod] at hbound hfit
          have hsum : len.toNat * size + byteOffset.toNat < 2 ^ 32 := by
            have hmax : int32Max < 2 ^ 32 := by decide
            omega
          rw [Nat.mod_eq_of_lt hsum] at hfit
          exact ⟨Nat.dvd_of_mod_eq_zero hoffset.2, by omega⟩

/-- An element has bytes. -/
theorem bytesPerTypedArrayElement_pos (arrayType : UInt32) : 0 < bytesPerTypedArrayElement arrayType := by
  have hcases := bytesPerTypedArrayElement_cases arrayType
  omega

/-- A typed array is made, at an offset that is in range if it has no upper half. -/
theorem keeps_newTypedArray (hs : Safe env s) (arrayType : UInt32) (buffer : ℕ) {word : UInt64}
    (nelems : UInt32) (hword : ∀ bytes, s.heap[buffer]? = some (.arrayBuffer bytes) →
      (fromBuffer (bytesPerTypedArrayElement arrayType) bytes.length word.toUInt32 nelems).isSome = true →
        word.toNat < 2 ^ 32) :
    KeepsAt env s 0 (newTypedArray env arrayType buffer word nelems) fun _ _ => True := by
  have hget : KeepsAt env s 0 (getObj buffer) fun o s' => o = s.heap[buffer]? ∧ s' = s :=
    .of_ok rfl rfl (fun _ hsite => hsite) hs (Nat.le_refl _) ⟨rfl, rfl⟩
  refine hget.bind fun o s1 hs1 _ _ _ hQ => ?_
  rw [← hQ.1] at hword
  match o with
  | some (.arrayBuffer bytes) =>
    dsimp only
    cases hfrom : fromBuffer (bytesPerTypedArrayElement arrayType) bytes.length word.toUInt32 nelems with
    | none => exact keeps_badData hs1 _
    | some len =>
      have hlt := hword bytes rfl (by rw [hfrom]; rfl)
      have hspec := fromBuffer_spec (bytesPerTypedArrayElement_pos arrayType) hfrom
      rw [toNat_toUInt32_of_lt hlt] at hspec
      refine (keeps_newObject hs1 (o := .typedArray arrayType buffer word.toUInt32 len)
        (fun bytes heq => by cases heq)).bind fun obj s2 hs2 _ _ _ _ => ?_
      refine (keeps_record hs2 (e := .byteOffset word len (bytesPerTypedArrayElement arrayType)
        bytes.length) hspec).bind fun _ s3 hs3 _ _ _ _ => ?_
      exact .pure hs3 trivial
  | none => exact keeps_badData hs1 _
  | some (.plain _ _) => exact keeps_badData hs1 _
  | some (.booleanObject _) => exact keeps_badData hs1 _
  | some (.numberObject _) => exact keeps_badData hs1 _
  | some (.stringObject _) => exact keeps_badData hs1 _
  | some (.date _) => exact keeps_badData hs1 _
  | some (.regexp _ _) => exact keeps_badData hs1 _
  | some (.typedArray _ _ _ _) => exact keeps_badData hs1 _
  | some (.host _ _ _) => exact keeps_badData hs1 _

/-- A tag of a number is no other tag. -/
theorem ne_of_le_floatMax {tag c : UInt32} (htag : tag ≤ sctagFloatMax) (hc : sctagFloatMax < c) :
    tag ≠ c := by
  intro heq
  rw [heq] at htag
  exact UInt32.not_lt.mpr htag hc

/-- A number is a double. -/
theorem checkDouble_of_le_floatMax {tag : UInt32} (data : UInt32) (htag : tag ≤ sctagFloatMax) :
    checkDouble (pairToUInt64 tag data) = true := by
  have hle := UInt32.le_iff_toNat_le.mp htag
  have hdata := data.toNat_lt
  rw [checkDouble, decide_eq_true_iff, UInt64.le_iff_toNat_le, toNat_pairToUInt64]
  change _ ≤ 0xFFF80000FFFFFFFF
  change tag.toNat ≤ 0xFFF00000 at hle
  omega

end CloneReader

end SpiderMonkey.Vm.StructuredClone
