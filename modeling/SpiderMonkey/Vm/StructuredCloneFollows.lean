import SpiderMonkey.Vm.StructuredCloneReaderSafe
import SpiderMonkey.Vm.StructuredCloneWriter

/-!
# Reading what was written

What the reader makes of words that the writer wrote: pairs, numbers, strings, bytes and keys. The
reader may fail where the engine does, which ends the run; else it takes just these words.
-/

namespace SpiderMonkey.Vm.StructuredClone

open Packing Segments

section words

/-- Items that fit are the same after a detour. -/
theorem map_map_eq_self {A B : Type} {f : A → B} {g : B → A} {l : List A}
    (h : ∀ a ∈ l, g (f a) = a) : (l.map f).map g = l := by
  induction l with
  | nil => rfl
  | cons a l ih =>
    rw [List.map_cons, List.map_cons, h a List.mem_cons_self,
      ih fun a' ha' => h a' (List.mem_cons_of_mem a ha')]

/-- Words that were packed have 64 bits. -/
theorem map_toNat_packWords {b k : ℕ} (n : ℕ) {l : List ℕ} (hb : 0 < b) (hpow : b ^ k = 2 ^ 64)
    (hl : ∀ d ∈ l, d < b) :
    ((packWords b k n l).map UInt64.ofNat).map UInt64.toNat = packWords b k n l := by
  refine map_map_eq_self fun word hword => ?_
  have hlt := lt_of_mem_packWords hb hl hword
  rw [hpow] at hlt
  exact UInt64.toNat_ofNat_of_lt' hlt

/-- Enough words for some items. -/
theorem le_howMany_mul (n : ℕ) {k : ℕ} (hk : 0 < k) : n ≤ howMany n k * k := by
  have hdiv := Nat.div_add_mod (n + k - 1) k
  have hmod := Nat.mod_lt (n + k - 1) hk
  rw [howMany, Nat.mul_comm]
  omega

/-- Bytes are read as they were written. -/
theorem bytesOf_wordsOfBytes (bytes : List UInt8) :
    (bytesOf (wordsOfBytes bytes)).take bytes.length = bytes := by
  have hlt : ∀ d ∈ bytes.map UInt8.toNat, d < 256 := by
    intro d hd
    obtain ⟨byte, _, rfl⟩ := List.mem_map.mp hd
    exact byte.toNat_lt
  have hwords := map_toNat_packWords (howMany bytes.length 8) (by decide : 0 < 256)
    (by rfl : 256 ^ 8 = 2 ^ 64) hlt
  have hle : (bytes.map UInt8.toNat).length ≤ howMany bytes.length 8 * 8 := by
    rw [List.length_map]
    exact le_howMany_mul bytes.length (by decide)
  have hself : (bytes.map UInt8.toNat).map UInt8.ofNat = bytes :=
    map_map_eq_self fun byte _ => UInt8.ofNat_toNat
  rw [bytesOf, wordsOfBytes, hwords, unpackWords_packWords hlt hle, List.map_append, hself,
    List.take_left]

/-- Characters are read as they were written. -/
theorem charsOf_wordsOfChars (chars : List UInt16) :
    (charsOf (wordsOfChars chars)).take chars.length = chars := by
  have hlt : ∀ d ∈ chars.map UInt16.toNat, d < 65536 := by
    intro d hd
    obtain ⟨char, _, rfl⟩ := List.mem_map.mp hd
    exact char.toNat_lt
  have hwords := map_toNat_packWords (howMany chars.length 4) (by decide : 0 < 65536)
    (by rfl : 65536 ^ 4 = 2 ^ 64) hlt
  have hle : (chars.map UInt16.toNat).length ≤ howMany chars.length 4 * 4 := by
    rw [List.length_map]
    exact le_howMany_mul chars.length (by decide)
  have hself : (chars.map UInt16.toNat).map UInt16.ofNat = chars :=
    map_map_eq_self fun char _ => UInt16.ofNat_toNat
  rw [charsOf, wordsOfChars, hwords, unpackWords_packWords hlt hle, List.map_append, hself,
    List.take_left]

/-- The number of words of bytes. -/
theorem length_wordsOfBytes (bytes : List UInt8) :
    (wordsOfBytes bytes).length = howMany bytes.length 8 := by
  rw [wordsOfBytes, List.length_map, length_packWords]

/-- The number of words of characters. -/
theorem length_wordsOfChars (chars : List UInt16) :
    (wordsOfChars chars).length = howMany chars.length 4 := by
  rw [wordsOfChars, List.length_map, length_packWords]

end words

namespace CloneWriter

variable {A B : Type} {env : WriteEnvironment} {w w' : WriterState}

/-- What is done first, and what comes after it. -/
theorem bind_some {x : CloneWriter A} {f : A → CloneWriter B} {b : B}
    (h : (x >>= f) w = (some b, w')) : ∃ a w1, x w = (some a, w1) ∧ f a w1 = (some b, w') := by
  change CloneWriter.bind x f w = _ at h
  rw [CloneWriter.bind] at h
  cases hx : x w with
  | mk result w1 =>
    rw [hx] at h
    cases result with
    | none => cases h
    | some a => exact ⟨a, w1, rfl, h⟩

/-- An operation that did not fail. -/
theorem external_some (h : external env w = (some (), w')) :
    w' = { w with ticks := w.ticks + 1 } := by
  unfold external at h
  dsimp only at h
  split at h
  · cases h
    rfl
  · cases h

/-- Words that were appended. -/
theorem append_some {words : List UInt64} (h : append env words w = (some (), w')) :
    w' = { w with ticks := w.ticks + 1, out := w.out ++ words } := by
  obtain ⟨_, w1, h1, h2⟩ := bind_some h
  rw [external_some h1] at h2
  cases h2
  rfl

/-- What a part of the writer writes, and nothing else. -/
def Writes (w : WriterState) (words : List UInt64) (w' : WriterState) : Prop :=
  ∃ ticks, w' = { w with ticks, out := w.out ++ words }

/-- Nothing is written. -/
theorem Writes.refl (w : WriterState) : Writes w [] w := ⟨w.ticks, by rw [List.append_nil]⟩

/-- One thing is written after another. -/
theorem Writes.trans {words words' : List UInt64} {w1 : WriterState} (h : Writes w words w1)
    (h' : Writes w1 words' w') : Writes w (words ++ words') w' := by
  obtain ⟨ticks, rfl⟩ := h
  obtain ⟨ticks', rfl⟩ := h'
  exact ⟨ticks', by rw [List.append_assoc]⟩

/-- An operation writes nothing. -/
theorem writes_external (h : external env w = (some (), w')) : Writes w [] w' := by
  rw [external_some h]
  exact ⟨w.ticks + 1, by rw [List.append_nil]⟩

/-- A word is written. -/
theorem writes_write {u : UInt64} (h : write env u w = (some (), w')) : Writes w [u] w' :=
  ⟨w.ticks + 1, append_some h⟩

/-- A pair is written. -/
theorem writes_writePair {tag data : UInt32} (h : writePair env tag data w = (some (), w')) :
    Writes w [pairToUInt64 tag data] w' := writes_write h

/-- Bytes are written. -/
theorem writes_writeBytes {bytes : List UInt8} (h : writeBytes env bytes w = (some (), w')) :
    Writes w (wordsOfBytes bytes) w' := by
  unfold writeBytes at h
  split at h
  · rename_i hlength
    cases h
    rw [List.eq_nil_of_length_eq_zero hlength]
    exact Writes.refl w
  · exact ⟨w.ticks + 1, append_some h⟩

/-- Characters are written. -/
theorem writes_writeChars {chars : List UInt16} (h : writeChars env chars w = (some (), w')) :
    Writes w (wordsOfChars chars) w' := by
  unfold writeChars at h
  split at h
  · rename_i hlength
    cases h
    rw [List.eq_nil_of_length_eq_zero hlength]
    exact Writes.refl w
  · exact ⟨w.ticks + 1, append_some h⟩

/-- The words of a string. -/
def stringWords (tag : UInt32) (chars : List UInt16) : List UInt64 :=
  pairToUInt64 tag (UInt32.ofNat chars.length) :: wordsOfChars chars

/-- A string is written. -/
theorem writes_writeString {tag : UInt32} {chars : List UInt16}
    (h : writeString env tag chars w = (some (), w')) : Writes w (stringWords tag chars) w' := by
  obtain ⟨_, w1, h1, h2⟩ := bind_some h
  obtain ⟨_, w2, h2, h3⟩ := bind_some h2
  exact ((writes_external h1).trans (writes_writePair h2)).trans (writes_writeChars h3)

/-- The words of a key. -/
def idWords : PropertyId → List UInt64
  | .index i => [pairToUInt64 sctagIndex i]
  | .name chars => stringWords sctagString chars

/-- A key is written. -/
theorem writes_writeId {id : PropertyId} (h : writeId env id w = (some (), w')) :
    Writes w (idWords id) w' := by
  cases id with
  | index i => exact writes_writePair h
  | name chars => exact writes_writeString h

end CloneWriter

/-- An event links objects to positions, or refers to an object. -/
def Event.isLink : Event → Bool
  | .object _ _ => true
  | .backReference _ _ => true
  | _ => false

namespace CloneReader

variable {A B : Type} {env : Environment} {r r' : ReaderState}

/-- These words are left in the input. -/
def At (r : ReaderState) (words : List UInt64) : Prop :=
  ∃ before, r.words = before ++ words ∧ r.point = before.length

/-- A later state with the same links. -/
def Later (r r' : ReaderState) : Prop := ∀ e, e.isLink = true → (e ∈ r'.trace ↔ e ∈ r.trace)

/-- The reader stays. -/
theorem Later.refl (r : ReaderState) : Later r r := fun _ _ => Iff.rfl

/-- The reader goes on and on. -/
theorem Later.trans {r'' : ReaderState} (h : Later r r') (h' : Later r' r'') : Later r r'' :=
  fun e he => (h' e he).trans (h e he)

/-- The trace is the same. -/
theorem Later.of_same (htrace : r'.trace = r.trace) : Later r r' := fun e _ => by rw [htrace]

/-- Something else than a link is recorded. -/
theorem Later.of_record {e : Event} (he : e.isLink = false) (htrace : r'.trace = r.trace ++ [e]) :
    Later r r' := by
  intro e' he'
  have hne : e' ≠ e := by
    intro heq
    rw [heq, he] at he'
    cases he'
  rw [htrace, List.mem_append, List.mem_singleton, or_iff_left hne]

/-- Where the reader goes on: objects and links are the same. -/
structure Onward (r r' : ReaderState) : Prop where
  later : Later r r'
  words : r'.words = r.words
  objs : r'.objs = r.objs
  allObjs : r'.allObjs = r.allObjs
  heap : r'.heap = r.heap

namespace Onward

/-- The reader stays. -/
theorem refl (r : ReaderState) : Onward r r := ⟨.refl r, rfl, rfl, rfl, rfl⟩

/-- The reader goes on and on. -/
theorem trans {r'' : ReaderState} (h : Onward r r') (h' : Onward r' r'') : Onward r r'' :=
  ⟨h.later.trans h'.later, h'.words.trans h.words, h'.objs.trans h.objs,
    h'.allObjs.trans h.allObjs, h'.heap.trans h.heap⟩

end Onward

/-- Reading has a result of a kind, or fails although it may not. What is referred to before it fails
is described, too. -/
def Follows (may : Prop) (good : ReaderState → Prop) (x : CloneReader A) (r : ReaderState)
    (Q : A → ReaderState → Prop) : Prop :=
  match x r with
  | (.ok a, r') => Q a r'
  | (.error _, r') => good r' ∧ may

namespace Follows

variable {may : Prop} {good : ReaderState → Prop} {x : CloneReader A} {f : A → CloneReader B}
  {Q : A → ReaderState → Prop} {R : B → ReaderState → Prop}

/-- A result, and what holds of it. -/
theorem of_ok {a : A} (hx : x r = (.ok a, r')) (hQ : Q a r') : Follows may good x r Q := by
  rw [Follows, hx]
  exact hQ

/-- An error. -/
theorem of_error {e : Stop} (hx : x r = (.error e, r')) (hgood : good r') (hmay : may) :
    Follows may good x r Q := by
  rw [Follows, hx]
  exact ⟨hgood, hmay⟩

/-- One thing is read after another. -/
theorem bind (hx : Follows may good x r Q) (hf : ∀ a r', Q a r' → Follows may good (f a) r' R) :
    Follows may good (x >>= f) r R := by
  unfold Follows at hx
  cases hxr : x r with
  | mk result r1 =>
    rw [hxr] at hx
    cases result with
    | error e => exact of_error (bind_error hxr) hx.1 hx.2
    | ok a =>
      have hfa := hf a r1 hx
      rw [Follows, bind_ok hxr]
      exact hfa

/-- Less is said of the result. -/
theorem mono {Q' : A → ReaderState → Prop} (hx : Follows may good x r Q)
    (hQ : ∀ a r', Q a r' → Q' a r') : Follows may good x r Q' := by
  unfold Follows at hx ⊢
  cases hxr : x r with
  | mk result r1 =>
    rw [hxr] at hx
    cases result with
    | error e => exact hx
    | ok a => exact hQ a r1 hx

/-- A value is returned. -/
theorem pure {a : A} (hQ : Q a r) : Follows may good (Pure.pure a) r Q := of_ok rfl hQ

/-- The case of a condition that holds. -/
theorem ite_pos {c : Prop} [Decidable c] {y : CloneReader A} (hc : c) (hx : Follows may good x r Q) :
    Follows may good (if c then x else y) r Q := by
  rw [if_pos hc]
  exact hx

/-- The case of a condition that does not hold. -/
theorem ite_neg {c : Prop} [Decidable c] {y : CloneReader A} (hc : ¬ c) (hy : Follows may good y r Q) :
    Follows may good (if c then x else y) r Q := by
  rw [if_neg hc]
  exact hy

end Follows

section primitives

variable {may : Prop} {good : ReaderState → Prop} {rest : List UInt64}

/-- A word is read. -/
theorem follows_readWord {u : UInt64} (hr : At r (u :: rest)) :
    Follows may good readWord r fun a r' =>
      a = u ∧ Onward r r' ∧ At r' rest ∧ r'.point = r.point + 1 := by
  obtain ⟨before, hwords, hpoint⟩ := hr
  have hword : r.words[r.point]? = some u := by
    rw [hwords, hpoint, List.getElem?_append_right (Nat.le_refl _), Nat.sub_self]
    rfl
  have hlt : r.point < r.words.length := (List.getElem?_eq_some_iff.mp hword).1
  have hrun : readWord r = (.ok u, { r with
      point := r.point + 1
      trace := r.trace ++ [.input r.point 1] }) := by
    unfold readWord
    rw [if_neg (Nat.ne_of_lt hlt)]
    dsimp only
    rw [hword]
  refine .of_ok hrun ⟨rfl, ⟨.of_record (e := .input r.point 1) rfl rfl, rfl, rfl, rfl, rfl⟩, ?_, rfl⟩
  exact ⟨before ++ [u], by rw [List.append_assoc]; exact hwords, by rw [List.length_append, hpoint]; rfl⟩

/-- A pair is read. -/
theorem follows_readPair {tag data : UInt32} (hr : At r (pairToUInt64 tag data :: rest)) :
    Follows may good readPair r fun a r' =>
      a = (tag, data) ∧ Onward r r' ∧ At r' rest ∧ r'.point = r.point + 1 :=
  (follows_readWord hr).bind fun a r1 hQ => .pure
    ⟨by rw [hQ.1, tagOf_pairToUInt64, dataOf_pairToUInt64], hQ.2⟩

/-- A number that is canonical stays. -/
theorem canonicalizeNaN_canonicalizeNaN (d : UInt64) :
    canonicalizeNaN (canonicalizeNaN d) = canonicalizeNaN d := by
  have hnan : canonicalizeNaN 0x7FF8000000000000 = 0x7FF8000000000000 := by decide
  by_cases h : isNaN d = true
  · have hd : canonicalizeNaN d = 0x7FF8000000000000 := if_pos h
    rw [hd, hnan]
  · have hd : canonicalizeNaN d = d := if_neg h
    rw [hd, hd]

/-- A number is read. -/
theorem follows_readDouble {d : UInt64} (hr : At r (canonicalizeNaN d :: rest)) :
    Follows may good readDouble r fun a r' =>
      a = canonicalizeNaN d ∧ Onward r r' ∧ At r' rest ∧ r'.point = r.point + 1 :=
  (follows_readWord hr).bind fun a r1 hQ => .pure
    ⟨by rw [hQ.1, canonicalizeNaN_canonicalizeNaN], hQ.2⟩

/-- The words of an array are read. -/
theorem follows_readArray {size nelems : ℕ} {words : List UInt64} (hr : At r (words ++ rest))
    (hlength : words.length = howMany nelems (8 / size)) (hnelems : nelems < 2 ^ 32) :
    Follows may good (readArray size nelems) r fun a r' =>
      a = words ∧ Onward r r' ∧ At r' rest ∧ r'.point = r.point + words.length := by
  obtain ⟨before, hwords, hpoint⟩ := hr
  have htotal : r.words.length = r.point + words.length + rest.length := by
    rw [hwords, List.length_append, List.length_append, hpoint, Nat.add_assoc]
  have hfew : ¬ (nelems + (8 / size - 1) ≥ 2 ^ 64 ∨
      howMany nelems (8 / size) > r.words.length - r.point) := by
    have hle : 8 / size ≤ 8 := Nat.div_le_self 8 size
    omega
  have hsegment : segment r.words r.point (howMany nelems (8 / size)) = some words := by
    rw [Segments.segment, if_pos (by omega), hwords, hpoint, List.drop_left, ← hlength, List.take_left]
  have hrun : readArray size nelems r = (.ok words, { r with
      point := r.point + howMany nelems (8 / size)
      trace := r.trace ++ [.input r.point (howMany nelems (8 / size))] }) := by
    unfold readArray
    dsimp only
    rw [if_neg hfew, hsegment]
  refine .of_ok hrun ⟨rfl, ⟨.of_record (e := .input r.point (howMany nelems (8 / size))) rfl rfl, rfl,
    rfl, rfl, rfl⟩, ?_, by rw [hlength]⟩
  exact ⟨before ++ words, by rw [List.append_assoc]; exact hwords,
    by rw [List.length_append, ← hpoint, hlength]⟩

/-- Bytes are read. -/
theorem follows_readBytes {bytes : List UInt8} (hr : At r (wordsOfBytes bytes ++ rest))
    (hlength : bytes.length < 2 ^ 32) : Follows may good (readBytes bytes.length) r fun a r' =>
      a = bytes ∧ Onward r r' ∧ At r' rest ∧ r'.point = r.point + (wordsOfBytes bytes).length :=
  (follows_readArray hr (length_wordsOfBytes bytes) hlength).bind fun a r1 hQ => .pure
    ⟨by rw [hQ.1, bytesOf_wordsOfBytes], hQ.2⟩

/-- Characters are read. -/
theorem follows_readChars {chars : List UInt16} (hr : At r (wordsOfChars chars ++ rest))
    (hlength : chars.length < 2 ^ 32) : Follows may good (readChars chars.length) r fun a r' =>
      a = chars ∧ Onward r r' ∧ At r' rest ∧ r'.point = r.point + (wordsOfChars chars).length :=
  (follows_readArray hr (length_wordsOfChars chars) hlength).bind fun a r1 hQ => .pure
    ⟨by rw [hQ.1, charsOf_wordsOfChars], hQ.2⟩

/-- The null that ends an object is read. -/
theorem follows_readId_null (hr : At r (pairToUInt64 sctagNull 0 :: rest)) :
    Follows may good (readId env) r fun a r' =>
      a = none ∧ Onward r r' ∧ At r' rest ∧ r'.point = r.point + 1 := by
  refine (follows_readPair hr).bind fun p r1 hQ1 => ?_
  obtain ⟨rfl, honward, hat, hpoint⟩ := hQ1
  exact .ite_neg (by decide) (.ite_neg (by decide) (.ite_pos rfl (.pure ⟨rfl, honward, hat, hpoint⟩)))

/-- How the reader may fail: where the engine does, in a state that is as good as before. -/
structure MayFail (env : Environment) (may : Prop) (good : ReaderState → Prop) : Prop where
  fails : ¬ Succeeds env → may
  steady : ∀ r r', Later r r' → good r → good r'

variable (hmay : MayFail env may good)

include hmay

/-- The engine does something. -/
theorem follows_external (hgood : good r) : Follows may good (external env) r fun _ r' =>
    Onward r r' ∧ r'.words = r.words ∧ r'.point = r.point := by
  let r1 : ReaderState := { r with ticks := r.ticks + 1 }
  have honward : Onward r r1 := ⟨.of_same rfl, rfl, rfl, rfl, rfl⟩
  by_cases hsucceeds : env.succeeds r.ticks = true
  · have hrun : external env r = (.ok (), r1) := if_pos hsucceeds
    exact .of_ok hrun ⟨honward, rfl, rfl⟩
  · have hrun : external env r = (.error (.error "external"), r1) := if_neg hsucceeds
    exact .of_error hrun (hmay.steady r r1 honward.later hgood)
      (hmay.fails fun hall => hsucceeds (hall _))

/-- A string is read. -/
theorem follows_readString {chars : List UInt16} (hr : At r (wordsOfChars chars ++ rest))
    (hlength : chars.length ≤ maxStringLength) (hgood : good r) :
    Follows may good (readString env (UInt32.ofNat chars.length)) r fun a r' =>
      a = chars ∧ Onward r r' ∧ At r' rest ∧ r'.point = r.point + (wordsOfChars chars).length := by
  have hlt : chars.length < 2 ^ 32 := Nat.lt_of_le_of_lt hlength (by decide)
  have hnat : (UInt32.ofNat chars.length).toNat = chars.length := UInt32.toNat_ofNat_of_lt' hlt
  unfold readString
  rw [hnat]
  refine .ite_neg (Nat.not_lt.mpr hlength) ?_
  refine (follows_external hmay hgood).bind fun _ r1 hQ1 => ?_
  have hr1 : At r1 (wordsOfChars chars ++ rest) := by rw [At, hQ1.2.1, hQ1.2.2]; exact hr
  refine (follows_readChars hr1 hlt).bind fun a r2 hQ2 => ?_
  have honward := hQ1.1.trans hQ2.2.1
  refine (follows_external hmay (hmay.steady r r2 honward.later hgood)).bind fun _ r3 hQ3 => ?_
  refine .pure ⟨hQ2.1, honward.trans hQ3.1, ?_, by rw [hQ3.2.2, hQ2.2.2.2, hQ1.2.2]⟩
  rw [At, hQ3.2.1, hQ3.2.2]
  exact hQ2.2.2.1

/-- A key is read. -/
theorem follows_readId {id : PropertyId} (hr : At r (CloneWriter.idWords id ++ rest))
    (hlength : ∀ chars, id = .name chars → chars.length ≤ maxStringLength) (hgood : good r) :
    Follows may good (readId env) r fun a r' => a = some id ∧ Onward r r' ∧ At r' rest ∧
      r'.point = r.point + (CloneWriter.idWords id).length := by
  cases id with
  | index i =>
    refine (follows_readPair hr).bind fun p r1 hQ1 => ?_
    obtain ⟨rfl, honward, hat, hpoint⟩ := hQ1
    exact .ite_pos rfl (.pure ⟨rfl, honward, hat, hpoint⟩)
  | name chars =>
    refine (follows_readPair hr).bind fun p r1 hQ1 => ?_
    obtain ⟨rfl, honward, hat, hpoint⟩ := hQ1
    refine .ite_neg (by decide) (.ite_pos rfl ?_)
    have hgood1 := hmay.steady r r1 honward.later hgood
    refine (follows_readString hmay hat (hlength chars rfl) hgood1).bind fun a r2 hQ2 => ?_
    have honward2 := honward.trans hQ2.2.1
    refine (follows_external hmay (hmay.steady r r2 honward2.later hgood)).bind fun _ r3 hQ3 => ?_
    refine .pure ⟨by rw [hQ2.1], honward2.trans hQ3.1, ?_, ?_⟩
    · rw [At, hQ3.2.1, hQ3.2.2]
      exact hQ2.2.2.1
    · rw [hQ3.2.2, hQ2.2.2.2, hpoint, CloneWriter.idWords, CloneWriter.stringWords, List.length_cons]
      omega

end primitives

end CloneReader

end SpiderMonkey.Vm.StructuredClone
