import SpiderMonkey.Vm.StructuredCloneReaderSound
import SpiderMonkey.Vm.StructuredCloneRun

/-!
# Round trips of structured clones

What is written for a graph of objects is read as one that is isomorphic to it, unless the writer
could not write the null that ends an object: then it goes on, and the reader fails.
-/

namespace SpiderMonkey.Vm.StructuredClone

open CloneReader

/-- The objects that a value leads to. -/
inductive Reachable (heap : ℕ → Obj) (v : Value) : ℕ → Prop where
  | root {obj : ℕ} (h : v = .object obj) : Reachable heap v obj
  | property {obj obj' : ℕ} {isArray : Bool} {props : List (PropertyId × Value)} {p : PropertyId × Value}
      (h : Reachable heap v obj) (hobj : heap obj = .plain isArray props) (hp : p ∈ props)
      (hvalue : p.2 = .object obj') : Reachable heap v obj'
  | buffer {obj buffer : ℕ} {type byteOffset length : UInt32} (h : Reachable heap v obj)
      (hobj : heap obj = .typedArray type buffer byteOffset length) : Reachable heap v buffer

/-- An object when the objects that it refers to are replaced by others. -/
def Obj.image (f : ℕ → ℕ) : Obj → Obj
  | .plain isArray props => .plain isArray (props.map fun p => (p.1, p.2.image f))
  | .typedArray type buffer byteOffset length => .typedArray type (f buffer) byteOffset length
  | o => startedObj o

/-- Two graphs are the same but for the addresses of objects, and for which number is none. -/
def Isomorphic (heap : ℕ → Obj) (v : Value) (heap' : List Obj) (v' : Value) : Prop :=
  ∃ f : ℕ → ℕ, (∀ a b, Reachable heap v a → Reachable heap v b → f a = f b → a = b) ∧
    v' = v.image f ∧ ∀ obj, Reachable heap v obj → heap'[f obj]? = some ((heap obj).image f)

/-- A value and objects as the engine has them, none of them left to callbacks. -/
structure ValidSource (heap : ℕ → Obj) (v : Value) : Prop where
  objects : ∀ obj, ValidObj heap (heap obj)
  noHost : ∀ obj tag data items, heap obj ≠ .host tag data items
  value : v.Valid

/-- Words are all read, as a graph that is isomorphic to the one with this value. -/
def RoundTrips (renv : Environment) (words : List UInt64) (heap : ℕ → Obj) (v : Value) : Prop :=
  ∃ v' r', read renv words = (.ok v', r') ∧ r'.point = words.length ∧ Isomorphic heap v r'.heap v'

section copies

variable {heap : ℕ → Obj} {w : WriterState} {r : ReaderState} {f : ℕ → ℕ}

/-- A copy of a value has clones in the place of objects. -/
theorem CopyOf.eq_image {v v' : Value} (h : CopyOf w r v v')
    (hf : ∀ obj c, CloneOf w r obj c → f obj = c) : v' = v.image f := by
  cases h with
  | object hclone => rw [Value.image, hf _ _ hclone]
  | _ => rfl

/-- Copied properties have clones in the place of objects. -/
theorem eq_map_of_copied {props copies : List (PropertyId × Value)}
    (h : List.Forall₂ (CopiedProperty w r) props copies)
    (hf : ∀ obj c, CloneOf w r obj c → f obj = c) :
    copies = props.map fun p => (p.1, p.2.image f) := by
  induction h with
  | nil => rfl
  | @cons p p' props copies hp _ ih =>
    have hp' : p' = (p.1, p.2.image f) := Prod.ext hp.1 (hp.2.eq_image hf)
    rw [List.map_cons, ← ih, ← hp']

/-- A copy of an object with no properties left has clones in the place of objects. -/
theorem CopiedObj.eq_image {o o' : Obj} (h : CopiedObj w r [] o o')
    (hf : ∀ obj c, CloneOf w r obj c → f obj = c) : o' = o.image f := by
  cases h with
  | plain hcopied =>
    rw [List.append_nil, Obj.image, eq_map_of_copied hcopied hf]
  | typedArray hclone => rw [Obj.image, hf _ _ hclone]
  | leaf hleaf =>
    cases o with
    | plain isArray props => cases hleaf
    | typedArray type buffer byteOffset length => cases hleaf
    | _ => rfl

/-- Each object that a value leads to has a clone. -/
theorem exists_cloneOf {v v' : Value} {obj : ℕ} (h : Copies heap [] w r) (hv : CopyOf w r v v')
    (hreachable : Reachable heap v obj) : ∃ c, CloneOf w r obj c := by
  induction hreachable with
  | root hroot =>
    rw [hroot] at hv
    cases hv with
    | object hclone => exact ⟨_, hclone⟩
  | @property obj obj' isArray props p _ hobj hp hvalue ih =>
    obtain ⟨c, hclone⟩ := ih
    obtain ⟨o, _, hcopied⟩ := h.contents obj c hclone
    have hleft : leftOf [] obj = [] := rfl
    rw [hobj, hleft] at hcopied
    generalize hsource : Obj.plain isArray props = source at hcopied
    cases hcopied with
    | @plain isArray' done copies hdone =>
      rw [List.append_nil] at hsource
      cases hsource
      obtain ⟨i, hi, rfl⟩ := List.getElem_of_mem hp
      have hcopy := (hdone.get hi (by rw [← hdone.length_eq]; exact hi)).2
      rw [List.get_eq_getElem, hvalue] at hcopy
      generalize (copies.get _).2 = value at hcopy
      cases hcopy with
      | object hclone' => exact ⟨_, hclone'⟩
    | typedArray _ => cases hsource
    | leaf hleaf => rw [← hsource] at hleaf; cases hleaf
  | @buffer obj buffer type byteOffset length _ hobj ih =>
    obtain ⟨c, hclone⟩ := ih
    obtain ⟨o, _, hcopied⟩ := h.contents obj c hclone
    rw [hobj] at hcopied
    cases hcopied with
    | typedArray hclone' => exact ⟨_, hclone'⟩
    | leaf hleaf => cases hleaf

/-- A graph that was copied is isomorphic. -/
theorem Related.isomorphic {exact : Prop} {v v' : Value}
    (h : Related heap exact none 0 [] [] w r) (hexact : exact) (hv : CopyOf w r v v') :
    Isomorphic heap v r.heap v' := by
  have hcopies := h.copies hexact
  let f : ℕ → ℕ := fun obj => Classical.epsilon fun c => CloneOf w r obj c
  have hspec : ∀ obj c, CloneOf w r obj c → CloneOf w r obj (f obj) :=
    fun obj c hclone => Classical.epsilon_spec (p := fun c => CloneOf w r obj c) ⟨c, hclone⟩
  have hf : ∀ obj c, CloneOf w r obj c → f obj = c :=
    fun obj c hclone => (hspec obj c hclone).unique h.numbers.writer.nodup hclone
  refine ⟨f, fun a b ha hb heq => ?_, hv.eq_image hf, fun obj hreachable => ?_⟩
  · obtain ⟨ca, hca⟩ := exists_cloneOf hcopies hv ha
    obtain ⟨cb, hcb⟩ := exists_cloneOf hcopies hv hb
    have hclone := h.numbers.isClone (hspec a ca hca) (by rintro ⟨⟩)
    rw [heq] at hclone
    exact h.numbers.linked.eq_of_isClone hclone (h.numbers.isClone (hspec b cb hcb) (by rintro ⟨⟩))
  · obtain ⟨c, hclone⟩ := exists_cloneOf hcopies hv hreachable
    obtain ⟨o, ho, hcopied⟩ := hcopies.contents obj c hclone
    rw [hf obj c hclone, ho, hcopied.eq_image hf]

/-- There is no transfer map to read. -/
theorem follows_readMap {may : Prop} {good : ReaderState → Prop} {renv : Environment} {u : UInt64}
    {words : List UInt64} (hr : At r (u :: words)) (htag : tagOf u ≠ sctagTransferMapHeader) :
    Follows may good (readMap renv) r fun _ r' =>
      Onward r r' ∧ At r' (u :: words) ∧ r'.point = r.point := by
  obtain ⟨before, hwords, hpoint⟩ := hr
  have hword : r.words[r.point]? = some u := by
    rw [hwords, hpoint, List.getElem?_append_right (Nat.le_refl _), Nat.sub_self]
    rfl
  have hne : r.point ≠ r.words.length := Nat.ne_of_lt (List.getElem?_eq_some_iff.mp hword).1
  have htell : Follows may good tell r fun p r1 => r1 = r := .of_ok rfl rfl
  refine htell.bind fun p r1 hQ1 => ?_
  obtain rfl := hQ1
  have hget : Follows may good getPair r1 fun p r2 => p = (tagOf u, dataOf u) ∧
      r2 = { r1 with trace := r1.trace ++ [.input r1.point 1] } := by
    have hrun : getPair r1 =
        (.ok (tagOf u, dataOf u), { r1 with trace := r1.trace ++ [.input r1.point 1] }) := by
      unfold getPair
      rw [if_neg hne, hword]
    exact .of_ok hrun ⟨rfl, rfl⟩
  refine hget.bind fun p r2 hQ2 => ?_
  obtain ⟨rfl, rfl⟩ := hQ2
  refine .ite_pos (Or.inl htag) (.pure ⟨⟨?_, rfl, rfl, rfl, rfl⟩, ⟨before, hwords, hpoint⟩, rfl⟩)
  exact .of_record (e := .input r1.point 1) rfl rfl

/-- Nothing is written or read at first. -/
theorem related_initial (heap : ℕ → Obj) (exact : Prop) (words : List UInt64) :
    Related heap exact none 0 [] [] CloneWriter.initial (CloneReader.initial words) where
  numbers :=
    { writer := ⟨List.nodup_nil, Nat.zero_le _, fun _ _ h => absurd h List.not_mem_nil,
        fun _ _ _ h => absurd h List.not_mem_nil⟩
      point := rfl
      length := rfl
      numbered := fun i obj hi => by cases hi
      fresh := fun _ _ h => absurd h List.not_mem_nil
      linked := ⟨fun _ _ h => absurd h List.not_mem_nil, fun _ _ _ h => absurd h List.not_mem_nil,
        fun _ _ h => absurd h List.not_mem_nil, fun _ _ h => absurd h List.not_mem_nil⟩ }
  stacked := ⟨rfl, rfl, rfl, fun _ h => absurd h List.not_mem_nil, List.nodup_nil,
    fun _ h => absurd h List.not_mem_nil⟩
  copies _ := by
    refine ⟨.nil, fun obj c hclone => ?_⟩
    obtain ⟨i, hi, _⟩ := hclone
    cases hi
  lag := rfl

end copies

/-- What is written without transferred objects. -/
theorem CloneWriter.writeClone_some {env : WriteEnvironment} {heap : ℕ → Obj} {n : ℕ} {v : Value}
    {w' : WriterState} (h : writeClone env heap n [] v = (some (), w')) :
    ∃ w1, startWrite env heap n v initial = (some (), w1) ∧
      writeProperties env heap n n w1 = (some (), w') := by
  obtain ⟨transferables, w0, h0, h1⟩ := bind_some h
  cases h0
  obtain ⟨_, w0, h0, h1⟩ := bind_some h1
  cases h0
  obtain ⟨_, w1, h1, h2⟩ := bind_some h1
  obtain ⟨_, w2, h2, h3⟩ := bind_some h2
  cases h3
  exact ⟨w1, h1, h2⟩

/-- The state after a run that did not fail. -/
theorem CloneWriter.eq_of_fst {run : Option Unit × WriterState} (h : run.1 = some ()) :
    run = (some (), run.2) := Prod.ext h rfl

/-- An array whose only element is the array. -/
def selfArray : ℕ → Obj := fun _ => .plain true [(.index 0, .object 0)]

/-- A writer for which nothing fails. -/
def writeEngine : WriteEnvironment := ⟨fun _ => true, false, fun _ => 0⟩

/-- An object without properties. -/
def emptyObject : ℕ → Obj := fun _ => .plain false []

/-- A writer that fails once, when the null that ends an object is written. -/
def failsAtEnd : WriteEnvironment := ⟨fun t => t != 4, false, fun _ => 0⟩

end SpiderMonkey.Vm.StructuredClone
