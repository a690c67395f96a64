import SpiderMonkey.Vm.StructuredCloneSimulation

/-!
# Reading all that was written

The loops that write and read properties. The writer goes on when it cannot write the null that ends
an object; the reader then has an object more on its stack than the writer, and runs out of input.
-/

namespace SpiderMonkey.Vm.StructuredClone

open CloneReader

namespace CloneWriter

variable {env : WriteEnvironment} {heap : ℕ → Obj} {w w' : WriterState} {depth n : ℕ} {frames : Frames}
  {obj : ℕ}

/-- The state is read. -/
theorem get_bind {A : Type} (f : WriterState → CloneWriter A) : (get >>= f) w = f w w := rfl

/-- No properties are left. -/
theorem writeProperties_nil (hstacked : Stacked heap [] w)
    (h : writeProperties env heap depth (n + 1) w = (some (), w')) : w' = w := by
  rw [writeProperties, get_bind] at h
  rw [hstacked.objs, hstacked.counts] at h
  cases h
  rfl

/-- The state after words were appended, or not. -/
theorem append_snd (env : WriteEnvironment) (words : List UInt64) (w : WriterState) :
    (append env words w).2 = { w with
      ticks := w.ticks + 1
      out := w.out ++ if env.succeeds w.ticks then words else [] } := by
  change (CloneWriter.bind (external env) _ w).2 = _
  unfold CloneWriter.bind external
  dsimp only
  by_cases hsucceeds : env.succeeds w.ticks = true
  · rw [if_pos hsucceeds, if_pos hsucceeds]
    rfl
  · rw [if_neg hsucceeds, if_neg hsucceeds, List.append_nil]

/-- The value of a property is found by its key. -/
theorem propertyOf_eq {isArray : Bool} {done left : List (PropertyId × Value)} {id : PropertyId}
    {v : Value} (hobj : heap obj = .plain isArray (done ++ (id, v) :: left))
    (hnodup : ((done ++ (id, v) :: left).map Prod.fst).Nodup) : propertyOf heap obj id = some v := by
  have hnone : done.find? (fun p => decide (p.1 = id)) = none := by
    rw [List.find?_eq_none]
    intro p hp hid
    rw [List.map_append, List.map_cons, List.nodup_append] at hnodup
    exact hnodup.2.2 p.1 (List.mem_map_of_mem hp) id List.mem_cons_self (of_decide_eq_true hid)
  unfold propertyOf
  rw [hobj]
  change ((done ++ (id, v) :: left).find? fun p => decide (p.1 = id)).map Prod.snd = some v
  rw [List.find?_append, hnone, Option.none_or, List.find?_cons, decide_eq_true (rfl : id = id)]
  rfl

/-- The null that ends an object is written, or dropped. -/
theorem writeProperties_end (hstacked : Stacked heap ((obj, []) :: frames) w)
    (h : writeProperties env heap depth (n + 1) w = (some (), w')) :
    ∃ w1, writeProperties env heap depth n w1 = (some (), w') ∧ Stacked heap frames w1 ∧
      w1.ends = w.ends ++ [w.ticks] ∧
      Outputs w (if env.succeeds w.ticks then [pairToUInt64 sctagNull 0] else []) w1 := by
  rw [writeProperties, get_bind] at h
  rw [hstacked.objs, hstacked.counts] at h
  obtain ⟨_, w1, h1, h2⟩ := bind_some h
  obtain ⟨_, w2, h2, h3⟩ := bind_some h2
  obtain ⟨_, w3, h3, h4⟩ := bind_some h3
  cases h1
  cases h3
  have hends : (writePair env sctagNull 0 { w with ends := w.ends ++ [w.ticks] }).2 = w2 :=
    congrArg Prod.snd h2
  have hw2 : w2 = { w with
      ends := w.ends ++ [w.ticks]
      ticks := w.ticks + 1
      out := w.out ++ if env.succeeds w.ticks then [pairToUInt64 sctagNull 0] else [] } :=
    hends.symm.trans (append_snd env [pairToUInt64 sctagNull 0] { w with ends := w.ends ++ [w.ticks] })
  rw [hw2] at h4
  refine ⟨_, h4, ⟨rfl, rfl, hstacked.ids, ?_, ?_, ?_⟩, rfl, rfl, rfl, rfl⟩
  · exact fun frame hframe => hstacked.left frame (List.mem_cons_of_mem _ hframe)
  · exact (List.nodup_cons.mp hstacked.distinct).2
  · exact fun frame hframe => hstacked.met frame (List.mem_cons_of_mem _ hframe)

/-- The next property of an object is written. -/
theorem writeProperties_property {id : PropertyId} {v : Value} {left : List (PropertyId × Value)}
    (hvalid : ValidObj heap (heap obj)) (hstacked : Stacked heap ((obj, (id, v) :: left) :: frames) w)
    (h : writeProperties env heap depth (n + 1) w = (some (), w')) :
    ∃ w1 w2, Outputs w (idWords id) w1 ∧ w1.ends = w.ends ∧ Stacked heap ((obj, left) :: frames) w1 ∧
      startWrite env heap depth v w1 = (some (), w2) ∧
        writeProperties env heap depth n w2 = (some (), w') := by
  rw [writeProperties, get_bind] at h
  rw [hstacked.objs, hstacked.counts, hstacked.ids] at h
  obtain ⟨_, w1, h1, h2⟩ := bind_some h
  obtain ⟨_, w2, h2, h3⟩ := bind_some h2
  cases h1
  obtain ⟨isArray, done, hobj⟩ := hstacked.left (obj, (id, v) :: left) List.mem_cons_self
  have hobj : heap obj = .plain isArray (done ++ (id, v) :: left) := hobj
  rw [hobj] at hvalid
  have hproperty := propertyOf_eq hobj hvalid.1
  rw [hproperty] at h3
  obtain ⟨_, w3, h3, h4⟩ := bind_some h3
  obtain ⟨_, w4, h4, h5⟩ := bind_some h4
  obtain ⟨_, w5, h5, h6⟩ := bind_some h5
  have hwrites := ((writes_external h2).trans (writes_writeId h3)).trans (writes_external h4)
  rw [List.nil_append, List.append_nil] at hwrites
  obtain ⟨ticks, hw4⟩ := hwrites
  have hends : w4.ends = w.ends := by rw [hw4]
  refine ⟨w4, w5, ⟨by rw [hw4], by rw [hw4], by rw [hw4]⟩, hends, ?_, h5, h6⟩
  rw [hw4]
  refine ⟨hstacked.objs, rfl, rfl, ?_, ?_, ?_⟩
  · intro frame hframe
    cases List.mem_cons.mp hframe with
    | inl heq =>
      refine ⟨isArray, done ++ [(id, v)], ?_⟩
      rw [heq, List.append_assoc]
      exact hobj
    | inr hmem => exact hstacked.left frame (List.mem_cons_of_mem _ hmem)
  · exact hstacked.distinct
  · intro frame hframe
    cases List.mem_cons.mp hframe with
    | inl heq => rw [heq]; exact hstacked.met (obj, (id, v) :: left) List.mem_cons_self
    | inr hmem => exact hstacked.met frame (List.mem_cons_of_mem _ hmem)

end CloneWriter

section properties

variable {env : WriteEnvironment} {heap : ℕ → Obj} {renv : Environment} {final : WriterState}
  {exact : Prop} {w w' : WriterState} {r : ReaderState} {lag : ℕ} {frames : Frames}

/-- No key is read at the end of the input. -/
theorem follows_readId_end {may : Prop} {good : ReaderState → Prop}
    {Q : Option PropertyId → ReaderState → Prop} (hr : At r []) (hgood : good r) (hmay : may) :
    Follows may good (readId renv) r Q := by
  obtain ⟨before, hwords, hpoint⟩ := hr
  have hend : r.point = r.words.length := by rw [hwords, hpoint, List.append_nil]
  have hword : readWord r = (.error (.error "truncated"), r) := by
    unfold readWord
    rw [if_pos hend]
    rfl
  exact .of_error (bind_error (bind_error hword)) hgood hmay

/-- The object on top of the stack is taken out of its value, if it is one. -/
theorem follows_toObject {may : Prop} {good : ReaderState → Prop} {top : Value} {rest : List UInt64}
    (hr : At r rest) (hgood : good r) (hsteady : ∀ r r', Later r r' → good r → good r')
    (hmay : (∀ c, top ≠ .object c) → may) :
    Follows may good (toObject top) r fun c r' =>
      top = .object c ∧ Onward r r' ∧ At r' rest ∧ r'.point = r.point := by
  refine (follows_record rfl hr).bind fun _ r1 hQ1 => ?_
  cases top with
  | object c => exact .pure ⟨rfl, hQ1⟩
  | _ => exact .of_error rfl (hsteady r r1 hQ1.1.later hgood) (hmay fun c heq => by cases heq)

/-- A property is defined on the clone of its object. -/
theorem follows_defineGeneric (hs : Setting heap renv final exact) {obj c : ℕ} {id : PropertyId}
    {v v' : Value} {left : List (PropertyId × Value)} {pushed : Frames} {words : List UInt64}
    (hrelated : Related heap exact none lag (pushed ++ (obj, left) :: frames)
      (pushed ++ (obj, (id, v) :: left) :: frames) w r) (hgrows : w.Grows final)
    (hpushed : ∀ frame ∈ pushed, frame.1 ≠ obj) (hclone : exact → CloneOf w r obj c)
    (hv : CopyOf w r v v') (hr : At r words) :
    Follows (¬ exact) (Linked final) (defineGeneric renv c id v') r fun _ r' =>
      Related heap exact none lag (pushed ++ (obj, left) :: frames) (pushed ++ (obj, left) :: frames) w r' ∧
        At r' words ∧ r'.allObjs = r.allObjs := by
  have hgood : Linked final r := hrelated.numbers.linked.grow hgrows
  refine (follows_external hs.mayFail hgood).bind fun _ r1 hQ1 => ?_
  obtain ⟨honward1, hwords1, hpoint1⟩ := hQ1
  have hrelated1 := hrelated.onward honward1 hpoint1
  have hat1 : At r1 words := by rw [At, hwords1, hpoint1]; exact hr
  have hget : Follows (¬ exact) (Linked final) (getObj c) r1 fun o r2 => o = r1.heap[c]? ∧ r2 = r1 :=
    .of_ok rfl ⟨rfl, rfl⟩
  refine hget.bind fun o r2 hQ2 => ?_
  obtain ⟨rfl, rfl⟩ := hQ2
  -- what follows if the clone is as it should be
  have hcopies : exact → ∃ isArray copies, r2.heap[c]? = some (.plain isArray copies) ∧
      ∀ r' : ReaderState, r'.allObjs = r2.allObjs → r'.objs = r2.objs →
        r'.heap = r2.heap.set c (.plain isArray (defineProperty copies id v')) →
          Copies heap (pushed ++ (obj, left) :: frames) w r' := by
    intro hexact
    have hclone2 : CloneOf w r2 obj c := (cloneOf_congr rfl honward1.allObjs).mpr (hclone hexact)
    have hframe : (obj, left) ∈ pushed ++ (obj, left) :: frames :=
      List.mem_append_right _ List.mem_cons_self
    obtain ⟨isArray, done, hobj⟩ := hrelated.stacked.left _ hframe
    have hplain : isPlain (heap obj) = true := by
      have hobj : heap obj = .plain isArray (done ++ left) := hobj
      rw [hobj]
      rfl
    have hone : ∀ obj', CloneOf w r2 obj' c → obj' = obj := by
      intro obj' hclone'
      have hclones := hrelated1.numbers.isClone hclone' (by rintro ⟨⟩)
      exact hrelated1.numbers.linked.eq_of_isClone hclones (hrelated1.numbers.isClone hclone2 (by rintro ⟨⟩))
    exact (hrelated1.copies hexact).define (hs.valid obj) hplain hpushed hrelated1.numbers.writer.nodup
      hclone2 hone (hv.mono fun _ _ hold => (cloneOf_congr rfl honward1.allObjs).mpr hold)
  have hnumbers : ∀ r' : ReaderState, r'.trace = r2.trace → r'.allObjs = r2.allObjs →
      r'.heap.length = r2.heap.length → r'.point = r2.point → Numbers none w r' := by
    intro r' htrace hallObjs hheap hpoint
    have houtputs : Outputs w [] w := ⟨rfl, rfl, by rw [List.append_nil]⟩
    exact hrelated1.numbers.outputs houtputs (.of_same htrace) hallObjs (by rw [hheap]) hpoint
  have hother : (∀ isArray copies, r2.heap[c]? ≠ some (.plain isArray copies)) →
      Follows (¬ exact) (Linked final) (Pure.pure () : CloneReader Unit) r2 fun _ r' =>
        Related heap exact none lag (pushed ++ (obj, left) :: frames) (pushed ++ (obj, left) :: frames) w r' ∧
          At r' words ∧ r'.allObjs = r.allObjs := by
    refine fun hnone => .pure ⟨⟨hrelated1.numbers, hrelated1.stacked, fun hexact => ?_, hrelated1.lag⟩, hat1,
      honward1.allObjs⟩
    obtain ⟨isArray, copies, hplain, _⟩ := hcopies hexact
    exact absurd hplain (hnone isArray copies)
  cases ho : r2.heap[c]? with
  | none => exact hother fun isArray copies heq => by rw [ho] at heq; cases heq
  | some o =>
    cases o with
    | plain isArray copies =>
      refine .of_ok rfl ⟨⟨hnumbers _ rfl rfl (List.length_set) rfl, hrelated1.stacked, fun hexact => ?_,
        hrelated1.lag⟩, hat1, honward1.allObjs⟩
      obtain ⟨isArray', copies', hplain, hdefined⟩ := hcopies hexact
      rw [ho] at hplain
      cases hplain
      exact hdefined _ rfl rfl rfl
    | _ => exact hother fun isArray copies heq => by rw [ho] at heq; cases heq

/-- What was written is all read: each end of an object that was written since was one that did not
fail. -/
structure Finished (env : WriteEnvironment) (heap : ℕ → Obj) (exact : Prop) (lag : ℕ)
    (w w' : WriterState) (r r' : ReaderState) : Prop where
  lag : lag = 0
  ends : ∀ t ∈ w'.ends, t ∈ w.ends ∨ env.succeeds t = true
  related : Related heap exact none 0 [] [] w' r'
  left : At r' []
  allObjs : r.allObjs <+: r'.allObjs

/-- What the reader makes of properties that the writer writes in a bounded number of runs. -/
def Finishes (env : WriteEnvironment) (heap : ℕ → Obj) (renv : Environment) (final : WriterState)
    (exact : Prop) (depth d n : ℕ) : Prop :=
  ∀ w w' frames lag r m words, CloneWriter.writeProperties env heap depth n w = (some (), w') →
    w'.Grows final → (exact → ∀ t ∈ w'.ends, env.succeeds t = true) → w'.out = w.out ++ words →
      Related heap exact none lag frames frames w r → (exact → lag = 0) → At r words →
        words.length < m → Follows (¬ exact) (Linked final) (readProperties renv (d + 2) m) r
          fun _ r' => Finished env heap exact lag w w' r r'

/-- The stack of the reader is looked at. -/
theorem follows_openObjects {may : Prop} {good : ReaderState → Prop} :
    Follows may good openObjects r fun objs r' => objs = r.objs ∧ r' = r := .of_ok rfl ⟨rfl, rfl⟩

/-- The writer has no objects left. -/
theorem follows_readProperties_nil (hs : Setting heap renv final exact) {depth d n m : ℕ}
    {words : List UInt64} (h : CloneWriter.writeProperties env heap depth (n + 1) w = (some (), w'))
    (hgrows : w'.Grows final) (hout : w'.out = w.out ++ words)
    (hrelated : Related heap exact none lag [] [] w r) (hlag : exact → lag = 0) (hr : At r words) :
    Follows (¬ exact) (Linked final) (readProperties renv (d + 2) (m + 1)) r
      fun _ r' => Finished env heap exact lag w w' r r' := by
  have hw := CloneWriter.writeProperties_nil hrelated.stacked h
  have hwords : words = [] := by
    rw [hw] at hout
    exact List.self_eq_append_right.mp hout
  rw [hwords] at hr
  rw [hw] at hgrows ⊢
  have hgood : Linked final r := hrelated.numbers.linked.grow hgrows
  have hlength := hrelated.lag
  rw [hrelated.stacked.objs, List.map_nil, List.length_nil, Nat.zero_add] at hlength
  refine follows_openObjects.bind fun objs r1 hQ1 => ?_
  obtain ⟨rfl, rfl⟩ := hQ1
  cases hobjs : r1.objs with
  | nil =>
    have hzero : lag = 0 := by rw [← hlength, hobjs]; rfl
    rw [hzero] at hrelated
    exact .pure ⟨hzero, fun t ht => Or.inl ht, hrelated, hr, List.prefix_rfl⟩
  | cons top rest =>
    have hmay : ¬ exact := by
      intro hexact
      rw [hlag hexact, hobjs] at hlength
      cases hlength
    refine (follows_toObject hr hgood hs.mayFail.steady fun _ => hmay).bind fun c r2 hQ2 => ?_
    obtain ⟨_, honward, hat, _⟩ := hQ2
    have hend : Follows (¬ exact) (Linked final) (readId renv) r2 fun _ _ => False :=
      follows_readId_end hat (hgood.later honward.later) hmay
    exact hend.bind fun id r3 hQ3 => hQ3.elim

/-- The writer ends an object, and goes on. -/
theorem follows_readProperties_end (hs : Setting heap renv final exact) {depth d n m obj : ℕ}
    {words : List UInt64} (ih : Finishes env heap renv final exact depth d n)
    (h : CloneWriter.writeProperties env heap depth (n + 1) w = (some (), w'))
    (hgrows : w'.Grows final) (hends : exact → ∀ t ∈ w'.ends, env.succeeds t = true)
    (hout : w'.out = w.out ++ words)
    (hrelated : Related heap exact none lag ((obj, []) :: frames) ((obj, []) :: frames) w r)
    (hlag : exact → lag = 0) (hr : At r words) (hm : words.length < m + 1) :
    Follows (¬ exact) (Linked final) (readProperties renv (d + 2) (m + 1)) r
      fun _ r' => Finished env heap exact lag w w' r r' := by
  obtain ⟨w1, h1, hstacked1, hends1, houtputs⟩ := CloneWriter.writeProperties_end hrelated.stacked h
  have hadds : w1.Grows w' := by
    have hall : w1.Grows (CloneWriter.writeProperties env heap depth n w1).2 :=
      CloneWriter.Adds.writeProperties depth n w1
    rw [h1] at hall
    exact hall
  obtain ⟨words2, hwords2⟩ := hadds.out
  have hobjsw : w.objs.length = w1.objs.length + 1 := by
    rw [hrelated.stacked.objs, hstacked1.objs]
    rfl
  by_cases hsucceeds : env.succeeds w.ticks = true
  · rw [if_pos hsucceeds] at houtputs
    have hwords : words = pairToUInt64 sctagNull 0 :: words2 := by
      rw [houtputs.out, List.append_assoc, hout] at hwords2
      exact (List.append_cancel_left hwords2).symm
    have hgrows' : w.Grows final :=
      (houtputs.grows fun t ht => by rw [hends1]; exact List.mem_append_left _ ht).trans
        (hadds.trans hgrows)
    have hgood : Linked final r := hrelated.numbers.linked.grow hgrows'
    refine follows_openObjects.bind fun objs r1 hQ1 => ?_
    obtain ⟨rfl, rfl⟩ := hQ1
    cases hobjs : r1.objs with
    | nil =>
      have hlength := hrelated.lag
      rw [hobjs, hobjsw, List.length_nil] at hlength
      omega
    | cons top rest =>
      have hmay : (∀ c, top ≠ .object c) → ¬ exact := by
        intro hnone hexact
        obtain ⟨c, hc, _⟩ := (hrelated.copies hexact).top hobjs
        exact hnone c hc
      rw [hwords] at hr
      refine (follows_toObject hr hgood hs.mayFail.steady hmay).bind fun c r2 hQ2 => ?_
      obtain ⟨rfl, honward2, hat2, hpoint2⟩ := hQ2
      refine (follows_readId_null hat2).bind fun id r3 hQ3 => ?_
      obtain ⟨rfl, honward3, hat3, hpoint3⟩ := hQ3
      have honward := honward2.trans honward3
      have hset : Follows (¬ exact) (Linked final) (setOpenObjects rest) r3 fun _ r4 =>
          r4 = { r3 with objs := rest } := .of_ok rfl rfl
      refine hset.bind fun _ r4 hQ4 => ?_
      have hlater : Later r1 r4 := honward.later.trans (.of_same (by rw [hQ4]))
      have hallObjs : r4.allObjs = r1.allObjs := by rw [hQ4]; exact honward.allObjs
      have hheap : r4.heap = r1.heap := by rw [hQ4]; exact honward.heap
      have hpoint : r4.point = r1.point + 1 := by rw [hQ4]; exact hpoint3.trans (by rw [hpoint2])
      have hrelated1 : Related heap exact none lag frames frames w1 r4 := by
        refine ⟨?_, hstacked1, fun hexact => ?_, ?_⟩
        · exact hrelated.numbers.outputs houtputs hlater hallObjs (by rw [hheap]) hpoint
        · refine (hrelated.copies hexact).pop hrelated.stacked.distinct houtputs.memory hallObjs ?_ hheap
          intro top' rest' hobjs'
          rw [hobjs] at hobjs'
          cases hobjs'
          rw [hQ4]
        · have hlength := hrelated.lag
          rw [hobjs, List.length_cons, hobjsw] at hlength
          rw [hQ4]
          change rest.length = _
          omega
      have hat4 : At r4 words2 := by rw [hQ4]; exact hat3
      rw [hwords, List.length_cons] at hm
      have hrest := ih w1 w' frames lag r4 m words2 h1 hgrows hends hwords2.symm hrelated1 hlag hat4
        (by omega)
      refine hrest.mono fun _ r' hQ => ⟨hQ.lag, fun t ht => ?_, hQ.related, hQ.left,
        by rw [← hallObjs]; exact hQ.allObjs⟩
      cases hQ.ends t ht with
      | inl hmem =>
        rw [hends1, List.mem_append, List.mem_singleton] at hmem
        cases hmem with
        | inl hold => exact Or.inl hold
        | inr heq => exact Or.inr (by rw [heq]; exact hsucceeds)
      | inr hsucceeds' => exact Or.inr hsucceeds'
  · rw [if_neg hsucceeds] at houtputs
    have hnot : ¬ exact := by
      intro hexact
      have hmem : w.ticks ∈ w'.ends := by
        refine hadds.ends _ ?_
        rw [hends1]
        exact List.mem_append_right _ (List.mem_singleton_self _)
      exact hsucceeds (hends hexact _ hmem)
    have hwords : words = words2 := by
      rw [houtputs.out, List.append_nil, hout] at hwords2
      exact (List.append_cancel_left hwords2).symm
    have hrelated1 : Related heap exact none (lag + 1) frames frames w1 r := by
      refine ⟨?_, hstacked1, fun hexact => absurd hexact hnot, ?_⟩
      · exact hrelated.numbers.outputs houtputs (.refl r) rfl (Nat.le_refl _) rfl
      · have hlength := hrelated.lag
        omega
    have hrest := ih w1 w' frames (lag + 1) r (m + 1) words h1 hgrows hends (by rw [hwords, hwords2])
      hrelated1 (fun hexact => absurd hexact hnot) hr hm
    exact hrest.mono fun _ r' hQ => absurd hQ.lag (Nat.succ_ne_zero lag)

/-- A clone stays when more numbers are given. -/
theorem CloneOf.grow {r' : ReaderState} {obj c : ℕ} (h : CloneOf w r obj c)
    (hmemory : w.memory <+: w'.memory) (hallObjs : r.allObjs <+: r'.allObjs) : CloneOf w' r' obj c := by
  obtain ⟨i, hi, hc⟩ := h
  exact ⟨i, getElem?_of_prefix hmemory hi, getElem?_of_prefix hallObjs hc⟩

/-- The writer writes a property, and goes on. -/
theorem follows_readProperties_property (hs : Setting heap renv final exact) {depth d n m obj : ℕ}
    {words : List UInt64} {id : PropertyId} {v : Value} {left : List (PropertyId × Value)}
    (ih : Finishes env heap renv final exact depth d n)
    (h : CloneWriter.writeProperties env heap depth (n + 1) w = (some (), w'))
    (hgrows : w'.Grows final) (hends : exact → ∀ t ∈ w'.ends, env.succeeds t = true)
    (hout : w'.out = w.out ++ words)
    (hrelated : Related heap exact none lag ((obj, (id, v) :: left) :: frames)
      ((obj, (id, v) :: left) :: frames) w r)
    (hlag : exact → lag = 0) (hr : At r words) (hm : words.length < m + 1) :
    Follows (¬ exact) (Linked final) (readProperties renv (d + 2) (m + 1)) r
      fun _ r' => Finished env heap exact lag w w' r r' := by
  obtain ⟨w1, w2, houtputs, hends1, hstacked1, hstart, h2⟩ :=
    CloneWriter.writeProperties_property (hs.valid obj) hrelated.stacked h
  have hadds2 : w2.Grows w' := by
    have hall : w2.Grows (CloneWriter.writeProperties env heap depth n w2).2 :=
      CloneWriter.Adds.writeProperties depth n w2
    rw [h2] at hall
    exact hall
  have hadds1 : w1.Grows w2 := by
    have hall : w1.Grows (CloneWriter.startWrite env heap depth v w1).2 :=
      CloneWriter.Adds.startWrite CloneWriter.growth_grows depth v w1
    rw [hstart] at hall
    exact hall
  have hends2 : w2.ends = w.ends := by
    have hall : (CloneWriter.startWrite env heap depth v w1).2.ends = w1.ends :=
      CloneWriter.Adds.startWrite CloneWriter.growth_ends depth v w1
    rw [hstart] at hall
    exact hall.trans hends1
  have hgrows2 : w2.Grows final := hadds2.trans hgrows
  have hgrows' : w.Grows final :=
    (houtputs.grows fun t ht => by rw [hends1]; exact ht).trans (hadds1.trans hgrows2)
  -- the key and the value are as the engine has them
  have hproperty : v.Valid ∧ ∀ chars, id = .name chars → chars.length ≤ maxStringLength := by
    obtain ⟨isArray, done, hobj⟩ := hrelated.stacked.left (obj, (id, v) :: left) List.mem_cons_self
    have hobj : heap obj = .plain isArray (done ++ (id, v) :: left) := hobj
    have hvalid := hs.valid obj
    rw [hobj] at hvalid
    exact hvalid.2 (id, v) (List.mem_append_right done List.mem_cons_self)
  obtain ⟨u, wordsv, hout2, _, hsimulates⟩ :=
    simulates_startWrite (m := d) hs hproperty.1 hstacked1 hgrows2 hstart
  obtain ⟨words2, hwords2⟩ := hadds2.out
  have hwords : words = CloneWriter.idWords id ++ (u :: wordsv ++ words2) := by
    rw [hout2, houtputs.out, List.append_assoc, List.append_assoc, hout] at hwords2
    exact (List.append_cancel_left hwords2).symm
  have hlength : words2.length < m := by
    rw [hwords, List.length_append, List.length_append, List.length_cons] at hm
    omega
  have hgood : Linked final r := hrelated.numbers.linked.grow hgrows'
  refine follows_openObjects.bind fun objs r1 hQ1 => ?_
  obtain ⟨rfl, rfl⟩ := hQ1
  cases hobjs : r1.objs with
  | nil =>
    have hzero := hrelated.lag
    rw [hobjs, hrelated.stacked.objs, List.map_cons, List.length_cons, List.length_nil] at hzero
    omega
  | cons top rest =>
    have hmay : (∀ c, top ≠ .object c) → ¬ exact := by
      intro hnone hexact
      obtain ⟨c, hc, _⟩ := (hrelated.copies hexact).top hobjs
      exact hnone c hc
    rw [hwords] at hr
    refine (follows_toObject hr hgood hs.mayFail.steady hmay).bind fun c r2 hQ2 => ?_
    obtain ⟨rfl, honward2, hat2, hpoint2⟩ := hQ2
    have hgood2 : Linked final r2 := hgood.later honward2.later
    refine (follows_readId hs.mayFail hat2 hproperty.2 hgood2).bind fun id' r3 hQ3 => ?_
    obtain ⟨rfl, honward3, hat3, hpoint3⟩ := hQ3
    have honward := honward2.trans honward3
    have hpoint : r3.point = r1.point + (CloneWriter.idWords id).length := by rw [hpoint3, hpoint2]
    have hrelated3 : Related heap exact none lag ((obj, left) :: frames) ((obj, (id, v) :: left) :: frames)
        w1 r3 := by
      refine ⟨?_, hstacked1, fun hexact => ?_, ?_⟩
      · exact hrelated.numbers.outputs houtputs honward.later honward.allObjs (by rw [honward.heap]) hpoint
      · exact (hrelated.copies hexact).outputs houtputs honward.objs honward.allObjs honward.heap
      · rw [honward.objs, hrelated.lag, hrelated.stacked.objs, hstacked1.objs]
        rfl
    refine (hsimulates lag _ r3 words2 hrelated3 hat3).bind fun v' r4 hQ4 => ?_
    obtain ⟨pushed, hread⟩ := hQ4
    have hpushed : ∀ frame ∈ pushed, frame.1 ≠ obj := by
      intro frame hframe heq
      refine hread.pushed frame hframe ?_
      rw [heq]
      exact hstacked1.met (obj, left) List.mem_cons_self
    have hclone : exact → CloneOf w2 r4 obj c := by
      intro hexact
      obtain ⟨c', hc', hold⟩ := (hrelated.copies hexact).top hobjs
      cases hc'
      refine hold.grow ?_ ?_
      · rw [← houtputs.memory]
        exact hadds1.memory
      · rw [← honward.allObjs]
        exact hread.allObjs
    refine (follows_defineGeneric hs hread.related hgrows2 hpushed hclone hread.copy hread.left).bind
      fun _ r5 hQ5 => ?_
    have hrest := ih w2 w' _ lag r5 m words2 h2 hgrows hends hwords2.symm hQ5.1 hlag hQ5.2.1 hlength
    have hallObjs : r1.allObjs <+: r5.allObjs := by
      rw [hQ5.2.2, ← honward.allObjs]
      exact hread.allObjs
    refine hrest.mono fun _ r' hQ => ⟨hQ.lag, fun t ht => ?_, hQ.related, hQ.left,
      hallObjs.trans hQ.allObjs⟩
    rw [← hends2]
    exact hQ.ends t ht

/-- The reader follows the writer through all properties. -/
theorem finishes (hs : Setting heap renv final exact) (depth d n : ℕ) :
    Finishes env heap renv final exact depth d n := by
  induction n with
  | zero =>
    intro w w' frames lag r m words h
    cases h
  | succ n ih =>
    intro w w' frames lag r m words h hgrows hends hout hrelated hlag hr hm
    obtain ⟨m, rfl⟩ : ∃ m', m = m' + 1 := ⟨m - 1, by omega⟩
    cases frames with
    | nil => exact follows_readProperties_nil hs h hgrows hout hrelated hlag hr
    | cons frame frames =>
      obtain ⟨obj, props⟩ := frame
      cases props with
      | nil => exact follows_readProperties_end hs ih h hgrows hends hout hrelated hlag hr hm
      | cons p left =>
        obtain ⟨id, v⟩ := p
        exact follows_readProperties_property hs ih h hgrows hends hout hrelated hlag hr hm

/-- The value that is read at last, and the state before all objects are forgotten. -/
structure ReadAll (env : WriteEnvironment) (heap : ℕ → Obj) (exact : Prop) (w w' : WriterState)
    (v v' : Value) (r' : ReaderState) : Prop where
  copy : CopyOf w' r' v v'
  related : Related heap exact none 0 [] [] w' r'
  left : At r' []
  ends : ∀ t ∈ w'.ends, t ∈ w.ends ∨ env.succeeds t = true

/-- A value is read with the properties of all its objects. -/
theorem follows_readAll (hs : Setting heap renv final exact) {n m : ℕ} {v : Value} {words : List UInt64}
    {w1 : WriterState} (hvalid : v.Valid)
    (h1 : CloneWriter.startWrite env heap n v w = (some (), w1))
    (h2 : CloneWriter.writeProperties env heap n n w1 = (some (), w')) (hgrows : w'.Grows final)
    (hends : exact → ∀ t ∈ w'.ends, env.succeeds t = true)
    (hrelated : Related heap exact none 0 [] [] w r) (hout : w'.out = w.out ++ words) (hr : At r words)
    (hm : words.length < m) :
    Follows (¬ exact) (Linked final) (do
        let v' ← startRead renv m
        readProperties renv m m
        (fun s => (.ok v', { s with allObjs := [] }) : CloneReader Value)) r fun v' r' =>
      ∃ r1, ReadAll env heap exact w w' v v' r1 ∧ r' = { r1 with allObjs := [] } := by
  have hadds : w1.Grows w' := by
    have hall : w1.Grows (CloneWriter.writeProperties env heap n n w1).2 :=
      CloneWriter.Adds.writeProperties n n w1
    rw [h2] at hall
    exact hall
  have hends1 : w1.ends = w.ends := by
    have hall : (CloneWriter.startWrite env heap n v w).2.ends = w.ends :=
      CloneWriter.Adds.startWrite CloneWriter.growth_ends n v w
    rw [h1] at hall
    exact hall
  obtain ⟨words2, hwords2⟩ := hadds.out
  obtain ⟨d, rfl⟩ : ∃ d, m = d + 2 := by
    obtain ⟨u, wordsv, hout1, _, _⟩ :=
      simulates_startWrite (m := 0) hs hvalid hrelated.stacked (hadds.trans hgrows) h1
    rw [hout1, List.append_assoc, hout] at hwords2
    have hwords := List.append_cancel_left hwords2
    rw [← hwords, List.length_append, List.length_cons] at hm
    exact ⟨m - 2, by omega⟩
  obtain ⟨u, wordsv, hout1, _, hsimulates⟩ :=
    simulates_startWrite (m := d) hs hvalid hrelated.stacked (hadds.trans hgrows) h1
  have hwords : words = u :: wordsv ++ words2 := by
    rw [hout1, List.append_assoc, hout] at hwords2
    exact (List.append_cancel_left hwords2).symm
  rw [hwords] at hr
  refine (hsimulates 0 [] r words2 hrelated hr).bind fun v' r1 hQ1 => ?_
  obtain ⟨pushed, hread⟩ := hQ1
  have hlength : words2.length < d + 2 := by
    rw [hwords, List.length_append] at hm
    omega
  have hrest := finishes hs n d n w1 w' (pushed ++ []) 0 r1 (d + 2) words2 h2 hgrows hends
    hwords2.symm hread.related (fun _ => rfl) hread.left hlength
  refine hrest.bind fun _ r2 hQ2 => .of_ok rfl ⟨r2, ⟨?_, hQ2.related, hQ2.left, ?_⟩, rfl⟩
  · exact hread.copy.mono fun obj c hclone => hclone.grow hadds.memory hQ2.allObjs
  · rw [← hends1]
    exact hQ2.ends

end properties

end SpiderMonkey.Vm.StructuredClone
