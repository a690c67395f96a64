import SpiderMonkey.Jit.LiveIntervalSound
import SpiderMonkey.Jit.SplitInterval

/-!
# Where the uses of a split interval go

The uses in the definition come first, as uses are sorted, and they go to the first new interval. With the
others, the loops only add new intervals and uses of the latest one, so that the uses in the new intervals, one
behind the other, are at every moment those so far that do not go to the spill interval.
-/

namespace SpiderMonkey.Jit.Backtracking

open LiveInterval

variable {insData : List LInstruction} {spillStart start stop : ℕ} {u : ℕ × LUse} {uses : List (ℕ × LUse)}

/-! ## Uses and their instructions -/

/-- The use is a register use of an instruction. -/
def RegisterUse (insData : List LInstruction) (u : ℕ × LUse) : Prop :=
  insData[u.1 / 2]?.any (isRegisterUse u.2 · false) = true

instance : DecidablePred (RegisterUse insData) := fun _ => inferInstanceAs (Decidable (_ = _))

/-- Where there is an instruction, it decides. -/
theorem registerUse_iff {ins : LInstruction} (h : insData[u.1 / 2]? = some ins) :
    RegisterUse insData u ↔ isRegisterUse u.2 ins false = true := by
  rw [RegisterUse, h, Option.any_some]

/-- The end of a definition is at the output of its instruction, or of a later one. -/
theorem minimalDefEndLoop_eq {rest : List LInstruction} {ins pos : ℕ} (h : minimalDefEndLoop rest ins = some pos) :
    ∃ last ≥ ins, pos = outputOf last := by
  induction rest generalizing ins with
  | nil => cases h
  | cons next rest ih =>
    rw [minimalDefEndLoop] at h
    split at h
    · exact ⟨ins, le_rfl, (Option.some.inj h).symm⟩
    · obtain ⟨last, hle, hpos⟩ := ih h
      exact ⟨last, by omega, hpos⟩

/-- The spill interval of a register definition starts at an input behind it, and every other one at the start. -/
theorem spillStartOf_spec {reg : VirtualRegister} {index : ℕ}
    (h : spillStartOf insData reg index start = some spillStart) :
    if isRegisterDefinition reg index then start < spillStart ∧ spillStart % 2 = 0 else spillStart = start := by
  rw [spillStartOf] at h
  split_ifs at h ⊢
  · obtain ⟨pos, hpos, rfl⟩ := Option.map_eq_some_iff.mp h
    obtain ⟨last, hle, rfl⟩ := minimalDefEndLoop_eq hpos
    rw [outputOf]
    omega
  · exact (Option.some.inj h).symm

/-- The input comes first. -/
theorem inputOf_le (pos : ℕ) : inputOf pos ≤ pos := by
  rw [inputOf]
  omega

/-! ## Adding uses -/

/-- A use that comes behind all others can be added. -/
theorem addUseAtEnd_eq {i : Interval} (h : ∀ v ∈ i.uses, v.1 ≤ u.1) :
    addUseAtEnd i u = some { i with uses := i.uses ++ [u] } := by
  have hback : i.uses.getLast?.any (fun back => u.1 < back.1) = false := by
    rw [← Bool.not_eq_true, Option.any_eq_true_iff_get]
    rintro ⟨hsome, hlt⟩
    have hle := h _ (List.mem_of_getLast? (Option.some_get hsome).symm)
    simp only [decide_eq_true_eq] at hlt
    omega
  rw [addUseAtEnd, hback]
  rfl

/-- The latest interval gets more uses. -/
def extendHead (joined : List (ℕ × LUse)) : List Interval → List Interval
  | [] => []
  | back :: rest => { back with uses := back.uses ++ joined } :: rest

@[simp]
theorem extendHead_nil (news : List Interval) : extendHead [] news = news := by
  cases news <;> simp [extendHead]

/-- The uses that some intervals have, the latest interval being the first of the list. -/
def usesOf (news : List Interval) : List (ℕ × LUse) := news.reverse.flatMap (·.uses)

@[simp]
theorem usesOf_nil : usesOf [] = [] := rfl

@[simp]
theorem usesOf_cons (back : Interval) (rest : List Interval) :
    usesOf (back :: rest) = usesOf rest ++ back.uses := by
  simp [usesOf]

theorem usesOf_append (added news : List Interval) : usesOf (added ++ news) = usesOf news ++ usesOf added := by
  simp [usesOf]

/-- All of some uses are at or before all of the others. -/
def Before (front back : List (ℕ × LUse)) : Prop := ∀ v ∈ front, ∀ u ∈ back, v.1 ≤ u.1

theorem Before.tail {front : List (ℕ × LUse)} (h : Before front (u :: uses)) : Before front uses :=
  fun v hv w hw => h v hv w (List.mem_cons_of_mem _ hw)

/-- The first of the others is behind those before it, and before those behind it. -/
theorem Before.concat {front : List (ℕ × LUse)} (h : Before front (u :: uses)) (hasc : Ascending (u :: uses)) :
    Before (front ++ [u]) uses := by
  intro v hv w hw
  rcases List.mem_append.mp hv with hv | hv
  · exact h v hv w (List.mem_cons_of_mem _ hw)
  · rw [List.mem_singleton.mp hv]
    exact (List.pairwise_cons.mp hasc).1 w hw

/-- A use that comes behind those of the latest interval. -/
theorem addUseToBack_eq {news : List Interval} (hne : news ≠ [])
    (h : ∀ back ∈ news.head?, ∀ v ∈ back.uses, v.1 ≤ u.1) : addUseToBack news u = some (extendHead [u] news) := by
  cases news with
  | nil => exact absurd rfl hne
  | cons back rest =>
    rw [addUseToBack, addUseAtEnd_eq (h back rfl)]
    rfl

/-! ## The uses behind the definition -/

/-- Uses that a loop goes over behind the definition. A use that needs no register is only there when the spill
interval is new, so that it can go there. -/
structure Behind (insData : List LInstruction) (spillStart : ℕ) (spillIntervalIsNew : Bool)
    (uses : List (ℕ × LUse)) : Prop where
  ascending : Ascending uses
  instruction : ∀ u ∈ uses, u.1 / 2 < insData.length
  behind : ∀ u ∈ uses, spillStart ≤ u.1
  register : ∀ u ∈ uses, ¬ RegisterUse insData u → spillIntervalIsNew = true

theorem Behind.tail {isNew : Bool} (h : Behind insData spillStart isNew (u :: uses)) :
    Behind insData spillStart isNew uses where
  ascending := (List.pairwise_cons.mp h.ascending).2
  instruction v hv := h.instruction v (List.mem_cons_of_mem _ hv)
  behind v hv := h.behind v (List.mem_cons_of_mem _ hv)
  register v hv := h.register v (List.mem_cons_of_mem _ hv)

/-- The new intervals and the spill interval behind a loop: the latest interval has got some uses more, others have
been added, and all have the uses in their order. -/
structure Distributed (insData : List LInstruction) (uses : List (ℕ × LUse)) (news : List Interval)
    (spill : Interval) (joined : List (ℕ × LUse)) (added news' : List Interval) (spill' : Interval) : Prop where
  newIntervals : news' = added ++ extendHead joined news
  nonempty : ∀ i ∈ added, i.uses ≠ []
  inOrder : joined ++ usesOf added = uses.filter (RegisterUse insData ·)
  spill : spill' = { spill with uses := spill.uses ++ uses.filter (¬ RegisterUse insData ·) }

namespace Distributed

variable {news news' added : List Interval} {spill spill' : Interval} {joined : List (ℕ × LUse)}

theorem nil : Distributed insData [] news spill [] [] news spill where
  newIntervals := by simp
  nonempty := by simp
  inOrder := by simp
  spill := by simp

/-- A use that goes to the spill interval. -/
theorem spilled (hu : ¬ RegisterUse insData u)
    (h : Distributed insData uses news { spill with uses := spill.uses ++ [u] } joined added news' spill') :
    Distributed insData (u :: uses) news spill joined added news' spill' where
  newIntervals := h.newIntervals
  nonempty := h.nonempty
  inOrder := by rw [h.inOrder, List.filter_cons_of_neg (by simpa using hu)]
  spill := by rw [h.spill, List.filter_cons_of_pos (by simpa using hu), List.append_assoc, List.singleton_append]

/-- A use with an interval of its own, which later ones may join. -/
theorem separate {ranges : List LiveRange} {last : ℕ} (hu : RegisterUse insData u)
    (h : Distributed insData uses (⟨ranges, [u], last⟩ :: news) spill joined added news' spill') :
    Distributed insData (u :: uses) news spill [] (added ++ [⟨ranges, u :: joined, last⟩]) news' spill' where
  newIntervals := by
    rw [h.newIntervals, extendHead_nil, List.append_assoc]
    rfl
  nonempty := by
    intro i hi
    rcases List.mem_append.mp hi with hi | hi
    · exact h.nonempty i hi
    · rw [List.mem_singleton.mp hi]
      exact List.cons_ne_nil _ _
  inOrder := by
    rw [List.filter_cons_of_pos (by simpa using hu), ← h.inOrder, usesOf_append]
    simp
  spill := by rw [h.spill, List.filter_cons_of_neg (by simpa using hu)]

/-- A use that joins the latest interval. -/
theorem join (hne : news ≠ []) (hu : RegisterUse insData u)
    (h : Distributed insData uses (extendHead [u] news) spill joined added news' spill') :
    Distributed insData (u :: uses) news spill (u :: joined) added news' spill' where
  newIntervals := by
    cases news with
    | nil => exact absurd rfl hne
    | cons back rest => simpa [extendHead] using h.newIntervals
  nonempty := h.nonempty
  inOrder := by rw [List.filter_cons_of_pos (by simpa using hu), ← h.inOrder, List.cons_append]
  spill := by rw [h.spill, List.filter_cons_of_neg (by simpa using hu)]

end Distributed

/-! ### In `splitAt` -/

/-- The register use gets an interval of its own. -/
def Separate (s : SplitState) (u : ℕ × LUse) : Prop :=
  s.lastRegisterUse = 0 ∨ splitHere s.splitPositions u.1 = true

variable {isNew : Bool} {s : SplitState} {ins : LInstruction}

/-- A use in the definition. -/
theorem splitAtUse_definition (hins : u.1 / 2 < insData.length) (hlt : u.1 < spillStart) (hne : s.newIntervals ≠ [])
    (h : ∀ back ∈ s.newIntervals.head?, ∀ v ∈ back.uses, v.1 ≤ u.1) :
    splitAtUse insData spillStart isNew s u =
      some { s with
        newIntervals := extendHead [u] s.newIntervals
        splitPositions := nextSplitPosition s.splitPositions u.1 } := by
  simp only [splitAtUse, List.getElem?_eq_getElem hins, Option.bind_eq_bind, Option.bind_some, if_pos hlt,
    addUseToBack_eq hne h]

/-- A use that needs no register. -/
theorem splitAtUse_spilled (hins : u.1 / 2 < insData.length) (hle : spillStart ≤ u.1) (hu : ¬ RegisterUse insData u)
    (h : ∀ v ∈ s.spillInterval.uses, v.1 ≤ u.1) :
    splitAtUse insData spillStart true s u =
      some { s with spillInterval := { s.spillInterval with uses := s.spillInterval.uses ++ [u] } } := by
  rw [registerUse_iff (List.getElem?_eq_getElem hins)] at hu
  have hnot : ¬ u.1 < spillStart := by omega
  simp only [splitAtUse, List.getElem?_eq_getElem hins, Option.bind_eq_bind, Option.bind_some, if_neg hnot,
    if_neg hu, if_true,
    addUseAtEnd_eq h]

/-- A register use behind a split position. -/
theorem splitAtUse_separate (hins : u.1 / 2 < insData.length) (hle : spillStart ≤ u.1) (hu : RegisterUse insData u)
    (hsep : Separate s u) :
    splitAtUse insData spillStart isNew s u =
      some { s with
        newIntervals := ⟨[], [u], 2 ^ 64 - 1⟩ :: s.newIntervals
        lastRegisterUse := u.1
        splitPositions := nextSplitPosition s.splitPositions u.1 } := by
  rw [registerUse_iff (List.getElem?_eq_getElem hins)] at hu
  have hnot : ¬ u.1 < spillStart := by omega
  have hnew : addUseToBack (new :: s.newIntervals) u = some (⟨[], [u], 2 ^ 64 - 1⟩ :: s.newIntervals) := rfl
  rw [Separate] at hsep
  simp only [splitAtUse, List.getElem?_eq_getElem hins, Option.bind_eq_bind, Option.bind_some, if_neg hnot,
    if_pos hu, if_pos hsep, hnew]

/-- A register use with no split position before it. -/
theorem splitAtUse_join (hins : u.1 / 2 < insData.length) (hle : spillStart ≤ u.1) (hu : RegisterUse insData u)
    (hsep : ¬ Separate s u) (hne : s.newIntervals ≠ [])
    (h : ∀ back ∈ s.newIntervals.head?, ∀ v ∈ back.uses, v.1 ≤ u.1) :
    splitAtUse insData spillStart isNew s u =
      some { s with newIntervals := extendHead [u] s.newIntervals, lastRegisterUse := u.1 } := by
  rw [registerUse_iff (List.getElem?_eq_getElem hins)] at hu
  have hnot : ¬ u.1 < spillStart := by omega
  rw [Separate] at hsep
  simp only [splitAtUse, List.getElem?_eq_getElem hins, Option.bind_eq_bind, Option.bind_some, if_neg hnot,
    if_pos hu, if_neg hsep,
    addUseToBack_eq hne h]

/-- The run over the uses behind the definition: the first register use tells whether any joins the definition. -/
theorem splitAtUses_behind (h : Behind insData spillStart isNew uses)
    (hhead : ∀ back ∈ s.newIntervals.head?, Before back.uses uses)
    (hspill : isNew = true → Before s.spillInterval.uses uses)
    (hempty : s.newIntervals = [] → s.lastRegisterUse = 0) :
    ∃ s' joined added, uses.foldlM (splitAtUse insData spillStart isNew) s = some s' ∧
      Distributed insData uses s.newIntervals s.spillInterval joined added s'.newIntervals s'.spillInterval ∧
      (∀ i ∈ added, i.ranges = []) ∧
      (joined ≠ [] ↔ ∃ u ∈ (uses.filter (RegisterUse insData ·)).head?, ¬ Separate s u) := by
  induction uses generalizing s with
  | nil => exact ⟨s, [], [], rfl, .nil, by simp, by simp⟩
  | cons u uses ih =>
    have hins := h.instruction u List.mem_cons_self
    have hle := h.behind u List.mem_cons_self
    have hfirst : ∀ back ∈ s.newIntervals.head?, ∀ v ∈ back.uses, v.1 ≤ u.1 :=
      fun back hback v hv => hhead back hback v hv u List.mem_cons_self
    rw [List.foldlM_cons]
    by_cases hu : RegisterUse insData u
    · have hfilter : (u :: uses).filter (RegisterUse insData ·) = u :: uses.filter (RegisterUse insData ·) :=
        List.filter_cons_of_pos (by simpa using hu)
      rw [hfilter]
      by_cases hsep : Separate s u
      · rw [splitAtUse_separate hins hle hu hsep, Option.bind_eq_bind, Option.bind_some]
        obtain ⟨s', joined, added, hrun, hdist, hranges, -⟩ := ih h.tail
          (s := ⟨⟨[], [u], 2 ^ 64 - 1⟩ :: s.newIntervals, s.spillInterval, u.1,
            nextSplitPosition s.splitPositions u.1⟩)
          (by
            intro back hback v hv w hw
            obtain rfl := Option.some.inj hback
            rw [List.mem_singleton.mp hv]
            exact (List.pairwise_cons.mp h.ascending).1 w hw)
          (fun hnew => (hspill hnew).tail) (fun hnil => absurd hnil (List.cons_ne_nil _ _))
        refine ⟨s', [], _, hrun, hdist.separate hu, ?_, by simpa using hsep⟩
        intro i hi
        rcases List.mem_append.mp hi with hi | hi
        · exact hranges i hi
        · rw [List.mem_singleton.mp hi]
      · have hne : s.newIntervals ≠ [] := fun hnil => hsep (Or.inl (hempty hnil))
        obtain ⟨back, rest, hnews⟩ := List.exists_cons_of_ne_nil hne
        rw [splitAtUse_join hins hle hu hsep hne hfirst, Option.bind_eq_bind, Option.bind_some]
        obtain ⟨s', joined, added, hrun, hdist, hranges, -⟩ := ih h.tail
          (s := { s with newIntervals := extendHead [u] s.newIntervals, lastRegisterUse := u.1 })
          (by
            intro back' hback
            simp only [hnews, extendHead, List.head?_cons] at hback
            obtain rfl := Option.some.inj hback
            exact (hhead back (by rw [hnews]; rfl)).concat h.ascending)
          (fun hnew => (hspill hnew).tail)
          (by
            intro hnil
            simp only [hnews, extendHead] at hnil
            exact absurd hnil (List.cons_ne_nil _ _))
        exact ⟨s', u :: joined, added, hrun, hdist.join hne hu, hranges, by simpa using hsep⟩
    · obtain rfl := h.register u List.mem_cons_self hu
      have hfilter : (u :: uses).filter (RegisterUse insData ·) = uses.filter (RegisterUse insData ·) :=
        List.filter_cons_of_neg (by simpa using hu)
      rw [hfilter, splitAtUse_spilled hins hle hu fun v hv => hspill rfl v hv u List.mem_cons_self,
        Option.bind_eq_bind, Option.bind_some]
      obtain ⟨s', joined, added, hrun, hdist, hranges, hjoin⟩ := ih h.tail
        (s := { s with spillInterval := { s.spillInterval with uses := s.spillInterval.uses ++ [u] } })
        (fun back hback => (hhead back hback).tail) (fun _ => (hspill rfl).concat h.ascending) hempty
      exact ⟨s', joined, added, hrun, hdist.spilled hu, hranges, hjoin⟩

/-- `NextSplitPosition` goes to the split positions behind the current one. -/
theorem nextSplitPosition_eq_filter {splitPositions : List ℕ} (h : splitPositions.Pairwise (· < ·)) (pos : ℕ) :
    nextSplitPosition splitPositions pos = splitPositions.filter (pos < ·) := by
  induction splitPositions with
  | nil => rfl
  | cons q rest ih =>
    obtain ⟨hq, hrest⟩ := List.pairwise_cons.mp h
    by_cases hle : q ≤ pos
    · rw [nextSplitPosition, List.dropWhile_cons_of_pos (by simpa using hle),
        List.filter_cons_of_neg (by simpa using hle)]
      exact ih hrest
    · rw [nextSplitPosition, List.dropWhile_cons_of_neg (by simpa using hle), eq_comm, List.filter_eq_self]
      intro p hp
      rcases List.mem_cons.mp hp with rfl | hp
      · simpa using hle
      · have := hq p hp
        simp only [decide_eq_true_eq]
        omega

/-- `SplitHere` tests whether there is a split position at the current one or before it. -/
theorem splitHere_iff {splitPositions : List ℕ} (h : splitPositions.Pairwise (· < ·)) (pos : ℕ) :
    splitHere splitPositions pos = true ↔ ∃ q ∈ splitPositions, q ≤ pos := by
  cases splitPositions with
  | nil => simp [splitHere]
  | cons active rest =>
    rw [splitHere, decide_eq_true_eq]
    apply Iff.intro
    · exact fun hle => ⟨active, List.mem_cons_self, hle⟩
    · rintro ⟨q, hq, hle⟩
      rcases List.mem_cons.mp hq with rfl | hq
      · exact hle
      · have := (List.pairwise_cons.mp h).1 q hq
        omega

/-- The run over the uses in the definition: they all go to the first interval. -/
theorem splitAtUses_definition (hasc : Ascending uses) (hins : ∀ u ∈ uses, u.1 / 2 < insData.length)
    (hlt : ∀ u ∈ uses, u.1 < spillStart) (hne : uses ≠ [] → s.newIntervals ≠ [])
    (hhead : ∀ back ∈ s.newIntervals.head?, Before back.uses uses) (hsplit : s.splitPositions.Pairwise (· < ·)) :
    uses.foldlM (splitAtUse insData spillStart isNew) s =
      some { s with
        newIntervals := extendHead uses s.newIntervals
        splitPositions := s.splitPositions.filter fun q => ∀ u ∈ uses, u.1 < q } := by
  induction uses generalizing s with
  | nil => simp
  | cons u uses ih =>
    obtain ⟨back, rest, hnews⟩ := List.exists_cons_of_ne_nil (hne (List.cons_ne_nil _ _))
    have hfirst := hhead back (by rw [hnews]; rfl)
    rw [List.foldlM_cons, splitAtUse_definition (hins u List.mem_cons_self) (hlt u List.mem_cons_self)
      (by simp [hnews]) fun b hb v hv => hhead b hb v hv u List.mem_cons_self, Option.bind_eq_bind,
      Option.bind_some, nextSplitPosition_eq_filter hsplit]
    rw [ih (List.pairwise_cons.mp hasc).2 (fun v hv => hins v (List.mem_cons_of_mem _ hv))
      (fun v hv => hlt v (List.mem_cons_of_mem _ hv))]
    · have hfilter : (s.splitPositions.filter (u.1 < ·)).filter (fun q => ∀ v ∈ uses, v.1 < q) =
          s.splitPositions.filter fun q => ∀ v ∈ u :: uses, v.1 < q := by
        rw [List.filter_filter]
        refine List.filter_congr fun q _ => ?_
        rw [← Bool.decide_and, decide_eq_decide, List.forall_mem_cons, and_comm]
      simp [hnews, extendHead, hfilter]
    · simp [hnews, extendHead]
    · intro back' hback
      simp only [hnews, extendHead, List.head?_cons] at hback
      obtain rfl := Option.some.inj hback
      exact hfirst.concat hasc
    · exact hsplit.filter _

/-! ### In `splitAtAllRegisterUses` -/

/-- A minimal interval: from the input of an instruction to one position behind its uses. -/
def Minimal (i : Interval) : Prop :=
  ∃ pos, i.ranges = [⟨inputOf pos, pos + 1⟩] ∧ ∀ v ∈ i.uses, v.1 = pos

variable {news : List Interval} {spill : Interval}

theorem addLiveInterval_eq (h : start < stop) :
    addLiveInterval news start stop = some (⟨[⟨start, stop⟩], [], 2 ^ 64 - 1⟩ :: news) := by
  simp [addLiveInterval, LiveInterval.addRange, new, findPlace, coalesce, h]

/-- A use in the definition. -/
theorem splitUse_definition (hins : u.1 / 2 < insData.length) (hlt : u.1 < spillStart) (hne : news ≠ [])
    (h : ∀ back ∈ news.head?, ∀ v ∈ back.uses, v.1 ≤ u.1) :
    splitUse insData spillStart isNew (news, spill) u = some (extendHead [u] news, spill) := by
  simp only [splitUse, List.getElem?_eq_getElem hins, Option.bind_eq_bind, Option.bind_some, if_pos hlt,
    addUseToBack_eq hne h]

/-- A use that needs no register. -/
theorem splitUse_spilled (hins : u.1 / 2 < insData.length) (hle : spillStart ≤ u.1) (hu : ¬ RegisterUse insData u)
    (h : ∀ v ∈ spill.uses, v.1 ≤ u.1) :
    splitUse insData spillStart true (news, spill) u = some (news, { spill with uses := spill.uses ++ [u] }) := by
  rw [registerUse_iff (List.getElem?_eq_getElem hins)] at hu
  have hnot : ¬ u.1 < spillStart := by omega
  simp only [splitUse, List.getElem?_eq_getElem hins, Option.bind_eq_bind, Option.bind_some, if_neg hnot, if_neg hu,
    if_true, addUseAtEnd_eq h]

/-- A register use with a position or a register of its own. -/
theorem splitUse_separate (hins : u.1 / 2 < insData.length) (hle : spillStart ≤ u.1) (hu : RegisterUse insData u)
    (hsep : news.head?.bind LiveInterval.stop ≠ some (u.1 + 1) ∨ u.2.policy = .FIXED) :
    splitUse insData spillStart isNew (news, spill) u =
      some (⟨[⟨inputOf u.1, u.1 + 1⟩], [u], 2 ^ 64 - 1⟩ :: news, spill) := by
  rw [registerUse_iff (List.getElem?_eq_getElem hins)] at hu
  have hnot : ¬ u.1 < spillStart := by omega
  have hadd : addLiveInterval news (inputOf u.1) (u.1 + 1) =
      some (⟨[⟨inputOf u.1, u.1 + 1⟩], [], 2 ^ 64 - 1⟩ :: news) :=
    addLiveInterval_eq (Nat.lt_succ_of_le (inputOf_le u.1))
  have huse : addUseToBack (⟨[⟨inputOf u.1, u.1 + 1⟩], [], 2 ^ 64 - 1⟩ :: news) u =
      some (⟨[⟨inputOf u.1, u.1 + 1⟩], [u], 2 ^ 64 - 1⟩ :: news) := rfl
  simp only [splitUse, List.getElem?_eq_getElem hins, Option.bind_eq_bind, Option.bind_some, if_neg hnot, if_pos hu,
    if_pos hsep, hadd, huse]

/-- A register use at the position of the latest interval. -/
theorem splitUse_join (hins : u.1 / 2 < insData.length) (hle : spillStart ≤ u.1) (hu : RegisterUse insData u)
    (hsep : ¬ (news.head?.bind LiveInterval.stop ≠ some (u.1 + 1) ∨ u.2.policy = .FIXED)) (hne : news ≠ [])
    (h : ∀ back ∈ news.head?, ∀ v ∈ back.uses, v.1 ≤ u.1) :
    splitUse insData spillStart isNew (news, spill) u = some (extendHead [u] news, spill) := by
  rw [registerUse_iff (List.getElem?_eq_getElem hins)] at hu
  have hnot : ¬ u.1 < spillStart := by omega
  simp only [splitUse, List.getElem?_eq_getElem hins, Option.bind_eq_bind, Option.bind_some, if_neg hnot, if_pos hu,
    if_neg hsep, addUseToBack_eq hne h]

/-- The run over the uses behind the definition: the intervals that it adds are minimal, and a use only joins the
interval there was if that one ends at its position. -/
theorem splitUses_behind (news : List Interval) (spill : Interval) (h : Behind insData spillStart isNew uses)
    (hhead : ∀ back ∈ news.head?, Before back.uses uses) (hspill : isNew = true → Before spill.uses uses) :
    ∃ news' spill' joined added,
      uses.foldlM (splitUse insData spillStart isNew) (news, spill) = some (news', spill') ∧
      Distributed insData uses news spill joined added news' spill' ∧ (∀ i ∈ added, Minimal i) ∧
      ∀ v ∈ joined, news.head?.bind LiveInterval.stop = some (v.1 + 1) := by
  induction uses generalizing news spill with
  | nil => exact ⟨news, spill, [], [], rfl, .nil, by simp, by simp⟩
  | cons u uses ih =>
    have hins := h.instruction u List.mem_cons_self
    have hle := h.behind u List.mem_cons_self
    have hfirst : ∀ back ∈ news.head?, ∀ v ∈ back.uses, v.1 ≤ u.1 :=
      fun back hback v hv => hhead back hback v hv u List.mem_cons_self
    rw [List.foldlM_cons]
    by_cases hu : RegisterUse insData u
    · by_cases hsep : news.head?.bind LiveInterval.stop ≠ some (u.1 + 1) ∨ u.2.policy = .FIXED
      · rw [splitUse_separate hins hle hu hsep, Option.bind_eq_bind, Option.bind_some]
        obtain ⟨news', spill', joined, added, hrun, hdist, hmin, hjoin⟩ :=
          ih (⟨[⟨inputOf u.1, u.1 + 1⟩], [u], 2 ^ 64 - 1⟩ :: news) spill h.tail
          (by
            intro back hback v hv w hw
            obtain rfl := Option.some.inj hback
            rw [List.mem_singleton.mp hv]
            exact (List.pairwise_cons.mp h.ascending).1 w hw)
          (fun hnew => (hspill hnew).tail)
        have hpos : ∀ v ∈ joined, v.1 = u.1 := by
          intro v hv
          have hstop : some (u.1 + 1) = some (v.1 + 1) := hjoin v hv
          simpa using hstop.symm
        refine ⟨news', spill', [], _, hrun, hdist.separate hu, ?_, by simp⟩
        intro i hi
        rcases List.mem_append.mp hi with hi | hi
        · exact hmin i hi
        · rw [List.mem_singleton.mp hi]
          exact ⟨u.1, rfl, by simpa using hpos⟩
      · have hstop : news.head?.bind LiveInterval.stop = some (u.1 + 1) := not_not.mp (not_or.mp hsep).1
        have hne : news ≠ [] := by
          rintro rfl
          cases hstop
        obtain ⟨back, rest, rfl⟩ := List.exists_cons_of_ne_nil hne
        rw [splitUse_join hins hle hu hsep hne hfirst, Option.bind_eq_bind, Option.bind_some]
        obtain ⟨news', spill', joined, added, hrun, hdist, hmin, hjoin⟩ :=
          ih (extendHead [u] (back :: rest)) spill h.tail
          (by
            intro back' hback
            obtain rfl := Option.some.inj hback
            exact (hhead back rfl).concat h.ascending)
          (fun hnew => (hspill hnew).tail)
        refine ⟨news', spill', u :: joined, added, hrun, hdist.join hne hu, hmin, ?_⟩
        intro v hv
        rcases List.mem_cons.mp hv with rfl | hv
        · exact hstop
        · exact hjoin v hv
    · obtain rfl := h.register u List.mem_cons_self hu
      rw [splitUse_spilled hins hle hu fun v hv => hspill rfl v hv u List.mem_cons_self, Option.bind_eq_bind,
        Option.bind_some]
      obtain ⟨news', spill', joined, added, hrun, hdist, hmin, hjoin⟩ :=
        ih news { spill with uses := spill.uses ++ [u] } h.tail
        (fun back hback => (hhead back hback).tail) (fun _ => (hspill rfl).concat h.ascending)
      exact ⟨news', spill', joined, added, hrun, hdist.spilled hu, hmin, hjoin⟩

/-- The run over the uses in the definition. -/
theorem splitUses_definition (hasc : Ascending uses) (hins : ∀ u ∈ uses, u.1 / 2 < insData.length)
    (hlt : ∀ u ∈ uses, u.1 < spillStart) (hne : uses ≠ [] → news ≠ [])
    (hhead : ∀ back ∈ news.head?, Before back.uses uses) :
    uses.foldlM (splitUse insData spillStart isNew) (news, spill) = some (extendHead uses news, spill) := by
  induction uses generalizing news with
  | nil => simp
  | cons u uses ih =>
    obtain ⟨back, rest, rfl⟩ := List.exists_cons_of_ne_nil (hne (List.cons_ne_nil _ _))
    rw [List.foldlM_cons, splitUse_definition (hins u List.mem_cons_self) (hlt u List.mem_cons_self)
      (List.cons_ne_nil _ _) fun b hb v hv => hhead b hb v hv u List.mem_cons_self, Option.bind_eq_bind,
      Option.bind_some, ih (List.pairwise_cons.mp hasc).2 (fun v hv => hins v (List.mem_cons_of_mem _ hv))
      (fun v hv => hlt v (List.mem_cons_of_mem _ hv))]
    · simp [extendHead]
    · simp [extendHead]
    · intro back' hback
      obtain rfl := Option.some.inj hback
      exact (hhead back rfl).concat hasc

end SpiderMonkey.Jit.Backtracking
