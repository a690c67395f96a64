import SpiderMonkey.Frontend.SourceNoteCells

/-!
# Runs that take source notes

The calls an emitter makes, with a log of the notes that were taken. A returned index may be used
while no earlier note has grown. In every run the bytes of a section are those of cells with the
notes of the log.
-/

namespace SpiderMonkey.Frontend

open SrcNoteType

/-- A note that was taken, with its operands as they were last set, and the index that was returned.
The index is usable while no earlier note has grown. -/
structure Taken where
  note : SrcNote
  index : ℕ
  usable : Bool
  deriving DecidableEq

/-- A section, and the notes taken in it. -/
structure TakenSection where
  emitted : EmitSection
  log : List Taken
  deriving DecidableEq

/-- The calls in a section. A note is given by its number in the log. -/
inductive NoteCall where
  | emitCode (length : ℕ)
  | newSrcNote (type : SrcNoteType)
  | newSrcNote2 (type : SrcNoteType) (offset : ℕ)
  | newSrcNote3 (type : SrcNoteType) (offset1 offset2 : ℕ)
  | setSrcNoteOffset (j which offset : ℕ)

namespace TakenSection

/-- The log with a new note. Operands that are not given are zero, and an extended delta is no note. -/
def take (t : TakenSection) (type : SrcNoteType) (operands : List ℕ) (r : ℕ × EmitSection) :
    TakenSection :=
  ⟨r.2, t.log ++ if type = srcXdelta then [] else
    [⟨⟨type, t.emitted.codeLength, operands ++ List.replicate (type.arity - operands.length) 0⟩, r.1,
      true⟩]⟩

/-- The log after an operand was set. The notes behind one that has grown have moved. -/
def setLog (log : List Taken) (j which offset : ℕ) (grown : Bool) : List Taken :=
  log.mapIdx fun i taken =>
    if i = j then { taken with note := taken.note.setOperand which offset }
    else { taken with usable := taken.usable && !(decide (j < i) && grown) }

/-- What a call does. -/
def call (t : TakenSection) : NoteCall → Option TakenSection
  | .emitCode length =>
      some { t with emitted := { t.emitted with codeLength := t.emitted.codeLength + length } }
  | .newSrcNote type => some (t.take type [] (newSrcNote t.emitted type))
  | .newSrcNote2 type offset => (newSrcNote2 t.emitted type offset).map (t.take type [offset])
  | .newSrcNote3 type offset1 offset2 =>
      (newSrcNote3 t.emitted type offset1 offset2).map (t.take type [offset1, offset2])
  | .setSrcNoteOffset j which offset => do
      let taken ← t.log[j]?
      let s ← t.emitted.setSrcNoteOffset taken.index which offset
      return ⟨s, setLog t.log j which offset (t.emitted.notes.length < s.notes.length)⟩

/-- The calls that may be made: the null type marks the end of the notes, there are as many operands as
the type has, they are not too large, and the index is usable. -/
def Allows (t : TakenSection) : NoteCall → Prop
  | .emitCode _ => True
  | .newSrcNote type => type ≠ srcNull
  | .newSrcNote2 type offset => 0 < type.arity ∧ offset ≤ snMaxOffset
  | .newSrcNote3 type offset1 offset2 =>
      1 < type.arity ∧ offset1 ≤ snMaxOffset ∧ offset2 ≤ snMaxOffset
  | .setSrcNoteOffset j which offset => ∃ taken, t.log[j]? = some taken ∧ taken.usable = true ∧
      which < taken.note.type.arity ∧ offset ≤ snMaxOffset

/-- The bytes of a section are those of cells that have the notes of the log, and usable indices are the
positions of their notes. -/
structure Sound (t : TakenSection) (cells : List Cell) : Prop where
  fits : ∀ c ∈ cells, c.Fits
  notes_eq : t.emitted.notes = cellBytes cells
  cellNotes_eq : cellNotes 0 cells = t.log.map Taken.note
  deltaSum_eq : deltaSum cells = t.emitted.lastNoteOffset
  lastNoteOffset_le : t.emitted.lastNoteOffset ≤ t.emitted.codeLength
  index_eq : ∀ j taken, t.log[j]? = some taken → taken.usable = true → taken.index = notePosition cells j

variable {t : TakenSection} {cells : List Cell}

/-- Emitting code keeps the notes. -/
theorem Sound.emitCode (h : t.Sound cells) (length : ℕ) :
    ∃ t', t.call (.emitCode length) = some t' ∧ t'.Sound cells :=
  ⟨_, rfl, h.fits, h.notes_eq, h.cellNotes_eq, h.deltaSum_eq,
    Nat.le_trans h.lastNoteOffset_le (Nat.le_add_right _ _), h.index_eq⟩

/-- The notes in front keep their positions. -/
theorem notePosition_append_of_lt {cells' : List Cell} {j offset : ℕ}
    (h : j < (cellNotes offset cells).length) :
    notePosition (cells ++ cells') j = notePosition cells j := by
  induction cells generalizing j offset with
  | nil => exact absurd h (Nat.not_lt_zero _)
  | cons c cells ih =>
    cases c with
    | xdelta delta =>
      rw [cellNotes] at h
      rw [List.cons_append, notePosition, notePosition, ih h]
    | note type delta os =>
      cases j with
      | zero => rfl
      | succ j =>
        rw [cellNotes, List.length_cons] at h
        rw [List.cons_append, notePosition, notePosition, ih (Nat.lt_of_succ_lt_succ h)]

/-- The positions of the notes behind others. -/
theorem notePosition_append_length {cells' : List Cell} (offset j : ℕ) :
    notePosition (cells ++ cells') ((cellNotes offset cells).length + j) =
      (cellBytes cells).length + notePosition cells' j := by
  induction cells generalizing offset with
  | nil => simp [cellNotes, cellBytes]
  | cons c cells ih =>
    have hih := ih (offset + c.delta)
    cases c with
    | xdelta delta =>
      rw [List.cons_append, cellNotes, notePosition, cellBytes_cons, List.length_append]
      rw [Cell.delta] at hih
      rw [hih, Cell.bytes, List.length_singleton]
      omega
    | note type delta os =>
      rw [Cell.delta] at hih
      rw [List.cons_append, cellNotes, List.length_cons, Nat.add_right_comm, notePosition, hih,
        cellBytes_cons, List.length_append]
      omega

/-- A new note is sound. -/
theorem Sound.newSrcNote (h : t.Sound cells) {type : SrcNoteType} (hnull : type ≠ srcNull) :
    ∃ cells', (t.take type [] (newSrcNote t.emitted type)).Sound cells' := by
  obtain ⟨deltas, delta, hnew, hall, hdelta, hsum, -⟩ := newSrcNote_eq type h.notes_eq
  have hfits : ∀ c ∈ deltas.map Cell.xdelta, c.Fits := by
    intro c hc
    obtain ⟨d, hd, rfl⟩ := List.mem_map.mp hc
    exact hall d hd
  have hxsum : deltaSum (deltas.map .xdelta) = deltas.sum := by
    rw [deltaSum, List.map_map]
    exact congrArg List.sum (List.map_id deltas)
  have hle := h.lastNoteOffset_le
  have hlast := h.deltaSum_eq
  have hlength : (cellNotes 0 cells).length = t.log.length := by
    rw [h.cellNotes_eq, List.length_map]
  refine ⟨cells ++ deltas.map .xdelta ++ [newCell type delta], ?_, ?_, ?_, ?_, ?_, ?_⟩
  · simp only [List.mem_append, List.mem_singleton]
    rintro c ((hc | hc) | rfl)
    · exact h.fits c hc
    · exact hfits c hc
    · exact fits_newCell hnull hdelta
  · rw [take, hnew]
  · have hoffset : 0 + deltaSum (cells ++ deltas.map .xdelta) + delta = t.emitted.codeLength := by
      rw [deltaSum_append, hxsum, hlast]
      omega
    have hcell : cellNotes (0 + deltaSum (cells ++ deltas.map .xdelta)) [newCell type delta] =
        if type = srcXdelta then []
        else [⟨type, t.emitted.codeLength, List.replicate type.arity 0⟩] := by
      rw [newCell]
      split_ifs
      · rfl
      · rw [cellNotes, hoffset, List.map_replicate]
        rfl
    rw [cellNotes_append, hcell, cellNotes_append, cellNotes_xdeltas, h.cellNotes_eq, take,
      List.map_append, List.append_nil]
    split_ifs <;> rfl
  · have hcell : deltaSum [newCell type delta] = delta := by
      rw [newCell]
      split_ifs <;> rfl
    rw [take, hnew, deltaSum_append, deltaSum_append, hcell, hxsum, hlast]
    simp only
    omega
  · apply Nat.le_of_eq
    rw [take, hnew]
  · intro j taken htaken husable
    rw [take, hnew] at htaken
    simp only at htaken
    rw [List.getElem?_append] at htaken
    split_ifs at htaken with hlt
    · have hcount : j < (cellNotes 0 cells).length := by omega
      rw [List.append_assoc, notePosition_append_of_lt hcount]
      exact h.index_eq j taken htaken husable
    · simp at htaken
    · rename_i hxdelta
      rw [List.getElem?_singleton] at htaken
      split_ifs at htaken with hj
      rw [Option.some.injEq] at htaken
      have hj' : j = (cellNotes 0 (cells ++ deltas.map .xdelta)).length + 0 := by
        rw [cellNotes_append, cellNotes_xdeltas, List.append_nil]
        omega
      rw [← htaken, hj', notePosition_append_length, newCell, if_neg hxdelta]
      rfl

/-- Setting an operand through a usable index succeeds and is sound. -/
theorem Sound.setSrcNoteOffset (h : t.Sound cells) {j which offset : ℕ}
    (hallows : t.Allows (.setSrcNoteOffset j which offset)) :
    ∃ t', t.call (.setSrcNoteOffset j which offset) = some t' ∧
      t'.Sound (setOperand cells j which offset) := by
  obtain ⟨taken, htaken, husable, hwhich, hoffset⟩ := hallows
  have hnote : (cellNotes 0 cells)[j]? = some taken.note := by
    rw [h.cellNotes_eq, List.getElem?_map, htaken]
    rfl
  have hset := setSrcNoteOffset_cellBytes h.fits hnote hwhich hoffset []
  rw [List.nil_append, List.nil_append, List.length_nil, Nat.zero_add,
    ← h.index_eq j taken htaken husable, ← h.notes_eq] at hset
  have hcall : t.call (.setSrcNoteOffset j which offset) = some
      ⟨{ t.emitted with notes := cellBytes (setOperand cells j which offset) },
        setLog t.log j which offset
          (t.emitted.notes.length < (cellBytes (setOperand cells j which offset)).length)⟩ := by
    rw [call, htaken]
    simp only [Option.bind_eq_bind, Option.bind_some, EmitSection.setSrcNoteOffset, hset,
      Option.map_some, Option.pure_def]
  refine ⟨_, hcall, fits_setOperand h.fits hoffset, rfl, ?_, ?_, h.lastNoteOffset_le, ?_⟩
  · rw [cellNotes_setOperand, h.cellNotes_eq]
    apply List.ext_getElem?
    intro i
    rw [List.getElem?_modify, List.getElem?_map, List.getElem?_map, setLog, List.getElem?_mapIdx]
    cases t.log[i]? with
    | none => rfl
    | some taken =>
      by_cases hij : i = j
      · simp [hij]
      · simp [hij, Ne.symm hij]
  · rw [deltaSum_setOperand, h.deltaSum_eq]
  · intro i taken' htaken' husable'
    rw [setLog, List.getElem?_mapIdx, Option.map_eq_some_iff] at htaken'
    obtain ⟨old, hold, rfl⟩ := htaken'
    by_cases hij : i = j
    · rw [if_pos hij] at husable' ⊢
      rw [notePosition_setOperand (Or.inl (Nat.le_of_eq hij))]
      exact h.index_eq i old hold husable'
    · rw [if_neg hij] at husable' ⊢
      simp only [Bool.and_eq_true, Bool.not_eq_true', Bool.and_eq_false_iff,
        decide_eq_false_iff_not] at husable'
      obtain ⟨husable, hmoved⟩ := husable'
      have hstays : i ≤ j ∨
          (cellBytes (setOperand cells j which offset)).length ≤ (cellBytes cells).length := by
        rw [h.notes_eq] at hmoved
        omega
      rw [notePosition_setOperand hstays]
      exact h.index_eq i old hold husable

/-- A type with operands is no extended delta. -/
theorem ne_xdelta_of_arity {type : SrcNoteType} (h : 0 < type.arity) : type ≠ srcXdelta := by
  rintro rfl
  exact absurd h (by decide)

/-- A type with operands is not null. -/
theorem ne_null_of_arity {type : SrcNoteType} (h : 0 < type.arity) : type ≠ srcNull := by
  rintro rfl
  exact absurd h (by decide)

/-- Setting the last note moves no other. -/
theorem setLog_append (log : List Taken) (taken : Taken) (which offset : ℕ) (grown : Bool) :
    setLog (log ++ [taken]) log.length which offset grown =
      log ++ [{ taken with note := taken.note.setOperand which offset }] := by
  rw [setLog, List.mapIdx_append, List.mapIdx_singleton, Nat.zero_add, if_pos rfl]
  congr 1
  apply List.ext_getElem?
  intro i
  rw [List.getElem?_mapIdx]
  by_cases hi : i < log.length
  · rw [List.getElem?_eq_getElem hi, Option.map_some, if_neg (by omega)]
    have hlt : ¬ log.length < i := by omega
    simp [hlt]
  · rw [List.getElem?_eq_none (by omega), Option.map_none]

/-- The log of a note with operands. -/
theorem take_log {type : SrcNoteType} (h : 0 < type.arity) (operands : List ℕ) (r : ℕ × EmitSection) :
    (t.take type operands r).log = t.log ++
      [⟨⟨type, t.emitted.codeLength,
        operands ++ List.replicate (type.arity - operands.length) 0⟩, r.1, true⟩] := by
  rw [take, if_neg (ne_xdelta_of_arity h)]

/-- The last entry of the log. -/
theorem getElem?_take_log {type : SrcNoteType} (h : 0 < type.arity) (operands : List ℕ)
    (r : ℕ × EmitSection) :
    (t.take type operands r).log[t.log.length]? = some ⟨⟨type, t.emitted.codeLength,
      operands ++ List.replicate (type.arity - operands.length) 0⟩, r.1, true⟩ := by
  rw [take_log h, List.getElem?_append_right (Nat.le_refl _), Nat.sub_self,
    List.getElem?_cons_zero]

/-- Setting the next operand of the note that was taken last. -/
theorem call_setSrcNoteOffset_take {type : SrcNoteType} {operands : List ℕ}
    (h : operands.length < type.arity) (r : ℕ × EmitSection) (offset : ℕ) :
    (t.take type operands r).call (.setSrcNoteOffset t.log.length operands.length offset) =
      (r.2.setSrcNoteOffset r.1 operands.length offset).map fun s =>
        t.take type (operands ++ [offset]) (r.1, s) := by
  have hpos : 0 < type.arity := by omega
  obtain ⟨n, hn⟩ : ∃ n, type.arity = operands.length + (n + 1) := ⟨type.arity - operands.length - 1, by omega⟩
  rw [call, getElem?_take_log hpos]
  simp only [Option.bind_eq_bind, Option.bind_some, take_log hpos, setLog_append]
  have hoperands : (operands ++ List.replicate (type.arity - operands.length) 0).set operands.length
      offset = (operands ++ [offset]) ++ List.replicate (type.arity - (operands ++ [offset]).length) 0 := by
    have hone : operands.length + (n + 1) - (operands.length + 1) = n := by omega
    rw [hn, Nat.add_sub_cancel_left, List.replicate_succ, List.set_append_right _ _ (Nat.le_refl _),
      Nat.sub_self, List.set_cons_zero, List.length_append, List.length_singleton, hone,
      List.append_assoc]
    rfl
  rw [show (t.take type operands r).emitted = r.2 from rfl]
  cases r.2.setSrcNoteOffset r.1 operands.length offset with
  | none => rfl
  | some s =>
    simp only [Option.bind_some, Option.map_some, Option.pure_def, SrcNote.setOperand, hoperands]
    rw [take, if_neg (ne_xdelta_of_arity hpos)]

/-- `NewSrcNote2` takes a note and sets its first operand. -/
theorem call_newSrcNote2 {type : SrcNoteType} (h : 0 < type.arity) (offset : ℕ) :
    t.call (.newSrcNote2 type offset) =
      (t.take type [] (Frontend.newSrcNote t.emitted type)).call
        (.setSrcNoteOffset t.log.length 0 offset) := by
  generalize hnew : Frontend.newSrcNote t.emitted type = r
  obtain ⟨index, s⟩ := r
  have hset := call_setSrcNoteOffset_take (show ([] : List ℕ).length < type.arity from h) (index, s)
    offset (t := t)
  rw [List.length_nil] at hset
  rw [hset, call, newSrcNote2, hnew]
  dsimp only
  cases s.setSrcNoteOffset index 0 offset <;> rfl

/-- `NewSrcNote3` goes on to set the second operand. -/
theorem call_newSrcNote3 {type : SrcNoteType} (h : 1 < type.arity) (offset1 offset2 : ℕ) :
    t.call (.newSrcNote3 type offset1 offset2) =
      (t.call (.newSrcNote2 type offset1)).bind
        (·.call (.setSrcNoteOffset t.log.length 1 offset2)) := by
  rw [call, call, newSrcNote2, newSrcNote3]
  generalize Frontend.newSrcNote t.emitted type = r
  obtain ⟨index, s⟩ := r
  dsimp only
  cases s.setSrcNoteOffset index 0 offset1 with
  | none => rfl
  | some s' =>
    have hset := call_setSrcNoteOffset_take (show [offset1].length < type.arity from h) (index, s')
      offset2 (t := t)
    simp only [Option.bind_eq_bind, Option.bind_some, Option.pure_def, Option.map_some]
    rw [show 1 = [offset1].length from rfl, hset]
    cases s'.setSrcNoteOffset index [offset1].length offset2 <;> rfl

/-- A call that may be made succeeds and is sound. -/
theorem Sound.call (h : t.Sound cells) {c : NoteCall} (hallows : t.Allows c) :
    ∃ t' cells', t.call c = some t' ∧ t'.Sound cells' := by
  have htwo : ∀ {type : SrcNoteType} {offset : ℕ}, 0 < type.arity → offset ≤ snMaxOffset →
      ∃ t' cells', t.call (.newSrcNote2 type offset) = some t' ∧ t'.Sound cells' := by
    intro type offset harity hoffset
    obtain ⟨cells', hnew⟩ := h.newSrcNote (ne_null_of_arity harity)
    obtain ⟨t', hcall, hsound⟩ := hnew.setSrcNoteOffset
      ⟨_, getElem?_take_log harity [] _, rfl, harity, hoffset⟩
    exact ⟨t', _, (call_newSrcNote2 harity offset).trans hcall, hsound⟩
  cases c with
  | emitCode length =>
    obtain ⟨t', hcall, hsound⟩ := h.emitCode length
    exact ⟨t', cells, hcall, hsound⟩
  | newSrcNote type =>
    obtain ⟨cells', hsound⟩ := h.newSrcNote hallows
    exact ⟨_, cells', rfl, hsound⟩
  | newSrcNote2 type offset => exact htwo hallows.1 hallows.2
  | newSrcNote3 type offset1 offset2 =>
    obtain ⟨harity, hoffset1, hoffset2⟩ := hallows
    have hpos : 0 < type.arity := by omega
    obtain ⟨t', cells', hcall, hsound⟩ := htwo hpos hoffset1
    have htake : ∃ r, t' = t.take type [offset1] r := by
      rw [TakenSection.call, Option.map_eq_some_iff] at hcall
      obtain ⟨r, -, hr⟩ := hcall
      exact ⟨r, hr.symm⟩
    obtain ⟨r, rfl⟩ := htake
    obtain ⟨t'', hcall', hsound'⟩ := hsound.setSrcNoteOffset
      ⟨_, getElem?_take_log hpos [offset1] _, rfl, harity, hoffset2⟩
    refine ⟨t'', _, ?_, hsound'⟩
    rw [call_newSrcNote3 harity, hcall]
    exact hcall'
  | setSrcNoteOffset j which offset =>
    obtain ⟨t', hcall, hsound⟩ := h.setSrcNoteOffset hallows
    exact ⟨t', _, hcall, hsound⟩

end TakenSection

end SpiderMonkey.Frontend
