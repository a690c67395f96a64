import SpiderMonkey.Frontend.SourceNoteBytes
import SpiderMonkey.Lib.Loops

/-!
# Vectors of source notes as cells

Readers of the bytes of cells get their notes. Taking a note puts cells behind the others, and
setting an operand changes one cell.
-/

namespace SpiderMonkey.Frontend

open SrcNoteType Segments

/-- A part of a vector of notes: an extended delta, or a note with its operands. -/
inductive Cell where
  | xdelta (delta : ℕ)
  | note (type : SrcNoteType) (delta : ℕ) (operands : List Operand)

namespace Cell

/-- The bytes of a cell. -/
def bytes : Cell → List ℕ
  | xdelta delta => [192 + delta]
  | note type delta operands => (type.toNat * 8 + delta) :: operandBytes operands

/-- The fields of a cell fit its bytes, and it is no terminator. -/
def Fits : Cell → Prop
  | xdelta delta => delta < 64
  | note type delta operands =>
      type ≠ srcXdelta ∧ type ≠ srcNull ∧ delta < 8 ∧ operands.length = type.arity ∧
        ∀ o ∈ operands, o.Fits

/-- What a cell adds to the offset. -/
def delta : Cell → ℕ
  | xdelta delta => delta
  | note _ delta _ => delta

end Cell

/-- The bytes of cells. -/
def cellBytes (cells : List Cell) : List ℕ := cells.flatMap Cell.bytes

/-- What cells add to the offset. -/
def deltaSum (cells : List Cell) : ℕ := (cells.map Cell.delta).sum

/-- The notes in cells, with the offset in front of them. -/
def cellNotes (offset : ℕ) : List Cell → List SrcNote
  | [] => []
  | .xdelta delta :: cells => cellNotes (offset + delta) cells
  | .note type delta operands :: cells =>
      ⟨type, offset + delta, operands.map Operand.value⟩ :: cellNotes (offset + delta) cells

/-! ## Reading -/

/-- The length of a note. -/
theorem snLength_note {type : SrcNoteType} {delta : ℕ} {os : List Operand}
    (h : (Cell.note type delta os).Fits) (pre post : List ℕ) :
    snLength (pre ++ (type.toNat * 8 + delta) :: operandBytes os ++ post) pre.length =
      some (Cell.note type delta os).bytes.length := by
  obtain ⟨hxdelta, -, hdelta, harity, hos⟩ := h
  have hskip := skipOffsets_operandBytes hos (pre ++ [type.toNat * 8 + delta]) post
  have hnotes : pre ++ [type.toNat * 8 + delta] ++ operandBytes os ++ post =
      pre ++ (type.toNat * 8 + delta) :: operandBytes os ++ post := by simp
  rw [hnotes, List.length_append, List.length_singleton, harity] at hskip
  have hget : (pre ++ (type.toNat * 8 + delta) :: operandBytes os ++ post)[pre.length]? =
      some (type.toNat * 8 + delta) := by simp
  rw [snLength, hget]
  simp only [Option.bind_eq_bind, Option.bind_some, snType_note hxdelta hdelta, hskip,
    Option.pure_def, Option.some.injEq, Cell.bytes, List.length_cons]
  omega

/-- The operands of a note. -/
theorem mapM_getSrcNoteOffset {os : List Operand} (hos : ∀ o ∈ os, o.Fits) (pre post : List ℕ)
    (b : ℕ) :
    (List.range os.length).mapM
        (getSrcNoteOffset (pre ++ b :: operandBytes os ++ post) pre.length) =
      some (os.map Operand.value) := by
  have hread : ∀ i < os.length, ∃ v,
      getSrcNoteOffset (pre ++ b :: operandBytes os ++ post) pre.length i = some v ∧
        os[i]?.map Operand.value = some v := by
    intro i hi
    have hsplit : os = os.take i ++ os[i] :: os.drop (i + 1) := by simp
    have hfits : ∀ o ∈ os.take i, o.Fits := fun o ho => hos o (List.mem_of_mem_take ho)
    have hget : getSrcNoteOffset
        (pre ++ b :: operandBytes (os.take i ++ os[i] :: os.drop (i + 1)) ++ post) pre.length
          (os.take i).length = some os[i].value :=
      getSrcNoteOffset_operandBytes hfits (hos os[i] (List.getElem_mem hi)) pre post b
    rw [← hsplit, List.length_take, Nat.min_eq_left (by omega)] at hget
    exact ⟨_, hget, by rw [List.getElem?_eq_getElem hi]; rfl⟩
  obtain ⟨values, hvalues, hlength, hall⟩ := Lib.exists_mapM_range hread
  rw [hvalues, Option.some.injEq]
  apply List.ext_getElem?
  intro i
  rw [List.getElem?_map]
  by_cases hi : i < values.length
  · rw [hall i values[i] (List.getElem?_eq_getElem hi), List.getElem?_eq_getElem hi]
  · rw [List.getElem?_eq_none (by omega), List.getElem?_eq_none (by omega), Option.map_none]

/-- The bytes of a first cell and the others. -/
theorem cellBytes_cons (c : Cell) (cells : List Cell) : cellBytes (c :: cells) = c.bytes ++ cellBytes cells :=
  List.flatMap_cons

/-- The bytes of cells behind others. -/
theorem cellBytes_append (cells cells' : List Cell) :
    cellBytes (cells ++ cells') = cellBytes cells ++ cellBytes cells' := List.flatMap_append

/-- The walk of the readers over the bytes of cells gives their notes. -/
theorem walk_cellBytes {cells : List Cell} (hcells : ∀ c ∈ cells, c.Fits) (pre : List ℕ)
    (offset : ℕ) :
    walk (pre ++ cellBytes cells ++ [snTerminator]) pre.length offset = some (cellNotes offset cells) := by
  induction cells generalizing pre offset with
  | nil =>
    have hget : (pre ++ cellBytes [] ++ [snTerminator])[pre.length]? = some snTerminator := by
      simp [cellBytes]
    rw [walk, hget]
    exact if_pos rfl
  | cons c cells ih =>
    have htail : ∀ c ∈ cells, c.Fits := fun c hc => hcells c (List.mem_cons_of_mem _ hc)
    have hc := hcells c List.mem_cons_self
    have hih := ih htail (pre ++ c.bytes)
    have hassoc : pre ++ cellBytes (c :: cells) ++ [snTerminator] =
        pre ++ c.bytes ++ cellBytes cells ++ [snTerminator] := by
      rw [cellBytes_cons, ← List.append_assoc]
    rw [hassoc, walk]
    rw [List.length_append] at hih
    cases c with
    | xdelta delta =>
      have hget : (pre ++ (Cell.xdelta delta).bytes ++ cellBytes cells ++ [snTerminator])[
          pre.length]? = some (192 + delta) := by simp [Cell.bytes]
      have hlength : snLength (pre ++ (Cell.xdelta delta).bytes ++ cellBytes cells ++
          [snTerminator]) pre.length = some (Cell.xdelta delta).bytes.length := by
        simp [snLength, snType_xdelta, arity, skipOffsets, Cell.bytes]
      rw [hget]
      dsimp only
      rw [if_neg (show ¬ 192 + delta = 0 by omega)]
      split
      · next hnone =>
        rw [hlength] at hnone
        cases hnone
      · next length hsome =>
        rw [hlength, Option.some.injEq] at hsome
        rw [if_pos (snType_xdelta delta), ← hsome, hih, snDelta_xdelta hc]
        rfl
    | note type delta os =>
      obtain ⟨hxdelta, hnull, hdelta, harity, hos⟩ := hc
      have hpos := toNat_pos hnull
      have hnote : pre ++ (Cell.note type delta os).bytes ++ cellBytes cells ++ [snTerminator] =
          pre ++ (type.toNat * 8 + delta) :: operandBytes os ++
            (cellBytes cells ++ [snTerminator]) := by
        simp [Cell.bytes]
      have hget : (pre ++ (Cell.note type delta os).bytes ++ cellBytes cells ++ [snTerminator])[
          pre.length]? = some (type.toNat * 8 + delta) := by simp [Cell.bytes]
      have hlength : snLength (pre ++ (Cell.note type delta os).bytes ++ cellBytes cells ++
          [snTerminator]) pre.length = some (Cell.note type delta os).bytes.length := by
        rw [hnote]
        exact snLength_note ⟨hxdelta, hnull, hdelta, harity, hos⟩ _ _
      have hread := mapM_getSrcNoteOffset hos pre (cellBytes cells ++ [snTerminator])
        (type.toNat * 8 + delta)
      rw [← hnote, harity] at hread
      rw [hget]
      dsimp only
      rw [if_neg (show ¬ type.toNat * 8 + delta = 0 by omega)]
      split
      · next hnone =>
        rw [hlength] at hnone
        cases hnone
      · next length hsome =>
        rw [hlength, Option.some.injEq] at hsome
        rw [snType_note hxdelta hdelta, if_neg hxdelta, hread]
        dsimp only
        rw [← hsome, hih, snDelta_note hxdelta hdelta]
        rfl

/-! ## Offsets -/

/-- The offsets behind two lists of cells. -/
theorem deltaSum_append (cells cells' : List Cell) :
    deltaSum (cells ++ cells') = deltaSum cells + deltaSum cells' := by
  rw [deltaSum, List.map_append, List.sum_append]
  rfl

/-- The notes of two lists of cells. -/
theorem cellNotes_append (offset : ℕ) (cells cells' : List Cell) :
    cellNotes offset (cells ++ cells') =
      cellNotes offset cells ++ cellNotes (offset + deltaSum cells) cells' := by
  induction cells generalizing offset with
  | nil => rfl
  | cons c cells ih =>
    have hsum : deltaSum (c :: cells) = c.delta + deltaSum cells := List.sum_cons
    rw [hsum, ← Nat.add_assoc]
    cases c with
    | xdelta delta => exact ih _
    | note type delta os => exact congrArg (_ :: ·) (ih _)

/-- A note behind a longer prolog. -/
def SrcNote.shift (n : ℕ) (note : SrcNote) : SrcNote := { note with offset := n + note.offset }

/-- Cells behind a larger offset. -/
theorem cellNotes_add (n offset : ℕ) (cells : List Cell) :
    cellNotes (n + offset) cells = (cellNotes offset cells).map (SrcNote.shift n) := by
  induction cells generalizing offset with
  | nil => rfl
  | cons c cells ih =>
    cases c with
    | xdelta delta =>
      rw [cellNotes, cellNotes, Nat.add_assoc]
      exact ih _
    | note type delta os =>
      rw [cellNotes, cellNotes, List.map_cons, Nat.add_assoc, ih]
      rfl

/-- The bytes of extended deltas. -/
theorem length_cellBytes_xdeltas (deltas : List ℕ) :
    (cellBytes (deltas.map .xdelta)).length = deltas.length := by
  induction deltas with
  | nil => rfl
  | cons delta deltas ih =>
    rw [List.map_cons, cellBytes_cons, List.length_append, ih, List.length_cons, Nat.add_comm]
    rfl

/-- Extended deltas are no notes. -/
theorem cellNotes_xdeltas (offset : ℕ) (deltas : List ℕ) :
    cellNotes offset (deltas.map .xdelta) = [] := by
  induction deltas generalizing offset with
  | nil => rfl
  | cons delta deltas ih => exact ih _

/-! ## New notes -/

/-- The extended deltas that are taken. There are as many as the delta needs. -/
theorem xdeltaLoop_eq (notes : List ℕ) (delta : ℕ) :
    ∃ deltas : List ℕ, ∃ rest, xdeltaLoop notes delta = (notes ++ cellBytes (deltas.map .xdelta), rest) ∧
      (∀ d ∈ deltas, d < 64) ∧ rest < 8 ∧ deltas.sum + rest = delta ∧
      deltas.length = (delta - 7 + 62) / 63 := by
  induction hn : delta using Nat.strongRecOn generalizing notes delta with
  | ind n ih =>
    subst hn
    rw [xdeltaLoop]
    by_cases h : snDeltaLimit ≤ delta
    · have hlt : delta - min delta snXdeltaMask < delta := by
        simp only [snDeltaLimit, snXdeltaMask] at *
        omega
      obtain ⟨deltas, rest, heq, hall, hrest, hsum, hlength⟩ :=
        ih _ hlt (notes ++ [snMakeXdelta (min delta snXdeltaMask)]) _ rfl
      have hbyte : snMakeXdelta (min delta snXdeltaMask) = 192 + min delta 63 :=
        snMakeXdelta_eq (by simp only [snXdeltaMask]; omega)
      simp only [snDeltaLimit, snXdeltaMask] at h hbyte heq hsum hlength hlt
      rw [if_pos h]
      refine ⟨min delta 63 :: deltas, rest, ?_, ?_, hrest, ?_, ?_⟩
      · simp only [snXdeltaMask]
        rw [heq, hbyte, List.map_cons, cellBytes_cons, List.append_assoc]
        rfl
      · exact List.forall_mem_cons.mpr ⟨by omega, hall⟩
      · rw [List.sum_cons]
        omega
      · rw [List.length_cons, hlength]
        omega
    · rw [if_neg h]
      simp only [snDeltaLimit] at h
      exact ⟨[], delta, by simp [cellBytes], List.forall_mem_nil _, by omega, by simp,
        by simp only [List.length_nil]; omega⟩

/-- The notes for operands are zero bytes. -/
theorem newOperandNotes_eq (n : ℕ) {s : EmitSection} (h : s.lastNoteOffset = s.codeLength) :
    newOperandNotes n s = { s with notes := s.notes ++ List.replicate n 0 } := by
  induction n generalizing s with
  | zero => simp [newOperandNotes]
  | succ n ih =>
    have hloop : xdeltaLoop s.notes 0 = (s.notes, 0) := by
      rw [xdeltaLoop]
      rfl
    have hbyte : (newSrcNoteByte s srcNull).2 = { s with notes := s.notes ++ [0] } := by
      rw [newSrcNoteByte, h, Nat.sub_self, hloop, ← h]
      rfl
    have hih := ih (s := { s with notes := s.notes ++ [0] }) h
    rw [newOperandNotes, hbyte, hih, List.append_assoc]
    rfl

/-- The cell of a new note. A note of the type of an extended delta is one. -/
def newCell (type : SrcNoteType) (delta : ℕ) : Cell :=
  if type = srcXdelta then .xdelta delta else .note type delta (List.replicate type.arity ⟨0, false⟩)

/-- The bytes of a new note. -/
theorem bytes_newCell (type : SrcNoteType) {delta : ℕ} (h : delta < 8) :
    (newCell type delta).bytes = snMakeNote type delta :: List.replicate type.arity 0 := by
  rw [newCell, snMakeNote_eq type h]
  split_ifs with htype
  · rw [htype]
    rfl
  · rw [Cell.bytes, operandBytes]
    congr 1
    generalize type.arity = n
    induction n with
    | zero => rfl
    | succ n ih =>
      rw [List.replicate_succ, List.flatMap_cons, ih]
      rfl

/-- A new note fits its bytes. -/
theorem fits_newCell {type : SrcNoteType} {delta : ℕ} (hnull : type ≠ srcNull) (h : delta < 8) :
    (newCell type delta).Fits := by
  rw [newCell]
  split_ifs with htype
  · exact Nat.lt_trans h (by decide)
  · refine ⟨htype, hnull, h, List.length_replicate, fun o ho => ?_⟩
    rw [List.eq_of_mem_replicate ho]
    exact ⟨Nat.zero_le _, fun _ => Nat.zero_le _⟩

/-- Taking a note puts the extended deltas it needs and its cell behind the others. -/
theorem newSrcNote_eq {s : EmitSection} {cells : List Cell} (type : SrcNoteType)
    (hnotes : s.notes = cellBytes cells) :
    ∃ deltas : List ℕ, ∃ delta, newSrcNote s type =
        ((cellBytes (cells ++ deltas.map .xdelta)).length,
          { s with
            notes := cellBytes (cells ++ deltas.map .xdelta ++ [newCell type delta])
            lastNoteOffset := s.codeLength }) ∧
      (∀ d ∈ deltas, d < 64) ∧ delta < 8 ∧ deltas.sum + delta = s.codeLength - s.lastNoteOffset ∧
      deltas.length = (s.codeLength - s.lastNoteOffset - 7 + 62) / 63 := by
  obtain ⟨deltas, delta, hloop, hall, hdelta, hsum, hlength⟩ :=
    xdeltaLoop_eq s.notes (s.codeLength - s.lastNoteOffset)
  refine ⟨deltas, delta, ?_, hall, hdelta, hsum, hlength⟩
  rw [newSrcNote, newSrcNoteByte, hloop]
  dsimp only
  rw [newOperandNotes_eq _ rfl, hnotes, cellBytes_append, cellBytes_append _ [_], cellBytes_append,
    show cellBytes [newCell type delta] = (newCell type delta).bytes from List.append_nil _,
    bytes_newCell type hdelta, List.append_assoc _ [_]]
  rfl

/-! ## Setting operands -/

/-- The position of the note with this number. -/
def notePosition : List Cell → ℕ → ℕ
  | [], _ => 0
  | .xdelta _ :: cells, j => notePosition cells j + 1
  | .note .. :: _, 0 => 0
  | .note type delta os :: cells, j + 1 =>
      notePosition cells j + (Cell.note type delta os).bytes.length

/-- Set an operand of the note with this number. -/
def setOperand : List Cell → ℕ → ℕ → ℕ → List Cell
  | [], _, _, _ => []
  | .xdelta delta :: cells, j, which, value => .xdelta delta :: setOperand cells j which value
  | .note type delta os :: cells, 0, which, value =>
      .note type delta (os.modify which (·.update value)) :: cells
  | .note type delta os :: cells, j + 1, which, value =>
      .note type delta os :: setOperand cells j which value

/-- A note with another value of an operand. -/
def SrcNote.setOperand (note : SrcNote) (which value : ℕ) : SrcNote :=
  { note with operands := note.operands.set which value }

section SetOperand

variable {cells : List Cell} {j which value : ℕ}

/-- An operand that is set still fits its bytes. -/
theorem fits_setOperand (hcells : ∀ c ∈ cells, c.Fits) (hvalue : value ≤ snMaxOffset) :
    ∀ c ∈ setOperand cells j which value, c.Fits := by
  induction cells generalizing j with
  | nil => exact List.forall_mem_nil _
  | cons c cells ih =>
    have htail : ∀ c ∈ cells, c.Fits := fun c hc => hcells c (List.mem_cons_of_mem _ hc)
    have hc := hcells c List.mem_cons_self
    cases c with
    | xdelta delta => exact List.forall_mem_cons.mpr ⟨hc, ih htail⟩
    | note type delta os =>
      cases j with
      | zero =>
        obtain ⟨hxdelta, hnull, hdelta, harity, hos⟩ := hc
        refine List.forall_mem_cons.mpr ⟨⟨hxdelta, hnull, hdelta, ?_, fun o ho => ?_⟩, htail⟩
        · rw [List.length_modify, harity]
        · obtain ⟨i, hi⟩ := List.mem_iff_getElem?.mp ho
          rw [List.getElem?_modify, Option.map_eq_map, Option.map_eq_some_iff] at hi
          obtain ⟨o', ho', rfl⟩ := hi
          have hfits := hos o' (List.mem_of_getElem? ho')
          split_ifs
          · exact o'.fits_update hvalue
          · exact hfits
      | succ j => exact List.forall_mem_cons.mpr ⟨hc, ih htail⟩

/-- Setting an operand moves no note. -/
theorem deltaSum_setOperand : deltaSum (setOperand cells j which value) = deltaSum cells := by
  induction cells generalizing j with
  | nil => rfl
  | cons c cells ih =>
    cases c with
    | xdelta delta => exact congrArg (delta + ·) ih
    | note type delta os =>
      cases j with
      | zero => rfl
      | succ j => exact congrArg (delta + ·) ih

/-- Setting an operand sets it in the note with this number. -/
theorem cellNotes_setOperand (offset : ℕ) :
    cellNotes offset (setOperand cells j which value) =
      (cellNotes offset cells).modify j (·.setOperand which value) := by
  induction cells generalizing j offset with
  | nil => cases j <;> rfl
  | cons c cells ih =>
    cases c with
    | xdelta delta => exact ih _
    | note type delta os =>
      cases j with
      | zero =>
        have hoperands : (os.modify which (·.update value)).map Operand.value =
            (os.map Operand.value).set which value := by
          apply List.ext_getElem?
          intro i
          rw [List.getElem?_map, List.getElem?_modify, List.getElem?_set, List.getElem?_map,
            List.length_map]
          by_cases hi : which = i
          · subst hi
            by_cases hlt : which < os.length
            · rw [List.getElem?_eq_getElem hlt, if_pos rfl, if_pos hlt]
              simp [Operand.update]
            · rw [List.getElem?_eq_none (by omega), if_pos rfl, if_neg hlt]
              rfl
          · rw [if_neg hi]
            cases os[i]? <;> simp [hi]
        rw [setOperand, cellNotes, hoperands, cellNotes, List.modify_zero_cons]
        rfl
      | succ j =>
        rw [setOperand, cellNotes, cellNotes, List.modify_succ_cons, ih]

/-- Setting an operand makes no operand smaller. -/
theorem length_operandBytes_modify (os : List Operand) (which value : ℕ) :
    (operandBytes os).length ≤ (operandBytes (os.modify which (·.update value))).length := by
  induction os generalizing which with
  | nil => exact Nat.zero_le _
  | cons o os ih =>
    cases which with
    | zero =>
      rw [List.modify_zero_cons, operandBytes, List.flatMap_cons, operandBytes, List.flatMap_cons,
        List.length_append, List.length_append, Operand.bytes, Operand.bytes, Operand.update]
      cases o.wide with
      | true => simp
      | false =>
        by_cases h : 127 < value <;> simp [h]
    | succ which =>
      have hih := @ih which
      simp only [operandBytes] at hih
      rw [List.modify_succ_cons, operandBytes, List.flatMap_cons, operandBytes, List.flatMap_cons,
        List.length_append, List.length_append]
      omega

/-- The notes up to the one that is set stay where they are, and the others too if it does not grow. -/
theorem notePosition_setOperand {i : ℕ}
    (h : i ≤ j ∨ (cellBytes (setOperand cells j which value)).length ≤ (cellBytes cells).length) :
    notePosition (setOperand cells j which value) i = notePosition cells i := by
  induction cells generalizing i j with
  | nil => rfl
  | cons c cells ih =>
    cases c with
    | xdelta delta =>
      have hih := ih (i := i) (j := j) (h.imp_right fun hle => by
        rw [setOperand, cellBytes_cons, cellBytes_cons, List.length_append, List.length_append] at hle
        omega)
      rw [setOperand, notePosition, notePosition, hih]
    | note type delta os =>
      cases i with
      | zero => cases j <;> rfl
      | succ i =>
        cases j with
        | zero =>
          have hle := h.resolve_left (by omega)
          have hge := length_operandBytes_modify os which value
          rw [setOperand, cellBytes_cons, cellBytes_cons, List.length_append, List.length_append,
            Cell.bytes, Cell.bytes, List.length_cons, List.length_cons] at hle
          rw [setOperand, notePosition, notePosition, Cell.bytes, Cell.bytes, List.length_cons,
            List.length_cons]
          omega
        | succ j =>
          have hih := ih (i := i) (j := j) (h.imp (fun hle => by omega) fun hle => by
            rw [setOperand, cellBytes_cons, cellBytes_cons, List.length_append,
              List.length_append] at hle
            omega)
          rw [setOperand, notePosition, notePosition, hih]

/-- `SetSrcNoteOffset` at the position of a note sets its operand. -/
theorem setSrcNoteOffset_cellBytes (hcells : ∀ c ∈ cells, c.Fits) {offset : ℕ} {note : SrcNote}
    (hnote : (cellNotes offset cells)[j]? = some note) (hwhich : which < note.type.arity)
    (hvalue : value ≤ snMaxOffset) (pre : List ℕ) :
    setSrcNoteOffset (pre ++ cellBytes cells) (pre.length + notePosition cells j) which value =
      some (pre ++ cellBytes (setOperand cells j which value)) := by
  induction cells generalizing j pre offset with
  | nil => simp [cellNotes] at hnote
  | cons c cells ih =>
    have htail : ∀ c ∈ cells, c.Fits := fun c hc => hcells c (List.mem_cons_of_mem _ hc)
    have hc := hcells c List.mem_cons_self
    cases c with
    | xdelta delta =>
      have hih := ih htail hnote (pre ++ (Cell.xdelta delta).bytes)
      rw [List.length_append, List.append_assoc, List.append_assoc] at hih
      rw [setOperand, notePosition, cellBytes_cons, cellBytes_cons, ← hih, Nat.add_assoc,
        Nat.add_comm _ 1]
      rfl
    | note type delta os =>
      cases j with
      | zero =>
        rw [cellNotes, List.getElem?_cons_zero, Option.some.injEq] at hnote
        subst hnote
        obtain ⟨-, -, -, harity, hos⟩ := hc
        have hlt : which < os.length := by
          rw [harity]
          exact hwhich
        have hsplit : os = os.take which ++ os[which] :: os.drop (which + 1) := by simp
        have hmodify : os.modify which (·.update value) =
            os.take which ++ os[which].update value :: os.drop (which + 1) := by
          rw [List.modify_eq_take_cons_drop hlt]
        have hbefore : ∀ o ∈ os.take which, o.Fits := fun o ho => hos o (List.mem_of_mem_take ho)
        have hset : setSrcNoteOffset (pre ++ (type.toNat * 8 + delta) :: operandBytes
            (os.take which ++ os[which] :: os.drop (which + 1)) ++ cellBytes cells) pre.length
              (os.take which).length value = _ :=
          setSrcNoteOffset_operandBytes hbefore (hos os[which] (List.getElem_mem hlt)) hvalue pre
            (cellBytes cells) (type.toNat * 8 + delta)
        rw [← hsplit, List.length_take, Nat.min_eq_left (by omega), ← hmodify] at hset
        rw [setOperand, notePosition, cellBytes_cons, cellBytes_cons, Nat.add_zero,
          ← List.append_assoc, ← List.append_assoc]
        exact hset
      | succ j =>
        have hih := ih htail hnote (pre ++ (Cell.note type delta os).bytes)
        rw [List.length_append, List.append_assoc, List.append_assoc] at hih
        rw [setOperand, notePosition, cellBytes_cons, cellBytes_cons, ← hih, Nat.add_assoc,
          Nat.add_comm (notePosition cells j)]

end SetOperand

end SpiderMonkey.Frontend
