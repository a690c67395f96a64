import SpiderMonkey.Frontend.SourceNoteRuns

/-!
# Source notes are read as they were taken

After any run of calls the finished notes fit the space that was counted for them, and the readers get
the notes of the two logs, those of the main section behind the prolog.
-/

namespace SpiderMonkey.Frontend

open SrcNoteType Segments

/-- An emitter with the logs of its sections. -/
structure Session where
  prolog : TakenSection
  main : TakenSection
  current : SectionKind
  firstLine : ℕ
  deriving DecidableEq

/-- The calls to an emitter. -/
inductive Call where
  | note (c : NoteCall)
  | setLine (line : ℕ)
  | switchTo (kind : SectionKind)

namespace Session

/-- The emitter. -/
def bce (s : Session) : BytecodeEmitter := ⟨s.prolog.emitted, s.main.emitted, s.current, s.firstLine⟩

/-- A session before any calls. -/
def start (lineNum : ℕ) : Session :=
  ⟨⟨.start lineNum, []⟩, ⟨.start lineNum, []⟩, .main, lineNum⟩

/-- The section that is emitted to. -/
def currentSection (s : Session) : TakenSection :=
  match s.current with
  | .prolog => s.prolog
  | .main => s.main

/-- Change the section that is emitted to. -/
def setCurrent (s : Session) (t : TakenSection) : Session :=
  match s.current with
  | .prolog => { s with prolog := t }
  | .main => { s with main := t }

/-- What a call does. -/
def call (s : Session) : Call → Option Session
  | .note c => (s.currentSection.call c).map s.setCurrent
  | .setLine line =>
      let t := s.currentSection
      some (s.setCurrent { t with emitted := { t.emitted with currentLine := line } })
  | .switchTo kind => some { s with current := kind }

/-- The calls that may be made. In the prolog a change of the line is annotated. -/
def Allows (s : Session) : Call → Prop
  | .note c => s.currentSection.Allows c
  | .setLine _ => s.current = .main ∨ s.prolog.emitted.notes ≠ []
  | .switchTo _ => True

/-- The sessions that runs of calls lead to. -/
inductive Reachable (lineNum : ℕ) : Session → Prop where
  | start : Reachable lineNum (start lineNum)
  | call {s s' : Session} {c : Call} (h : Reachable lineNum s) (hallows : s.Allows c)
      (hcall : s.call c = some s') : Reachable lineNum s'

/-- The sections are sound, and a prolog without notes is on the first line. -/
structure Sound (s : Session) : Prop where
  prolog : ∃ cells, s.prolog.Sound cells
  main : ∃ cells, s.main.Sound cells
  line : s.prolog.emitted.notes = [] → s.prolog.emitted.currentLine = s.firstLine

/-- The notes as they were taken, those of the main section behind the prolog. -/
def notes (s : Session) : List SrcNote :=
  s.prolog.log.map Taken.note ++
    (if s.prolog.emitted.currentLine ≠ s.firstLine then
      [⟨srcSetline, s.prolog.emitted.codeLength, [s.firstLine]⟩] else []) ++
    s.main.log.map fun taken => taken.note.shift s.prolog.emitted.codeLength

/-- Taking a note keeps the line and takes no notes away. -/
theorem newSrcNote_frame (e : EmitSection) (type : SrcNoteType) :
    (newSrcNote e type).2.currentLine = e.currentLine ∧
      e.notes.length < (newSrcNote e type).2.notes.length := by
  obtain ⟨deltas, rest, hloop, -, -, -, -⟩ :=
    xdeltaLoop_eq e.notes (e.codeLength - e.lastNoteOffset)
  rw [newSrcNote, newSrcNoteByte, hloop]
  dsimp only
  rw [newOperandNotes_eq _ rfl]
  refine ⟨rfl, ?_⟩
  simp only [List.length_append, List.length_singleton]
  omega

/-- Setting an operand keeps the line and takes no notes away. -/
theorem setSrcNoteOffset_frame {e e' : EmitSection} {index which offset : ℕ}
    (h : e.setSrcNoteOffset index which offset = some e') :
    e'.currentLine = e.currentLine ∧ e.notes.length ≤ e'.notes.length := by
  rw [EmitSection.setSrcNoteOffset, Option.map_eq_some_iff] at h
  obtain ⟨notes, hnotes, rfl⟩ := h
  exact ⟨rfl, (length_setSrcNoteOffset hnotes).1⟩

/-- Calls in a section keep its line and take no notes away. -/
theorem noteCall_frame {t t' : TakenSection} {c : NoteCall} (h : t.call c = some t') :
    t'.emitted.currentLine = t.emitted.currentLine ∧
      t.emitted.notes.length ≤ t'.emitted.notes.length := by
  cases c with
  | emitCode length =>
    cases h
    exact ⟨rfl, Nat.le_refl _⟩
  | newSrcNote type =>
    cases h
    have hnew := newSrcNote_frame t.emitted type
    exact ⟨hnew.1, Nat.le_of_lt hnew.2⟩
  | newSrcNote2 type offset =>
    have hnew := newSrcNote_frame t.emitted type
    rw [TakenSection.call, Option.map_eq_some_iff] at h
    obtain ⟨r, hr, rfl⟩ := h
    simp only [newSrcNote2, Option.bind_eq_bind, Option.bind_eq_some_iff, Option.pure_def,
      Option.some.injEq] at hr
    obtain ⟨e, he, rfl⟩ := hr
    have hset := setSrcNoteOffset_frame he
    exact ⟨hset.1.trans hnew.1, by simp only [TakenSection.take]; omega⟩
  | newSrcNote3 type offset1 offset2 =>
    have hnew := newSrcNote_frame t.emitted type
    rw [TakenSection.call, Option.map_eq_some_iff] at h
    obtain ⟨r, hr, rfl⟩ := h
    simp only [newSrcNote3, Option.bind_eq_bind, Option.bind_eq_some_iff, Option.pure_def,
      Option.some.injEq] at hr
    obtain ⟨e, he, e', he', rfl⟩ := hr
    have hset := setSrcNoteOffset_frame he
    have hset' := setSrcNoteOffset_frame he'
    exact ⟨hset'.1.trans (hset.1.trans hnew.1), by simp only [TakenSection.take]; omega⟩
  | setSrcNoteOffset j which offset =>
    simp only [TakenSection.call, Option.bind_eq_bind, Option.bind_eq_some_iff, Option.pure_def,
      Option.some.injEq] at h
    obtain ⟨taken, -, e, he, rfl⟩ := h
    exact setSrcNoteOffset_frame he

/-- No notes are taken at the start. -/
theorem sound_start (lineNum : ℕ) : (start lineNum).Sound := by
  have hsection : TakenSection.Sound ⟨.start lineNum, []⟩ [] :=
    ⟨List.forall_mem_nil _, rfl, rfl, rfl, Nat.le_refl _, nofun⟩
  exact ⟨⟨[], hsection⟩, ⟨[], hsection⟩, fun _ => rfl⟩

/-- A call that may be made succeeds and is sound. -/
theorem Sound.call {s : Session} (h : s.Sound) {c : Call} (hallows : s.Allows c) :
    ∃ s', s.call c = some s' ∧ s'.Sound ∧ s'.firstLine = s.firstLine := by
  obtain ⟨cellsP, hprolog⟩ := h.prolog
  obtain ⟨cellsM, hmain⟩ := h.main
  obtain ⟨prolog, main, current, firstLine⟩ := s
  cases c with
  | note c =>
    cases current with
    | prolog =>
      obtain ⟨t', cells', hcall, hsound⟩ := hprolog.call hallows
      refine ⟨⟨t', main, .prolog, firstLine⟩, ?_, ⟨⟨cells', hsound⟩, h.main, fun hnil => ?_⟩, rfl⟩
      · simp only [Session.call, currentSection, hcall, Option.map_some, setCurrent]
      · obtain ⟨hline, hle⟩ := noteCall_frame hcall
        have hnone : prolog.emitted.notes = [] := by
          rw [← List.length_eq_zero_iff]
          exact Nat.le_zero.mp (Nat.le_trans hle (Nat.le_of_eq (List.length_eq_zero_iff.mpr hnil)))
        exact hline.trans (h.line hnone)
    | main =>
      obtain ⟨t', cells', hcall, hsound⟩ := hmain.call hallows
      refine ⟨⟨prolog, t', .main, firstLine⟩, ?_, ⟨h.prolog, ⟨cells', hsound⟩, h.line⟩, rfl⟩
      simp only [Session.call, currentSection, hcall, Option.map_some, setCurrent]
  | setLine line =>
    have hset : ∀ {t : TakenSection} {cells : List Cell}, t.Sound cells →
        TakenSection.Sound ⟨{ t.emitted with currentLine := line }, t.log⟩ cells := fun ht =>
      ⟨ht.fits, ht.notes_eq, ht.cellNotes_eq, ht.deltaSum_eq, ht.lastNoteOffset_le, ht.index_eq⟩
    refine ⟨_, rfl, ?_, ?_⟩
    · cases current with
      | prolog =>
        refine ⟨⟨cellsP, hset hprolog⟩, h.main, fun hnil => ?_⟩
        exact absurd hnil (hallows.resolve_left (fun hne => by cases hne))
      | main => exact ⟨h.prolog, ⟨cellsM, hset hmain⟩, h.line⟩
    · cases current <;> rfl
  | switchTo kind => exact ⟨_, rfl, ⟨h.prolog, h.main, h.line⟩, rfl⟩

/-- Every reachable session is sound. -/
theorem Reachable.sound {lineNum : ℕ} {s : Session} (h : Reachable lineNum s) : s.Sound := by
  induction h with
  | start => exact sound_start lineNum
  | call h hallows hcall ih =>
    obtain ⟨s', hcall', hsound, -⟩ := ih.call hallows
    rw [hcall, Option.some.injEq] at hcall'
    exact hcall' ▸ hsound

end Session

/-! ## Finishing -/

/-- The room in the first cell for a greater delta. -/
def Cell.room : Cell → ℕ
  | .xdelta delta => 63 - delta
  | .note _ delta _ => 7 - delta

/-- A cell with a greater delta. -/
def Cell.add (n : ℕ) : Cell → Cell
  | .xdelta delta => .xdelta (delta + n)
  | .note type delta operands => .note type (delta + n) operands

/-- A cell starts with a byte that has its room and its delta. -/
theorem Cell.Fits.exists_byte {c : Cell} (h : c.Fits) :
    ∃ b rest, c.bytes = b :: rest ∧ firstNoteRoom b = c.room ∧ snDelta b = c.delta ∧
      c.delta + c.room + 1 = (if snIsXdelta b then snXdeltaLimit else snDeltaLimit) ∧
      ∀ n ≤ c.room, (c.add n).Fits ∧ (c.add n).bytes = snSetDelta b (c.delta + n) :: rest := by
  cases c with
  | xdelta delta =>
    have hdelta : delta < 64 := h
    have hxdelta := snIsXdelta_xdelta delta
    have hmask : (192 + delta) &&& snXdeltaMask = delta := by
      rw [show (192 + delta) &&& snXdeltaMask = (192 + delta) % 64 from
        Nat.and_two_pow_sub_one_eq_mod _ 6]
      omega
    refine ⟨192 + delta, [], rfl, ?_, snDelta_xdelta hdelta, ?_, fun n hn => ⟨?_, ?_⟩⟩
    · rw [firstNoteRoom, if_pos hxdelta, hmask]
      rfl
    · rw [if_pos hxdelta]
      simp only [Cell.delta, Cell.room, snXdeltaLimit]
      omega
    · simp only [Cell.room] at hn
      simp only [Cell.add, Cell.Fits]
      omega
    · simp only [Cell.room] at hn
      rw [snSetDelta, if_pos hxdelta, snMakeXdelta_eq (by simp only [Cell.delta]; omega)]
      rfl
  | note type delta os =>
    obtain ⟨htype, hnull, hdelta, harity, hos⟩ := h
    have hxdelta := snIsXdelta_note htype hdelta
    have hmask : (type.toNat * 8 + delta) &&& snDeltaMask = delta := by
      rw [show (type.toNat * 8 + delta) &&& snDeltaMask = (type.toNat * 8 + delta) % 8 from
        Nat.and_two_pow_sub_one_eq_mod _ 3]
      omega
    refine ⟨type.toNat * 8 + delta, operandBytes os, rfl, ?_, snDelta_note htype hdelta, ?_,
      fun n hn => ⟨?_, ?_⟩⟩
    · rw [firstNoteRoom, hxdelta, if_neg Bool.false_ne_true, hmask]
      rfl
    · rw [hxdelta, if_neg Bool.false_ne_true]
      simp only [Cell.delta, Cell.room, snDeltaLimit]
      omega
    · simp only [Cell.room] at hn
      exact ⟨htype, hnull, by omega, harity, hos⟩
    · simp only [Cell.room] at hn
      rw [snSetDelta, hxdelta, if_neg Bool.false_ne_true, snType_note htype hdelta,
        snMakeNote_eq type (by simp only [Cell.delta]; omega)]
      rfl

section AddToFirstNote

variable {c : Cell} {cells : List Cell} {delta offset : ℕ}

/-- A delta that the first cell has room for is added to it. -/
theorem addToSrcNoteDelta_of_le (hc : c.Fits) (h : delta ≤ c.room) :
    addToSrcNoteDelta (cellBytes (c :: cells)) 0 delta = some (cellBytes (c.add delta :: cells)) := by
  obtain ⟨b, rest, hbytes, -, hdelta, hlimit, hadd⟩ := hc.exists_byte
  rw [addToSrcNoteDelta, cellBytes_cons, cellBytes_cons, (hadd delta h).2, hbytes]
  simp only [List.cons_append, List.getElem?_cons_zero, Option.bind_eq_bind, Option.bind_some,
    hdelta, ← hlimit]
  rw [if_pos (by omega)]
  rfl

/-- Another delta is put in front as an extended delta. -/
theorem addToSrcNoteDelta_of_lt (hc : c.Fits) (h : c.room < delta) (hlt : delta < 64) :
    addToSrcNoteDelta (cellBytes (c :: cells)) 0 delta =
      some (cellBytes (.xdelta delta :: c :: cells)) := by
  obtain ⟨b, rest, hbytes, -, hdelta, hlimit, -⟩ := hc.exists_byte
  rw [addToSrcNoteDelta, cellBytes_cons _ (c :: cells), cellBytes_cons, hbytes]
  simp only [List.cons_append, List.getElem?_cons_zero, Option.bind_eq_bind, Option.bind_some,
    hdelta, ← hlimit]
  rw [if_neg (by omega), snMakeXdelta_eq hlt]
  rfl

/-- When the first cell has no room, the offset is put in front of it as extended deltas. -/
theorem addToFirstNote_of_full (hc : c.Fits) (hroom : c.room = 0) (hpos : 0 < offset) :
    ∃ deltas : List ℕ, addToFirstNote (cellBytes (c :: cells)) offset (min offset snXdeltaMask) =
        some (cellBytes (deltas.map .xdelta ++ c :: cells)) ∧
      (∀ d ∈ deltas, d < 64) ∧ deltas.sum = offset ∧ deltas.length = (offset + 62) / 63 := by
  induction hn : offset using Nat.strongRecOn generalizing offset c cells with
  | ind n ih =>
    subst hn
    have hmask : min offset snXdeltaMask = min offset 63 := rfl
    have hadd : addToSrcNoteDelta (cellBytes (c :: cells)) 0 (min offset 63) = _ :=
      addToSrcNoteDelta_of_lt hc (by omega) (by omega)
    rw [hmask, addToFirstNote, hadd]
    dsimp only
    by_cases hlast : offset - min offset 63 = 0
    · refine ⟨[offset], ?_, ?_, by simp, ?_⟩
      · rw [if_pos hlast, show min offset 63 = offset by omega]
        rfl
      · simp only [List.mem_singleton]
        rintro d rfl
        omega
      · rw [List.length_singleton]
        omega
    · have hfull : min offset 63 = 63 := by omega
      have hfits : (Cell.xdelta (min offset 63)).Fits := by
        simp only [Cell.Fits]
        omega
      have hnone : (Cell.xdelta (min offset 63)).room = 0 := by
        simp only [Cell.room]
        omega
      obtain ⟨deltas, heq, hall, hsum, hlength⟩ :=
        @ih (offset - min offset 63) (by omega) _ (c :: cells) _ hfits hnone (by omega) rfl
      refine ⟨deltas ++ [63], ?_, ?_, ?_, ?_⟩
      · rw [if_neg hlast, heq, hfull, List.map_append, List.append_assoc]
        rfl
      · simp only [List.mem_append, List.mem_singleton]
        rintro d (hd | rfl)
        · exact hall d hd
        · decide
      · rw [List.sum_append, hsum, List.sum_singleton]
        omega
      · rw [List.length_append, hlength, List.length_singleton]
        omega

/-- The rest of the prolog is added to the first note, and put in front of it. -/
theorem addToFirstNote_eq (hc : c.Fits) :
    ∃ deltas : List ℕ, ∃ n ≤ c.room, addToFirstNote (cellBytes (c :: cells)) offset (min offset c.room) =
        some (cellBytes (deltas.map .xdelta ++ c.add n :: cells)) ∧
      (∀ d ∈ deltas, d < 64) ∧ deltas.sum + n = offset ∧
      deltas.length = (offset - c.room + 62) / 63 := by
  obtain ⟨b, rest, -, -, -, -, hfits⟩ := hc.exists_byte
  have hadd : addToSrcNoteDelta (cellBytes (c :: cells)) 0 (min offset c.room) = _ :=
    addToSrcNoteDelta_of_le hc (Nat.min_le_right offset c.room)
  by_cases hle : offset ≤ c.room
  · refine ⟨[], offset, hle, ?_, List.forall_mem_nil _, by simp, ?_⟩
    · rw [addToFirstNote, hadd]
      dsimp only
      rw [if_pos (by omega), Nat.min_eq_left hle]
      rfl
    · rw [List.length_nil]
      omega
  · have hmin : min offset c.room = c.room := by omega
    have hroom : (c.add c.room).room = 0 := by
      cases c <;> simp only [Cell.add, Cell.room] <;> omega
    obtain ⟨deltas, heq, hall, hsum, hlength⟩ := @addToFirstNote_of_full _ cells _
      (hfits c.room (Nat.le_refl _)).1 hroom (show 0 < offset - c.room by omega)
    refine ⟨deltas, c.room, Nat.le_refl _, ?_, hall, by omega, hlength⟩
    rw [addToFirstNote, hadd]
    dsimp only
    rw [hmin, if_neg (by omega), heq]

end AddToFirstNote

namespace Session

variable {s : Session}

/-- The notes in front of the terminator are read from the cells of both sections. -/
theorem walk_sections {cellsP cellsM : List Cell} (hP : ∀ c ∈ cellsP, c.Fits) (hM : ∀ c ∈ cellsM, c.Fits) :
    walk (cellBytes cellsP ++ cellBytes cellsM ++ [snTerminator]) 0 0 =
      some (cellNotes 0 cellsP ++ cellNotes (deltaSum cellsP) cellsM) := by
  have hfits : ∀ c ∈ cellsP ++ cellsM, c.Fits := by
    intro c hc
    rcases List.mem_append.mp hc with hc | hc
    · exact hP c hc
    · exact hM c hc
  have hwalk := walk_cellBytes hfits [] 0
  rw [List.nil_append, cellBytes_append, cellNotes_append, Nat.zero_add] at hwalk
  exact hwalk

/-- The count with a note for the line. -/
theorem countFinalSourceNotes_setline
    (hlast : s.prolog.emitted.lastNoteOffset ≤ s.prolog.emitted.codeLength)
    (hcond : s.bce.prolog.notes.length ≠ 0 ∧ s.bce.prolog.currentLine ≠ s.bce.firstLine) :
    countFinalSourceNotes s.bce = s.prolog.emitted.notes.length + s.main.emitted.notes.length + 3 +
      ((s.prolog.emitted.codeLength - s.prolog.emitted.lastNoteOffset - 7 + 62) / 63 : ℕ) +
      (if s.firstLine > sn3byteOffsetMask then 2 else 0) := by
  rw [countFinalSourceNotes, if_pos hcond]
  simp only [bce, howmany, snDeltaMask, snXdeltaMask]
  split_ifs <;> omega

/-- Finishing with a note for the line. It fails if the line is too large for an operand. -/
theorem Sound.finish_setline (h : s.Sound) (hline : s.prolog.emitted.currentLine ≠ s.firstLine) :
    (finishTakingSrcNotes s.bce = none ↔ snMaxOffset < s.firstLine) ∧
      ∀ notes, finishTakingSrcNotes s.bce = some notes →
        notes.length ≤ countFinalSourceNotes s.bce ∧ walk notes 0 0 = some s.notes := by
  obtain ⟨cellsP, hprolog⟩ := h.prolog
  obtain ⟨cellsM, hmain⟩ := h.main
  have hcond : s.bce.prolog.notes.length ≠ 0 ∧ s.bce.prolog.currentLine ≠ s.bce.firstLine :=
    ⟨fun hzero => hline (h.line (List.length_eq_zero_iff.mp hzero)), hline⟩
  by_cases hlarge : snMaxOffset < s.firstLine
  · have hnone : finishTakingSrcNotes s.bce = none := by
      have hset : ∀ notes index, setSrcNoteOffset notes index 0 s.firstLine = none :=
        fun notes index => if_pos hlarge
      rw [finishTakingSrcNotes, if_pos hcond]
      simp [newSrcNote2, EmitSection.setSrcNoteOffset, bce, hset]
    rw [hnone]
    exact ⟨iff_of_true rfl hlarge, by rintro notes ⟨⟩⟩
  · obtain ⟨deltas, delta, hnew, -, -, -, hlength⟩ := newSrcNote_eq srcSetline hprolog.notes_eq
    have hallows : s.prolog.Allows (.newSrcNote2 srcSetline s.firstLine) :=
      ⟨by decide, Nat.le_of_not_lt hlarge⟩
    obtain ⟨t', cells', hcall, hsound⟩ := hprolog.call hallows
    rw [TakenSection.call, Option.map_eq_some_iff] at hcall
    obtain ⟨r, hr, rfl⟩ := hcall
    have hfinish : finishTakingSrcNotes s.bce =
        some (r.2.notes ++ s.main.emitted.notes ++ [snTerminator]) := by
      rw [finishTakingSrcNotes, if_pos hcond]
      simp only [bce, hr, Option.bind_eq_bind, Option.bind_some, Option.pure_def]
    simp only [newSrcNote2, hnew, Option.bind_eq_bind, Option.bind_eq_some_iff, Option.pure_def,
      Option.some.injEq] at hr
    obtain ⟨e, he, rfl⟩ := hr
    rw [EmitSection.setSrcNoteOffset, Option.map_eq_some_iff] at he
    obtain ⟨prologNotes, hset, rfl⟩ := he
    have hbytes : prologNotes = cellBytes cells' := hsound.notes_eq
    have hsum : deltaSum cells' = s.prolog.emitted.codeLength := hsound.deltaSum_eq
    replace hfinish : finishTakingSrcNotes s.bce =
        some (prologNotes ++ s.main.emitted.notes ++ [snTerminator]) := hfinish
    rw [hfinish]
    refine ⟨iff_of_false (by rintro ⟨⟩) hlarge, ?_⟩
    rintro _ ⟨⟩
    constructor
    · have hle := (length_setSrcNoteOffset hset).2
      have hnewCell : (cellBytes [newCell srcSetline delta]).length = 2 := rfl
      rw [cellBytes_append, List.length_append, cellBytes_append, List.length_append,
        length_cellBytes_xdeltas, hlength, hnewCell, ← hprolog.notes_eq] at hle
      rw [countFinalSourceNotes_setline hprolog.lastNoteOffset_le hcond, List.length_append,
        List.length_append, List.length_singleton]
      split_ifs at hle ⊢ <;> omega
    · rw [hbytes, hmain.notes_eq, walk_sections hsound.fits hmain.fits, hsound.cellNotes_eq, hsum,
        ← Nat.add_zero s.prolog.emitted.codeLength, cellNotes_add, hmain.cellNotes_eq, notes,
        if_pos hline, TakenSection.take_log (by decide), List.map_append, List.map_map]
      rfl

/-- The count when the rest of the prolog goes to the first note. -/
theorem countFinalSourceNotes_first {sn : ℕ} {rest : List ℕ}
    (hlast : s.prolog.emitted.lastNoteOffset < s.prolog.emitted.codeLength)
    (hcond : ¬ (s.bce.prolog.notes.length ≠ 0 ∧ s.bce.prolog.currentLine ≠ s.bce.firstLine))
    (hmain : s.main.emitted.notes = sn :: rest) :
    countFinalSourceNotes s.bce = s.prolog.emitted.notes.length + s.main.emitted.notes.length + 1 +
      ((s.prolog.emitted.codeLength - s.prolog.emitted.lastNoteOffset - firstNoteRoom sn + 62) / 63 :
        ℕ) := by
  rw [countFinalSourceNotes, if_neg hcond]
  simp only [bce, howmany, snXdeltaMask, hmain]
  split_ifs <;> omega

/-- The count is never less than the notes that were taken and the terminator. -/
theorem le_countFinalSourceNotes
    (hcond : ¬ (s.bce.prolog.notes.length ≠ 0 ∧ s.bce.prolog.currentLine ≠ s.bce.firstLine)) :
    (s.prolog.emitted.notes.length + s.main.emitted.notes.length + 1 : ℤ) ≤
      countFinalSourceNotes s.bce := by
  have hhowmany : ∀ x : ℤ, 0 < x → 0 ≤ howmany x snXdeltaMask := by
    intro x hx
    simp only [howmany, snXdeltaMask]
    omega
  rw [countFinalSourceNotes, if_neg hcond]
  dsimp only
  split_ifs with hdiff hrest
  · exact Int.le_add_of_nonneg_right (hhowmany _ hrest)
  · exact Int.le_refl _
  · exact Int.le_refl _

/-- Finishing when the rest of the prolog is added to the first note. -/
theorem finishTakingSrcNotes_first {bce : BytecodeEmitter} {sn : ℕ} {rest mainNotes : List ℕ}
    (hcond : ¬ (bce.prolog.notes.length ≠ 0 ∧ bce.prolog.currentLine ≠ bce.firstLine))
    (hlast : bce.prolog.lastNoteOffset < bce.prolog.codeLength) (hmain : bce.main.notes = sn :: rest)
    (hadd : addToFirstNote bce.main.notes (bce.prolog.codeLength - bce.prolog.lastNoteOffset)
      (min (bce.prolog.codeLength - bce.prolog.lastNoteOffset) (firstNoteRoom sn)) = some mainNotes) :
    finishTakingSrcNotes bce = some (bce.prolog.notes ++ mainNotes ++ [snTerminator]) := by
  have hget : bce.main.notes[0]? = some sn := by rw [hmain, List.getElem?_cons_zero]
  have hlength : bce.main.notes.length ≠ 0 := by rw [hmain, List.length_cons]; omega
  rw [finishTakingSrcNotes, if_neg hcond]
  dsimp only
  rw [if_pos ⟨by omega, hlength⟩, hget]
  simp only [Option.bind_eq_bind, Option.bind_some, hadd, Option.pure_def]

/-- Finishing when the notes of both sections stay as they are. -/
theorem finishTakingSrcNotes_same {bce : BytecodeEmitter}
    (hcond : ¬ (bce.prolog.notes.length ≠ 0 ∧ bce.prolog.currentLine ≠ bce.firstLine))
    (hsame : ¬ (bce.prolog.codeLength - bce.prolog.lastNoteOffset > 0 ∧ bce.main.notes.length ≠ 0)) :
    finishTakingSrcNotes bce = some (bce.prolog.notes ++ bce.main.notes ++ [snTerminator]) := by
  rw [finishTakingSrcNotes, if_neg hcond]
  dsimp only
  rw [if_neg hsame]
  rfl

/-- Finishing without a note for the line does not fail. -/
theorem Sound.finish_firstNote (h : s.Sound) (hline : s.prolog.emitted.currentLine = s.firstLine) :
    ∃ notes, finishTakingSrcNotes s.bce = some notes ∧
      notes.length ≤ countFinalSourceNotes s.bce ∧ walk notes 0 0 = some s.notes := by
  obtain ⟨cellsP, hprolog⟩ := h.prolog
  obtain ⟨cellsM, hmain⟩ := h.main
  have hcond : ¬ (s.bce.prolog.notes.length ≠ 0 ∧ s.bce.prolog.currentLine ≠ s.bce.firstLine) :=
    fun hcond => hcond.2 hline
  have hnotes : s.notes = cellNotes 0 cellsP ++ cellNotes s.prolog.emitted.codeLength cellsM := by
    rw [notes, if_neg (fun hne => hne hline), hprolog.cellNotes_eq,
      ← Nat.add_zero s.prolog.emitted.codeLength, cellNotes_add, hmain.cellNotes_eq, List.map_map,
      List.append_nil]
    rfl
  have hle := hprolog.lastNoteOffset_le
  -- The cells of the main section with the rest of the prolog in front of them.
  suffices hmore : ∃ cells, (∀ c ∈ cells, c.Fits) ∧
      finishTakingSrcNotes s.bce =
        some (s.prolog.emitted.notes ++ cellBytes cells ++ [snTerminator]) ∧
      (s.prolog.emitted.notes.length + (cellBytes cells).length + 1 : ℤ) ≤
        countFinalSourceNotes s.bce ∧
      cellNotes (deltaSum cellsP) cells = cellNotes s.prolog.emitted.codeLength cellsM by
    obtain ⟨cells, hfits, hfinish, hcount, hcells⟩ := hmore
    refine ⟨_, hfinish, ?_, ?_⟩
    · rw [List.length_append, List.length_append, List.length_singleton]
      exact hcount
    · rw [hprolog.notes_eq, walk_sections hprolog.fits hfits, hcells, hnotes]
  rw [hprolog.deltaSum_eq]
  by_cases hadd : s.prolog.emitted.codeLength - s.prolog.emitted.lastNoteOffset > 0 ∧
      s.main.emitted.notes.length ≠ 0
  · cases cellsM with
    | nil => exact absurd (congrArg List.length hmain.notes_eq) hadd.2
    | cons c cells =>
      have hc := hmain.fits c List.mem_cons_self
      have htail : ∀ c ∈ cells, c.Fits := fun c hc => hmain.fits c (List.mem_cons_of_mem _ hc)
      obtain ⟨b, rest, hbytes, hroom, -, -, hfits⟩ := hc.exists_byte
      obtain ⟨deltas, n, hn, hfirst, hall, hsum, hlength⟩ := @addToFirstNote_eq c cells
        (s.prolog.emitted.codeLength - s.prolog.emitted.lastNoteOffset) hc
      have hhead : s.main.emitted.notes = b :: (rest ++ cellBytes cells) := by
        rw [hmain.notes_eq, cellBytes_cons, hbytes]
        rfl
      rw [← hmain.notes_eq, ← hroom] at hfirst
      refine ⟨deltas.map .xdelta ++ c.add n :: cells, ?_, ?_, ?_, ?_⟩
      · intro c' hc'
        rcases List.mem_append.mp hc' with hc' | hc'
        · obtain ⟨d, hd, rfl⟩ := List.mem_map.mp hc'
          exact hall d hd
        · rcases List.mem_cons.mp hc' with rfl | hc'
          · exact (hfits n hn).1
          · exact htail c' hc'
      · exact finishTakingSrcNotes_first hcond (Nat.lt_of_sub_pos hadd.1) hhead hfirst
      · have hsame : (cellBytes (c.add n :: cells)).length = s.main.emitted.notes.length := by
          rw [hhead, cellBytes_cons, (hfits n hn).2]
          rfl
        have hcount := countFinalSourceNotes_first (by omega) hcond hhead
        rw [hcount, cellBytes_append, List.length_append, hsame, length_cellBytes_xdeltas, hlength,
          hroom]
        omega
      · have hxsum : deltaSum (deltas.map .xdelta) = deltas.sum := by
          rw [deltaSum, List.map_map]
          exact congrArg List.sum (List.map_id deltas)
        have hmore : ∀ offset, cellNotes offset (c.add n :: cells) = cellNotes (offset + n) (c :: cells) := by
          intro offset
          cases c with
          | xdelta delta => rw [Cell.add, cellNotes, cellNotes, Nat.add_comm delta, Nat.add_assoc]
          | note type delta os =>
            rw [Cell.add, cellNotes, cellNotes, Nat.add_comm delta, Nat.add_assoc]
        rw [cellNotes_append, cellNotes_xdeltas, List.nil_append, hmore, hxsum]
        congr 1
        omega
  · refine ⟨cellsM, hmain.fits, ?_, ?_, ?_⟩
    · rw [← hmain.notes_eq]
      exact finishTakingSrcNotes_same hcond hadd
    · rw [← hmain.notes_eq]
      exact le_countFinalSourceNotes hcond
    · cases cellsM with
      | nil => rfl
      | cons c cells =>
        have hzero : s.main.emitted.notes.length ≠ 0 := by
          obtain ⟨b, rest, hbytes, -⟩ := (hmain.fits c List.mem_cons_self).exists_byte
          rw [hmain.notes_eq, cellBytes_cons, hbytes, List.cons_append, List.length_cons]
          omega
        congr 1
        omega

/-- After any run every call that may be made succeeds. Finishing fails only if a note for the line is
due and the line is too large; otherwise the notes fit the count, and the readers get the notes as
they were taken. -/
theorem finishTakingSrcNotes_reads {lineNum : ℕ} (h : Reachable lineNum s) :
    (∀ c, s.Allows c → (s.call c).isSome = true) ∧
      (finishTakingSrcNotes s.bce = none ↔
        s.prolog.emitted.currentLine ≠ s.firstLine ∧ snMaxOffset < s.firstLine) ∧
      ∀ notes, finishTakingSrcNotes s.bce = some notes →
        notes.length ≤ countFinalSourceNotes s.bce ∧ walk notes 0 0 = some s.notes := by
  have hsound := h.sound
  refine ⟨fun c hallows => ?_, ?_⟩
  · obtain ⟨s', hcall, -, -⟩ := hsound.call hallows
    rw [hcall]
    rfl
  · by_cases hline : s.prolog.emitted.currentLine = s.firstLine
    · obtain ⟨notes, hnotes, hcount, hwalk⟩ := hsound.finish_firstNote hline
      rw [hnotes]
      refine ⟨iff_of_false nofun (fun hne => hne.1 hline), ?_⟩
      rintro _ ⟨⟩
      exact ⟨hcount, hwalk⟩
    · obtain ⟨hnone, hall⟩ := hsound.finish_setline hline
      exact ⟨hnone.trans ⟨fun hlarge => ⟨hline, hlarge⟩, fun hboth => hboth.2⟩, hall⟩

/-- A session in which the main section has a note at offset 100, with a wide operand. -/
def sample : Session :=
  ⟨⟨.start 1, []⟩,
    ⟨⟨100, [255, 229, 152, 128, 0, 200], 100, 1⟩, [⟨⟨srcSetline, 100, [200]⟩, 2, true⟩]⟩, .main, 1⟩

/-- The notes of the session are read back. -/
theorem finishTakingSrcNotes_reads_sample :
    ([255, 229, 152, 128, 0, 200, 0] : List ℕ).length ≤ countFinalSourceNotes sample.bce ∧
      walk [255, 229, 152, 128, 0, 200, 0] 0 0 = some sample.notes := by
  have hcode : Reachable 1 ⟨⟨.start 1, []⟩, ⟨⟨100, [], 0, 1⟩, []⟩, .main, 1⟩ :=
    .call (c := .note (.emitCode 100)) .start trivial rfl
  have hnote : Reachable 1 sample :=
    .call (c := .note (.newSrcNote2 srcSetline 200)) hcode ⟨by decide, by decide⟩ (by decide +kernel)
  exact (finishTakingSrcNotes_reads hnote).2.2 _ (by decide +kernel)

end Session

end SpiderMonkey.Frontend
