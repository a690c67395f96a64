import SpiderMonkey.Frontend.BytecodeEmitter

/-!
# The bytes of source notes

A vector of notes as cells: extended deltas, and notes with operands of one or three bytes. What the
functions on bytes do to the bytes of cells.
-/

namespace SpiderMonkey.Frontend

open SrcNoteType Segments

/-! ## Bytes of notes -/

/-- Types are numbered below 25. -/
theorem SrcNoteType.toNat_le (type : SrcNoteType) : type.toNat ≤ 24 := by
  cases type <;> decide

/-- The types of notes other than extended deltas are numbered below 24. -/
theorem SrcNoteType.toNat_lt {type : SrcNoteType} (h : type ≠ srcXdelta) : type.toNat < 24 := by
  cases type <;> first | decide | exact absurd rfl h

/-- The number of the null type is the least. -/
theorem SrcNoteType.toNat_pos {type : SrcNoteType} (h : type ≠ srcNull) : 0 < type.toNat := by
  cases type <;> first | decide | exact absurd rfl h

/-- The table of types is in the order of their numbers. -/
theorem SrcNoteType.getD_all_toNat (type : SrcNoteType) : all.getD type.toNat srcXdelta = type := by
  cases type <;> rfl

/-- The byte of a note. -/
theorem snMakeNote_eq (type : SrcNoteType) {delta : ℕ} (h : delta < 8) :
    snMakeNote type delta = type.toNat * 8 + delta := by
  have hle := type.toNat_le
  have hand : delta &&& snDeltaMask = delta := by
    rw [show delta &&& snDeltaMask = delta % 8 from Nat.and_two_pow_sub_one_eq_mod delta 3,
      Nat.mod_eq_of_lt h]
  have hor : (2 ^ 3 * type.toNat ||| delta) = 2 ^ 3 * type.toNat + delta :=
    (Nat.two_pow_add_eq_or_of_lt (show delta < 2 ^ 3 from h) _).symm
  rw [snMakeNote, hand, Nat.shiftLeft_eq, Nat.mul_comm, hor]
  omega

/-- The byte of an extended delta. -/
theorem snMakeXdelta_eq {delta : ℕ} (h : delta < 64) : snMakeXdelta delta = 192 + delta := by
  have hand : delta &&& snXdeltaMask = delta := by
    rw [show delta &&& snXdeltaMask = delta % 64 from Nat.and_two_pow_sub_one_eq_mod delta 6,
      Nat.mod_eq_of_lt h]
  have hor : (2 ^ 6 * 3 ||| delta) = 2 ^ 6 * 3 + delta :=
    (Nat.two_pow_add_eq_or_of_lt (show delta < 2 ^ 6 from h) _).symm
  have hshift : srcXdelta.toNat <<< 3 = 2 ^ 6 * 3 := by decide
  rw [snMakeXdelta, hand, hshift, hor]
  omega

/-- The bytes of extended deltas are the greatest. -/
theorem snIsXdelta_iff (sn : ℕ) : snIsXdelta sn = true ↔ 192 ≤ sn := by
  rw [snIsXdelta, decide_eq_true_eq, Nat.shiftRight_eq_div_pow,
    show srcXdelta.toNat = 24 from rfl]
  omega

section

variable {type : SrcNoteType} {delta : ℕ}

/-- An extended delta is one. -/
theorem snIsXdelta_xdelta (delta : ℕ) : snIsXdelta (192 + delta) = true :=
  (snIsXdelta_iff _).mpr (by omega)

/-- A note is no extended delta. -/
theorem snIsXdelta_note (htype : type ≠ srcXdelta) (h : delta < 8) :
    snIsXdelta (type.toNat * 8 + delta) = false := by
  have hlt := toNat_lt htype
  rw [← Bool.not_eq_true, snIsXdelta_iff]
  omega

/-- The type of an extended delta. -/
theorem snType_xdelta (delta : ℕ) : snType (192 + delta) = srcXdelta := by
  rw [snType, snIsXdelta_xdelta, if_pos rfl]

/-- The type of a note. -/
theorem snType_note (htype : type ≠ srcXdelta) (h : delta < 8) :
    snType (type.toNat * 8 + delta) = type := by
  have hshift : (type.toNat * 8 + delta) >>> 3 = type.toNat := by
    rw [Nat.shiftRight_eq_div_pow]
    omega
  rw [snType, snIsXdelta_note htype h, hshift, getD_all_toNat]
  rfl

/-- The delta of an extended delta. -/
theorem snDelta_xdelta (h : delta < 64) : snDelta (192 + delta) = delta := by
  rw [snDelta, snIsXdelta_xdelta, if_pos rfl,
    show (192 + delta) &&& snXdeltaMask = (192 + delta) % 64 from
      Nat.and_two_pow_sub_one_eq_mod _ 6]
  omega

/-- The delta of a note. -/
theorem snDelta_note (htype : type ≠ srcXdelta) (h : delta < 8) :
    snDelta (type.toNat * 8 + delta) = delta := by
  rw [snDelta, snIsXdelta_note htype h, if_neg Bool.false_ne_true,
    show (type.toNat * 8 + delta) &&& snDeltaMask = (type.toNat * 8 + delta) % 8 from
      Nat.and_two_pow_sub_one_eq_mod _ 3]
  omega

end

/-! ## Bytes of operands -/

/-- An operand, and whether it takes three bytes. -/
structure Operand where
  value : ℕ
  wide : Bool

/-- The bytes of an operand. -/
def Operand.bytes (o : Operand) : List ℕ :=
  if o.wide then [128 + o.value / 65536, o.value / 256 % 256, o.value % 256] else [o.value]

/-- An operand fits its bytes. -/
def Operand.Fits (o : Operand) : Prop := o.value ≤ snMaxOffset ∧ (o.wide = false → o.value ≤ 127)

/-- The operand that a new value makes of an operand. It stays wide. -/
def Operand.update (o : Operand) (value : ℕ) : Operand := ⟨value, o.wide || decide (127 < value)⟩

/-- The greatest operand. -/
theorem snMaxOffset_eq : snMaxOffset = 8388607 := by decide

/-- The flag of wide operands is the highest bit of a byte. -/
theorem and_flag_eq_zero : ∀ b < 256, b &&& sn3byteOffsetFlag = 0 ↔ b < 128 := by decide +kernel

/-- A new value fits the operand it makes. -/
theorem Operand.fits_update (o : Operand) {value : ℕ} (h : value ≤ snMaxOffset) :
    (o.update value).Fits := by
  refine ⟨h, fun hwide => ?_⟩
  simp only [update, Bool.or_eq_false_iff, decide_eq_false_iff_not] at hwide ⊢
  omega

/-- The first byte of an operand carries the flag if the operand is wide. -/
theorem Operand.Fits.exists_bytes {o : Operand} (h : o.Fits) :
    ∃ b rest, o.bytes = b :: rest ∧ (b &&& sn3byteOffsetFlag = 0 ↔ o.wide = false) ∧
      o.bytes.length = if o.wide then 3 else 1 := by
  have hle := h.1
  rw [snMaxOffset_eq] at hle
  rw [bytes]
  cases hwide : o.wide with
  | true =>
    refine ⟨_, _, rfl, ?_, rfl⟩
    rw [and_flag_eq_zero _ (by omega)]
    simp
  | false =>
    have hsmall := h.2 hwide
    refine ⟨_, _, rfl, ?_, rfl⟩
    rw [and_flag_eq_zero _ (by omega)]
    simp
    omega

/-- The bytes of operands. -/
def operandBytes (os : List Operand) : List ℕ := os.flatMap Operand.bytes

/-- Skipping operands. -/
theorem skipOffsets_operandBytes {os : List Operand} (hos : ∀ o ∈ os, o.Fits) (pre post : List ℕ) :
    skipOffsets (pre ++ operandBytes os ++ post) os.length pre.length =
      some (pre.length + (operandBytes os).length) := by
  induction os generalizing pre with
  | nil => rfl
  | cons o os ih =>
    obtain ⟨b, rest, hb, hflag, hlength⟩ := (hos o List.mem_cons_self).exists_bytes
    have htail : ∀ o ∈ os, o.Fits := fun o ho => hos o (List.mem_cons_of_mem _ ho)
    have hcons : operandBytes (o :: os) = o.bytes ++ operandBytes os := List.flatMap_cons
    have hget : (pre ++ operandBytes (o :: os) ++ post)[pre.length]? = some b := by
      rw [hcons, hb]
      simp
    have hnext : (if b &&& sn3byteOffsetFlag ≠ 0 then pre.length + 3 else pre.length + 1) =
        (pre ++ o.bytes).length := by
      rw [List.length_append, hlength]
      cases hwide : o.wide with
      | true => exact if_pos (by simp [hflag, hwide])
      | false => exact if_neg (by simp [hflag, hwide])
    have hih := ih htail (pre ++ o.bytes)
    rw [List.length_cons, skipOffsets, hget]
    simp only [Option.bind_eq_bind, Option.bind_some]
    rw [hnext, hcons, ← List.append_assoc, hih, List.length_append, List.length_append]
    simp only [Option.some.injEq]
    omega

/-- Reading an operand. -/
theorem getSrcNoteOffset_operandBytes {os os' : List Operand} {o : Operand} (hos : ∀ o ∈ os, o.Fits)
    (ho : o.Fits) (pre post : List ℕ) (b : ℕ) :
    getSrcNoteOffset (pre ++ b :: operandBytes (os ++ o :: os') ++ post) pre.length os.length =
      some o.value := by
  have hnotes : pre ++ b :: operandBytes (os ++ o :: os') ++ post =
      (pre ++ [b]) ++ operandBytes os ++ (o.bytes ++ (operandBytes os' ++ post)) := by
    simp [operandBytes]
  have hskip := skipOffsets_operandBytes hos (pre ++ [b]) (o.bytes ++ (operandBytes os' ++ post))
  have hget : ∀ i, ((pre ++ [b]) ++ operandBytes os ++ (o.bytes ++ (operandBytes os' ++ post)))[
      (pre ++ [b]).length + (operandBytes os).length + i]? =
        (o.bytes ++ (operandBytes os' ++ post))[i]? := by
    intro i
    rw [← List.length_append, List.getElem?_append_right (by omega), Nat.add_sub_cancel_left]
  have hget0 := hget 0
  have hle := ho.1
  rw [snMaxOffset_eq] at hle
  rw [List.length_append, List.length_singleton] at hskip
  rw [getSrcNoteOffset, hnotes, hskip]
  simp only [Option.bind_eq_bind, Option.bind_some]
  rw [List.length_append, List.length_singleton] at hget hget0
  rw [Nat.add_zero] at hget0
  rw [hget0, hget 1, hget 2]
  cases hwide : o.wide with
  | true =>
    have hbytes : o.bytes = [128 + o.value / 65536, o.value / 256 % 256, o.value % 256] := by
      rw [Operand.bytes, hwide, if_pos rfl]
    have hflag : (128 + o.value / 65536) &&& sn3byteOffsetFlag ≠ 0 := by
      rw [ne_eq, and_flag_eq_zero _ (by omega)]
      omega
    have hmask : (128 + o.value / 65536) &&& sn3byteOffsetMask = o.value / 65536 := by
      rw [show (128 + o.value / 65536) &&& sn3byteOffsetMask = (128 + o.value / 65536) % 128 from
        Nat.and_two_pow_sub_one_eq_mod _ 7]
      omega
    have hor₁ : (2 ^ 16 * (o.value / 65536) ||| 2 ^ 8 * (o.value / 256 % 256)) =
        2 ^ 16 * (o.value / 65536) + 2 ^ 8 * (o.value / 256 % 256) :=
      (Nat.two_pow_add_eq_or_of_lt (by omega) _).symm
    have hor₂ : (2 ^ 8 * (2 ^ 8 * (o.value / 65536) + o.value / 256 % 256) ||| o.value % 256) =
        2 ^ 8 * (2 ^ 8 * (o.value / 65536) + o.value / 256 % 256) + o.value % 256 :=
      (Nat.two_pow_add_eq_or_of_lt (by omega) _).symm
    have hsum : 2 ^ 16 * (o.value / 65536) + 2 ^ 8 * (o.value / 256 % 256) =
        2 ^ 8 * (2 ^ 8 * (o.value / 65536) + o.value / 256 % 256) := by omega
    simp only [hbytes, List.cons_append, List.nil_append, List.getElem?_cons_zero,
      List.getElem?_cons_succ, Option.bind_some, if_pos hflag, hmask, Nat.shiftLeft_eq,
      Option.pure_def]
    rw [Nat.mul_comm _ (2 ^ 16), Nat.mul_comm _ (2 ^ 8), hor₁, hsum, hor₂]
    simp only [Option.some.injEq]
    omega
  | false =>
    have hsmall := ho.2 hwide
    have hbytes : o.bytes = [o.value] := by
      rw [Operand.bytes, hwide]
      rfl
    have hflag : o.value &&& sn3byteOffsetFlag = 0 := (and_flag_eq_zero _ (by omega)).mpr (by omega)
    simp [hbytes, hflag]

/-- The bytes written for a wide operand. -/
theorem wide_bytes {value : ℕ} (h : value ≤ snMaxOffset) :
    [(sn3byteOffsetFlag ||| (value >>> 16)) % 256, (value >>> 8) % 256, value % 256] =
      Operand.bytes ⟨value, true⟩ := by
  rw [snMaxOffset_eq] at h
  have h16 : value >>> 16 = value / 65536 := Nat.shiftRight_eq_div_pow _ 16
  have h8 : value >>> 8 = value / 256 := Nat.shiftRight_eq_div_pow _ 8
  have hor : (sn3byteOffsetFlag ||| value / 65536) = 2 ^ 7 * 1 + value / 65536 :=
    (Nat.two_pow_add_eq_or_of_lt (show value / 65536 < 2 ^ 7 by omega) 1).symm
  rw [h16, h8, hor, Nat.mod_eq_of_lt (by omega)]
  rfl

/-- Setting an operand sets the operand. It grows if the value needs it. -/
theorem setSrcNoteOffset_operandBytes {os os' : List Operand} {o : Operand} {offset : ℕ}
    (hos : ∀ o ∈ os, o.Fits) (ho : o.Fits) (hoffset : offset ≤ snMaxOffset) (pre post : List ℕ)
    (b : ℕ) :
    setSrcNoteOffset (pre ++ b :: operandBytes (os ++ o :: os') ++ post) pre.length os.length offset =
      some (pre ++ b :: operandBytes (os ++ o.update offset :: os') ++ post) := by
  have hsplit : ∀ o : Operand, pre ++ b :: operandBytes (os ++ o :: os') ++ post =
      (pre ++ [b] ++ operandBytes os) ++ (o.bytes ++ (operandBytes os' ++ post)) := by
    intro o
    simp [operandBytes]
  have hskip := skipOffsets_operandBytes hos (pre ++ [b]) (o.bytes ++ (operandBytes os' ++ post))
  obtain ⟨first, rest, hfirst, hflag, hlength⟩ := ho.exists_bytes
  rw [List.length_append, List.length_singleton, ← List.length_singleton, ← List.length_append,
    ← List.length_append] at hskip
  generalize hbefore : pre ++ [b] ++ operandBytes os = before at hsplit hskip
  have hget : (before ++ (o.bytes ++ (operandBytes os' ++ post)))[before.length]? = some first := by
    rw [hfirst]
    simp
  rw [List.length_append, List.length_singleton] at hskip
  rw [hsplit, hsplit, setSrcNoteOffset, if_neg (by omega), hskip]
  simp only [Option.bind_eq_bind, Option.bind_some, hget]
  by_cases hwide : o.wide = true
  · have hset : ¬ first &&& sn3byteOffsetFlag = 0 := by simp [hflag, hwide]
    have hupdate : o.update offset = ⟨offset, true⟩ := by simp [Operand.update, hwide]
    rw [if_pos (Or.inr hset), if_neg hset, wide_bytes hoffset, hupdate]
    exact overwrite_middle _ _ (by rw [hlength, if_pos hwide]; rfl)
  · rw [Bool.not_eq_true] at hwide
    have hset : first &&& sn3byteOffsetFlag = 0 := hflag.mpr hwide
    have hbytes : o.bytes = [o.value] := by
      rw [Operand.bytes, hwide]
      rfl
    by_cases hbig : 127 < offset
    · have hupdate : o.update offset = ⟨offset, true⟩ := by simp [Operand.update, hbig]
      have hinsert : ((before ++ (o.bytes ++ (operandBytes os' ++ post))).insertIdx before.length
          0).insertIdx before.length 0 =
            before ++ ([0, 0, o.value] ++ (operandBytes os' ++ post)) := by
        rw [hbytes, insertIdx_length_append, insertIdx_length_append]
        rfl
      rw [if_pos (Or.inl hbig), if_pos hset, hinsert, wide_bytes hoffset, hupdate]
      exact overwrite_middle _ _ rfl
    · have hupdate : o.update offset = ⟨offset, false⟩ := by simp [Operand.update, hbig, hwide]
      have hsmall : ¬ (offset > sn3byteOffsetMask ∨ first &&& sn3byteOffsetFlag ≠ 0) := by
        rintro (h | h)
        · exact hbig h
        · exact h hset
      rw [if_neg hsmall, hupdate, Nat.mod_eq_of_lt (by omega)]
      exact overwrite_middle _ _ (by rw [hbytes]; rfl)

/-- Setting an operand adds two bytes at most, and none for a small value. -/
theorem length_setSrcNoteOffset {notes notes' : List ℕ} {index which offset : ℕ}
    (h : setSrcNoteOffset notes index which offset = some notes') :
    notes.length ≤ notes'.length ∧
      notes'.length ≤ notes.length + if offset > sn3byteOffsetMask then 2 else 0 := by
  rw [setSrcNoteOffset] at h
  split_ifs at h
  simp only [Option.bind_eq_bind, Option.bind_eq_some_iff] at h
  obtain ⟨sn, -, b, hb, h⟩ := h
  have hlt := (List.getElem?_eq_some_iff.mp hb).1
  by_cases hwide : offset > sn3byteOffsetMask ∨ b &&& sn3byteOffsetFlag ≠ 0
  · rw [if_pos hwide] at h
    have hlength := length_overwrite h
    by_cases hflag : b &&& sn3byteOffsetFlag = 0
    · have hbig := hwide.resolve_right (fun hne => hne hflag)
      have hone : (notes.insertIdx sn 0).length = notes.length + 1 := by
        rw [List.length_insertIdx, if_pos (by omega)]
      rw [if_pos hflag, List.length_insertIdx, hone, if_pos (by omega)] at hlength
      rw [if_pos hbig]
      omega
    · rw [if_neg hflag] at hlength
      omega
  · rw [if_neg hwide] at h
    have hlength := length_overwrite h
    omega

end SpiderMonkey.Frontend
