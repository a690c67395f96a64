import SpiderMonkey.Lib.Codec

/-!
# Architectures

What encodings depend on of an architecture: whether a value is boxed in two words, how long a
pointer is, and how many registers there are.
-/

namespace SpiderMonkey.Jit

/-- The architectures that Ion generates code for. -/
inductive Arch where
  | x86 | x64 | arm
  deriving DecidableEq, Repr

namespace Arch

/-- Whether a value is boxed in a type word and a payload word. -/
def nunbox32 : Arch → Bool
  | x64 => false
  | _ => true

/-- Bytes of a pointer. -/
def sizeofIntptr : Arch → ℕ
  | x64 => 8
  | _ => 4

/-- The number of general registers. -/
def registersTotal : Arch → ℕ
  | x86 => 8
  | _ => 16

/-- The number of floating-point registers. -/
def floatRegistersTotal : Arch → ℕ
  | x86 => 8
  | _ => 16

/-- Bytes of a packed register mask. -/
def sizeofPackedRegisterMask : Arch → ℕ
  | x86 => 1
  | _ => 2

/-- There are few general registers. -/
theorem registersTotal_le (arch : Arch) : arch.registersTotal ≤ 16 := by cases arch <;> decide

/-- There are few floating-point registers. -/
theorem floatRegistersTotal_le (arch : Arch) : arch.floatRegistersTotal ≤ 16 := by
  cases arch <;> decide

/-- A pointer has bytes. -/
theorem sizeofIntptr_pos (arch : Arch) : 0 < arch.sizeofIntptr := by cases arch <;> decide

end Arch

/-- A general register. -/
abbrev Register (arch : Arch) := Fin arch.registersTotal

/-- A floating-point register. -/
abbrev FloatRegister (arch : Arch) := Fin arch.floatRegistersTotal

/-- A register's code. -/
def codeOf {total : ℕ} (reg : Fin total) : UInt32 := UInt32.ofNat reg.val

/-- A register's code is its number. -/
theorem toNat_codeOf {total : ℕ} (htotal : total ≤ 16) (reg : Fin total) :
    (codeOf reg).toNat = reg.val := by
  rw [codeOf, UInt32.toNat_ofNat']
  have hlt := reg.isLt
  omega

/-- The register with a code. -/
def fromCode {S : Type} (total : ℕ) (code : UInt32) : Reader S (Fin total) :=
  Reader.ofOption (if h : code.toNat < total then some ⟨code.toNat, h⟩ else none)

/-- A register is found by its code. -/
theorem reads_fromCode {S : Type} {total : ℕ} (htotal : total ≤ 16) (reg : Fin total) :
    Reader.Reads (fromCode total (codeOf reg) : Reader S (Fin total)) [] reg := by
  apply Reader.reads_ofOption
  have hcode := toNat_codeOf htotal reg
  rw [dif_pos (hcode ▸ reg.isLt)]
  simp only [hcode]

end SpiderMonkey.Jit
