import Chip8.Operand

namespace Chip8

structure Opcode where
  hi : UInt8
  lo : UInt8
deriving DecidableEq, Repr

namespace Opcode

def ofWord (w : UInt16) : Opcode := ⟨UInt8.ofNat (w.toNat / 256), UInt8.ofNat w.toNat⟩

def word (c : Opcode) : UInt16 := UInt16.ofNat (256 * c.hi.toNat + c.lo.toNat)

def bytes (c : Opcode) : List UInt8 := [c.hi, c.lo]

/-- The highest four bits, which select the group of the instruction. -/
def group (c : Opcode) : Nat := c.hi.toNat / 16

def x (c : Opcode) : Reg := .ofNat .reg c.hi.toNat

def y (c : Opcode) : Reg := .ofNat .reg (c.lo.toNat / 16)

def n (c : Opcode) : Nibble := .ofNat .nibble c.lo.toNat

def kk (c : Opcode) : Imm := .ofNat .imm c.lo.toNat

def nnn (c : Opcode) : Addr := .ofNat .addr (256 * c.hi.toNat + c.lo.toNat)

theorem toNat_word (c : Opcode) : c.word.toNat = 256 * c.hi.toNat + c.lo.toNat := by
  have hi := c.hi.toNat_lt
  have lo := c.lo.toNat_lt
  simp only [word, UInt16.toNat_ofNat']
  omega

theorem ofWord_word (c : Opcode) : ofWord c.word = c := by
  obtain ⟨hi, lo⟩ := c
  have hhi := hi.toNat_lt
  have hlo := lo.toNat_lt
  simp only [ofWord, toNat_word, mk.injEq, ← UInt8.toNat_inj, UInt8.toNat_ofNat']
  omega

theorem word_ofWord (w : UInt16) : (ofWord w).word = w := by
  have hw := w.toNat_lt
  simp only [← UInt16.toNat_inj, toNat_word, ofWord, UInt8.toNat_ofNat']
  omega

end Opcode

inductive Operation where
  | cls
  | ret
  /-- A call of a machine code routine, which interpreters ignore. -/
  | sys
  | jmp
  | call
  | se
  | sne
  | ld
  | add
  | or
  | and
  | xor
  | sub
  | shr
  | subn
  | shl
  | jp
  | rnd
  | drw
  | skp
  | sknp
  | scd
  | scr
  | scl
  | exit
  | low
  | high
  | ldExt
deriving DecidableEq, Repr

namespace Operation

def all : List Operation :=
  [cls, ret, sys, jmp, call, se, sne, ld, add, or, and, xor, sub, shr, subn, shl, jp, rnd, drw,
    skp, sknp, scd, scr, scl, exit, low, high, ldExt]

def name : Operation → String
  | cls => "CLS"
  | ret => "RET"
  | sys => "IGNORE SYS CALL"
  | jmp => "JMP"
  | call => "CALL"
  | se => "SE"
  | sne => "SNE"
  | ld => "LD"
  | add => "ADD"
  | or => "OR"
  | and => "AND"
  | xor => "XOR"
  | sub => "SUB"
  | shr => "SHR"
  | subn => "SUBN"
  | shl => "SHL"
  | jp => "JP"
  | rnd => "RND"
  | drw => "DRW"
  | skp => "SKP"
  | sknp => "SKNP"
  | scd => "SCD*"
  | scr => "SCR*"
  | scl => "SCL*"
  | exit => "EXIT*"
  | low => "LOW*"
  | high => "HIGH*"
  | ldExt => "LD*"

/-- Whether only SUPER-CHIP has the operation. -/
def isExtension : Operation → Bool
  | scd | scr | scl | exit | low | high | ldExt => true
  | _ => false

theorem mem_all (op : Operation) : op ∈ all := by
  cases op <;> decide

end Operation

inductive Mnemonic where
  | known (op : Operation)
  | unknown (code : Opcode)
deriving DecidableEq, Repr

namespace Mnemonic

def name? : Mnemonic → Option String
  | known op => some op.name
  | unknown _ => none

def isExtension : Mnemonic → Bool
  | known op => op.isExtension
  | unknown _ => false

def isUnknown : Mnemonic → Bool
  | known _ => false
  | unknown _ => true

def text : Mnemonic → String
  | known op => op.name
  | unknown code => "???0x" ++ Hex.upper 4 code.word.toNat ++ "???"

end Mnemonic

structure Instruction where
  mnemonic : Mnemonic
  operands : List Operand
  /-- The opcode that the instruction was read from. -/
  raw : Opcode
deriving DecidableEq, Repr

namespace Instruction

def word (i : Instruction) : UInt16 := i.raw.word

def isUnknown (i : Instruction) : Bool := i.mnemonic.isUnknown

/-- The mnemonic, a space and the operands; the space stands also where no operand follows. -/
def text (i : Instruction) : String :=
  i.mnemonic.text ++ " " ++ ", ".intercalate (i.operands.map Operand.text)

end Instruction

end Chip8
