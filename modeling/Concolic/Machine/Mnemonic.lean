import Concolic.Machine.Instruction

/-
# Mnemonics

The names of the instructions.  Those that need nothing from the host stand for one instruction;
the others for a family of them.
-/
namespace Concolic.Mnemonic

/-- A value by its name. -/
abbrev Names (α : Type) := List (String × α)

/-- The instructions that need nothing from the host. -/
def plain : Names Instruction :=
  [("ACONST_NULL", .pushNull),
   ("IADD", .intOp .add), ("ISUB", .intOp .sub), ("IMUL", .intOp .mul), ("IAND", .intOp .and),
   ("IOR", .intOp .or), ("IXOR", .intOp .xor), ("ISHL", .intShift .shl), ("ISHR", .intShift .shr),
   ("IUSHR", .intShift .ushr),
   ("LADD", .longOp .add), ("LSUB", .longOp .sub), ("LMUL", .longOp .mul), ("LAND", .longOp .and),
   ("LOR", .longOp .or), ("LXOR", .longOp .xor), ("LSHL", .longShift .shl),
   ("LSHR", .longShift .shr), ("LUSHR", .longShift .ushr),
   ("FADD", .floatOp .add), ("FSUB", .floatOp .sub), ("FMUL", .floatOp .mul),
   ("FDIV", .floatOp .div), ("FREM", .floatOp .rem),
   ("DADD", .doubleOp .add), ("DSUB", .doubleOp .sub), ("DMUL", .doubleOp .mul),
   ("DDIV", .doubleOp .div), ("DREM", .doubleOp .rem),
   ("INEG", .intNegate), ("LNEG", .longNegate), ("FNEG", .floatNegate), ("DNEG", .doubleNegate),
   ("LCMP", .longCompare), ("FCMPL", .floatCompare), ("FCMPG", .floatCompare),
   ("DCMPL", .doubleCompare), ("DCMPG", .doubleCompare),
   ("I2L", .convert .intToLong), ("I2F", .convert .intToFloat), ("I2D", .convert .intToDouble),
   ("L2I", .convert .longToInt), ("L2F", .convert .longToFloat), ("L2D", .convert .longToDouble),
   ("F2I", .convert .floatToInt), ("F2L", .convert .floatToLong),
   ("F2D", .convert .floatToDouble), ("D2I", .convert .doubleToInt),
   ("D2L", .convert .doubleToLong), ("D2F", .convert .doubleToFloat),
   ("I2B", .convert .intToSmall), ("I2C", .convert .intToSmall), ("I2S", .convert .intToSmall),
   ("POP", .shuffle .pop), ("POP2", .shuffle .pop2), ("DUP", .shuffle .dup),
   ("DUP_X1", .shuffle .dupX1), ("DUP_X2", .shuffle .dupX2), ("DUP2", .shuffle .dup2),
   ("DUP2_X1", .shuffle .dup2X1), ("DUP2_X2", .shuffle .dup2X2), ("SWAP", .shuffle .swap),
   ("IRETURN", .leaveWith .bv32), ("LRETURN", .leaveWith .bv64), ("FRETURN", .leaveWith .fp32),
   ("DRETURN", .leaveWith .fp64), ("ARETURN", .leaveWith .ref), ("RETURN", .leave)]

/-- The instructions that name a local. -/
def onLocal : Names (Int → Instruction) :=
  [("ILOAD", .load .bv32), ("LLOAD", .load .bv64), ("FLOAD", .load .fp32), ("DLOAD", .load .fp64),
   ("ALOAD", .load .ref), ("ISTORE", .store .bv32), ("LSTORE", .store .bv64),
   ("FSTORE", .store .fp32), ("DSTORE", .store .fp64), ("ASTORE", .store .ref)]

/-- The conditional branches, which have a number. -/
def branch : Names (Int → Instruction) :=
  [("IFEQ", .branchZero .eq), ("IFNE", .branchZero .ne), ("IFLT", .branchZero .lt),
   ("IFGE", .branchZero .ge), ("IFGT", .branchZero .gt), ("IFLE", .branchZero .le),
   ("IF_ICMPEQ", .branchCompare .eq), ("IF_ICMPNE", .branchCompare .ne),
   ("IF_ICMPLT", .branchCompare .lt), ("IF_ICMPGE", .branchCompare .ge),
   ("IF_ICMPGT", .branchCompare .gt), ("IF_ICMPLE", .branchCompare .le),
   ("IF_ACMPEQ", fun _ => .branchSame), ("IF_ACMPNE", fun _ => .branchSame),
   ("IFNULL", fun _ => .branchNull), ("IFNONNULL", fun _ => .branchNull)]

/-- The divisions of ints, for which the host gives the divisor. -/
def intDivision : Names (Int32 → Instruction) :=
  [("IDIV", .intDivide .div), ("IREM", .intDivide .rem)]

/-- The divisions of longs, for which the host gives the divisor. -/
def longDivision : Names (Int64 → Instruction) :=
  [("LDIV", .longDivide .div), ("LREM", .longDivide .rem)]

/-- The widths at which elements are loaded. -/
def arrayLoad : Names Width :=
  [("IALOAD", .bv32), ("LALOAD", .bv64), ("FALOAD", .fp32), ("DALOAD", .fp64), ("AALOAD", .ref),
   ("BALOAD", .bv32), ("CALOAD", .bv32), ("SALOAD", .bv32)]

/-- The widths at which elements are stored. -/
def arrayStore : Names Width :=
  [("IASTORE", .bv32), ("LASTORE", .bv64), ("FASTORE", .fp32), ("DASTORE", .fp64),
   ("AASTORE", .ref), ("BASTORE", .bv32), ("CASTORE", .bv32), ("SASTORE", .bv32)]

end Concolic.Mnemonic
