import Dom0.Ipc
import Dom0.Lib.Words

/-! # How a program is handed its arguments

`L4Re_stack` and `L4Re_app_model` of `dom0-l4re_kernel/server/src/loader.cc` write the initial stack of a program from
the one that l4re_kernel was started with itself, which `main` of `main.cc` takes apart; `run` of
`dom0-ned/server/src/main.cc` takes its own apart in the same way. -/

namespace Dom0

section
variable {w : Word}

/-- `*p`. -/
abbrev wordAt (m : Mem) (p : ULong w) : ULong w := m.word w.bytes p.toNat

/-- `p + i`. -/
def wordPtr (p : ULong w) (i : Nat) : ULong w := p + BitVec.ofNat _ (w.bytes * i)

/-! ## The start of a program -/

/-- The variables of `Global` that `main` sets. -/
structure Global (w : Word) where
  argc : CInt
  argv : ULong w
  envp : ULong w
  l4reAux : ULong w
deriving DecidableEq

/-- `0xf0`. -/
def auxL4re : ULong w := 0xf0

/-- `while (*auxp)`, for at most so many entries. -/
def findAux (m : Mem) : Nat → ULong w → ULong w → ULong w
  | 0, _, aux => aux
  | rounds + 1, auxp, aux =>
    if wordAt m auxp = 0 then aux
    else findAux m rounds (wordPtr auxp 2) (if wordAt m auxp = auxL4re then wordAt m (wordPtr auxp 1) else aux)

/-- `main` up to the search for `l4re_aux`, where no more than `rounds` words are looked at in a loop. -/
def Global.main (m : Mem) (rounds : Nat) (argc : CInt) (argv aux : ULong w) : Global w :=
  let envp := wordPtr (argv + BitVec.ofNat _ w.bytes * argc.signExtend _) 1
  let auxp := wordPtr envp ((m.wordsTo0 w.bytes rounds envp.toNat).length + 1)
  ⟨argc, argv, envp, findAux m rounds auxp aux⟩

/-- The call of `main`, with what lies on the stack. -/
def Global.start (m : Mem) (rounds : Nat) (sp aux : ULong w) : Global w :=
  .main m rounds ((wordAt m sp).setWidth 32) (wordPtr sp 1) aux

/-! ## The stack -/

/-- An `L4Re_stack` that is attached, and the memory that it lies in. -/
structure L4ReStack (w : Word) where
  addr : ULong w
  size : ULong w
  sp : ULong w
  mem : Mem

namespace L4ReStack

/-- `set_target_stack` and `set_local_addr`. -/
def attached (mem : Mem) (addr size : ULong w) : L4ReStack w := ⟨addr, size, addr + size, mem⟩

def pushObject (s : L4ReStack w) (src : List UInt8) : L4ReStack w :=
  let sp := s.sp - BitVec.ofNat _ src.length
  { s with sp, mem := s.mem.write sp.toNat src }

def push (s : L4ReStack w) (v : ULong w) : L4ReStack w := s.pushObject (Bytes.le w.bytes v.toNat)

/-- `for (bits = 0; (1UL << bits) <= size; ++bits)`. -/
def alignBits (size : ULong w) : Nat → Nat → Nat
  | 0, bits => bits
  | rounds + 1, bits => if (1 : ULong w) <<< bits ≤ size then alignBits size rounds (bits + 1) else bits

def align (s : L4ReStack w) (size : ULong w) : L4ReStack w :=
  { s with sp := s.sp &&& (BitVec.allOnes _ <<< alignBits size (8 * w.bytes) 0) }

/-- `for (char const *const *e = Global::envp; *e; ++e)`. -/
def pushFrom (s : L4ReStack w) : Nat → ULong w → L4ReStack w
  | 0, _ => s
  | rounds + 1, e => if wordAt s.mem e = 0 then s else pushFrom (s.push (wordAt s.mem e)) rounds (wordPtr e 1)

def pushEnvp (s : L4ReStack w) (rounds : Nat) (g : Global w) : L4ReStack w := (s.push 0).pushFrom rounds g.envp

/-- `for (int i = Global::argc - 1; i >= 0; --i)`. -/
def pushArgs (s : L4ReStack w) (argv : ULong w) : Nat → L4ReStack w
  | 0 => s
  | i + 1 => pushArgs (s.push (wordAt s.mem (wordPtr argv i))) argv i

def pushArgv (s : L4ReStack w) (g : Global w) : L4ReStack w :=
  ((s.push 0).pushArgs g.argv g.argc.toInt.toNat).push (g.argc.signExtend _)

/-- What is done with a stack. -/
inductive Action (w : Word)
  | pushObject (src : List UInt8)
  | align (size : ULong w)

/-- A stack, and what was pushed, with the pointers that were returned. -/
structure Used (w : Word) where
  stack : L4ReStack w
  objects : List (ULong w × List UInt8)

/-- One step. From half of the address space on, the loop of `align` shifts too far, and the code says nothing more. -/
def Used.step (s : Used w) : Action w → Option (Used w)
  | .pushObject src =>
    let stack := s.stack.pushObject src
    some ⟨stack, s.objects ++ [(stack.sp, src)]⟩
  | .align size => if size.toNat < 2 ^ (8 * w.bytes - 1) then some { s with stack := s.stack.align size } else none

end L4ReStack

end

end Dom0
