import Dom0.Ipc

/-! # The stack of a task that Ned starts

`remote_mem.h` and `remote_mem.cc` of `dom0-ned`. Ned attaches the stack of the new task to its own address space to
fill it. The pages of the stack are allocated when they are first written to, which `check_access` is called for ahead
of each write. -/

namespace Dom0

section
variable {w : Word}

/-- `l4_trunc_page` and `l4_round_page`. -/
def l4TruncPage (x : ULong w) : ULong w := BitVec.ofNat _ (x.toNat / 4096 * 4096)
def l4RoundPage (x : ULong w) : ULong w := BitVec.ofNat _ ((x.toNat + 4095) / 4096 * 4096)

/-- `Stack_base`, and what was allocated of its `_stack_ds`: offsets and sizes. -/
structure StackBase (w : Word) where
  vma : ULong w
  lastChecked : ULong w
  stackDs : List (ULong w × ULong w)

namespace StackBase

/-- `set_stack`, with the address that `attach` gives. Nothing is checked before it. -/
def setStack (vma : ULong w) : StackBase w := ⟨vma, 0, []⟩

/-- `check_access`. `ret` is what `allocate` returns; it throws where that is negative. -/
def checkAccess (s : StackBase w) (addr : ULong w) (sz : SizeT w) (ret : CInt) : Except CInt (StackBase w) :=
  if s.lastChecked ≠ l4TruncPage addr then
    let offs := l4TruncPage (addr - s.vma)
    let end_ := l4RoundPage (addr + sz - s.vma)
    if ret.toInt < 0 then .error ret
    else .ok { s with stackDs := (offs, end_ - offs) :: s.stackDs, lastChecked := l4TruncPage addr }
  else .ok s

/-- The byte at this offset of the stack is allocated. -/
def Allocated (s : StackBase w) (off : Nat) : Prop := ∃ r ∈ s.stackDs, r.1.toNat ≤ off ∧ off < r.1.toNat + r.2.toNat

end StackBase

/-- A write to the stack: its address, its size and what `allocate` returns if it is called. -/
structure StackAccess (w : Word) where
  addr : ULong w
  sz : SizeT w
  ret : CInt

/-- A stack, what was written to it, and where the last write begins. -/
structure StackUse (w : Word) where
  base : StackBase w
  lowest : ULong w
  written : List (StackAccess w)

/-- A stack of this size, at the address that `attach` gives. -/
def StackUse.start (vma size : ULong w) : StackUse w := ⟨.setStack vma, vma + size, []⟩

/-- One write, after its check. -/
def StackUse.step (s : StackUse w) (a : StackAccess w) : Option (StackUse w) :=
  (s.base.checkAccess a.addr a.sz a.ret).toOption.map fun base => ⟨base, a.addr, a :: s.written⟩

/-- A write as a stack makes it: it lies in the stack, and ends where the write before it begins or below. -/
structure StackUse.Descends (s : StackUse w) (a : StackAccess w) : Prop where
  inside : s.base.vma.toNat ≤ a.addr.toNat
  below : a.addr.toNat + a.sz.toNat ≤ s.lowest.toNat

end

end Dom0
