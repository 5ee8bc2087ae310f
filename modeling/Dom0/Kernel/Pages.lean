import Dom0.Ipc

/-! # The pages of l4re_kernel

`page_alloc.cc` and `mem.cc` of `dom0-l4re_kernel`. The slabs of the region map take and free single pages; `malloc` of
the C library takes them with `mmap` and cannot give them back. Which page is free is kept by an `Item_alloc` of L4Re.
-/

namespace Dom0

def l4Pagesize : Nat := 4096
def heapMax : Nat := l4Pagesize * 64
def heapBase : Nat := 0xb0100000

/-- The number of pages. -/
def heapPages : Nat := (heapMax + l4Pagesize - 1) / l4Pagesize

def mapAnon : CInt := 0x20
def enomem : CInt := 12

/-- `L4Re::Util::Item_alloc`: `alloc` gives an item or a negative number. -/
structure ItemAlloc (σ : Type) where
  alloc : σ → σ × Int
  free : σ → Nat → σ

section
variable {w : Word} {σ : Type}

/-- `Single_page_alloc_base::_alloc`. -/
def pageAlloc (A : ItemAlloc σ) (s : σ) : σ × ULong w :=
  let r := A.alloc s
  (r.1, if r.2 < 0 then 0 else BitVec.ofNat _ heapBase + BitVec.ofInt _ (r.2 * l4Pagesize))

/-- `Single_page_alloc_base::_free`. -/
def pageFree (A : ItemAlloc σ) (s : σ) (p : ULong w) : σ :=
  A.free s ((p - BitVec.ofNat _ heapBase) / BitVec.ofNat _ l4Pagesize).toNat

/-- `mmap`, with the page or what it sets `errno` to. -/
def mmap (A : ItemAlloc σ) (s : σ) (length : SizeT w) (flags : CInt) (offset : SSizeT w) : σ × Except CInt (ULong w) :=
  if offset.toInt < 0 then (s, .error (-einval))
  else if flags &&& mapAnon = 0 then (s, .error (-einval))
  else if (length + BitVec.ofNat _ (l4Pagesize - 1)) &&& ~~~BitVec.ofNat _ (l4Pagesize - 1) ≠
      BitVec.ofNat _ l4Pagesize then
    (s, .error enomem)
  else
    let r : σ × ULong w := pageAlloc A s
    (r.1, if r.2 = 0 then .error enomem else .ok r.2)

/-- What a user of pages does. -/
inductive PageAction (w : Word)
  | alloc
  | free (p : ULong w)
  | mmap (length : SizeT w) (flags : CInt) (offset : SSizeT w)

/-- The allocator, and the pages that it gave out and that were not freed. -/
structure Pages (σ : Type) (w : Word) where
  heap : σ
  held : List (ULong w)

/-- One step. -/
def Pages.step (A : ItemAlloc σ) (s : Pages σ w) : PageAction w → Option (Pages σ w)
  | .alloc =>
    let r : σ × ULong w := pageAlloc A s.heap
    some ⟨r.1, if r.2 = 0 then s.held else r.2 :: s.held⟩
  | .free p => some ⟨pageFree A s.heap p, s.held.erase p⟩
  | .mmap length flags offset =>
    let r := Dom0.mmap A s.heap length flags offset
    some ⟨r.1, r.2.toOption.elim s.held (· :: s.held)⟩

end

end Dom0
