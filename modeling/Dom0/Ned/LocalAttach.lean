import Dom0.Lib.Spans
import Dom0.Ned.RemoteMem

/-! # Files that a loader looks into

`local_attach_ds` and `local_detach_ds` of `dom0-ned/server/src/app_model.cc`, which are the same in `loader.cc` of
`dom0-l4re_kernel`. The loader attaches a part of a file to its own address space, in whole pages, and detaches it by
the address that it got. -/

namespace Dom0

section
variable {w : Word} {δ : Type}

/-- The arguments of `local_attach_ds`. -/
structure Window (w : Word) (δ : Type) where
  ds : δ
  size : ULong w
  offset : ULong w

namespace Window

/-- `pg_offset`. -/
def pgOffset (x : Window w δ) : ULong w := l4TruncPage x.offset

/-- `in_pg_offset`. -/
def inPgOffset (x : Window w δ) : ULong w := x.offset - x.pgOffset

/-- `pg_size`. -/
def pgSize (x : Window w δ) : ULong w := l4RoundPage (x.size + x.inPgOffset)

/-- The region that is attached at `vaddr`. -/
def span (x : Window w δ) (vaddr : ULong w) : Span δ := ⟨vaddr.toNat, x.pgSize.toNat, x.ds, x.pgOffset.toNat⟩

/-- With `Search_addr` a region begins with a page and overlaps with no other region. -/
def Fits (regions : List (Span δ)) (x : Window w δ) (vaddr : ULong w) : Prop :=
  vaddr.toNat % 4096 = 0 ∧ vaddr.toNat + x.pgSize.toNat ≤ 2 ^ (8 * w.bytes) ∧ ∀ r ∈ regions, (x.span vaddr).Apart r

end Window

/-- `local_attach_ds`, where `attach` stores this address or fails. -/
def localAttachDs (regions : List (Span δ)) (x : Window w δ) (vaddr : Except CInt (ULong w)) :
    Except CInt (ULong w × List (Span δ)) :=
  vaddr.map fun vaddr => (vaddr + x.inPgOffset, x.span vaddr :: regions)

/-- `local_detach_ds`. `detach` takes the region of an address away, and fails with this error where there is none. -/
def localDetachDs (regions : List (Span δ)) (addr : ULong w) (error : CInt) : Except CInt (List (Span δ)) :=
  if (Span.find regions (l4TruncPage addr).toNat).isSome then .ok (Span.remove regions (l4TruncPage addr).toNat)
  else .error error

/-- What a loader does. -/
inductive LoaderAction (w : Word) (δ : Type)
  | attach (x : Window w δ) (vaddr : Except CInt (ULong w))
  | detach (addr : ULong w) (error : CInt)

/-- The regions of a loader; the windows that it got, with their addresses, and did not detach; and the errors that it
    got instead. -/
structure LoaderWindows (w : Word) (δ : Type) where
  regions : List (Span δ)
  windows : List (ULong w × Window w δ)
  thrown : List CInt

namespace LoaderWindows

def start (regions : List (Span δ)) : LoaderWindows w δ := ⟨regions, [], []⟩

/-- One step. -/
def step (s : LoaderWindows w δ) : LoaderAction w δ → Option (LoaderWindows w δ)
  | .attach x vaddr =>
    match localAttachDs s.regions x vaddr with
    | .error e => some { s with thrown := s.thrown ++ [e] }
    | .ok (addr, regions) => some { s with regions, windows := (addr, x) :: s.windows }
  | .detach addr error =>
    match localDetachDs s.regions addr error with
    | .error e => some { s with thrown := s.thrown ++ [e] }
    | .ok regions => some { s with regions, windows := s.windows.eraseP fun p => p.1 = addr }

/-- A window that is not empty and ends before the last page of the address space is attached where it fits, or not at
    all; or one that is there is detached. -/
def Allowed (s : LoaderWindows w δ) : LoaderAction w δ → Prop
  | .attach x vaddr => 0 < x.size.toNat ∧ x.offset.toNat + x.size.toNat + 4096 ≤ 2 ^ (8 * w.bytes) ∧
      ∀ at_, vaddr = .ok at_ → x.Fits s.regions at_
  | .detach addr _ => ∃ x, (addr, x) ∈ s.windows

end LoaderWindows

end

end Dom0
