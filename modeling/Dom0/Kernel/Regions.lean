import Dom0.Ipc
import Dom0.Lib.Cursor

/-! # The regions of l4re_kernel

`insert_regions` of `main.cc` of `dom0-l4re_kernel`. What the region map of the parent has for the new program is
attached to the local region map, the regions first and then the areas. Both region maps belong to L4Re. -/

namespace Dom0

/-- `Rm::Region` and `Rm::Area`: the first address and the last one. -/
structure Rm.Region (w : Word) where
  start : ULong w
  end_ : ULong w
deriving DecidableEq

namespace Rm.Region
variable {w : Word}

/-- `r->end - r->start + 1`. -/
def size (r : Region w) : ULong w := r.end_ - r.start + 1

/-- `r->end + 1`. -/
def next (r : Region w) : ULong w := r.end_ + 1

/-- Regions that follow each other and do not overlap. -/
structure Sorted (all : List (Region w)) : Prop where
  apart : all.Pairwise fun r r' => r.end_.toNat < r'.start.toNat
  proper : ∀ r ∈ all, r.start.toNat ≤ r.end_.toNat

/-- The regions that start at an address or behind it. -/
abbrev from_ (all : List (Region w)) (addr : ULong w) : List (Region w) :=
  behind BitVec.toNat (fun r : Region w => r.start.toNat) all addr

end Rm.Region

/-- The region map of the parent: its regions and areas, and what `get_regions` and `get_areas` give for an address. -/
structure RemoteRm (w : Word) where
  regions : List (Rm.Region w)
  areas : List (Rm.Region w)
  getRegions : ULong w → List (Rm.Region w)
  getAreas : ULong w → List (Rm.Region w)
  sorted_regions : Rm.Region.Sorted regions
  sorted_areas : Rm.Region.Sorted areas
  pieces_regions : Pieces BitVec.toNat (fun r : Rm.Region w => r.start.toNat) regions getRegions
  pieces_areas : Pieces BitVec.toNat (fun r : Rm.Region w => r.start.toNat) areas getAreas

/-- The local region map: `attach`, with the handler that leaves page faults to the parent, and `attach_area`, each with
    the address that it returns. -/
structure LocalRm (w : Word) (μ : Type) where
  attach : μ → ULong w → ULong w → μ × ULong w
  attachArea : μ → ULong w → ULong w → μ × ULong w

section
variable {w : Word} {μ : Type}

/-- The body of the first loop. It exits with 1 where `attach` returns 0. -/
def LocalRm.insertRegion (L : LocalRm w μ) (m : μ) (r : Rm.Region w) : Except CInt μ :=
  let x := L.attach m r.start r.size
  if x.2 = 0 then .error 1 else .ok x.1

/-- The body of the second loop. -/
def LocalRm.insertArea (L : LocalRm w μ) (m : μ) (r : Rm.Region w) : Except CInt μ :=
  let x := L.attachArea m r.start r.size
  if x.2 = 0 then .error 1 else .ok x.1

/-- `insert_regions`, with so many rounds of each loop at most. The second loop goes on from the `addr` of the first
    one. -/
def insertRegions (rm : RemoteRm w) (L : LocalRm w μ) (rounds : Nat) (m : μ) : Option (Except CInt μ) :=
  match visitPieces Rm.Region.next rm.getRegions L.insertRegion rounds m 0 with
  | none => none
  | some (.error e) => some (.error e)
  | some (.ok (m, addr)) =>
    (visitPieces Rm.Region.next rm.getAreas L.insertArea rounds m addr).map fun r => r.map Prod.fst

end

end Dom0
