import Dom0.Lib.Marshal
import Mathlib.Data.BitVec

/-! # C types and IPC messages

The integer types of the two builds, and the L4 message streams: what `ios << x` and `ios >> x` do to the
message registers of a thread. The streams themselves belong to L4Re, so `Ipc` takes what their code
settles as a parameter: how much `buf_cp_in` copies, and the size of `struct stat64`. -/

namespace Dom0
open Marshal

/-! ## C types -/

/-- The machine word: 4 bytes on x86-32, the build of the README, 8 bytes on amd64. -/
inductive Word
  | w32
  | w64
deriving DecidableEq, Repr

/-- `sizeof(l4_umword_t)`. -/
def Word.bytes : Word → Nat
  | .w32 => 4
  | .w64 => 8

/-- An `int` fits a machine word. -/
theorem Word.le_bits (w : Word) : 32 ≤ 8 * w.bytes := by
  cases w <;> decide

theorem Word.two_pow_le (w : Word) : 2 ^ 32 ≤ 2 ^ (8 * w.bytes) := Nat.pow_le_pow_right Nat.two_pos w.le_bits

theorem Word.two_pow_eq (w : Word) : 2 ^ (8 * w.bytes) = 2 * 2 ^ (8 * w.bytes - 1) := by
  cases w <;> rfl

abbrev CInt := BitVec 32
abbrev ModeT := BitVec 32
abbrev Off64T := BitVec 64
abbrev ULong (w : Word) := BitVec (8 * w.bytes)
abbrev SizeT (w : Word) := BitVec (8 * w.bytes)
abbrev SSizeT (w : Word) := BitVec (8 * w.bytes)

def l4Enomem : CInt := 12
def einval : CInt := 22
def l4Enametoolong : CInt := 36
def l4Enosys : CInt := 38
def l4Ebadproto : CInt := 39
def ebadf : CInt := 9

/-! The numbers of `communication_magic_numbers.h`. -/

def goSend : CInt := 0x90
def luaOk : CInt := 0x10A900D
def luaError : CInt := 0x10ABAD

/-- A copy into or out of a buffer: the bytes of the buffer and the bytes that are copied. -/
structure Copy where
  room : Nat
  len : Nat
deriving DecidableEq, Repr

/-- The copy stays inside its buffer. -/
def Copy.Inside (c : Copy) : Prop := c.len ≤ c.room

instance (c : Copy) : Decidable c.Inside := inferInstanceAs (Decidable (_ ≤ _))

/-! ## Message streams -/

/-- `L4_UTCB_GENERIC_DATA_SIZE`: the message registers of a thread, in words. -/
def l4UtcbGenericDataSize : Nat := 63

/-- The message registers in bytes. -/
def Word.registers (w : Word) : Nat := l4UtcbGenericDataSize * w.bytes

/-- What the model takes from L4Re and the C library. -/
structure Ipc (w : Word) where
  /-- How many elements `buf_cp_in` copies. -/
  bufCpIn : CountedCopy
  /-- `sizeof(struct stat64)`. -/
  statSize : Nat
  stat_pos : 0 < statSize
  stat_fits : w.bytes + statSize ≤ w.registers

/-- A copy of as much as the count, the target and the message allow. -/
def copyLeast : CountedCopy where
  copied c r k := min c (min r k)
  le_room _ _ _ := by omega
  le_carried _ _ _ := by omega
  whole _ _ _ _ _ := by omega

/-- The two builds, with the sizes of `struct stat64` on x86-32 and amd64. -/
def Ipc.x86 : Ipc .w32 := ⟨copyLeast, 96, by decide, by decide⟩

def Ipc.amd64 : Ipc .w64 := ⟨copyLeast, 144, by decide, by decide⟩

/-- A `struct stat64`, as its bytes. -/
abbrev Stat64 {w : Word} (E : Ipc w) := { bs : List UInt8 // bs.length = E.statSize }

def zeroStat {w : Word} (E : Ipc w) : Stat64 E := ⟨List.replicate E.statSize 0, List.length_replicate⟩

/-- A value of a scalar C type of `n` bytes, as `ios <<` puts it. -/
def scalar (n : Nat) (v : BitVec (8 * n)) : Field := ⟨n, Bytes.le n v.toNat⟩

abbrev int (v : CInt) : Field := scalar 4 v
abbrev modeT (v : ModeT) : Field := scalar 4 v
abbrev off64T (v : Off64T) : Field := scalar 8 v
abbrev sizeT (w : Word) (v : SizeT w) : Field := scalar w.bytes v

/-- `ios << (char const *)`, and `ios << Buf_cp_out<const char>(s, strlen(s) + 1)`. -/
def str (w : Word) (s : CString) : List Field := counted w.bytes (s.strlen + 1) s.c_str

/-- `ios << buf_cp_out(&st, 1)`. -/
def stat64 {w : Word} (E : Ipc w) (st : Stat64 E) : List Field := counted w.bytes 1 st.1

/-- `ios >> v` for a scalar C type of `n` bytes. -/
def readScalar (n : Nat) (ios : In) : BitVec (8 * n) × In :=
  (BitVec.ofNat _ (Bytes.toNat (ios.get n).1), (ios.get n).2)

abbrev readInt (ios : In) : CInt × In := readScalar 4 ios
abbrev readModeT (ios : In) : ModeT × In := readScalar 4 ios
abbrev readOff64T (ios : In) : Off64T × In := readScalar 8 ios
abbrev readULong (w : Word) (ios : In) : ULong w × In := readScalar w.bytes ios
abbrev readSizeT (w : Word) (ios : In) : SizeT w × In := readScalar w.bytes ios

section
variable {w : Word} {ios : In} {fs : List Field}

theorem has_readScalar {n : Nat} {v : BitVec (8 * n)} (h : ios.Has (scalar n v :: fs)) :
    (readScalar n ios).1 = v ∧ (readScalar n ios).2.Has fs := by
  obtain ⟨hb, hrest⟩ := h.get Bytes.length_le
  refine ⟨?_, hrest⟩
  have hpow : 256 ^ n = 2 ^ (8 * n) := by rw [Nat.pow_mul]
  have hlt : v.toNat < 256 ^ n := hpow ▸ v.isLt
  simp only [readScalar, hb, Bytes.toNat_le, Nat.mod_eq_of_lt hlt, BitVec.ofNat_toNat, BitVec.setWidth_eq]

end

/-! ## Calls

A call sends the message registers that were written, rounded up to whole words, and the reply comes back
the same way. The rest of the registers on either side keeps what it held, and nothing promises what that
is. The tag of the reply carries the value that `dispatch` returns. -/

/-- What a call finds in place and nothing settles: the message registers of the calling and of the serving
    thread, and the stack of the serving thread where `dispatch` has an uninitialised `struct stat64`. -/
structure Stale {w : Word} (E : Ipc w) where
  caller : Mem
  server : Mem
  stack : Stat64 E

/-- What `dispatch` hands back: its return value, the reply values, and whether a capability that travels
    with the reply is valid. -/
structure Reply where
  label : CInt
  values : List Field
  cap : Bool

/-- What the caller sees of a reply. -/
structure Answer where
  label : CInt
  ios : In
  cap : Bool

/-- The message that arrives when `fs` are put into a fresh stream over the registers `sent` and are sent
    to a thread whose registers hold `own`. -/
def deliver (w : Word) (fs : List Field) (sent own : Mem) : In :=
  let o := (Out.mk sent 0).putAll w.registers fs
  ⟨transfer (align w.bytes o.pos) o.mem own, align w.bytes o.pos, 0⟩

/-- `ios.call(cap)`: the request is delivered, served, and its reply is delivered to the caller. -/
def ipcCall {α : Type} {w : Word} {E : Ipc w} (u : Stale E) (serve : Stat64 E → In → α × Reply)
    (request : List Field) : α × Answer :=
  let m := deliver w request u.caller u.server
  let r := serve u.stack m
  (r.1, ⟨r.2.label, deliver w r.2.values m.mem u.caller, r.2.cap⟩)

/-- The values fit the message registers, so the stream drops none of them. -/
def Fits (w : Word) (fs : List Field) : Prop := endPos 0 fs ≤ w.registers

instance (w : Word) (fs : List Field) : Decidable (Fits w fs) := inferInstanceAs (Decidable (_ ≤ _))

/-- Values that fit arrive. -/
theorem has_deliver {w : Word} {fs : List Field} (sent own : Mem) (h : Fits w fs) : (deliver w fs sent own).Has fs := by
  obtain ⟨hpos, hc, -⟩ := Out.putAll_carries (o := ⟨sent, 0⟩) h
  have hle : endPos 0 fs ≤ align w.bytes ((Out.mk sent 0).putAll w.registers fs).pos := by
    rw [hpos]
    exact le_align _ _
  refine ⟨hc.congr fun i hi => ?_, hle⟩
  exact transfer_below _ _ _ i (Nat.lt_of_lt_of_le hi hle)

end Dom0
