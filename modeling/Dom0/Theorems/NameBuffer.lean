import Dom0.Theorems.RoundTrip

/-! # The name of a request

`operator >>` copies the name of a request into a static buffer and ends it at the last byte of the buffer
only. A request whose name bytes hold a zero, or fill the buffer, hands on the same name whatever was
requested before; any other request hands on its bytes followed by what an earlier request left. -/

namespace Dom0
open Marshal

section
variable {w : Word} (E : Ipc w) {σ : Type}

/-- Requests handled one after the other, each with what it finds on the stack of the server. -/
def serve (h : L4fsSvr E σ) (S : SvrState σ) (ms : List (Stat64 E × In)) : SvrState σ :=
  ms.foldl (fun S m => (dispatch E h S m.1 m.2).1) S

/-- A handler that keeps every name it is called with. -/
def nameRecorder : L4fsSvr E (List CString) where
  «open» ns name _ mode := (ns ++ [name], 0, mode)
  mkdir ns name _ := (ns ++ [name], 0)
  rename ns name := (ns ++ [name], 0)
  link ns name := (ns ++ [name], 0)
  symlink ns name := (ns ++ [name], 0)
  unlink ns name := (ns ++ [name], 0)
  rmdir ns name := (ns ++ [name], 0)

/-- The names that `dispatch` passes to the handler for one message, when the name buffer holds `nameBuf`. -/
def namesPassed (nameBuf : Mem) (stack : Stat64 E) (m : In) : List CString :=
  (dispatch E (nameRecorder E) ⟨nameBuf, []⟩ stack m).1.obj

/-- The stream at the name of a message, if its opcode has one. -/
def nameStream (w : Word) (m : In) : Option In :=
  let op := readInt m
  match Opcode.ofInt? op.1 with
  | some .open => some (readModeT (readULong w op.2).2).2
  | some .mkdir => some (readModeT op.2).2
  | some .rename | some .unlink | some .rmdir | some .link | some .symlink => some op.2
  | _ => none

/-- The bytes that are copied into the name buffer. -/
def copiedName (ios : In) : List UInt8 := (ios.getBuf E.bufCpIn w.bytes 1 (maxPathSize w)).1

/-- The message settles its name: a zero byte among the copied bytes before the last byte of the buffer, or
    enough bytes to reach it. -/
def NameSettled (m : In) : Prop :=
  ∀ ios, nameStream w m = some ios →
    (0 : UInt8) ∈ (copiedName E ios).take (maxPathSize w - 1) ∨ maxPathSize w - 1 ≤ (copiedName E ios).length

end

section
variable {w : Word} {E : Ipc w} {σ : Type}

theorem namesPassed_eq (nameBuf : Mem) (stack : Stat64 E) (m : In) :
    namesPassed E nameBuf stack m = ((nameStream w m).map fun ios => (readName E nameBuf ios).1).toList := by
  simp only [namesPassed, nameStream, dispatch]
  cases Opcode.ofInt? (readInt m).1 with
  | none => rfl
  | some o => cases o <;> rfl

theorem maxPathSize_pos : 0 < maxPathSize w := by cases w <;> decide

/-- The name buffer after `operator >>`: the copied bytes, the rest of what it held, a zero at the end. -/
theorem readName_buf (nameBuf : Mem) (ios : In) (i : Nat) :
    (readName E nameBuf ios).2 i =
      if i = maxPathSize w - 1 then 0
      else if i < (copiedName E ios).length then (copiedName E ios).getD i 0 else nameBuf i := by
  have hpos := maxPathSize_pos (w := w)
  simp only [readName, Mem.write, List.length_singleton, copiedName]
  by_cases hlast : i = maxPathSize w - 1
  · rw [if_pos hlast, if_pos (by omega), hlast, Nat.sub_self]
    rfl
  · rw [if_neg hlast, if_neg (by omega)]
    simp

theorem read_readName_buf (nameBuf : Mem) {ios : In} {k : Nat} (hk : k ≤ (copiedName E ios).length)
    (hlast : k ≤ maxPathSize w - 1) : (readName E nameBuf ios).2.read 0 k = (copiedName E ios).take k := by
  rw [← Mem.read_write_take (m := nameBuf) (p := 0) hk]
  refine Mem.read_congr fun i _ hi => ?_
  rw [readName_buf, if_neg (by omega), if_pos (by omega)]
  simp only [Mem.write]
  rw [if_pos (by omega), Nat.sub_zero]

/-- A settled name does not depend on what the buffer held. -/
theorem readName_congr {ios : In} (h : (0 : UInt8) ∈ (copiedName E ios).take (maxPathSize w - 1) ∨
    maxPathSize w - 1 ≤ (copiedName E ios).length) (nameBuf nameBuf' : Mem) :
    (readName E nameBuf ios).1 = (readName E nameBuf' ios).1 := by
  refine CString.ext_bytes ?_
  change (readName E nameBuf ios).2.cstr 0 _ = (readName E nameBuf' ios).2.cstr 0 _
  rcases h with hzero | hfull
  · -- The zero ends the string inside the copied bytes.
    have hk : min (maxPathSize w - 1) (copiedName E ios).length ≤ (copiedName E ios).length := Nat.min_le_right _ _
    have hlast : min (maxPathSize w - 1) (copiedName E ios).length ≤ maxPathSize w - 1 := Nat.min_le_left _ _
    have hread := fun nb : Mem => read_readName_buf nb hk hlast
    refine Mem.cstr_eq_of_zero_mem (k := min (maxPathSize w - 1) (copiedName E ios).length) ?_ (by omega)
      ((hread _).trans (hread _).symm)
    rw [hread]
    rwa [← List.take_eq_take_min]
  · -- Every byte of the buffer was copied or is the zero at its end.
    refine Mem.cstr_congr fun i _ hi => ?_
    rw [readName_buf, readName_buf]
    by_cases hlast : i = maxPathSize w - 1
    · rw [if_pos hlast, if_pos hlast]
    · rw [if_neg hlast, if_neg hlast, if_pos (by omega), if_pos (by omega)]

/-- A name that is not settled ends at the first zero that the buffer held behind it. -/
theorem readName_ne {ios : In} (hzero : (0 : UInt8) ∉ (copiedName E ios).take (maxPathSize w - 1))
    (hshort : (copiedName E ios).length < maxPathSize w - 1) (nameBuf nameBuf' : Mem)
    (h₀ : nameBuf (copiedName E ios).length = 0) (h₁ : nameBuf' (copiedName E ios).length ≠ 0) :
    (readName E nameBuf ios).1 ≠ (readName E nameBuf' ios).1 := by
  intro heq
  rw [List.take_of_length_le hshort.le] at hzero
  generalize hn : (copiedName E ios).length = n at *
  have hat : ∀ nb : Mem, (readName E nb ios).2 n = nb n := fun nb => by
    rw [readName_buf, if_neg (by omega), if_neg (by omega)]
  have hle : ((readName E nameBuf ios).2.cstr 0 (maxPathSize w)).length ≤ n :=
    Mem.length_cstr_le_of_zero (by rw [Nat.zero_add, hat, h₀])
  have hgt : n + 1 ≤ ((readName E nameBuf' ios).2.cstr 0 (maxPathSize w)).length := by
    have hread : (readName E nameBuf' ios).2.read 0 (n + 1) = copiedName E ios ++ [nameBuf' n] := by
      rw [Mem.read_add, read_readName_buf _ (by omega) (by omega), List.take_of_length_le (by omega), Nat.zero_add]
      simp [Mem.read, hat]
    have hnul : (0 : UInt8) ∉ (readName E nameBuf' ios).2.read 0 (n + 1) := by
      rw [hread, List.mem_append, List.mem_singleton, not_or]
      exact ⟨hzero, fun h => h₁ h.symm⟩
    rw [show maxPathSize w = (n + 1) + (maxPathSize w - (n + 1)) by omega, Mem.cstr_add hnul, List.length_append,
      Mem.length_read]
    exact Nat.le_add_right _ _
  have hbytes : (readName E nameBuf ios).2.cstr 0 (maxPathSize w) =
      (readName E nameBuf' ios).2.cstr 0 (maxPathSize w) :=
    congrArg CString.bytes heq
  rw [hbytes] at hle
  omega

/-! ## Histories -/

/-- A name that fills the name buffer. -/
def longestName (w : Word) : CString := ⟨List.replicate (maxPathSize w - 1) 1, by simp⟩

theorem strlen_longestName : (longestName w).strlen = maxPathSize w - 1 := by
  simp [longestName, CString.strlen]

/-- A request that removes the directory with the longest name. -/
def longestRmdir (w : Word) : In := deliver w (L4fs.nameRequest w .rmdir (longestName w)) (fun _ => 0) (fun _ => 0)

/-- That request leaves no zero in the name buffer but the one at its end. -/
theorem nameBuf_longestRmdir (h : L4fsSvr E σ) (S : SvrState σ) (stack : Stat64 E) {i : Nat}
    (hi : i < maxPathSize w - 1) : (serve E h S [(stack, longestRmdir w)]).nameBuf i = 1 := by
  have hlen : (longestName w).strlen + 1 ≤ maxPathSize w := by
    have := maxPathSize_pos (w := w)
    rw [strlen_longestName]
    omega
  have hhas : (longestRmdir w).Has _ := has_deliver _ _ (L4fs.fits_nameRequest hlen .rmdir)
  have hop := ofInt?_readInt hhas
  have hcount : (longestName w).strlen + 1 < 256 ^ w.bytes :=
    Nat.lt_of_le_of_lt hlen (by cases w <;> decide)
  have hstr : (readInt (longestRmdir w)).2.Has (Marshal.counted w.bytes ((longestName w).strlen + 1)
      (longestName w).c_str ++ []) := (List.append_nil _).symm ▸ (has_readInt hhas).2
  have hcopied : copiedName E (readInt (longestRmdir w)).2 = (longestName w).c_str :=
    (hstr.getBuf E.bufCpIn Nat.one_pos (by simp) hcount hlen).1
  have hbuf : (serve E h S [(stack, longestRmdir w)]).nameBuf =
      (readName E S.nameBuf (readInt (longestRmdir w)).2).2 := by
    simp only [serve, List.foldl_cons, List.foldl_nil, dispatch, hop, dispatchName]
  rw [hbuf, readName_buf, hcopied, if_neg (by omega), if_pos (by simp [strlen_longestName]; omega)]
  have hget : i < (longestName w).bytes.length := by
    change i < (longestName w).strlen
    rw [strlen_longestName]
    exact hi
  rw [CString.c_str, List.getD_eq_getElem _ _ (by simp; omega), List.getElem_append_left hget]
  simp [longestName]

/-- A request is passed on with the same name after every two histories, exactly when it settles its name. -/
theorem namesPassed_eq_iff_settled (E : Ipc w) (h : L4fsSvr E σ) (s : σ) (stack : Stat64 E) (m : In) :
    (∀ hist hist' : List (Stat64 E × In),
      namesPassed E (serve E h (.start s) hist).nameBuf stack m =
        namesPassed E (serve E h (.start s) hist').nameBuf stack m) ↔ NameSettled E m := by
  constructor
  · intro hall ios hios
    by_contra hnot
    rw [not_or, Nat.not_le] at hnot
    have heq := hall [] [(stack, longestRmdir w)]
    rw [namesPassed_eq, namesPassed_eq, hios] at heq
    simp only [Option.map_some, Option.toList_some, List.cons.injEq, and_true] at heq
    refine readName_ne hnot.1 hnot.2 (serve E h (.start s) []).nameBuf _ rfl ?_ heq
    rw [nameBuf_longestRmdir h _ stack hnot.2]
    decide
  · intro hset hist hist'
    rw [namesPassed_eq, namesPassed_eq]
    cases hios : nameStream w m with
    | none => rfl
    | some ios => simp only [Option.map_some, readName_congr (hset ios hios)
        (serve E h (.start s) hist).nameBuf (serve E h (.start s) hist').nameBuf]

/-- A request to remove the directory `a` whose name comes without a terminating zero. -/
def unterminatedRmdir : In := deliver .w32 (opcode .rmdir :: Marshal.counted 4 1 [97]) (fun _ => 0) (fun _ => 0)

/-- After a longer name that request is passed on with another name than before. -/
theorem unterminatedRmdir_depends (stack : Stat64 Ipc.x86) :
    namesPassed Ipc.x86 (serve Ipc.x86 {} (.start ()) []).nameBuf stack unterminatedRmdir ≠
      namesPassed Ipc.x86 (serve Ipc.x86 {} (.start ()) [(stack, longestRmdir .w32)]).nameBuf stack
        unterminatedRmdir := by
  have hfits : Fits .w32 (opcode .rmdir :: Marshal.counted 4 1 [97]) := by decide
  have hhas : unterminatedRmdir.Has _ := has_deliver _ _ hfits
  have hname : nameStream .w32 unterminatedRmdir = some (readInt unterminatedRmdir).2 := by
    simp only [nameStream, ofInt?_readInt hhas]
  have hcopied : copiedName Ipc.x86 (readInt unterminatedRmdir).2 = [97] :=
    (((List.append_nil (Marshal.counted 4 1 [97])).symm ▸ (has_readInt hhas).2).getBuf _ (by decide) (by decide)
      (by decide) (by decide)).1
  rw [namesPassed_eq, namesPassed_eq, hname]
  simp only [Option.map_some, Option.toList_some, ne_eq, List.cons.injEq, and_true]
  refine readName_ne ?_ ?_ (serve Ipc.x86 {} (.start ()) []).nameBuf _ rfl ?_
  · rw [hcopied]
    decide
  · rw [hcopied]
    decide
  · rw [hcopied, nameBuf_longestRmdir _ _ stack (by decide)]
    decide

theorem unterminatedRmdir_not_independent :
    ¬∀ (stack : Stat64 Ipc.x86) (hist hist' : List (Stat64 Ipc.x86 × In)),
      namesPassed Ipc.x86 (serve Ipc.x86 {} (.start ()) hist).nameBuf stack unterminatedRmdir =
        namesPassed Ipc.x86 (serve Ipc.x86 {} (.start ()) hist').nameBuf stack unterminatedRmdir := fun hall =>
  unterminatedRmdir_depends (zeroStat Ipc.x86) (hall _ [] _)

end

end Dom0
