import Dom0.FsSrv.Dataspace

/-! The file in a new dataspace. `dataspace` returns 0 wherever its loop ends, and the loop adds up what `pread64`
returns: the dataspace holds the file where the sum reaches its length before it falls below 0. -/

namespace Dom0
namespace DataspaceCall

/-! ## What is asked of it -/

section
variable {w : Word}

/-- There is a dataspace, and it holds exactly the bytes of the file behind the handle. -/
def Holds (d : DataspaceCall) (s : Copying w) : Prop :=
  d.fresh.isSome ∧ d.file = some (s.memory.read 0 (d.sizeT w).toNat)

/-- The call returns. It returns 0 only if the dataspace holds the file, and is negative otherwise. -/
def Right (w : Word) (d : DataspaceCall) : Prop :=
  ∃ n r, d.result (d.run n : Copying w) = some r ∧ (r = 0 → d.Holds (d.run n : Copying w)) ∧ (r ≠ 0 → r.toInt < 0)

end

/-! ## The sum of the results -/

/-- The sum of the first results of `pread64` on a file of `length` bytes, where an error counts as -1. -/
def sum (length : Nat) (pread64 : Nat → Except Errno Nat) : Nat → Int
  | 0 => 0
  | n + 1 =>
    match pread64 n with
    | .ok k => sum length pread64 n + (min k (length - (sum length pread64 n).toNat) : Nat)
    | .error _ => sum length pread64 n - 1

/-- The largest of the first sums. -/
def highest (length : Nat) (pread64 : Nat → Except Errno Nat) : Nat → Nat
  | 0 => 0
  | n + 1 => max (highest length pread64 n) (sum length pread64 (n + 1)).toNat

/-- The sums stay between 0 and the length, before call `n`. -/
def Within (length : Nat) (pread64 : Nat → Except Errno Nat) (n : Nat) : Prop :=
  ∀ i < n, 0 ≤ sum length pread64 i ∧ sum length pread64 i < length

/-- `size` is the length of the file, and the sum comes to it; or it falls below 0, and the new dataspace held the rest
    of the file before. -/
def Fills (w : Word) (d : DataspaceCall) : Prop :=
  ∃ content fresh n, d.file = some content ∧ d.fresh = some fresh ∧ (d.sizeT w).toNat = content.length ∧
    Within content.length d.pread64 n ∧
    (sum content.length d.pread64 n = content.length ∨ sum content.length d.pread64 n = -1 ∧
      fresh.read (highest content.length d.pread64 n) (content.length - highest content.length d.pread64 n) =
        content.drop (highest content.length d.pread64 n))

/-! ## The loop -/

section
variable {w : Word} {d : DataspaceCall} {content : List UInt8} {fresh : Mem} {s : Copying w} {n k : Nat}

/-- After `n` calls: what the counter is, and what lies in the dataspace. -/
structure Copied (d : DataspaceCall) (content : List UInt8) (fresh : Mem) (n : Nat) (s : Copying w) : Prop where
  calls : s.calls = n
  stored : ∀ i < highest content.length d.pread64 n, s.memory i = content.getD i 0
  rest : ∀ i, highest content.length d.pread64 n ≤ i → s.memory i = fresh i
  highest_le : highest content.length d.pread64 n ≤ content.length
  sum_le : sum content.length d.pread64 n ≤ highest content.length d.pread64 n
  read : (s.read.toNat : Int) = sum content.length d.pread64 n ∨
    sum content.length d.pread64 n = -1 ∧ s.read = Server.failed

theorem copied_start (hfresh : d.fresh = some fresh) : Copied d content fresh 0 (d.start : Copying w) where
  calls := rfl
  stored i hi := absurd hi (Nat.not_lt_zero i)
  rest i _ := by rw [start, hfresh, Option.getD_some]
  highest_le := Nat.zero_le _
  sum_le := Int.le_refl 0
  read := Or.inl (by simp [start, sum])

theorem toNat_failed : (Server.failed : SSizeT w).toNat = 2 ^ (8 * w.bytes) - 1 := by cases w <;> rfl

theorem sum_error (length : Nat) {e : Errno} (h : d.pread64 n = .error e) :
    sum length d.pread64 (n + 1) = sum length d.pread64 n - 1 := by
  rw [sum, h]

theorem sum_ok {length p : Nat} (h : d.pread64 n = .ok k) (hp : sum length d.pread64 n = p) :
    sum length d.pread64 (n + 1) = p + (min k (length - p) : Nat) := by
  rw [sum, h, hp, Int.toNat_natCast]

theorem Copied.error (h : Copied d content fresh n s) (hp : sum content.length d.pread64 n = s.read.toNat) {e : Errno}
    (hanswer : d.pread64 n = .error e) :
    Copied d content fresh (n + 1) (⟨s.read + Server.failed, s.memory, s.calls + 1⟩ : Copying w) := by
  have hnext := sum_error content.length hanswer
  have hhigh := h.sum_le
  have hsame : highest content.length d.pread64 (n + 1) = highest content.length d.pread64 n := by
    rw [highest, hnext]
    omega
  refine ⟨congrArg (· + 1) h.calls, ?_, ?_, ?_, ?_, ?_⟩
  · rw [hsame]
    exact h.stored
  · rw [hsame]
    exact h.rest
  · rw [hsame]
    exact h.highest_le
  · rw [hsame, hnext]
    omega
  · rw [hnext, hp]
    have hisLt := s.read.isLt
    by_cases hzero : s.read.toNat = 0
    · have hnull : s.read = 0 := BitVec.eq_of_toNat_eq (by simpa using hzero)
      refine Or.inr ⟨by omega, ?_⟩
      rw [hnull]
      exact BitVec.zero_add _
    · left
      rw [BitVec.toNat_add, toNat_failed, Nat.add_comm, ← Nat.sub_add_comm (by omega), Nat.add_sub_assoc (by omega),
        Nat.add_mod_left, Nat.mod_eq_of_lt (by omega)]
      omega

theorem Copied.ok (h : Copied d content fresh n s) (hp : sum content.length d.pread64 n = s.read.toNat)
    (hle : s.read.toNat ≤ content.length) (hfits : content.length < 2 ^ (8 * w.bytes)) (hanswer : d.pread64 n = .ok k)
    {bs : List UInt8} (hbs : bs = (content.drop s.read.toNat).take (min k content.length)) :
    Copied d content fresh (n + 1)
      (⟨s.read + BitVec.ofNat _ bs.length, s.memory.write s.read.toNat bs, s.calls + 1⟩ : Copying w) := by
  have hlen : bs.length = min k (content.length - s.read.toNat) := by
    rw [hbs, List.length_take, List.length_drop]
    omega
  have hnext := sum_ok hanswer hp
  rw [← hlen] at hnext
  have hhigh := h.sum_le
  have hmost := h.highest_le
  have hmax : highest content.length d.pread64 (n + 1) = max (highest content.length d.pread64 n)
      (s.read.toNat + bs.length) := by
    rw [highest, hnext]
    omega
  refine ⟨congrArg (· + 1) h.calls, fun i hi => ?_, fun i hi => ?_, ?_, ?_, ?_⟩
  · rw [hmax] at hi
    simp only [Mem.write]
    split
    · next hin =>
      have hget : bs[i - s.read.toNat]? = content[i]? := by
        rw [hbs, List.getElem?_take_of_lt (by omega), List.getElem?_drop, Nat.add_sub_cancel' hin.1]
      rw [List.getD_eq_getElem?_getD, List.getD_eq_getElem?_getD, hget]
    · exact h.stored i (by omega)
  · rw [hmax] at hi
    simp only [Mem.write]
    rw [if_neg (by omega)]
    exact h.rest i (by omega)
  · rw [hmax]
    omega
  · rw [hmax, hnext]
    omega
  · left
    rw [hnext, BitVec.toNat_add, BitVec.toNat_ofNat, Nat.add_mod_mod, Nat.mod_eq_of_lt (by omega)]
    omega

theorem Copied.step (h : Copied d content fresh n s) (hfile : d.file = some content)
    (hsize : (d.sizeT w).toNat = content.length) (hpos : 0 ≤ sum content.length d.pread64 n)
    (hlt : sum content.length d.pread64 n < content.length) : Copied d content fresh (n + 1) (d.step s) := by
  have hp : sum content.length d.pread64 n = s.read.toNat := by
    rcases h.read with hread | ⟨hminus, -⟩
    · exact hread.symm
    · omega
  have hbelow : s.read.toNat < (d.sizeT w).toNat := by omega
  have hfits := (d.sizeT w).isLt
  rw [DataspaceCall.step, if_pos hbelow, pread, hfile]
  cases hanswer : d.pread64 n with
  | error e =>
    simp only [h.calls, hanswer, Except.map]
    exact h.calls ▸ h.error hp hanswer
  | ok k =>
    simp only [h.calls, hanswer, Except.map]
    exact h.calls ▸ h.ok hp (by omega) (by omega) hanswer (by rw [hsize])

theorem copied (hfile : d.file = some content) (hfresh : d.fresh = some fresh)
    (hsize : (d.sizeT w).toNat = content.length) :
    ∀ n, Within content.length d.pread64 n → Copied d content fresh n (d.run n : Copying w)
  | 0, _ => copied_start hfresh
  | n + 1, hwithin => by
    have hn := hwithin n (Nat.lt_succ_self n)
    exact (copied hfile hfresh hsize n fun i hi => hwithin i (Nat.lt_succ_of_lt hi)).step hfile hsize hn.1 hn.2

/-- The dataspace holds the file exactly where what was not read lay there before. -/
theorem Copied.holds_iff (h : Copied d content fresh n s) (hfile : d.file = some content)
    (hfresh : d.fresh = some fresh) (hsize : (d.sizeT w).toNat = content.length) :
    d.Holds s ↔
      fresh.read (highest content.length d.pread64 n) (content.length - highest content.length d.pread64 n) =
        content.drop (highest content.length d.pread64 n) := by
  have hle := h.highest_le
  rw [Holds, hfresh, hfile, hsize, Option.some.injEq, eq_comm (a := content), Mem.read_eq_iff, Mem.read_eq_iff,
    List.length_drop]
  constructor
  · rintro ⟨-, -, hall⟩
    refine ⟨rfl, fun i hi => ?_⟩
    have hi' := hall (highest content.length d.pread64 n + i) (by omega)
    rw [Nat.zero_add, h.rest _ (Nat.le_add_right _ i)] at hi'
    rw [hi', List.getD_eq_getElem?_getD, List.getD_eq_getElem?_getD, List.getElem?_drop]
  · rintro ⟨-, hall⟩
    refine ⟨rfl, rfl, fun i hi => ?_⟩
    rw [Nat.zero_add]
    rcases Nat.lt_or_ge i (highest content.length d.pread64 n) with hbelow | habove
    · exact h.stored i hbelow
    · obtain ⟨j, rfl⟩ := Nat.exists_eq_add_of_le habove
      rw [h.rest _ habove, hall j (by omega), List.getD_eq_getElem?_getD, List.getD_eq_getElem?_getD,
        List.getElem?_drop]

/-- The loop has ended where the sum has come to the length, or to -1. -/
theorem Copied.ended (h : Copied d content fresh n s) (hsize : (d.sizeT w).toNat = content.length)
    (hend : sum content.length d.pread64 n = content.length ∨ sum content.length d.pread64 n = -1) :
    ¬s.read.toNat < (d.sizeT w).toNat := by
  have hfits := (d.sizeT w).isLt
  rcases h.read with hread | ⟨hminus, hfailed⟩
  · omega
  · rw [hfailed, toNat_failed]
    omega

theorem Copied.sum_eq (h : Copied d content fresh n s)
    (hout : ¬(0 ≤ sum content.length d.pread64 n ∧ sum content.length d.pread64 n < content.length)) :
    sum content.length d.pread64 n = content.length ∨ sum content.length d.pread64 n = -1 := by
  have hhigh := h.sum_le
  have hle := h.highest_le
  rcases h.read with hread | ⟨hminus, -⟩
  · left
    omega
  · exact Or.inr hminus

/-- A loop that ends does so where the sum leaves the file. -/
theorem exists_ends (hfile : d.file = some content) (hfresh : d.fresh = some fresh)
    (hsize : (d.sizeT w).toNat = content.length) (hend : ¬(d.run n : Copying w).read.toNat < (d.sizeT w).toNat) :
    ∃ m ≤ n, Within content.length d.pread64 m ∧
      (sum content.length d.pread64 m = content.length ∨ sum content.length d.pread64 m = -1) := by
  let Out (i : Nat) : Prop := ¬(0 ≤ sum content.length d.pread64 i ∧ sum content.length d.pread64 i < content.length)
  have hout : ∃ i ≤ n, Out i := by
    by_contra hnone
    have hwithin : Within content.length d.pread64 (n + 1) := fun i hi =>
      not_not.mp fun h => hnone ⟨i, Nat.le_of_lt_succ hi, h⟩
    have hcopied := copied hfile hfresh hsize n fun i hi => hwithin i (Nat.lt_succ_of_lt hi)
    obtain ⟨hpos, hlt⟩ := hwithin n (Nat.lt_succ_self n)
    rcases hcopied.read with hread | ⟨hminus, -⟩
    · omega
    · omega
  obtain ⟨i, hi, hiout⟩ := hout
  have hexists : ∃ i, Out i := ⟨i, hiout⟩
  have hwithin : Within content.length d.pread64 (Nat.find hexists) := fun j hj => not_not.mp (Nat.find_min hexists hj)
  exact ⟨Nat.find hexists, (Nat.find_min' hexists hiout).trans hi, hwithin,
    (copied hfile hfresh hsize _ hwithin).sum_eq (Nat.find_spec hexists)⟩

theorem run_of_ended (hend : ¬(d.run n : Copying w).read.toNat < (d.sizeT w).toNat) (m : Nat) :
    (d.run (n + m) : Copying w) = d.run n := by
  induction m with
  | zero => rfl
  | succ m ih => rw [← Nat.add_assoc, run, ih, DataspaceCall.step, if_neg hend]

end

/-- `dataspace` does what it should if and only if its `size` is the length of the file and the sum of the results comes
    to it, or falls below 0 where the new dataspace held the rest of the file before. -/
theorem right_iff_fills (w : Word) (d : DataspaceCall) : d.Right w ↔ d.Fills w := by
  constructor
  · rintro ⟨n, r, hresult, hzero, -⟩
    have hend : ¬(d.run n : Copying w).read.toNat < (d.sizeT w).toNat := by
      intro hmore
      rw [result, if_pos hmore] at hresult
      cases hresult
    rw [result, if_neg hend] at hresult
    obtain rfl := Option.some.inj hresult
    have hholds := hzero rfl
    obtain ⟨fresh, hfresh⟩ := Option.isSome_iff_exists.mp hholds.1
    obtain ⟨content, hcontent⟩ : ∃ content, content = (d.run n : Copying w).memory.read 0 (d.sizeT w).toNat := ⟨_, rfl⟩
    have hfile : d.file = some content := hholds.2.trans (congrArg some hcontent.symm)
    have hsize : (d.sizeT w).toNat = content.length := by rw [hcontent, Mem.length_read]
    obtain ⟨m, hm, hwithin, hends⟩ := exists_ends hfile hfresh hsize hend
    have hcopied := copied hfile hfresh hsize m hwithin
    obtain ⟨j, rfl⟩ := Nat.exists_eq_add_of_le hm
    rw [run_of_ended (hcopied.ended hsize hends)] at hholds
    have hrest := (hcopied.holds_iff hfile hfresh hsize).mp hholds
    exact ⟨content, fresh, m, hfile, hfresh, hsize, hwithin, hends.imp_right fun hminus => ⟨hminus, hrest⟩⟩
  · rintro ⟨content, fresh, n, hfile, hfresh, hsize, hwithin, hends⟩
    have hcopied := copied hfile hfresh hsize n hwithin
    have hend := hcopied.ended hsize (hends.imp_right And.left)
    refine ⟨n, 0, if_neg hend, fun _ => (hcopied.holds_iff hfile hfresh hsize).mpr ?_, fun hne => absurd rfl hne⟩
    rcases hends with hall | ⟨-, hrest⟩
    · have hhigh := hcopied.sum_le
      have hle := hcopied.highest_le
      obtain hsame : highest content.length d.pread64 n = content.length := by omega
      rw [hsame, Nat.sub_self, List.drop_length, Mem.read_zero]
    · exact hrest

/-- A handle that is not open: `fstat` leaves 16 in `buf`, and `pread64` fails. -/
def notOpen : DataspaceCall := ⟨none, false, 16, some fun _ => 0, fun _ => 0, fun _ => .error 9⟩

/-- For a handle that is not open 0 is returned. -/
theorem not_right_notOpen : notOpen.result (notOpen.run 1 : Copying .w32) = some 0 ∧ ¬notOpen.Right .w32 := by
  refine ⟨rfl, ?_⟩
  rintro ⟨n, r, hresult, hzero, -⟩
  rw [result] at hresult
  split at hresult
  · cases hresult
  · obtain rfl := Option.some.inj hresult
    cases (hzero rfl).2

end DataspaceCall
end Dom0
