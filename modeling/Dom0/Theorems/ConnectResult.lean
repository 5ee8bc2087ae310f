import Dom0.Net.TcpClientSocket
import Mathlib.Data.BitVec

/-! What `RemoteDom0Instance::connect` returns. It combines what the two sockets return by `&`: two failures make a
negative number, but of a single one no more than its lowest bit is left. -/

namespace Dom0

/-- The error number of a `connect` that fails. -/
def TcpClientSocket.failure (s : TcpClientSocket) (res : Except NetErrno Unit) : Option NetErrno :=
  if s.isDisabled then none
  else
    match res with
    | .ok () => none
    | .error e => some e

/-- One `connect` fails, with an odd error number, and the other one does not. -/
def OddAlone : Option NetErrno → Option NetErrno → Prop
  | some e, none | none, some e => e.1.toNat % 2 = 1
  | _, _ => False

instance : ∀ a b, Decidable (OddAlone a b)
  | some e, none | none, some e => inferInstanceAs (Decidable (e.1.toNat % 2 = 1))
  | none, none | some _, some _ => instDecidableFalse

section
variable {s : TcpClientSocket} {fd : CInt} {res : Except NetErrno Unit} {x : CInt} {e e' : NetErrno}

theorem TcpClientSocket.connect_result :
    (s.connect fd res).2 = match s.failure res with
      | none => 1
      | some e => -e.1 := by
  unfold connect failure
  split
  · rfl
  · cases res <;> rfl

theorem toNat_neg_errno_mod_two : (-e.1).toNat % 2 = e.1.toNat % 2 := by
  have hlt := e.1.isLt
  rw [BitVec.toNat_neg]
  omega

theorem toInt_one_and_errno : ((1 : CInt) &&& -e.1).toInt = e.1.toNat % 2 := by
  have hbit : ((1 : CInt) &&& -e.1).toNat = e.1.toNat % 2 := by
    rw [BitVec.toNat_and, ← toNat_neg_errno_mod_two]
    exact Nat.one_and_eq_mod_two _
  rw [BitVec.toInt_eq_toNat_of_lt (by omega), hbit]
  rfl

theorem neg_errno_cases : e.1 = 0 ∨ (-e.1).msb = true := by
  have hlt := BitVec.toInt_pos_iff.mp e.2
  rcases Nat.eq_zero_or_pos e.1.toNat with hzero | hpos
  · exact Or.inl (BitVec.eq_of_toNat_eq hzero)
  · refine Or.inr (BitVec.msb_eq_true_iff_two_mul_ge.mpr ?_)
    rw [BitVec.toNat_neg]
    omega

theorem toInt_errno_and_errno : (-e.1 &&& -e'.1).toInt ≤ 0 := by
  rcases neg_errno_cases (e := e) with hzero | hmsb
  · simp [hzero]
  rcases neg_errno_cases (e := e') with hzero | hmsb'
  · simp [hzero]
  have hand : (-e.1 &&& -e'.1).msb = true := by
    rw [BitVec.msb_and, hmsb, hmsb']
    rfl
  exact Int.le_of_lt (BitVec.toInt_neg_iff.mpr (BitVec.msb_eq_true_iff_two_mul_ge.mp hand))

end

/-- One of the two calls of the method. -/
theorem Process.call_connect {s s' : Process} {id : Nat} {o : RemoteSockets} {m : Member} {rest : List SocketCall}
    {fd : CInt} {res : Except NetErrno Unit} (ho : s.objects id = some o) (hcalls : o.calls = .connect m :: rest)
    (h : s.step (.call id fd res) = some s') :
    s'.objects id = some { o.set ((o.get m).connect fd res).1 m with
      calls := rest, result := o.result &&& ((o.get m).connect fd res).2 } := by
  simp only [step, ho, hcalls, call] at h
  obtain ⟨t, -, rfl⟩ := Option.map_eq_some_iff.mp h
  exact Function.update_self _ _ _

/-- The method ends with that value, in whichever order it calls its sockets. -/
theorem Process.connect_result {s begun middle last : Process} {id : Nat} {o : RemoteSockets} {luaFd binaryFd : CInt}
    {luaRes binaryRes : Except NetErrno Unit} {luaFirst : Bool} (ho : s.objects id = some o)
    (hbegin : s.step (.connect id luaFirst) = some begun)
    (hfirst : begun.step (if luaFirst then .call id luaFd luaRes else .call id binaryFd binaryRes) = some middle)
    (hsecond : middle.step (if luaFirst then .call id binaryFd binaryRes else .call id luaFd luaRes) = some last) :
    ∃ o', last.objects id = some o' ∧ o'.calls = [] ∧ o'.result = o.connect luaFd binaryFd luaRes binaryRes := by
  obtain ⟨o₀, ho₀, hmethod⟩ := Option.bind_eq_some_iff.mp hbegin
  obtain rfl := Option.some.inj (ho₀.symm.trans ho)
  obtain ⟨o₁, hbegun, rfl⟩ := Option.map_eq_some_iff.mp hmethod
  unfold RemoteSockets.begin at hbegun
  split at hbegun <;> cases hbegun
  have ho₁ : (s.setObject id
      { o₀ with calls := RemoteSockets.connectCalls luaFirst, result := -1, destroyed := false }).objects id =
      some { o₀ with calls := RemoteSockets.connectCalls luaFirst, result := -1, destroyed := false } :=
    Function.update_self _ _ _
  have hones : ∀ x : CInt, -1 &&& x = x := fun x => by
    rw [show (-1 : CInt) = BitVec.allOnes 32 from rfl, BitVec.allOnes_and]
  cases luaFirst with
  | true =>
    have ho₂ := call_connect ho₁ rfl hfirst
    refine ⟨_, call_connect ho₂ rfl hsecond, rfl, ?_⟩
    simp only [RemoteSockets.connect, RemoteSockets.get, RemoteSockets.set, hones]
  | false =>
    have ho₂ := call_connect ho₁ rfl hfirst
    refine ⟨_, call_connect ho₂ rfl hsecond, rfl, ?_⟩
    simp only [RemoteSockets.connect, RemoteSockets.get, RemoteSockets.set, hones]
    exact BitVec.and_comm _ _

/-- `connect` tells exactly where no socket fails alone with an odd error number. -/
theorem RemoteSockets.connect_pos_iff (o : RemoteSockets) (luaFd binaryFd : CInt)
    (luaRes binaryRes : Except NetErrno Unit) :
    (0 < (o.connect luaFd binaryFd luaRes binaryRes).toInt ↔
        o.lua.failure luaRes = none ∧ o.binary.failure binaryRes = none) ↔
      ¬OddAlone (o.lua.failure luaRes) (o.binary.failure binaryRes) := by
  rw [connect, TcpClientSocket.connect_result, TcpClientSocket.connect_result]
  generalize o.lua.failure luaRes = lua
  generalize o.binary.failure binaryRes = binary
  cases lua with
  | none =>
    cases binary with
    | none => simp [OddAlone]
    | some e =>
      simp only [toInt_one_and_errno, OddAlone, reduceCtorEq, and_false, iff_false]
      omega
  | some e =>
    cases binary with
    | none =>
      simp only [BitVec.and_comm (-e.1), toInt_one_and_errno, OddAlone, reduceCtorEq, false_and, iff_false]
      omega
    | some e' =>
      have hle : (-e.1 &&& -e'.1).toInt ≤ 0 := toInt_errno_and_errno
      simp only [OddAlone, reduceCtorEq, false_and, iff_false, not_false_eq_true, iff_true]
      exact Int.not_lt.mpr hle

/-- The Lua socket connects, for the binary socket there is no route, and the caller sees a success. -/
theorem RemoteSockets.connect_unreachable :
    let o : RemoteSockets := .new (.new 5000 0) (.new 5001 0)
    let res : Except NetErrno Unit := .error ⟨113, by decide⟩
    o.connect 3 4 (.ok ()) res = 1 ∧ ¬(0 < (o.connect 3 4 (.ok ()) res).toInt ↔
      o.lua.failure (.ok ()) = none ∧ o.binary.failure res = none) := by
  decide

end Dom0
