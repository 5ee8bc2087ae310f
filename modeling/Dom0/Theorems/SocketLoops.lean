import Dom0.Net.Dom0Server

/-! What one iteration of `receiveData` and `sendData` does: the loop stands at a position before the end of the
block, and goes on to a later one or returns the size. -/

namespace Dom0

/-! ## Positions -/

/-- The loop stands at position `p`, before the end. -/
structure Transfer.At {w : Word} (t : Transfer w) (p : Nat) : Prop where
  position : t.position.toNat = p
  lt : p < t.size.toNat

namespace Transfer
section
variable {w : Word} {t : Transfer w} {p k : Nat}

theorem At.start {size : SizeT w} (h : 0 < size.toNat) : (start size).At 0 := ⟨by simp [Transfer.start], h⟩

@[simp] theorem position_start {size : SizeT w} : (start size).position = 0 := rfl

@[simp] theorem left_start {size : SizeT w} : (start size).left = size.toNat := by simp [left, Transfer.start]

theorem toNat_int32 : (int32 : Transfer w).size.toNat = 4 := by cases w <;> rfl

theorem At.int32 : (int32 : Transfer w).At 0 := .start (by cases w <;> decide)

theorem At.left (h : t.At p) : t.left = t.size.toNat - p := by
  have hle : t.position ≤ t.size := by
    rw [BitVec.le_def, h.position]
    exact Nat.le_of_lt h.lt
  rw [Transfer.left, BitVec.toNat_sub_of_le hle, h.position]

theorem At.add (h : t.At p) (hle : p + k ≤ t.size.toNat) :
    (t.position + BitVec.ofNat (8 * w.bytes) k).toNat = p + k := by
  have hsize := t.size.isLt
  rw [BitVec.toNat_add, BitVec.toNat_ofNat, h.position, Nat.add_mod_mod, Nat.mod_eq_of_lt (by omega)]

theorem At.next_again (h : t.At p) (hlt : p + k < t.size.toNat) :
    ∃ t', t.next (.ok k) = .again t' ∧ t'.size = t.size ∧ t'.At (p + k) := by
  have hadd := h.add (Nat.le_of_lt hlt)
  refine ⟨⟨t.size, t.position + BitVec.ofNat _ k⟩, ?_, rfl, hadd, hlt⟩
  simp only [next, hadd, if_pos hlt]

theorem At.next_returned (h : t.At p) (heq : p + k = t.size.toNat) : t.next (.ok k) = .returned t.size := by
  have hadd := h.add (Nat.le_of_eq heq)
  simp only [next]
  rw [if_neg (by omega)]
  congr 1
  exact BitVec.eq_of_toNat_eq (by omega)

theorem next_error (t : Transfer w) (e : NetErrno) : ∃ x, t.next (.error e) = .returned x ∧ x.toInt < 1 := by
  refine ⟨_, rfl, ?_⟩
  have he := e.2
  have hneg : (-e.1).toInt ≤ 0 := by
    have hlt := e.1.isLt
    rw [BitVec.toInt_eq_toNat_cond] at he ⊢
    rw [BitVec.toNat_neg]
    split at he <;> split <;> omega
  have hle := w.le_bits
  rw [BitVec.toInt_signExtend_of_le hle]
  omega

theorem not_toInt_lt_one {x : SSizeT w} (hpos : 0 < x.toNat) (hlt : x.toNat < 2 ^ 31) : ¬x.toInt < 1 := by
  have hw := w.two_pow_le
  have hint : x.toInt = x.toNat := by
    rw [BitVec.toInt_eq_toNat_of_lt (by omega)]
  omega

theorem toNat_pos_of_toInt {n : SizeT w} (h : 1 ≤ n.toInt) : 0 < n.toNat := by
  refine Nat.pos_of_ne_zero fun hzero => ?_
  obtain rfl : n = 0 := BitVec.eq_of_toNat_eq (by simpa using hzero)
  simp at h

theorem netcheckLoop_go {α : Type} {x : SSizeT w} {go stop : α} (hpos : 0 < x.toNat) (hlt : x.toNat < 2 ^ 31) :
    netcheckLoop x go stop = go :=
  if_neg (not_toInt_lt_one hpos hlt)

theorem netcheckLoop_stop {α : Type} {x : SSizeT w} {go stop : α} (h : x.toInt < 1) : netcheckLoop x go stop = stop :=
  if_pos h

theorem netcheckLoop_int32 {α : Type} {go stop : α} : netcheckLoop (int32 : Transfer w).size go stop = go :=
  netcheckLoop_go (by rw [toNat_int32]; decide) (by rw [toNat_int32]; decide)

theorem next_int32 : (int32 : Transfer w).next (.ok 4) = .returned (int32 : Transfer w).size :=
  At.int32.next_returned (by rw [toNat_int32])

end

/-! ## Blocks -/

/-- The loop has stored `got`. -/
structure Receiving {w : Word} (t : Transfer w) (data : Mem) (got : List UInt8) : Prop extends t.At got.length where
  holds : data.read 0 got.length = got

/-- The loop is about to send `left`, the rest of `block`. -/
structure Sends {w : Word} (t : Transfer w) (block left : List UInt8) : Prop where
  at_left : t.At (block.length - left.length)
  size : t.size.toNat = block.length
  rest : ∃ sent, block = sent ++ left

section
variable {w : Word} {t : Transfer w} {data : Mem} {got bs left block r r' : List UInt8} {k : Nat}

theorem Receiving.start {size : SizeT w} (data : Mem) (h : 0 < size.toNat) : (start size).Receiving data [] :=
  ⟨.start h, rfl⟩

theorem Receiving.int32 (data : Mem) : (int32 : Transfer w).Receiving data [] := ⟨.int32, rfl⟩

/-- One piece of a block arrives. -/
theorem Receiving.next (h : t.Receiving data got) (hle : bs.length ≤ t.left) :
    (∃ t', t.next (.ok bs.length) = .again t' ∧ t'.size = t.size ∧ t'.Receiving (t.store data (.ok bs)) (got ++ bs)) ∨
      (t.next (.ok bs.length) = .returned t.size ∧ (got ++ bs).length = t.size.toNat ∧
        (t.store data (.ok bs)).read 0 (got ++ bs).length = got ++ bs) := by
  have hstored : (t.store data (.ok bs)).read 0 (got ++ bs).length = got ++ bs := by
    simp only [store, h.position]
    rw [List.length_append, Mem.read_add, Mem.read_write_below (by omega), h.holds, Nat.zero_add, Mem.read_write]
  have hlt := h.lt
  rw [h.toAt.left] at hle
  rcases Nat.lt_or_ge (got.length + bs.length) t.size.toNat with hmore | hdone
  · obtain ⟨t', hnext, hsize, hat⟩ := h.toAt.next_again hmore
    exact Or.inl ⟨t', hnext, hsize, by rwa [List.length_append], hstored⟩
  · have heq : got.length + bs.length = t.size.toNat := by omega
    exact Or.inr ⟨h.toAt.next_returned heq, by rw [List.length_append, heq], hstored⟩

theorem Receiving.whole (h : t.Receiving data []) (hlen : bs.length = t.size.toNat) :
    t.next (.ok bs.length) = .returned t.size ∧ (t.store data (.ok bs)).read 0 bs.length = bs := by
  have hle : bs.length ≤ t.left := by
    rw [h.toAt.left, List.length_nil]
    omega
  rcases h.next hle with ⟨t', -, hsize, hmore⟩ | ⟨hnext, -, hread⟩
  · have hlt := hmore.lt
    rw [hsize, List.nil_append] at hlt
    omega
  · exact ⟨hnext, hread⟩

theorem whole_int32 (data : Mem) (h : bs.length = 4) :
    bs.length ≤ (int32 : Transfer w).left ∧ (int32 : Transfer w).next (.ok 4) = .returned (int32 : Transfer w).size ∧
      ((int32 : Transfer w).store data (.ok bs)).read 0 4 = bs := by
  obtain ⟨-, hread⟩ := (Receiving.int32 (w := w) data).whole (h.trans toNat_int32.symm)
  rw [h] at hread
  refine ⟨?_, next_int32, hread⟩
  rw [At.int32.left, toNat_int32]
  exact Nat.le_of_eq h

/-- The loop is about to receive `left`, the rest of `block`. -/
structure Receives {w : Word} (t : Transfer w) (data : Mem) (block left : List UInt8) : Prop where
  size : t.size.toNat = block.length
  rest : ∃ got, block = got ++ left ∧ t.Receiving data got

theorem Receives.start {size : SizeT w} (data : Mem) (hsize : size.toNat = block.length) (h : block ≠ []) :
    (start size).Receives data block block :=
  ⟨hsize, [], rfl, .start data (by rw [hsize]; exact List.length_pos_iff.mpr h)⟩

theorem Receives.int32 (data : Mem) (h : block.length = 4) : (int32 : Transfer w).Receives data block block :=
  .start data (by rw [h]; exact toNat_int32) (List.ne_nil_of_length_pos (by omega))

theorem Receives.left_eq (h : t.Receives data block left) : t.left = left.length := by
  obtain ⟨got, rfl, hgot⟩ := h.rest
  have hsize := h.size
  rw [List.length_append] at hsize
  rw [hgot.toAt.left]
  omega

theorem Receives.ne_nil (h : t.Receives data block left) : left ≠ [] := by
  obtain ⟨got, rfl, hgot⟩ := h.rest
  rintro rfl
  have hlt := hgot.lt
  have hsize := h.size
  simp at hsize
  omega

theorem Receives.left_pos (h : t.Receives data block left) : 0 < t.left := by
  rw [h.left_eq]
  exact List.length_pos_iff.mpr h.ne_nil

/-- One piece of a known block arrives. -/
theorem Receives.next (h : t.Receives data block left) (hle : bs.length ≤ t.left) (heq : bs ++ r = left ++ r') :
    (∃ t' left', t.next (.ok bs.length) = .again t' ∧ t'.Receives (t.store data (.ok bs)) block left' ∧
    r = left' ++ r') ∨
      (t.next (.ok bs.length) = .returned t.size ∧ (t.store data (.ok bs)).read 0 block.length = block ∧ r = r') := by
  obtain ⟨got, rfl, hgot⟩ := h.rest
  obtain ⟨rest, rfl, rfl⟩ : ∃ rest, left = bs ++ rest ∧ r = rest ++ r' := by
    rcases List.append_eq_append_iff.mp heq with ⟨rest, hleft, hr⟩ | ⟨more, hbs, hr'⟩
    · exact ⟨rest, hleft, hr⟩
    · have hmore : more = [] := by
        rw [h.left_eq, hbs, List.length_append] at hle
        exact List.length_eq_zero_iff.mp (by omega)
      subst hmore
      exact ⟨[], by simpa using hbs.symm, by simpa using hr'.symm⟩
  have hsize := h.size
  rcases hgot.next hle with ⟨t', hnext, hsize', hgot'⟩ | ⟨hnext, hlen, hread⟩
  · exact Or.inl ⟨t', rest, hnext, ⟨by rw [hsize', hsize], got ++ bs, by simp, hgot'⟩, rfl⟩
  · have hrest : rest = [] := by
      rw [hsize] at hlen
      simp only [List.length_append] at hlen
      exact List.length_eq_zero_iff.mp (by omega)
    subst hrest
    exact Or.inr ⟨hnext, by simpa using hread, rfl⟩

theorem Sends.start {size : SizeT w} (hsize : size.toNat = block.length) (h : block ≠ []) :
    (start size).Sends block block :=
  ⟨by
    rw [Nat.sub_self]
    exact .start (by rw [hsize]; exact List.length_pos_iff.mpr h), hsize, [], rfl⟩

theorem Sends.int32 (h : block.length = 4) : (int32 : Transfer w).Sends block block :=
  .start (by rw [h]; exact toNat_int32) (List.ne_nil_of_length_pos (by omega))

theorem Sends.window (h : t.Sends block left) : t.window block = left := by
  obtain ⟨sent, rfl⟩ := h.rest
  have hlen : (sent ++ left).length - left.length = sent.length := by simp
  rw [Transfer.window, h.at_left.position, h.at_left.left, h.size, hlen, List.drop_left' rfl, List.take_of_length_le]
  simp

theorem Sends.ne_nil (h : t.Sends block left) : left ≠ [] := by
  rintro rfl
  have hlt := h.at_left.lt
  rw [h.size] at hlt
  simp at hlt

theorem Sends.next (h : t.Sends block left) (hle : k ≤ left.length) :
    (∃ t', t.next (.ok k) = .again t' ∧ t'.Sends block (left.drop k)) ∨
      (t.next (.ok k) = .returned t.size ∧ left.drop k = []) := by
  obtain ⟨sent, rfl⟩ := h.rest
  have hat := h.at_left
  have hsize := h.size
  have hsent : (sent ++ left).length - left.length = sent.length := by simp
  rw [hsent] at hat
  rw [List.length_append] at hsize
  rcases Nat.lt_or_ge k left.length with hmore | hdone
  · obtain ⟨t', hnext, hsize', hat'⟩ := hat.next_again (k := k) (by omega)
    refine Or.inl ⟨t', hnext, ?_, by rw [hsize', h.size], sent ++ left.take k, by simp⟩
    have hpos : (sent ++ left).length - (left.drop k).length = sent.length + k := by
      simp only [List.length_append, List.length_drop]
      omega
    rwa [hpos]
  · exact Or.inr ⟨hat.next_returned (by omega), List.drop_eq_nil_of_le hdone⟩

end

end Transfer

/-! ## Sizes -/

section
variable {w : Word} {v : CInt} {left later : List UInt8} {k : Nat}

theorem toNat_signExtend_of_lt (h : v.toNat < 2 ^ 31) : (v.signExtend (8 * w.bytes)).toNat = v.toNat := by
  have hw := w.two_pow_le
  have hmsb : v.msb = false := BitVec.msb_eq_false_iff_two_mul_lt.mpr (by omega)
  rw [BitVec.signExtend_eq_setWidth_of_msb_false hmsb, BitVec.toNat_setWidth, Nat.mod_eq_of_lt (by omega)]

theorem messageSize_eq {o : ByteOrder} {message : Mem} (h : message.read 0 4 = o.bytes v) :
    (messageSize o message : SizeT w) = v.signExtend _ := by
  rw [messageSize, h, o.int32_bytes]

theorem take_drop_append (k : Nat) : left.take k ++ (left.drop k ++ later) = left ++ later := by
  rw [← List.append_assoc, List.take_append_drop]

theorem take_append_of_drop (h : left.drop k = []) : left.take k ++ later = left ++ later := by
  have hsplit : left.take k ++ (left.drop k ++ later) = left ++ later := take_drop_append k
  rwa [h] at hsplit

end

/-! ## Chunks -/

/-- `receiveNetworkBinary` goes on with a chunk that is at most as long as its buffer. -/
theorem BinaryHandler.loop_more {w : Word} (s : BinaryHandler w) {left : SizeT w} (hmore : 0 < left.toNat) :
    ∃ size : SizeT w, s.loop left = { s with pc := .receive left (.start size) } ∧
      size.toNat = min maxRwBufferSize left.toNat ∧ 0 < size.toNat := by
  have hmax : (BitVec.ofNat (8 * w.bytes) maxRwBufferSize).toNat = maxRwBufferSize := by cases w <;> decide
  have hpos : 0 < maxRwBufferSize := by decide
  rw [loop, if_pos hmore]
  refine ⟨_, rfl, ?_, ?_⟩
  · split <;> omega
  · split <;> omega

end Dom0
